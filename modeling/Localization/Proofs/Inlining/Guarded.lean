import Mathlib
import Localization.Proofs.Argument.Meaning
import Localization.Proofs.Inlining.Alternatives
import Localization.Proofs.Inlining.Closed

/-! What the guards of a plural call test.

The texts of a call's arguments say what its guards should test: the first the value, the fourth
the options if it is an object with properties. What a guard holds in their places is written
for the arguments that were read. It stands there as one expression, and it spells that of the
call's own text exactly if nothing of the text gets lost (`guards_spec`). A template with a
substitution is what gets lost first: the guard tests its text (`guards_template`). -/
namespace Localization

open Script

/-! ### A run that reads as the reader does -/

theorem lineEnds_cons {c : Char} (h : c ≠ '\r') (t : Text) :
    lineEnds (c :: t) = c :: lineEnds t := by
  rw [lineEnds.eq_def]
  split
  · next heq => exact absurd (List.cons.inj heq).1 h
  · next heq =>
    cases heq
    simp [h]
  · next heq => cases heq

theorem lineEnds_return (t : Text) :
    lineEnds ('\r' :: t) = if t.head? = some '\n' then lineEnds t else '\n' :: lineEnds t := by
  cases t with
  | nil => rfl
  | cons c rest =>
    by_cases hc : c = '\n'
    · subst hc
      rw [lineEnds, lineEnds_cons (by decide)]
      rfl
    · rw [lineEnds.eq_def]
      split
      · next heq => exact absurd (List.cons.inj (List.cons.inj heq).2).1 hc
      · next heq =>
        cases heq
        simp [hc]
      · next heq => cases heq

theorem head?_lineEnds_brace (t : Text) : (lineEnds t).head? = some '{' ↔ t.head? = some '{' := by
  fun_cases lineEnds t <;> simp
  grind

/-- Escaping touches no end of a line. -/
theorem lineEnds_encode (t : Text) : lineEnds (encode t) = encode (lineEnds t) := by
  induction t with
  | nil => rfl
  | cons c rest ih =>
    rw [encode_cons]
    by_cases hc : c = '\r'
    · subst hc
      have hhead : (encode rest).head? = some '\n' ↔ rest.head? = some '\n' := by
        cases rest with
        | nil => exact Iff.rfl
        | cons d rest =>
          rw [encode_cons]
          rcases encodeHead_cases d rest with ⟨he, -⟩ | ⟨he, hd⟩
          · rw [he]; exact Iff.rfl
          · rw [he]
            have hne : d ≠ '\n' := by rintro rfl; revert hd; decide
            simp [hne]
      rw [encodeHead_of_not_mem (by decide), List.singleton_append, lineEnds_return,
        lineEnds_return, ih]
      by_cases hnext : rest.head? = some '\n'
      · rw [if_pos (hhead.mpr hnext), if_pos hnext]
      · rw [if_neg fun h => hnext (hhead.mp h), if_neg hnext, encode_cons,
          encodeHead_of_not_mem (by decide), List.singleton_append]
    · have hsame : encodeHead c (lineEnds rest) = encodeHead c rest := by
        simp only [encodeHead, Bool.beq_eq_decide_eq, head?_lineEnds_brace]
      rw [lineEnds_cons hc, encode_cons, hsame, ← ih]
      rcases encodeHead_cases c rest with ⟨he, -⟩ | ⟨he, -⟩
      · rw [he, List.singleton_append, lineEnds_cons hc, List.singleton_append]
      · rw [he, List.cons_append, List.singleton_append, lineEnds_cons (by decide),
          lineEnds_cons hc, List.cons_append, List.singleton_append]

/-- A run that reads the bodies of literals and the numerals as the reader does, but for the
ends of the lines of a template. -/
def Engine.standard : Engine where
  denoted quote body := if quote = '`' then decode (lineEnds body) else decode body
  number? := Decimal.ofScript?
  name text := text
  denoted_encode t := by rw [if_pos rfl, lineEnds_encode, decode_encode]
  denoted_escaped t := by rw [if_neg (by decide), decode_escaped]
  number?_plain x h := by
    split
    · next hfinite => exact Decimal.ofScript?_plain hfinite h
    · next hfinite => exact ofScript?_plain_of_not_isFinite (by simpa using hfinite)

end Localization

namespace Localization.Inlining

open Marker (Call callAt?)
open Script (Cursor)

/-! ### Own texts -/

/-- The texts of the arguments of a call. -/
def textsAt? (name : Text) (place : Cursor) : Option (List Text) :=
  (listAt? name place).bind argumentTexts?

/-- The text of the options of a plural call: its fourth if that is an object with properties. -/
def ownOptions? (texts : List Text) : Option Text := texts[3]?.filter hasProperties

/-- How a text that is written stands for the one that it is written for: it is one expression
without live substitutions in its strings, and spells the same exactly if nothing gets lost. -/
structure StandsFor (engine : Engine) (written own : Text) : Prop where
  piece : IsPiece written
  substitutions : (expressionOf engine written).substitutions = []
  expression_iff : expressionOf engine written = expressionOf engine own ↔ (shape own).IsKept engine

theorem standsFor_of_isRewritten (engine : Engine) {own : Text} {a : Argument}
    (h : IsRewritten own a) :
    StandsFor engine a.toScript own := by
  refine ⟨h.piece, ?_, ?_⟩
  · rw [expressionOf, h.shape, substitutions_rewritten]
  · rw [expressionOf, expressionOf, h.shape, expression_rewritten_iff]

/-- What a text and the argument that is read from it have to do with each other. -/
def IsReadAs (text : Text) (a : Argument) : Prop :=
  IsRewritten text a ∧ (propertiesOf a).isEmpty = !hasProperties text

/-- The arguments of a call are read from its texts, one by one. -/
theorem exists_textsAt? {name raw : Text} {place : Cursor} {arguments : List Argument}
    (h : callAt? name place = some (raw, arguments)) :
    ∃ texts, textsAt? name place = some texts ∧ List.Forall₂ IsReadAs texts arguments := by
  obtain ⟨list, closer, hlist, hclosed, hread⟩ := exists_listAt? h
  have hsettles := settles_withoutComments hclosed
  obtain ⟨texts, htexts, -⟩ := exists_argumentTexts? hsettles
  obtain ⟨read, hmap, hall⟩ := exists_mapM_forall₂ fun t ht =>
    exists_readArgument (isPiece_of_mem_argumentTexts hsettles htexts t ht)
  rw [readArguments_eq_mapM, htexts, Option.bind_some, hmap] at hread
  obtain rfl := Option.some.inj hread
  exact ⟨texts, by rw [textsAt?, hlist, Option.bind_some, htexts], hall⟩

theorem rel_getElem? {α β : Type} {R : α → β → Prop} {as : List α} {bs : List β}
    (h : List.Forall₂ R as bs) (i : Nat) :
    Option.Rel R as[i]? bs[i]? := by
  induction h generalizing i with
  | nil => exact .none
  | cons hfirst _ ih =>
    cases i with
    | zero => exact .some hfirst
    | succ i => exact ih i

/-! ### Guards -/

/-- The test that a value selects a category, with what stands behind the language. -/
def testOf (lang more value : Text) (c : Plural.Category) : Text :=
  "new Intl.PluralRules(`" ++ lang ++ "`" ++ more ++ ").select(+(" ++ value ++ ")) === `" ++
    c.name ++ "`"

/-- Options behind a language. -/
def behindLang : Option Text → Text
  | some options => ", " ++ options
  | none => []

/-- The text of some options, if there are any. -/
def optionsScript? (options : Properties) : Option Text :=
  if options.isEmpty then none else some (Argument.object options).toScript

theorem guardText_eq (lang : Text) (value : Argument) (options : Properties) (c : Plural.Category) :
    guardText lang value options c = testOf lang (behindLang (optionsScript? options))
      value.toScript c := by
  have hmore :
      (if options.isEmpty then [] else ", " ++ '\x7b' :: Properties.toScript options ++
        ['\x7d'] : Text) =
      behindLang (optionsScript? options) := by
    rw [optionsScript?]
    split
    · rfl
    · rw [behindLang, Argument.toScript, List.append_assoc]
      rfl
  calc guardText lang value options c
      = testOf lang (if options.isEmpty then [] else
        ", " ++ '\x7b' :: Properties.toScript options ++ ['\x7d']) value.toScript c := rfl
    _ = testOf lang (behindLang (optionsScript? options)) value.toScript c := by rw [hmore]

theorem guard_of_mem_terms {config : Config} {lang : Text} {call : Call} {t : Term}
    (h : t ∈ terms config lang call) {guard : Text} (hguard : guard ∈ t.guard) :
    guard = guardText lang (pluralValue call) ((call.options?.bind Argument.properties?).getD [])
      t.category := by
  rw [terms, List.mem_map] at h
  obtain ⟨⟨c, index⟩, -, rfl⟩ := h
  simp only at hguard ⊢
  split at hguard
  · exact (Option.some.inj hguard).symm
  · cases hguard

/-- The options that are written stand for the own ones, if there are any. -/
theorem rel_optionsScript? (engine : Engine) {text? : Option Text} {options? : Option Argument}
    (h : Option.Rel IsReadAs text? options?) :
    Option.Rel (StandsFor engine) (optionsScript? ((options?.bind Argument.properties?).getD []))
      (text?.filter hasProperties) := by
  cases h with
  | none => exact .none
  | @some own a hread =>
    obtain ⟨hrewritten, hempty⟩ := hread
    rw [Option.bind_some, optionsScript?, show (a.properties?.getD []).isEmpty = _ from hempty,
      Option.filter_some]
    cases hproperties : hasProperties own with
    | false => exact .none
    | true =>
      rw [hproperties] at hempty
      cases a with
      | object properties => exact .some (standsFor_of_isRewritten engine hrewritten)
      | _ => cases hempty

theorem family_of_classify {call : Call} (h : classify call = .ok .plural) :
    call.family = .plural ∧ ∃ a rest, call.arguments = a :: rest := by
  have htranslate : classifyTranslate call ≠ .ok .plural := by
    rw [classifyTranslate]
    repeat' split
    all_goals exact nofun
  rw [classify] at h
  split at h
  · cases h
  · next hne =>
    split at h
    · next hfamily => exact ⟨hfamily, List.exists_cons_of_ne_nil (by simpa using hne)⟩
    · exact absurd h htranslate

/-- **Each guard of a static plural call, in every language and configuration, tests a text that
stands for the call's own value, with options that stand for the call's own.** -/
theorem guards_spec {call : Call} {name : Text} {place : Cursor}
    (hcall : callAt? name place = some (call.raw, call.arguments))
    (hstatic : classify call = .ok .plural) (config : Config) (lang : Text) (engine : Engine) :
    ∃ texts own value options, textsAt? name place = some texts ∧ texts.head? = some own ∧
      (∀ t ∈ terms config lang call, ∀ guard ∈ t.guard,
        guard = testOf lang (behindLang options) value t.category) ∧
      StandsFor engine value own ∧ Option.Rel (StandsFor engine) options (ownOptions? texts) := by
  obtain ⟨hfamily, a, others, harguments⟩ := family_of_classify hstatic
  obtain ⟨texts, htexts, hall⟩ := exists_textsAt? hcall
  have hoptions : call.options? = call.arguments[3]? := by rw [Call.options?, hfamily]; rfl
  have hvalue : pluralValue call = a := by rw [pluralValue, Call.argument?, harguments]; rfl
  have hrel := rel_optionsScript? engine (rel_getElem? hall 3)
  rw [harguments] at hall
  cases hall with
  | @cons own _ rest _ hfirst _ =>
    refine ⟨_, own, a.toScript, _, htexts, rfl, fun t ht guard hguard => ?_,
      standsFor_of_isRewritten engine hfirst.1, hrel⟩
    rw [guard_of_mem_terms ht hguard, guardText_eq, hvalue, hoptions]

/-! ### A name with options -/

def ordinalArguments : List Argument :=
  [.name "n", .string "k", .object [], .object [("type", .string "ordinal")]]

/-- A call that tells the ranks of a name apart. -/
def ordinalCall : Call := ⟨.plural, 0, callText "$plural" ordinalArguments, ordinalArguments⟩

/-- Its texts. -/
def ordinalTexts : List Text := ["n", "`k`", "\x7b\x7d", "\x7btype: `ordinal`\x7d"]

theorem isKept_name : (shape "n").IsKept .standard := by
  rw [shape_eq, show form "n" = .plain from rfl]
  intro x hx
  cases hx

theorem isKept_ordinalOptions : (shape "\x7btype: `ordinal`\x7d").IsKept .standard := by
  have hliteral : shape "`ordinal`" = .literal '`' "ordinal" := by rw [shape_eq]; rfl
  have hdecode : Script.decode "ordinal" = "ordinal".toList := decode_of_not_mem (by decide)
  rw [shape_eq, show form "\x7btype: `ordinal`\x7d" =
    .object [(.word "type", "`ordinal`")] from rfl]
  refine ⟨⟨trivial, ?_⟩, trivial⟩
  rw [hliteral]
  exact ⟨fun _ => rfl, by rw [hdecode]; exact hdecode⟩

theorem guards_ordinalCall :
    callAt? "$plural" (Cursor.start ordinalCall.raw) =
      some (ordinalCall.raw, ordinalCall.arguments) ∧
      classify ordinalCall = .ok .plural ∧
      ∃ value options, (∀ t ∈ terms .standard "en-US" ordinalCall, ∀ guard ∈ t.guard,
          guard = testOf "en-US" (behindLang (some options)) value t.category) ∧
        expressionOf .standard value = expressionOf .standard "n" ∧
        expressionOf .standard options = expressionOf .standard "\x7btype: `ordinal`\x7d" := by
  have hcall : callAt? "$plural" (Cursor.start ordinalCall.raw) =
      some (ordinalCall.raw, ordinalCall.arguments) :=
    callAt?_callText "$plural" (by decide)
  have hstatic : classify ordinalCall = .ok .plural := rfl
  have htexts : textsAt? "$plural" (Cursor.start ordinalCall.raw) = some ordinalTexts := by decide
  obtain ⟨texts, own, value, options, htexts', hown, hguards, hvalue, hoptions⟩ :=
    guards_spec hcall hstatic .standard "en-US" .standard
  obtain rfl := Option.some.inj (htexts.symm.trans htexts')
  cases hown
  have hfourth : ownOptions? ordinalTexts = some "\x7btype: `ordinal`\x7d".toList := rfl
  rw [hfourth] at hoptions
  cases hoptions with
  | some hstands =>
    exact ⟨hcall, hstatic, value, _, hguards, hvalue.expression_iff.mpr isKept_name,
      hstands.expression_iff.mpr isKept_ordinalOptions⟩

/-! ### A template -/

/-- A call about the number that a template spells. -/
def templateCall : Call :=
  ⟨.plural, 0, "$plural(`$\x7bn\x7d`, 'k')", [.string "$\x7bn\x7d", .string "k"]⟩

/-- Its texts. -/
def templateTexts : List Text := ["`$\x7bn\x7d`", "'k'"]

/-- The guard of a template tests the text of its substitution. -/
theorem guards_template :
    callAt? "$plural" (Cursor.start templateCall.raw) =
      some (templateCall.raw, templateCall.arguments) ∧
      classify templateCall = .ok .plural ∧ textsAt? "$plural" (Cursor.start templateCall.raw) =
        some templateTexts ∧
      (∃ t ∈ terms .standard "en-US" templateCall,
        t.guard = some "new Intl.PluralRules(`en-US`).select(+(`\\$\x7bn\x7d`)) === `one`".toList) ∧
      (expressionOf .standard "`$\x7bn\x7d`").substitutions = [['n']] ∧
      (expressionOf .standard "`\\$\x7bn\x7d`").substitutions = [] := by
  have htexts : textsAt? "$plural" (Cursor.start templateCall.raw) = some templateTexts := by decide
  have hfirst : readArgument "`$\x7bn\x7d`" = some (.string "$\x7bn\x7d") := by
    rw [readArgument_of_literal (show form "`$\x7bn\x7d`" = .literal '`' "$\x7bn\x7d" from rfl),
      decode_of_not_mem (by decide)]
  have hsecond : readArgument "'k'" = some (.string "k") := by
    rw [readArgument_of_literal (show form "'k'" = .literal '\'' "k" from rfl),
      decode_of_not_mem (by decide)]
  have hcall : callAt? "$plural" (Cursor.start templateCall.raw) =
      some (templateCall.raw, templateCall.arguments) := by
    have hlist : argumentTexts? ("(`$\x7bn\x7d`, 'k')".toList.drop 1).dropLast =
        some templateTexts := by decide
    refine Marker.callAt?_eq_some_iff.mpr
      ⟨"(`$\x7bn\x7d`, 'k')".toList, "(`$\x7bn\x7d`, 'k')".toList, [], by decide,
        rfl, by decide, ?_, rfl⟩
    rw [readArguments_eq_mapM, hlist, Option.bind_some, templateTexts,
      List.mapM_cons, List.mapM_cons, hfirst, hsecond]
    rfl
  have hguard : ∃ t ∈ terms .standard "en-US" templateCall,
      t.guard =
        some "new Intl.PluralRules(`en-US`).select(+(`\\$\x7bn\x7d`)) === `one`".toList := by
    have hone : Plural.Category.one ∈ categoriesOf "en-US" templateCall :=
      one_mem_categoriesOf_countCall
    rw [categoriesOf, Plural.categories_eq, List.mem_append] at hone
    rw [terms_eq]
    refine ⟨_, List.mem_append_left _ (List.mem_map_of_mem (hone.resolve_right (by decide))), ?_⟩
    rfl
  refine ⟨hcall, rfl, htexts, hguard, ?_, ?_⟩
  · rw [expressionOf, shape_eq]
    rfl
  · rw [expressionOf, shape_eq]
    rfl

end Localization.Inlining
