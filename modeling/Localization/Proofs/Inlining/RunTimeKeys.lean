import Mathlib
import Localization.Proofs.Argument.Spelled
import Localization.Proofs.Inlining.Splice
import Localization.Proofs.Marker.Place

/-! Keys that are only known at run time.

A template with a substitution has a value only at run time. It may stand as the key of a call,
as an element of its array of keys, or as its language (`Place`). A call with one is left in
place exactly if the substitution is recognized there (`IsRecognized`), or the call would be
left in place with a plain string as well: `isLeftInPlace_template`. No key is taken from a
template that is recognized; what is collected from a chunk are the keys of its calls
(`mem_keys_collect`).

A substitution is looked for in the text that the template denotes, line by line, so one with a
line end in it may be overlooked. It always is in an array of keys of a plural call and in the
language, where none is looked for. -/
namespace Localization.Inlining

open Marker (Call Family)
open Script (State decode hasSubstitution)
open Extraction (isDynamic isDynamicKey isDynamicPlural)

/-! ### Templates in calls -/

/-- A place of a call where a template may stand. -/
inductive Place where
  | key
  /-- An element of the array of keys. -/
  | element (index : Nat)
  | lang
  deriving DecidableEq, Repr

/-- Whether a template with a body is written at a place of a call. -/
def HasTemplateAt (call : Call) (body : Text) : Place → Prop
  | .key => (argumentTexts call.inner)[call.family.keyPosition]? = some (template body)
  | .element index => ∃ elements, (argumentTexts call.inner)[call.family.keyPosition]? =
    some (arrayOf elements) ∧
      (State.inside (.group ']')).IsClosedBy (elements ++ [']']) ∧
      (argumentTexts elements)[index]? = some (template body)
  | .lang => (argumentTexts call.inner)[call.family.langPosition]? = some (template body)

/-- The argument at a place. -/
def argumentAt? (call : Call) : Place → Option Argument
  | .key => call.key?
  | .element index =>
    match call.key? with
    | some (.array elements) => elements[index]?
    | _ => none
  | .lang => call.lang?

/-- A template is read as the string that its body denotes. -/
theorem argumentAt?_of_hasTemplateAt {f : Family} {marker code body : Text} {call : Call}
    {p : Place} (h : call ∈ Marker.scan f marker code) (ht : HasTemplateAt call body p)
    (hb : IsSubstituted body) :
    argumentAt? call p = some (.string (decode body)) := by
  have hat {src : Text} {arguments : List Argument}
      (hread : readArguments src = some arguments) {i : Nat}
      (hi : (argumentTexts src)[i]? = some (template body)) :
        arguments[i]? = some (.string (decode body)) := by
    obtain ⟨a, ha, hspelled⟩ := getElem?_of_readArguments hread hi
    rw [readArgument_template hb.closed] at hspelled
    rw [ha, hspelled]
  have hread := Marker.readArguments_inner h
  cases p with
  | key => exact hat hread ht
  | lang => exact hat hread ht
  | element index =>
    obtain ⟨elements, hkey, hclosed, helement⟩ := ht
    obtain ⟨key, hkey, hspelled⟩ := getElem?_of_readArguments hread hkey
    rw [readArgument_arrayOf hclosed] at hspelled
    obtain ⟨read, hread, rfl⟩ := Option.map_eq_some_iff.mp hspelled
    have hkey : call.key? = some (.array read) := hkey
    rw [argumentAt?, hkey]
    exact hat hread helement

/-! ### Static calls -/

/-- Whether there is a key that a translate call can be resolved by. -/
def HasStaticKey (key? : Option Argument) : Prop :=
  ∃ key, key? = some key ∧ hasDynamicKey key = false ∧
    ((∃ raw, key = .string raw) ∨ ∃ elements, key = .array elements)

theorem exists_classifyTranslate_iff {call : Call} :
    (∃ request, classifyTranslate call = .ok request) ↔
      HasStaticKey call.key? ∧ isDynamic call.params? = false ∧ isDynamic call.lang? = false := by
  rw [classifyTranslate]
  cases call.key? with
  | none => simp [HasStaticKey]
  | some key =>
    simp only [HasStaticKey, Option.some.injEq, exists_eq_left']
    cases hasDynamicKey key with
    | true => simp
    | false =>
      cases isDynamic call.params? with
      | true => simp
      | false =>
        cases isDynamic call.lang? with
        | true => simp
        | false => cases key <;> simp

theorem isStatic_iff {call : Call} :
    IsStatic call ↔ call.arguments ≠ [] ∧
      if call.family = .plural then isDynamicPlural call = false
      else HasStaticKey call.key? ∧ isDynamic call.params? = false ∧
      isDynamic call.lang? = false := by
  rw [← exists_classifyTranslate_iff, IsStatic, classify]
  by_cases hnil : call.arguments = []
  · simp [hnil]
  · have hne : call.arguments.isEmpty = false := by simpa using hnil
    rw [hne]
    cases hf : call.family with
    | plural => cases isDynamicPlural call <;> simp [hnil]
    | translate | inlineTranslate | useTranslate => simp [hnil]

/-! ### A plain string in the place of a template -/

/-- The argument of a call that a place is in. -/
def Place.position (f : Family) : Place → Nat
  | .key | .element _ => f.keyPosition
  | .lang => f.langPosition

theorem Place.position_eq (f : Family) (p : Place) :
    p.position f = f.keyPosition ∨ p.position f = f.langPosition := by
  cases p with
  | key | element _ => exact .inl rfl
  | lang => exact .inr rfl

/-- The argument with the empty string at a place in it. -/
def Place.plain : Place → Argument → Argument
  | .element index, .array elements => .array (elements.set index (.string []))
  | .element _, a => a
  | .key, _ => .string []
  | .lang, _ => .string []

/-- The call with the empty string at a place. -/
def withPlain (call : Call) (p : Place) : Call :=
  { call with arguments := call.arguments.modify (p.position call.family) p.plain }

theorem argument?_withPlain (call : Call) (p : Place) (i : Nat) :
    (withPlain call p).argument? i =
      if p.position call.family = i then (call.argument? i).map p.plain else call.argument? i := by
  rw [Call.argument?, withPlain, List.getElem?_modify, Call.argument?]
  split
  · rfl
  · simp

/-- Whether the substitution of a template at a place is recognized: none is looked for in the
language, nor in an array of keys of a plural call. -/
def IsRecognized (call : Call) (body : Text) : Place → Prop
  | .key => hasSubstitution (decode body) = true
  | .element _ => call.family ≠ .plural ∧ hasSubstitution (decode body) = true
  | .lang => False

theorem isDynamicKey_string (t : Text) : isDynamicKey (.string t) = hasSubstitution t := rfl

theorem any_set_of_eq {α : Type} {p : α → Bool} {l : List α} {i : Nat} {a b : α}
    (ha : l[i]? = some a) (h : p a = p b) :
    (l.set i b).any p = l.any p := by
  induction l generalizing i with
  | nil => rfl
  | cons first rest ih =>
    cases i with
    | zero =>
      obtain rfl : first = a := by simpa using ha
      rw [List.set_cons_zero, List.any_cons, List.any_cons, h]
    | succ i => rw [List.set_cons_succ, List.any_cons, List.any_cons, ih (by simpa using ha)]

/-- A call with a template that is recognized is not static. -/
theorem not_isStatic_of_isRecognized {call : Call} {body : Text} {p : Place}
    (ha : argumentAt? call p = some (.string (decode body))) (h : IsRecognized call body p) :
    ¬ IsStatic call := by
  rw [isStatic_iff]
  intro hcall
  obtain ⟨-, hstatic⟩ := hcall
  cases p with
  | lang => exact h
  | key =>
    have hkey : call.key? = some (.string (decode body)) := ha
    have hknown : hasSubstitution (decode body) = true := h
    split at hstatic
    · simp [isDynamicPlural, hkey, isDynamicKey_string, hknown] at hstatic
    · obtain ⟨⟨key, hk, hd, -⟩, -⟩ := hstatic
      rw [hkey] at hk
      cases hk
      rw [hasDynamicKey, isDynamicKey_string, hknown] at hd
      · cases hd
      · intro elements hnot
        cases hnot
  | element index =>
    obtain ⟨hf, hknown⟩ := h
    rw [if_neg hf] at hstatic
    obtain ⟨⟨key, hk, hd, -⟩, -⟩ := hstatic
    rw [argumentAt?, hk] at ha
    split at ha
    · next elements he =>
      cases he
      rw [hasDynamicKey, List.any_eq_false] at hd
      exact hd _ (List.mem_of_getElem? ha) hknown
    · cases ha

section

variable {call : Call} {body : Text} {p : Place}

/-- A plain string leaves the arguments alone that it is not put in. -/
theorem argument?_withPlain_of_ne {i : Nat} (h : p.position call.family ≠ i) :
    (withPlain call p).argument? i = call.argument? i := by
  rw [argument?_withPlain, if_neg h]

theorem params?_withPlain : (withPlain call p).params? = call.params? := by
  have hne : p.position call.family ≠ call.family.paramsPosition := by
    obtain h | h := p.position_eq call.family <;> rw [h] <;> cases call.family <;> decide
  exact argument?_withPlain_of_ne hne

theorem options?_withPlain : (withPlain call p).options? = call.options? := by
  show call.family.optionsPosition?.bind (withPlain call p).argument? =
    call.family.optionsPosition?.bind call.argument?
  cases hf : call.family.optionsPosition? with
  | none => rfl
  | some position =>
    refine argument?_withPlain_of_ne ?_
    cases hfamily : call.family with
    | plural =>
      obtain rfl : 3 = position := by rw [hfamily] at hf; exact Option.some.inj hf
      obtain h | h := p.position_eq .plural <;> rw [h] <;> decide
    | translate | inlineTranslate | useTranslate => rw [hfamily] at hf; cases hf

/-- No substitution is looked for in a language. -/
theorem isDynamic_lang?_withPlain (ha : argumentAt? call p = some (.string (decode body))) :
    isDynamic (withPlain call p).lang? = isDynamic call.lang? := by
  have hsame (h : p.position call.family ≠ call.family.langPosition) :
      (withPlain call p).lang? = call.lang? :=
    argument?_withPlain_of_ne h
  cases p with
  | key => rw [hsame (by cases call.family <;> decide)]
  | element index =>
    have hne : call.family.keyPosition ≠ call.family.langPosition := by cases call.family <;> decide
    rw [hsame hne]
  | lang =>
    have hlang : call.lang? = some (.string (decode body)) := ha
    have hplain : (withPlain call .lang).lang? = call.lang?.map (Place.plain .lang) :=
      (argument?_withPlain call .lang _).trans (if_pos rfl)
    rw [hplain, hlang]
    rfl

/-- A key whose substitution is not recognized counts as a plain string. -/
theorem key?_withPlain (ha : argumentAt? call p = some (.string (decode body)))
    (h : ¬ IsRecognized call body p) :
    ((withPlain call p).key?.map isDynamicKey).getD false =
      (call.key?.map isDynamicKey).getD false ∧
      (call.family ≠ .plural → (HasStaticKey (withPlain call p).key? ↔
        HasStaticKey call.key?)) := by
  have hkey (hp : p.position call.family = call.family.keyPosition) :
      (withPlain call p).key? = call.key?.map p.plain :=
    (argument?_withPlain call p _).trans (if_pos hp)
  cases p with
  | lang =>
    have hsame : (withPlain call .lang).key? = call.key? := by
      refine argument?_withPlain_of_ne ?_
      show _ ≠ call.family.keyPosition
      cases call.family <;> decide
    rw [hsame]
    exact ⟨rfl, fun _ => Iff.rfl⟩
  | key =>
    have hown : call.key? = some (.string (decode body)) := ha
    have hnot : hasSubstitution (decode body) = false := Bool.eq_false_iff.mpr h
    rw [hkey rfl, hown]
    refine ⟨hnot.symm, fun _ => ?_⟩
    have hstatic (t : Text) (ht : hasSubstitution t = false) : HasStaticKey (some (.string t)) :=
      ⟨.string t, rfl, ht, .inl ⟨t, rfl⟩⟩
    exact iff_of_true (hstatic [] rfl) (hstatic _ hnot)
  | element index =>
    rw [argumentAt?] at ha
    split at ha
    · next elements hown =>
      rw [hkey rfl, hown]
      refine ⟨rfl, fun hf => ?_⟩
      have hnot : hasSubstitution (decode body) = false :=
        Bool.eq_false_iff.mpr fun ht => h ⟨hf, ht⟩
      have hany : (elements.set index (.string [])).any isDynamicKey = elements.any isDynamicKey :=
        any_set_of_eq ha hnot
      simp [HasStaticKey, Place.plain, hasDynamicKey, hany]
    · cases ha

/-- A template that is not recognized counts as a plain string. -/
theorem isStatic_withPlain (ha : argumentAt? call p = some (.string (decode body)))
    (h : ¬ IsRecognized call body p) :
    IsStatic (withPlain call p) ↔ IsStatic call := by
  have harguments : (withPlain call p).arguments ≠ [] ↔ call.arguments ≠ [] := by
    rw [withPlain, ne_eq, ne_eq, ← List.length_eq_zero_iff, List.length_modify,
      List.length_eq_zero_iff]
  have hfamily : (withPlain call p).family = call.family := rfl
  obtain ⟨hdynamic, hkey⟩ := key?_withPlain ha h
  rw [isStatic_iff, isStatic_iff, harguments, hfamily, params?_withPlain,
    isDynamic_lang?_withPlain ha]
  split
  · rw [isDynamicPlural, isDynamicPlural, hdynamic, params?_withPlain, options?_withPlain,
      isDynamic_lang?_withPlain ha]
  · next hf => rw [hkey hf]

end

/-! ### Keys that are taken -/

/-- What an element of an array of keys gives. -/
theorem mem_elementKeys {a : Argument} {raw : Text} (h : raw ∈ (Extraction.elementKeys a).keys) :
    a = .string raw ∧ isDynamicKey a = false := by
  rw [Extraction.elementKeys] at h
  split at h
  · cases h
  · next hd =>
    refine ⟨?_, Bool.eq_false_iff.mpr hd⟩
    cases a with
    | string t =>
      have h : raw ∈ [t] := h
      rw [List.mem_singleton.mp h]
    | _ => cases h

/-- No key is taken from a template that is recognized. -/
theorem exists_of_mem_callKeys {config : Config} {raw body : Text} {call : Call} {p : Place}
    (ha : argumentAt? call p = some (.string (decode body))) (h : IsRecognized call body p)
    (hraw : raw ∈ (Extraction.callKeys config call).keys) :
    ∃ elements index, call.key? = some (.array elements) ∧ p ≠ .element index ∧
      elements[index]? = some (.string raw) := by
  cases p with
  | lang => exact absurd h id
  | key =>
    have hkey : call.key? = some (.string (decode body)) := ha
    have hknown : isDynamicKey (.string (decode body)) = true := h
    cases hf : call.family with
    | plural =>
      have hdynamic : isDynamicPlural call = true := by simp [isDynamicPlural, hkey, hknown]
      rw [Extraction.callKeys, hf] at hraw
      simp only [Extraction.pluralKeys, hdynamic, if_true] at hraw
      split at hraw <;> cases hraw
    | translate | inlineTranslate | useTranslate =>
      rw [Extraction.callKeys, hf] at hraw
      simp only [Extraction.translateKeys, hkey, hknown, Bool.true_or, if_true] at hraw
      cases hraw
  | element index =>
    obtain ⟨hf, hknown⟩ := h
    rw [argumentAt?] at ha
    split at ha
    · next elements hkey =>
      have hcall : Extraction.callKeys config call = Extraction.translateKeys call := by
        rw [Extraction.callKeys]
        split
        · next hplural => exact absurd hplural hf
        · rfl
      rw [hcall, Extraction.translateKeys, hkey] at hraw
      simp only at hraw
      split at hraw
      · cases hraw
      · rw [Extraction.SourceKeys.keys_concat, List.flatMap_map, List.mem_flatMap] at hraw
        obtain ⟨a, hmem, hraw⟩ := hraw
        obtain ⟨rfl, hd⟩ := mem_elementKeys hraw
        obtain ⟨other, hother⟩ := List.mem_iff_getElem?.mp hmem
        refine ⟨elements, other, hkey, ?_, hother⟩
        intro hindex
        cases hindex
        rw [ha] at hother
        cases hother
        rw [isDynamicKey_string, hknown] at hd
        cases hd
    · cases ha

/-! ### Calls that are left in place -/

/-- How a chunk becomes another text when values are put in the place of calls. -/
structure Replaces (config : Config) (code out : Text) (replaced : List (Call × Text)) : Prop where
  /-- The calls are static calls of the chunk. -/
  static : ∀ r ∈ replaced, IsStatic r.1 ∧ ∃ f, r.1 ∈ Marker.scan f (config.markers.name f) code
  /-- They are in order and do not overlap. -/
  inOrder : replaced.Pairwise fun a b => a.1.stop ≤ b.1.start
  /-- Every static call starts inside of one of them. -/
  covers : ∀ f, ∀ call ∈ Marker.scan f (config.markers.name f) code, IsStatic call →
    ∃ r ∈ replaced, r.1.start ≤ call.start ∧ call.start < r.1.stop
  /-- All else is copied. -/
  spliced : out = splice 0 code (replaced.map fun r => (r.1.start, r.1.stop, r.2))

theorem replaces_inlineText (x : Context) (lang code : Text) :
    Replaces x.config code (inlineText x lang code).1 (replacements x lang code) where
  static r hr := by
    obtain ⟨site, hs, he⟩ := exists_site_of_mem_replacements hr
    rw [he]
    exact scanned_of_mem_sites hs
  inOrder := pairwise_replacements
  covers _ _ hf hc := exists_replacement_around hf hc
  spliced := inlineText_eq_splice

/-- Whether a call is left in place where a chunk becomes another text: no call that is replaced
reaches into it from in front, or starts with it. -/
def IsLeftInPlace (config : Config) (code out : Text) (call : Call) : Prop :=
  ∃ replaced, Replaces config code out replaced ∧ ∀ r ∈ replaced, r.1.stop ≤ call.start ∨
    call.start < r.1.start

/-- Whether a call does not stand in another static call. -/
def StandsAlone (config : Config) (code : Text) (call : Call) : Prop :=
  ∀ f, ∀ other ∈ Marker.scan f (config.markers.name f) code, IsStatic other → other ≠ call →
    other.start ≤ call.start → other.stop ≤ call.start

theorem standsAlone_of_calls_eq {config : Config} {code : Text} {call : Call}
    (h : calls config code = [call]) :
    StandsAlone config code call := by
  intro f other hother _ hne
  have hmem : other ∈ calls config code := mem_calls.mpr ⟨f, hother⟩
  rw [h, List.mem_singleton] at hmem
  exact absurd hmem hne

theorem mem_scan_of_calls_eq {config : Config} {code : Text} {call : Call}
    (h : calls config code = [call]) :
    call ∈ Marker.scan call.family (config.markers.name call.family) code := by
  obtain ⟨f, hf⟩ := mem_calls.mp (h ▸ List.mem_singleton_self call)
  rwa [Extraction.family_of_mem_scan hf]

/-- A call on its own is left in place exactly if it is not static. -/
theorem isLeftInPlace_iff {x : Context} {lang code : Text} {f : Family} {call : Call}
    (h : call ∈ Marker.scan f (x.config.markers.name f) code)
    (halone : StandsAlone x.config code call) :
    IsLeftInPlace x.config code (inlineText x lang code).1 call ↔ ¬ IsStatic call := by
  constructor
  · intro hleft hc
    obtain ⟨replaced, hreplaced, hclear⟩ := hleft
    obtain ⟨r, hr, hstart, hstop⟩ := hreplaced.covers f call h hc
    have := hclear r hr
    omega
  · intro hc
    have hreplaced := replaces_inlineText x lang code
    refine ⟨_, hreplaced, fun r hr => ?_⟩
    obtain ⟨hstatic, g, hg⟩ := hreplaced.static r hr
    have hne : r.1 ≠ call := fun he => hc (he ▸ hstatic)
    rcases Nat.lt_or_ge call.start r.1.start with hlt | hge
    · exact .inr hlt
    · exact .inl (halone g r.1 hg hstatic hne hge)

/-- **Calls with a template.** On its own, such a call is left in place exactly if the
substitution is recognized there, or the call would not be static with a plain string in place
of the template. No key is taken from a template that is recognized, and where a substitution is
looked for it is recognized in every template on one line without escapes. -/
theorem isLeftInPlace_template (x : Context) (lang code : Text) {f : Family} {call : Call}
    {body : Text} {p : Place} (h : call ∈ Marker.scan f (x.config.markers.name f) code)
    (ht : HasTemplateAt call body p) (hb : IsSubstituted body) :
    (StandsAlone x.config code call →
        (IsLeftInPlace x.config code (inlineText x lang code).1 call ↔
          IsRecognized call body p ∨ ¬ IsStatic (withPlain call p))) ∧
      (IsRecognized call body p → ∀ raw ∈ (Extraction.callKeys x.config call).keys,
        ∃ elements index,
        call.key? = some (.array elements) ∧ p ≠ .element index ∧
        elements[index]? = some (.string raw)) ∧
      ('\n' ∉ body → '\\' ∉ body → hasSubstitution (decode body) = true) := by
  have ha := argumentAt?_of_hasTemplateAt h ht hb
  refine ⟨fun halone => ?_, fun hknown raw => exists_of_mem_callKeys ha hknown,
    hasSubstitution_of_isSubstituted hb⟩
  rw [isLeftInPlace_iff h halone]
  by_cases hknown : IsRecognized call body p
  · exact iff_of_true (not_isStatic_of_isRecognized ha hknown) (.inl hknown)
  · rw [isStatic_withPlain ha hknown, or_iff_right hknown]

/-! ### Two templates -/

/-- An array whose second key is only known at run time. -/
def arrayCall : Call :=
  ⟨.translate, 0, "$translate(['a', `b.$\x7bc\x7d`])",
    [.array [.string "a", .string "b.$\x7bc\x7d"]]⟩

theorem calls_arrayCall : calls Config.standard arrayCall.raw = [arrayCall] := by cbv

theorem hasTemplateAt_arrayCall : HasTemplateAt arrayCall "b.$\x7bc\x7d" (.element 1) := by
  refine ⟨"'a', `b.$\x7bc\x7d`", by cbv, ?_, by cbv⟩
  unfold State.IsClosedBy
  cbv

theorem isSubstituted_arrayCall : IsSubstituted "b.$\x7bc\x7d" where
  closed := by
    unfold State.IsClosedBy
    cbv
  opens := ⟨"b.$", "c\x7d", rfl, rfl⟩

theorem isLeftInPlace_template_arrayCall :
    arrayCall ∈ Marker.scan .translate (Config.standard.markers.name .translate) arrayCall.raw ∧
      HasTemplateAt arrayCall "b.$\x7bc\x7d" (.element 1) ∧ IsSubstituted "b.$\x7bc\x7d" ∧
      IsLeftInPlace Config.standard arrayCall.raw
        (inlineText ⟨Config.standard, [("en-US", [("a", .string "A")])]⟩ "en-US" arrayCall.raw).1
          arrayCall := by
  have hcall := mem_scan_of_calls_eq calls_arrayCall
  have hknown : IsRecognized arrayCall "b.$\x7bc\x7d" (.element 1) := ⟨by decide, by cbv⟩
  exact ⟨hcall, hasTemplateAt_arrayCall, isSubstituted_arrayCall,
    ((isLeftInPlace_template ⟨Config.standard, [("en-US", [("a", .string "A")])]⟩ "en-US"
      arrayCall.raw hcall
      hasTemplateAt_arrayCall isSubstituted_arrayCall).1
        (standsAlone_of_calls_eq calls_arrayCall)).mpr (.inl hknown)⟩

/-- A key with a line end in its substitution. -/
def lineEndCall : Call :=
  ⟨.translate, 0, "$translate(`a.$\x7b\nx\x7d`)", [.string "a.$\x7b\nx\x7d"]⟩

theorem calls_lineEndCall : calls Config.standard lineEndCall.raw = [lineEndCall] := by cbv

theorem isSubstituted_lineEndCall : IsSubstituted "a.$\x7b\nx\x7d" where
  closed := by
    unfold State.IsClosedBy
    cbv
  opens := ⟨"a.$", "\nx\x7d", rfl, rfl⟩

/-- No texts at all. -/
def noTexts : Context := ⟨Config.standard, [("en-US", [])]⟩

theorem inlineText_lineEndCall : (inlineText noTexts "en-US" lineEndCall.raw).1 = "``".toList := by
  have hsites : (Plan.of noTexts.config lineEndCall.raw).sites =
      [.mk lineEndCall (.key "a.$\x7b\nx\x7d") []] := by
    show (sitesOf (calls Config.standard lineEndCall.raw)).1 = _
    rw [calls_lineEndCall]
    cbv
  have hvalue : (resolve noTexts "en-US" (.mk lineEndCall (.key "a.$\x7b\nx\x7d") [])).1 =
      "``".toList := by cbv
  rw [inlineText_eq_splice, replacements, hsites, List.map_singleton, List.map_singleton, hvalue]
  rfl

/-- The template is the key as it stands, and the call is replaced. -/
theorem not_isLeftInPlace_lineEndCall :
    lineEndCall ∈ Marker.scan .translate (Config.standard.markers.name .translate) lineEndCall.raw ∧
      HasTemplateAt lineEndCall "a.$\x7b\nx\x7d" .key ∧ IsSubstituted "a.$\x7b\nx\x7d" ∧
      StandsAlone Config.standard lineEndCall.raw lineEndCall ∧
      (inlineText noTexts "en-US" lineEndCall.raw).1 = "``".toList ∧
      (Extraction.callKeys Config.standard lineEndCall).keys = ["a.$\x7b\nx\x7d".toList] ∧
      ¬ IsLeftInPlace Config.standard lineEndCall.raw
        (inlineText noTexts "en-US" lineEndCall.raw).1 lineEndCall := by
  have hcall := mem_scan_of_calls_eq calls_lineEndCall
  have halone := standsAlone_of_calls_eq calls_lineEndCall
  have hstatic : IsStatic lineEndCall := ⟨.key "a.$\x7b\nx\x7d", by cbv⟩
  exact ⟨hcall, by unfold HasTemplateAt; cbv, isSubstituted_lineEndCall, halone,
    inlineText_lineEndCall, by cbv,
    fun h => (isLeftInPlace_iff (x := noTexts) hcall halone).mp h hstatic⟩

end Localization.Inlining
