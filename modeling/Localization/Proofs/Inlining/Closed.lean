import Mathlib
import Localization.Proofs.Argument.Enclosed
import Localization.Proofs.Inlining.Tokens
import Localization.Proofs.Marker.Place

/-! Literals that end where their text does.

The value of a text is a template literal, whose body is made of escaped characters and of
parameters. It is one literal if every parameter in it may stand in a template
(`within_templateBody`). Numbers, substitutions and escaped strings may, but two kinds of
strings may not: one that holds a substitution is put in as it is, though it may be no text of a
template, and one that ends with a `$` opens a substitution in front of a brace. `isLiteral_iff`
says that the parameters of a call are put in safely by every text exactly if none of them is
such a string. -/
namespace Localization.Script

namespace Within

variable {a b : Text}

/-- A group ends at one place. -/
theorem append_closer_inj {closer : Char} (hcloser : isCloser closer = true)
    (ha : Within .brackets a) (hb : Within .brackets b) {y z : Text}
    (h : a ++ closer :: y = b ++ closer :: z) : y = z := by
  have hread {t : Text} (ht : Within .brackets t) (z : Text) :
      closing ⟨[.group closer], .none⟩ (t ++ closer :: z) = some (t ++ [closer], z) := by
    have hstep : State.step ⟨[.group closer], .none⟩ closer = some .top :=
      stepCode_isCloser hcloser []
    rw [ht.passesOver (.closer hcloser), closing, hstep]
    rfl
  have heq := (hread ha y).symm.trans ((congrArg _ h).trans (hread hb z))
  exact (Prod.mk.inj (Option.some.inj heq)).2

/-- What the first character of the text of a template may be. -/
theorem backticks_cons {c : Char} (h : Within .backticks (c :: a)) :
    (c ≠ '\\' ∧ c ≠ '`' ∧ (c = '$' → a.head? ≠ some '{') ∧ Within .backticks a) ∨
      (∃ d rest, c = '\\' ∧ a = d :: rest ∧ Within .backticks rest) ∨
      ∃ inner rest, c = '$' ∧ a = '{' :: (inner ++ '}' :: rest) ∧ Within .brackets inner ∧
        Within .backticks rest := by
  cases h with
  | char hescape htick hdollar hrest => exact .inl ⟨hescape, htick, hdollar, hrest⟩
  | escape hrest => exact .inr (.inl ⟨_, _, rfl, rfl, hrest⟩)
  | substitution hinner hrest => exact .inr (.inr ⟨_, _, rfl, rfl, hinner, hrest⟩)

section

variable {c : Char} {z : Text}

/-- Behind a character that opens nothing the text of a template goes on. -/
theorem of_char (h : Within .backticks (c :: (a ++ z))) (hescape : c ≠ '\\')
    (hdollar : c = '$' → (a ++ z).head? ≠ some '{') : Within .backticks (a ++ z) := by
  rcases h.backticks_cons with ⟨-, -, -, hrest⟩ | ⟨d, rest, rfl, -⟩ | ⟨inner, rest, rfl, ht, -⟩
  · exact hrest
  · exact absurd rfl hescape
  · exact absurd (by rw [ht]; rfl) (hdollar rfl)

theorem of_escape (h : Within .backticks ('\\' :: c :: z)) : Within .backticks z := by
  rcases h.backticks_cons with ⟨hne, -⟩ | ⟨d, rest, -, ht, hrest⟩ | ⟨inner, rest, hc, -⟩
  · exact absurd rfl hne
  · cases ht
    exact hrest
  · cases hc

theorem of_substitution (h : Within .backticks ('$' :: '{' :: (a ++ '}' :: z)))
    (ha : Within .brackets a) :
    Within .backticks z := by
  rcases h.backticks_cons with ⟨-, -, hne, -⟩ | ⟨d, rest, hc, -⟩
    | ⟨inner, rest, -, ht, hinner, hrest⟩
  · exact absurd rfl (hne rfl)
  · cases hc
  · injection ht with _ ht
    rwa [append_closer_inj rfl ha hinner ht]

end

/-- Behind the text of a template the text of a template goes on, if no substitution is opened where
they meet. -/
theorem of_append {e : Enclosure} {z : Text} (ha : Within e a) (he : e = .backticks)
    (hz : z.head? ≠ some '{') (h : Within .backticks (a ++ z)) : Within .backticks z := by
  induction ha with
  | nil => exact h
  | @char c rest hescape htick hdollar _ ih =>
    refine ih he (h.of_char hescape fun hc => ?_)
    cases rest with
    | nil => exact hz
    | cons d rest => exact hdollar hc
  | escape _ ih => exact ih he h.of_escape
  | @substitution inner rest hinner _ _ ih =>
    rw [List.cons_append, List.cons_append, List.append_assoc, List.cons_append] at h
    exact ih he (h.of_substitution hinner)
  | _ => cases he

/-- Texts of templates make one, if no substitution is opened where they meet. -/
theorem append_backticks {e : Enclosure} (ha : Within e a) (he : e = .backticks)
    (hb : Within .backticks b) (hbrace : b.head? = some '{' → Within .backticks (a ++ ['{'])) :
    Within .backticks (a ++ b) := by
  induction ha with
  | nil => exact hb
  | @char c rest hescape htick hdollar _ ih =>
    -- A dollar sign and a brace would open a substitution that nothing closes.
    have hmeet (z : Text) (hz : z.head? = some '{' → Within .backticks (c :: rest ++ ['{']))
        (hc : c = '$') :
        (rest ++ z).head? ≠ some '{' := by
      cases rest with
      | cons d rest => exact hdollar hc
      | nil =>
        intro hhead
        rcases (hz hhead).backticks_cons with ⟨-, -, hne, -⟩ | ⟨d, rest, rfl, -⟩
          | ⟨inner, rest, -, ht, -⟩
        · exact hne hc rfl
        · exact hescape rfl
        · cases inner <;> cases ht
    exact .char hescape htick (hmeet b hbrace) (ih he fun h =>
      (hbrace h).of_char hescape (hmeet ['{'] fun _ => hbrace h))
  | escape _ ih => exact .escape (ih he fun h => (hbrace h).of_escape)
  | @substitution inner rest hinner _ _ ih =>
    rw [List.cons_append, List.cons_append, List.append_assoc, List.cons_append] at hbrace ⊢
    exact .substitution hinner (ih he fun h => (hbrace h).of_substitution hinner)
  | _ => cases he

/-- The text of a template between two backticks. -/
theorem backticks_iff : Within .backticks a ↔ (State.inside .template).IsClosedBy (a ++ ['`']) := by
  constructor
  · intro h
    rw [State.IsClosedBy, State.inside, h.passesOver .backtick]
    simp [closing, State.step]
  · intro h
    obtain ⟨inner, hinner, ha⟩ := exists_within .backtick h
    rwa [(List.append_inj' hinner rfl).1]

theorem encode (t : Text) : Within .backticks (Script.encode t) :=
  backticks_iff.mpr (isClosedBy_encode t)

/-- Characters that mean nothing in a template. -/
theorem of_plain (h : ∀ c ∈ a, c ∉ ['\\', '`', '$']) : Within .backticks a := by
  induction a with
  | nil => exact .nil
  | cons c rest ih =>
    have hc := h c List.mem_cons_self
    simp only [List.mem_cons, List.not_mem_nil, or_false, not_or] at hc
    exact .char hc.1 hc.2.1 (fun hd => absurd hd hc.2.2) (ih fun d hd =>
      h d (List.mem_cons_of_mem _ hd))

end Within

end Localization.Script

namespace Localization.Inlining

open Marker (callAt?)
open Script (Cursor Within encode encodeHead encodeHead_cases encode_append)

/-! ### Parameters -/

/-- Whether a text may stand in the text of a template, whatever follows it. -/
def Embeds (t : Text) : Prop := Within .backticks t ∧ Within .backticks (t ++ ['{'])

theorem embeds_encode {t : Text} (h : t.getLast? ≠ some '$') : Embeds (encode t) := by
  refine ⟨Within.encode t, ?_⟩
  have hencode : encode (t ++ ['{']) = encode t ++ ['{'] := encode_append fun he => absurd he h
  rw [← hencode]
  exact Within.encode _

/-- A text that ends with a `$` opens a substitution in front of a brace, escaped or not. -/
theorem not_embeds_encode {t : Text} (h : t.getLast? = some '$') : ¬ Embeds (encode t) := by
  rintro ⟨-, hbrace⟩
  obtain ⟨front, rfl⟩ := List.getLast?_eq_some_iff.mp h
  have hencode : encode (front ++ ['$']) = encode front ++ ['$'] := encode_append fun _ => by simp
  rw [hencode, List.append_assoc] at hbrace
  have hopen : Within .backticks ['$', '{'] := (Within.encode front).of_append rfl (by simp) hbrace
  rcases hopen.backticks_cons with ⟨-, -, hne, -⟩ | ⟨d, rest, hc, -⟩ | ⟨inner, rest, -, ht, -⟩
  · exact hne rfl rfl
  · cases hc
  · cases inner <;> cases ht

/-- Whether a string may be a parameter of every text: one that holds a substitution is put in
as it is, and any other one is escaped. -/
def IsSafe (s : Text) : Prop := if Script.hasSubstitution s then Embeds s else s.getLast? ≠ some '$'

theorem embeds_insertion_string_iff {s : Text} : Embeds (insertion (.string s)) ↔ IsSafe s := by
  have hinsertion : insertion (.string s) = if Script.hasSubstitution s then s else encode s := rfl
  rw [hinsertion, IsSafe]
  split
  · exact Iff.rfl
  · exact ⟨fun h he => not_embeds_encode he h, embeds_encode⟩

/-- Every other argument may be a parameter of every text. -/
theorem embeds_insertion {a : Argument} (h : IsEnclosed a) (hstring : ∀ s, a ≠ .string s) :
    Embeds (insertion a) := by
  have hsubstitution : Embeds ('$' :: '{' :: (a.toScript ++ ['}'])) :=
    ⟨.substitution h.within .nil, by
      rw [List.cons_append, List.cons_append, List.append_assoc]
      exact .substitution h.within (.char (by decide) (by decide) (by decide) .nil)⟩
  cases h with
  | string s => exact absurd rfl (hstring s)
  | number x =>
    have hplain (z : Text) (hz : ∀ c ∈ z, c ∉ ['\\', '`', '$']) :
        Within .backticks (Decimal.plain x ++ z) := by
      refine .of_plain fun c hc => (List.mem_append.mp hc).elim (fun hc hmem => ?_) (hz c)
      have hnumber := isNumberChar_of_mem_plain hc
      simp only [List.mem_cons, List.not_mem_nil, or_false] at hmem
      rcases hmem with rfl | rfl | rfl <;> revert hnumber <;> decide
    refine ⟨?_, hplain ['{'] (by simp)⟩
    have := hplain [] fun c hc => by cases hc
    rwa [List.append_nil] at this
  | _ => exact hsubstitution

/-! ### Bodies -/

variable {params : Properties}

/-- A brace stands at the head of a body only if one stands at the head of the text. -/
theorem head?_templateBody_ne {t : Text} (h : t.head? ≠ some '{') :
    (templateBody params t).head? ≠ some '{' := by
  cases t with
  | nil => exact h
  | cons c rest =>
    have hc : c ≠ '{' := by simpa using h
    have hnone : token? (c :: rest) = none := by
      refine token?_eq_none ?_
      rintro ⟨u, hu⟩
      cases hu
      exact hc rfl
    rw [templateBody_cons hnone]
    rcases encodeHead_cases c rest with ⟨he, -⟩ | ⟨he, -⟩
    · rw [he]; simpa using hc
    · rw [he]; simp

/-- An escaped character in front of the rest of a body. -/
theorem within_encodeHead_append {c : Char} {rest : Text}
    (h : Within .backticks (templateBody params rest)) :
    Within .backticks (encodeHead c rest ++ templateBody params rest) := by
  rcases encodeHead_cases c rest with ⟨he, hescape, htick, hdollar⟩ | ⟨he, -⟩
  · rw [he]
    exact .char hescape htick (fun hc => head?_templateBody_ne (hdollar hc)) h
  · rw [he]
    exact .escape h

/-- Whether the strings that are put in for the tokens of a text may stand where they do. -/
def AreSafeIn (params : Properties) (t : Text) : Prop :=
  ∀ name rest s, (name, rest) ∈ tokensOf t → params.lookup (encode name) = some (.string s) →
    Within .backticks (insertion (.string s)) ∧
      ((templateBody params rest).head? = some '{' →
        Within .backticks (insertion (.string s) ++ ['{']))

/-- **A body is the text of a template if its strings are safe where they stand.** -/
theorem within_templateBody (hparams : ∀ p ∈ params, IsEnclosed p.2) {t : Text}
    (h : AreSafeIn params t) :
    Within .backticks (templateBody params t) := by
  induction t using tokenInduction with
  | nil => exact .nil
  | char c rest hnone ih =>
    rw [templateBody_cons hnone]
    refine within_encodeHead_append (ih fun name behind s hmem => h name behind s ?_)
    rwa [tokensOf_cons hnone]
  | token t name n htoken ih =>
    have hbehind : Within .backticks (templateBody params (t.drop n)) := by
      refine ih fun name' behind s hmem => h name' behind s ?_
      rw [tokensOf_token htoken]
      exact List.mem_cons_of_mem _ hmem
    rw [templateBody_token htoken, tokenText]
    cases hlookup : params.lookup (encode name) with
    | none =>
      have hend : (t.take n).getLast? ≠ some '$' := by
        rw [getLast?_token htoken]
        decide
      rw [Option.map_none, Option.getD_none]
      exact (embeds_encode hend).1.append_backticks rfl hbehind fun _ => (embeds_encode hend).2
    | some a =>
      rw [Option.map_some, Option.getD_some]
      by_cases hstring : ∃ s, a = .string s
      · obtain ⟨s, rfl⟩ := hstring
        obtain ⟨hwithin, hbrace⟩ :=
          h name (t.drop n) s (by rw [tokensOf_token htoken]; exact List.mem_cons_self) hlookup
        exact hwithin.append_backticks rfl hbehind hbrace
      · have hembeds := embeds_insertion (hparams _ (mem_of_lookup hlookup)) fun s he =>
          hstring ⟨s, he⟩
        exact hembeds.1.append_backticks rfl hbehind fun _ => hembeds.2

/-! ### Literals -/

/-- Whether a text is one template literal. -/
def IsLiteral (v : Text) : Prop := v.head? = some '`' ∧ Script.literalPrefix? v = some (v, [])

theorem isLiteral_iff_within {body : Text} :
    IsLiteral ('`' :: body ++ ['`']) ↔ Within .backticks body := by
  have hread : Script.literalPrefix? ('`' :: (body ++ ['`'])) =
      (Script.closing (.inside .template) (body ++ ['`'])).map fun p => ('`' :: p.1, p.2) := rfl
  rw [IsLiteral, List.cons_append, hread, Within.backticks_iff, Script.State.IsClosedBy]
  simp only [List.head?_cons, true_and, Option.map_eq_some_iff, Prod.mk.injEq, List.cons.injEq,
    true_and, Prod.exists]
  constructor
  · rintro ⟨read, after, h, rfl, rfl⟩
    exact h
  · exact fun h => ⟨_, _, h, rfl, rfl⟩

theorem valueText?_of_ne_nil {t : Text} (h : t ≠ []) :
    valueText? params (some (.string t)) = some ('`' :: templateBody params t ++ ['`']) := by
  obtain ⟨c, rest, rfl⟩ := List.exists_cons_of_ne_nil h
  rfl

/-! ### Parameters of calls -/

/-- The text between the parentheses of a call. -/
def listAt? (name : Text) (place : Cursor) : Option Text := do
  let opening ← Marker.afterCallee? (place.after.drop name.length)
  let (group, _) ← Script.groupPrefix? opening
  return (group.drop 1).dropLast

/-- The arguments of a call are read from a list that its parentheses enclose. -/
theorem exists_listAt? {name raw : Text} {place : Cursor} {arguments : List Argument}
    (h : callAt? name place = some (raw, arguments)) :
    ∃ list closer, listAt? name place = some list ∧
      (Script.State.inside (.group closer)).IsClosedBy (list ++ [closer]) ∧
      readArguments list = some arguments := by
  obtain ⟨opening, group, rest, hopening, -, hgroup, hread, -⟩ := Marker.callAt?_eq_some_iff.mp h
  have hlist : listAt? name place = some (group.drop 1).dropLast := by
    rw [listAt?, hopening, Option.bind_eq_bind, Option.bind_some, hgroup]
    rfl
  obtain ⟨-, hopener, hinner⟩ := Script.groupPrefix?_eq_some_iff.mp hgroup
  rename_i opener closer inner
  have hclosed : (Script.State.inside (.group closer)).IsClosedBy (inner ++ [closer]) := by
    have hstep : Script.State.step ⟨[.group closer], .none⟩ closer = some .top :=
      Script.stepCode_closer hopener []
    rw [Script.State.IsClosedBy, Script.State.inside,
      hinner.passesOver (.closer (Script.isCloser_of_closer? hopener)), Script.closing, hstep]
    rfl
  rw [List.drop_succ_cons, List.drop_zero, List.dropLast_concat] at hlist hread
  exact ⟨inner, closer, hlist, hclosed, hread⟩

/-- The arguments of a call that balances may be written back. -/
theorem isEnclosed_of_callAt? {name raw : Text} {place : Cursor} {arguments : List Argument}
    (h : callAt? name place = some (raw, arguments)) : ∀ a ∈ arguments, IsEnclosed a := by
  obtain ⟨list, closer, -, hclosed, hread⟩ := exists_listAt? h
  exact isEnclosed_of_isClosedBy hclosed hread

/-- A token alone, and one in front of a brace. -/
theorem templateBody_braced {name : Text} (hname : IsTokenName name) {a : Argument}
    (h : params.lookup (encode name) = some a) (rest : Text) :
    templateBody params (braced name ++ rest) = insertion a ++ templateBody params rest := by
  rw [templateBody_token (token?_braced hname rest), tokenText, h, List.drop_left]
  rfl

/-- **What a call's parameters make of a text is one template literal** if the strings among
them are safe where the tokens of the text stand. It is one for every text exactly if each
string that a token can name is safe: put in as it is, it is the text of a template, and no `$`
at its end meets a brace. -/
theorem isLiteral_iff {name raw : Text} {place : Cursor} {arguments : List Argument}
    (hcall : callAt? name place = some (raw, arguments)) (hparams : .object params ∈ arguments) :
    (∀ t ≠ [], AreSafeIn params t → ∃ v, valueText? params (some (.string t)) = some v ∧
      IsLiteral v) ∧
      ((∀ t ≠ [], ∃ v, valueText? params (some (.string t)) = some v ∧ IsLiteral v) ↔
        ∀ key s, IsTokenName key → params.lookup (encode key) = some (.string s) → IsSafe s) := by
  have henclosed : ∀ p ∈ params, IsEnclosed p.2 := by
    have hobject := isEnclosed_of_callAt? hcall _ hparams
    cases hobject with
    | object h => exact h
  have hvalue (t : Text) (ht : t ≠ []) :
      (∃ v, valueText? params (some (.string t)) = some v ∧ IsLiteral v) ↔
        Within .backticks (templateBody params t) := by
    rw [valueText?_of_ne_nil ht, ← isLiteral_iff_within]
    simp
  refine ⟨fun t ht hsafe => (hvalue t ht).mpr (within_templateBody henclosed hsafe),
    fun h key s hkey hs => ?_, fun h t ht => ?_⟩
  · -- The text of one token shows what is put in for it, and a brace behind it what it opens.
    have hclosed (rest : Text) :
        Within .backticks (insertion (.string s) ++ templateBody params rest) := by
      rw [← templateBody_braced hkey hs]
      exact (hvalue _ (List.cons_ne_nil _ _)).mp (h _ (List.cons_ne_nil _ _))
    have halone := hclosed []
    rw [templateBody_empty, List.append_nil] at halone
    exact embeds_insertion_string_iff.mp ⟨halone, hclosed ['{']⟩
  · refine (hvalue t ht).mpr (within_templateBody henclosed fun key rest s hmem hs => ?_)
    have hkey : IsTokenName key := isTokenName_of_mem_tokensOf hmem
    have hembeds := embeds_insertion_string_iff.mpr (h key s hkey hs)
    exact ⟨hembeds.1, fun _ => hembeds.2⟩

/-! ### Written calls -/

/-- The call that is written for some arguments. -/
def callText (name : Text) (arguments : List Argument) : Text :=
  name ++ '(' :: (Text.join ", " (elementScripts arguments) ++ [')'])

/-- A call that is written for arguments has these. -/
theorem callAt?_callText (name : Text) {arguments : List Argument}
    (h : arePrintable arguments = true) :
    callAt? name (Cursor.start (callText name arguments)) =
      some (callText name arguments, arguments) := by
  have hbalanced := balanced_join (balanced_elementScripts arguments h)
  have hopener : Script.closer? '(' = some ')' := rfl
  have hgroup := hbalanced.groupPrefix? hopener []
  refine Marker.callAt?_eq_some_iff.mpr ⟨_, _, [], ?_, rfl, hgroup, ?_, ?_⟩
  · rw [Cursor.start, callText, List.drop_left]
    rfl
  · rw [List.drop_succ_cons, List.drop_zero, List.dropLast_concat]
    exact readArguments_elementScripts arguments h
  · rw [Cursor.start, List.length_nil, Nat.sub_zero, List.take_length]

/-- Parameters of several kinds, none of which reaches out of its literal. -/
def greetingParams : Properties :=
  [("p", .string "a`b"), ("q", .array [.name "n", .object [("x y", .string "]")]])]

theorem isLiteral_greeting :
    callAt? "$translate" (Cursor.start (callText "$translate"
      [.string "k", .object greetingParams])) =
        some (callText "$translate" [.string "k", .object greetingParams],
          [.string "k", .object greetingParams]) ∧
      Argument.object greetingParams ∈ [.string "k", .object greetingParams] ∧
      ∃ v, valueText? greetingParams (some (.string "\x7b\x7bp\x7d\x7d: \x7b\x7bq\x7d\x7d")) =
        some v ∧ IsLiteral v := by
  have hcall :
      callAt? "$translate" (Cursor.start (callText "$translate"
        [.string "k", .object greetingParams])) =
      some (callText "$translate" [.string "k", .object greetingParams],
        [.string "k", .object greetingParams]) :=
    callAt?_callText "$translate" (by decide)
  have hmem : Argument.object greetingParams ∈ [.string "k", .object greetingParams] :=
    List.mem_cons_of_mem _ List.mem_cons_self
  refine ⟨hcall, hmem, (isLiteral_iff hcall hmem).2.mpr (fun key s _ hs => ?_) _ (by decide)⟩
  have hp := mem_of_lookup hs
  simp only [greetingParams, List.mem_cons, Prod.mk.injEq, Argument.string.injEq, reduceCtorEq,
    and_false, List.not_mem_nil, or_false] at hp
  rw [hp.2, IsSafe, if_neg (by decide)]
  decide

/-- A string that holds a substitution and a backtick ends the literal early. -/
theorem not_isLiteral_substitution :
    callAt? "$translate" (Cursor.start (callText "$translate"
      [.string "k", .object [("p", .string "$\x7ba\x7d`")]])) =
        some (callText "$translate" [.string "k", .object [("p", .string "$\x7ba\x7d`")]],
          [.string "k", .object [("p", .string "$\x7ba\x7d`")]]) ∧
      valueText? [("p", .string "$\x7ba\x7d`")] (some (.string "\x7b\x7bp\x7d\x7d")) =
        some "`$\x7ba\x7d``" ∧
      ¬ IsLiteral "`$\x7ba\x7d``" := by
  refine ⟨callAt?_callText "$translate" (by decide), by decide, ?_⟩
  rintro ⟨-, h⟩
  revert h
  decide

end Localization.Inlining
