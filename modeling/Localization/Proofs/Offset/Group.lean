import Mathlib
import Localization.Proofs.Offset.Region

/-! Literals and groups by offsets.

The walks of `Region` go on from lexeme to lexeme like `behind`. A step of a literal or of a
group needs only what is shorter (`stringFrom_cons`, `closingFrom_cons`), and so both end where
they should, at the same time (`regions_eq`): a literal at the text behind it (`skipString_eq`)
and a group with the bracket in front of the text behind it (`findClosing_eq`). -/
namespace Localization.Offset

open Script (State Region closer? isCloser literal? commentPrefix? groups behind isOrdinary)

/-! ### Bytes of groups -/

section

variable {u : Text} {stack : List Char} {d closer : Char} {i j : Nat}

theorem isOrdinary_of_isInert (h : IsInert d) : isOrdinary d = true := by
  simp (disch := decide) [isOrdinary, literal?, closer?, isCloser, h.beq_eq_false, h.ne]

theorem closingFrom_end (h : u[i]? = none) : closingFrom u stack i = .ok none := by
  rw [closingFrom]
  split <;> simp_all

theorem closingFrom_literal (h : u[i]? = some d) (hd : (literal? d).isSome = true) :
    closingFrom u stack i = (skipString u i).bind fun found =>
      match found with
      | none => .ok none
      | some j => (ahead i j).bind fun next => closingFrom u stack next.1 := by
  rw [closingFrom]
  split
  · simp_all
  · next b hb =>
    rw [h] at hb
    cases hb
    simp [hd]
    rfl

theorem closingFrom_comment (h : u[i]? = some '/') (hj : skipComment u i = some j) :
    closingFrom u stack i = (ahead i j).bind fun next => closingFrom u stack next.1 := by
  rw [closingFrom]
  split
  · simp_all
  · next b hb =>
    rw [h] at hb
    cases hb
    rw [if_neg (by decide), if_pos (by decide), hj]
    rfl

theorem closingFrom_slash (h : u[i]? = some '/') (hj : skipComment u i = none) :
    closingFrom u stack i = closingFrom u stack (i + 1) := by
  rw [closingFrom]
  split
  · simp_all
  · next b hb =>
    rw [h] at hb
    cases hb
    rw [if_neg (by decide), if_pos (by decide), hj]
    rfl

theorem closingFrom_opener (h : u[i]? = some d) (hd : closer? d = some closer) :
    closingFrom u stack i = closingFrom u (closer :: stack) (i + 1) := by
  have hliteral := Script.literal?_of_closer? hd
  rw [closingFrom]
  split
  · simp_all
  · next b hb =>
    rw [h] at hb
    cases hb
    simp [hliteral, hd]

theorem closingFrom_closer (h : u[i]? = some d) (hd : isCloser d = true) (outer : List Char) :
    closingFrom u (closer :: outer) i =
      if closer = d then if outer = [] then .ok (some i) else closingFrom u outer (i + 1) else
        .ok none := by
  obtain ⟨hliteral, hslash, hopener⟩ := Script.literal?_of_isCloser hd
  rw [closingFrom]
  split
  · simp_all
  · next b hb =>
    rw [h] at hb
    cases hb
    simp [hliteral, hslash, hopener, hd]

theorem closingFrom_ordinary (h : u[i]? = some d) (hd : isOrdinary d = true) :
    closingFrom u stack i = closingFrom u stack (i + 1) := by
  simp only [isOrdinary, Bool.and_eq_true, Option.isNone_iff_eq_none, bne_iff_ne,
    Bool.not_eq_true'] at hd
  rw [closingFrom]
  split
  · simp_all
  · next b hb =>
    rw [h] at hb
    cases hb
    simp [hd]

end

/-! ### Lexemes -/

section

variable {t : Text}

theorem suffix_tail {c : Char} {b : Text} (h : c :: b <:+ t) : b <:+ t :=
  (List.suffix_cons _ _).trans h

theorem not_isInert_of_literal? {quote : Char} {r : Region} (h : literal? quote = some r) :
    ¬ IsInert quote := by
  obtain ⟨rfl | rfl, -⟩ | ⟨rfl, -⟩ := Script.literal?_cases h <;> decide

theorem not_isInert_of_closer? {c closer : Char} (h : closer? c = some closer) :
    ¬ IsInert c ∧ ¬ IsInert closer := by
  unfold closer? at h
  repeat' split at h
  all_goals first
    | next hc => cases h; rw [beq_iff_eq.mp hc]; decide
    | cases h

theorem isBody_of_isInert {quote d : Char} {r : Region} (hr : literal? quote = some r)
    (h : IsInert d) : Script.IsBody quote d :=
  ⟨h.ne (by decide), h.ne (not_isInert_of_literal? hr), fun hd =>
    absurd hd (h.ne (by decide)), fun hd => absurd hd (h.ne (by decide))⟩

/-- Behind the end there is no byte. -/
theorem getElem?_behind_end {i : Nat} (h : Text.size t ≤ i) : (units t)[i]? = none := by
  rw [List.getElem?_eq_none_iff, length_units]
  exact h

/-- One lexeme of a literal, if shorter texts are read as they should. -/
theorem stringFrom_cons {n : Nat} {quote c : Char} {r : Region} {rest : Text}
    (hr : literal? quote = some r) (hlen : rest.length ≤ n) (h : c :: rest <:+ t)
    (ihs : ∀ b, b.length ≤ n → b <:+ t → stringFrom (units t) quote (offset t b) =
      .ok ((behind (.inside r) b).map (offset t)))
    (ihc : ∀ b, b.length ≤ n → b <:+ t → closingFrom (units t) ['\x7d'] (offset t b) =
      .ok ((behind (.inside (.group '\x7d')) b).map fun z => offset t z - 1)) :
    stringFrom (units t) quote (offset t (c :: rest)) =
      .ok ((behind (.inside r) (c :: rest)).map (offset t)) := by
  have hrest := suffix_tail h
  have hinert (i : Nat) (d : Char) (hd : (units t)[i]? = some d) (hi : IsInert d) :
      stringFrom (units t) quote i = stringFrom (units t) quote (i + 1) :=
        stringFrom_body hd (isBody_of_isInert hr hi)
  by_cases hescape : c = '\\'
  · subst hescape
    rw [stringFrom_escape (getElem?_ascii h (by decide))]
    cases rest with
    | nil =>
      rw [stringFrom_end, Script.behind_backslash hr]
      · rfl
      · refine getElem?_behind_end ?_
        have := offset_ascii h (by decide)
        rw [offset_nil] at this
        omega
    | cons d more =>
      rw [Script.behind_escape hr, ← ihs more (by simp at hlen; omega) (suffix_tail hrest),
        ← second_byte hrest hinert, offset_ascii h (by decide)]
  by_cases hquote : c = quote
  · subst hquote
    rw [stringFrom_quote hr (getElem?_ascii h (not_isInert_of_literal? hr)), Script.behind_quote hr,
      ← offset_ascii h (not_isInert_of_literal? hr)]
    rfl
  by_cases hline : c = '\n' ∧ quote ≠ '`'
  · obtain ⟨rfl, hne⟩ := hline
    rw [stringFrom_lineEnd (getElem?_ascii h (by decide)) hne, Script.behind_lineEnd hr hne]
    rfl
  by_cases hdollar : c = '$' ∧ quote = '`'
  · obtain ⟨rfl, rfl⟩ := hdollar
    cases hr
    have hbyte := getElem?_ascii h (by decide)
    have hnext : ((units t)[offset t ('$' :: rest) + 1]? == some '\x7b') =
        (rest.head? == some '\x7b') :=
      getElem?_succ_beq h (by decide) (by decide)
    by_cases hbrace : rest.head? = some '\x7b'
    · obtain ⟨more, rfl⟩ := List.head?_eq_some_iff.mp hbrace
      have hmore := suffix_tail hrest
      have hfound : findClosing (units t) (offset t ('$' :: '\x7b' :: more) + 1) =
          .ok ((behind (.inside (.group '\x7d')) more).map fun z => offset t z - 1) := by
        rw [← offset_ascii h (by decide), findClosing_of (getElem?_ascii hrest (by decide)) rfl,
          ← offset_ascii hrest (by decide)]
        exact ihc more (by simp at hlen; omega) hmore
      rw [stringFrom_substitution hbyte (by rw [hnext]; rfl), hfound, Script.behind_substitution]
      cases hbehind : behind (.inside (.group '\x7d')) more with
      | none => rfl
      | some z =>
        have hz := Script.suffix_of_behind hbehind
        have hshort := hz.length_le
        have hlt : offset t ('$' :: '\x7b' :: more) < offset t z :=
          offset_lt_of_suffix h (hz.trans (List.suffix_cons _ _))
        have hj : offset t z - 1 + 1 = offset t z := by omega
        simp only [Option.map_some, Except.bind, hj, ahead_of_lt hlt, Option.bind_some]
        exact ihs z (by simp at hlen; omega) (hz.trans hmore)
    · rw [stringFrom_dollar hbyte (by rw [hnext]; simpa using hbrace), Script.behind_dollar hbrace,
        ← offset_ascii h (by decide)]
      exact ihs rest hlen hrest
  · have hbody : Script.IsBody quote c :=
      ⟨hescape, hquote, fun hn => by_contra fun hne => hline ⟨hn, hne⟩, fun hd hq =>
        hdollar ⟨hd, hq⟩⟩
    rw [Script.behind_body hr hbody, ← ihs rest hlen hrest]
    exact next_char h (fun i d hd hb => stringFrom_body hd hb) (fun d hi =>
      isBody_of_isInert hr hi) hbody

/-- One lexeme of a group, if shorter texts are read as they should. -/
theorem closingFrom_cons {n : Nat} {c : Char} {rest : Text} {closers : List Char}
    (hne : closers ≠ []) (hlen : rest.length ≤ n) (h : c :: rest <:+ t)
    (ihs : ∀ b, b.length ≤ n → b <:+ t → ∀ quote r, literal? quote = some r →
      stringFrom (units t) quote (offset t b) = .ok ((behind (.inside r) b).map (offset t)))
    (ihc : ∀ b, b.length ≤ n → b <:+ t →
      ∀ closers ≠ [], closingFrom (units t) closers (offset t b) =
        .ok ((behind ⟨groups closers, .none⟩ b).map fun z => offset t z - 1)) :
    closingFrom (units t) closers (offset t (c :: rest)) =
      .ok ((behind ⟨groups closers, .none⟩ (c :: rest)).map fun z => offset t z - 1) := by
  have hrest := suffix_tail h
  cases hliteral : literal? c with
  | some r =>
    have hascii := not_isInert_of_literal? hliteral
    have hbyte := getElem?_ascii h hascii
    rw [closingFrom_literal hbyte (by rw [hliteral]; rfl), skipString_of hbyte,
      ← offset_ascii h hascii, ihs rest hlen hrest c r hliteral, Script.behind_literal hne hliteral]
    cases hbehind : behind (.inside r) rest with
    | none => rfl
    | some z =>
      have hz := Script.suffix_of_behind hbehind
      have hshort := hz.length_le
      simp only [Option.map_some, Except.bind, ahead_of_lt (offset_lt_of_suffix h hz),
        Option.bind_some]
      exact ihc z (by omega) (hz.trans hrest) closers hne
  | none =>
    by_cases hslash : c = '/'
    · subst hslash
      have hbyte := getElem?_ascii h (by decide)
      have hskip := skipComment_eq h
      cases hcomment : commentPrefix? ('/' :: rest) with
      | some after =>
        have hafter := Script.isSuffix_of_commentPrefix? hcomment
        have hshort := hafter.length_le
        rw [hcomment] at hskip
        rw [closingFrom_comment hbyte hskip, ahead_of_lt (offset_lt_of_suffix h hafter),
          Script.behind_comment hne hcomment]
        exact ihc after (by omega) (hafter.trans hrest) closers hne
      | none =>
        rw [hcomment] at hskip
        rw [closingFrom_slash hbyte hskip, Script.behind_slash hne hcomment,
          ← offset_ascii h (by decide)]
        exact ihc rest hlen hrest closers hne
    · cases hopener : closer? c with
      | some closer =>
        have hascii := (not_isInert_of_closer? hopener).1
        rw [closingFrom_opener (getElem?_ascii h hascii) hopener, Script.behind_opener hopener,
          ← offset_ascii h hascii]
        exact ihc rest hlen hrest _ (List.cons_ne_nil _ _)
      | none =>
        cases hcloser : isCloser c with
        | true =>
          have hascii : ¬ IsInert c := by
            intro hi
            have hordinary := isOrdinary_of_isInert hi
            simp [isOrdinary, hcloser] at hordinary
          obtain ⟨closer, outer, rfl⟩ := List.exists_cons_of_ne_nil hne
          rw [closingFrom_closer (getElem?_ascii h hascii) hcloser, Script.behind_closer hcloser,
            ← offset_ascii h hascii]
          by_cases hfits : closer = c
          · rw [if_pos hfits, if_pos hfits]
            by_cases houter : outer = []
            · rw [if_pos houter, if_pos houter, Option.map_some, offset_ascii h hascii,
                Nat.add_sub_cancel]
            · rw [if_neg houter, if_neg houter]
              exact ihc rest hlen hrest outer houter
          · rw [if_neg hfits, if_neg hfits]
            rfl
        | false =>
          have hordinary : isOrdinary c = true := by
            simp [isOrdinary, hliteral, hopener, hcloser, hslash]
          rw [Script.behind_ordinary hne hordinary, ← ihc rest hlen hrest closers hne]
          exact next_char h (fun i d hd ho => closingFrom_ordinary hd ho) (fun d hi =>
            isOrdinary_of_isInert hi) hordinary

/-- Literals and groups end where the text behind them begins. -/
theorem regions_eq (n : Nat) :
    (∀ b, b.length ≤ n → b <:+ t → ∀ quote r, literal? quote = some r →
      stringFrom (units t) quote (offset t b) = .ok ((behind (.inside r) b).map (offset t))) ∧
    ∀ b, b.length ≤ n → b <:+ t → ∀ closers ≠ [],
      closingFrom (units t) closers (offset t b) =
        .ok ((behind ⟨groups closers, .none⟩ b).map fun z => offset t z - 1) := by
  have hnil : (∀ quote, stringFrom (units t) quote (offset t []) = .ok none) ∧
      ∀ closers, closingFrom (units t) closers (offset t []) = .ok none :=
    ⟨fun _ => stringFrom_end (getElem?_end t), fun _ => closingFrom_end (getElem?_end t)⟩
  induction n with
  | zero =>
    constructor
    · intro b hb _ quote r _
      rw [List.length_eq_zero_iff.mp (Nat.le_zero.mp hb), hnil.1]
      rfl
    · intro b hb _ closers _
      rw [List.length_eq_zero_iff.mp (Nat.le_zero.mp hb), hnil.2]
      rfl
  | succ n ih =>
    constructor
    · intro b hb h quote r hr
      cases b with
      | nil => rw [hnil.1]; rfl
      | cons c rest =>
        exact stringFrom_cons hr (Nat.le_of_succ_le_succ hb) h (fun b hb h =>
          ih.1 b hb h quote r hr)
          fun b hb h => ih.2 b hb h _ (List.cons_ne_nil _ _)
    · intro b hb h closers hne
      cases b with
      | nil => rw [hnil.2]; rfl
      | cons c rest => exact closingFrom_cons hne (Nat.le_of_succ_le_succ hb) h ih.1 ih.2

/-- **A literal ends where the text behind it begins.** -/
theorem skipString_eq {quote : Char} {r : Region} {rest : Text} (hr : literal? quote = some r)
    (h : quote :: rest <:+ t) :
    skipString (units t) (offset t (quote :: rest)) =
      .ok ((behind (.inside r) rest).map (offset t)) := by
  rw [skipString_of (getElem?_ascii h (not_isInert_of_literal? hr)),
    ← offset_ascii h (not_isInert_of_literal? hr)]
  exact (regions_eq rest.length).1 rest (Nat.le_refl _) (suffix_tail h) quote r hr

/-- **A group ends with the bracket in front of the text behind it.** -/
theorem findClosing_eq {opener closer : Char} {rest : Text} (hc : closer? opener = some closer)
    (h : opener :: rest <:+ t) :
    findClosing (units t) (offset t (opener :: rest)) =
      .ok ((behind (.inside (.group closer)) rest).map fun z => offset t z - 1) := by
  have hascii := (not_isInert_of_closer? hc).1
  rw [findClosing_of (getElem?_ascii h hascii) hc, ← offset_ascii h hascii]
  exact (regions_eq rest.length).2 rest (Nat.le_refl _) (suffix_tail h) _ (List.cons_ne_nil _ _)

end

end Localization.Offset
