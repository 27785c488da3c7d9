import Mathlib
import Localization.Text.Basic

/-! Replacing matches.

`replaceAll` goes through a text from left to right and puts texts in the place of matches. What it
does to a stretch of text does not depend on what stands behind it, if no match reaches over its end
(`replaceAll_append`). If every match is replaced by a text that starts differently, a stretch is
kept exactly if no match starts in it (`replaceAll_gap_iff`). -/
namespace Localization.Text

theorem occursIn_iff {needle t : Text} : occursIn needle t = true ↔ needle <:+: t := by
  induction t with
  | nil => simp [occursIn]
  | cons c rest ih =>
    rw [occursIn, Bool.or_eq_true, List.isPrefixOf_iff_prefix, ih, List.infix_cons_iff]

/-- A text does not reach into what stands behind another text if its last character is not
there. -/
theorem prefix_append_iff_of_getLast? {a t z : Text} {c : Char} (ha : a.getLast? = some c)
    (hc : c ∉ z) :
    a <+: t ++ z ↔ a <+: t := by
  refine ⟨fun h => ?_, fun h => h.trans (List.prefix_append t z)⟩
  rcases List.prefix_or_prefix_of_prefix h (List.prefix_append t z) with hp | ⟨u, rfl⟩
  · exact hp
  · have hu : u <+: z := (List.prefix_append_right_inj t).mp h
    cases hlast : u.getLast? with
    | none => rw [List.getLast?_eq_none_iff.mp hlast, List.append_nil]
    | some d =>
      rw [List.getLast?_append, hlast] at ha
      obtain rfl : d = c := by simpa using ha
      exact absurd (hu.subset (List.mem_of_getLast? hlast)) hc

variable {find : Text → Option (Text × Nat)}

/-- The rest of a match is passed over. -/
theorem replaceAll_skip (n : Nat) (t : Text) :
    replaceAll find n t = replaceAll find 0 (t.drop n) := by
  induction t generalizing n with
  | nil => cases n <;> simp [replaceAll]
  | cons c rest ih =>
    cases n with
    | zero => rfl
    | succ n => rw [replaceAll, ih, List.drop_succ_cons]

theorem replaceAll_cons_of_none {c : Char} {rest : Text} (h : find (c :: rest) = none) :
    replaceAll find 0 (c :: rest) = c :: replaceAll find 0 rest := by
  rw [replaceAll, h]

/-- A match at the head of a text is replaced. -/
theorem replaceAll_match {old value rest : Text} (hne : old ≠ [])
    (h : find (old ++ rest) = some (value, old.length)) :
    replaceAll find 0 (old ++ rest) = value ++ replaceAll find 0 rest := by
  obtain ⟨c, old, rfl⟩ := List.exists_cons_of_ne_nil hne
  rw [List.cons_append] at h ⊢
  simp only [replaceAll, h]
  rw [replaceAll_skip, List.length_cons, Nat.add_sub_cancel, List.drop_left]

section

variable {α : Type} {search : Text → Option (α × Nat)}

theorem findAll_skip (n : Nat) (t : Text) : findAll search n t = findAll search 0 (t.drop n) := by
  induction t generalizing n with
  | nil => cases n <;> simp [findAll]
  | cons c rest ih =>
    cases n with
    | zero => rfl
    | succ n => rw [findAll, ih, List.drop_succ_cons]

theorem findAll_cons_of_none {c : Char} {rest : Text} (h : search (c :: rest) = none) :
    findAll search 0 (c :: rest) = findAll search 0 rest := by
  rw [findAll, h]

/-- A match at the head of a text is found, and the next ones are behind it. -/
theorem findAll_match {found rest : Text} {a : α} (hne : found ≠ [])
    (h : search (found ++ rest) = some (a, found.length)) :
    findAll search 0 (found ++ rest) = a :: findAll search 0 rest := by
  obtain ⟨c, found, rfl⟩ := List.exists_cons_of_ne_nil hne
  rw [List.cons_append] at h ⊢
  simp only [findAll, h]
  rw [findAll_skip, List.length_cons, Nat.add_sub_cancel, List.drop_left]

end

/-- Without matches nothing is replaced. -/
theorem replaceAll_eq_self (h : ∀ t, find t = none) (t : Text) : replaceAll find 0 t = t := by
  induction t with
  | nil => rfl
  | cons c rest ih => rw [replaceAll_cons_of_none (h _), ih]

/-- If every match is replaced by itself, the text stays. -/
theorem replaceAll_eq_self_of_take (h : ∀ t p, find t = some p → p.1 = t.take p.2 ∧ 0 < p.2)
    (t : Text) :
    replaceAll find 0 t = t := by
  generalize hn : t.length = n
  induction n using Nat.strongRecOn generalizing t with
  | ind n ih =>
    subst hn
    cases t with
    | nil => rfl
    | cons c rest =>
      cases hfind : find (c :: rest) with
      | none => rw [replaceAll_cons_of_none hfind, ih _ (Nat.lt_succ_self _) rest rfl]
      | some p =>
        obtain ⟨htake, hpos⟩ := h _ p hfind
        obtain ⟨n, hn⟩ := Nat.exists_eq_succ_of_ne_zero (Nat.pos_iff_ne_zero.mp hpos)
        have hdrop : (rest.drop n).length < (c :: rest).length := by
          rw [List.length_drop, List.length_cons]
          omega
        rw [hn, Nat.succ_eq_add_one, List.take_succ_cons] at htake
        simp only [replaceAll, hfind, hn, htake, Nat.succ_eq_add_one, Nat.add_sub_cancel]
        rw [replaceAll_skip, ih _ hdrop _ rfl, List.cons_append, List.take_append_drop]

/-- What is done to a text that no match leaves does not depend on what stands behind it. -/
theorem replaceAll_append {t z : Text} (n : Nat) (hn : n ≤ t.length)
    (h : ∀ s, s <:+ t → s ≠ [] → find (s ++ z) = find s ∧ ∀ p, find s = some p → p.2 ≤ s.length) :
    replaceAll find n (t ++ z) = replaceAll find n t ++ replaceAll find 0 z := by
  induction t generalizing n with
  | nil =>
    obtain rfl : n = 0 := by simpa using hn
    rfl
  | cons c rest ih =>
    have hrest : ∀ s, s <:+ rest → s ≠ [] → find (s ++ z) = find s ∧ ∀ p, find s = some p →
        p.2 ≤ s.length :=
      fun s hs => h s (hs.trans (List.suffix_cons c rest))
    cases n with
    | succ n =>
      rw [List.length_cons] at hn
      exact ih n (Nat.le_of_succ_le_succ hn) hrest
    | zero =>
      obtain ⟨hsame, hlength⟩ := h (c :: rest) List.suffix_rfl (List.cons_ne_nil c rest)
      rw [List.cons_append] at hsame ⊢
      rw [replaceAll, replaceAll, hsame]
      cases hfind : find (c :: rest) with
      | none => simp only [ih 0 (Nat.zero_le _) hrest, List.cons_append]
      | some p =>
        have := hlength p hfind
        rw [List.length_cons] at this
        simp only [ih (p.2 - 1) (by omega) hrest, List.append_assoc]

/-! ### Matches that show -/

/-- Whether every match is replaced by a text that starts differently. -/
def ChangesHead (find : Text → Option (Text × Nat)) : Prop :=
  ∀ c rest p, find (c :: rest) = some p → p.1 ≠ [] ∧ p.1.head? ≠ some c

/-- A stretch is kept exactly if no match starts in it. -/
theorem replaceAll_gap_iff (h : ChangesHead find) (gap t u : Text) :
    replaceAll find 0 (gap ++ t) = gap ++ u ↔
      (∀ n < gap.length, find ((gap ++ t).drop n) = none) ∧ replaceAll find 0 t = u := by
  induction gap with
  | nil => simp
  | cons c gap ih =>
    have hall : (∀ n < (c :: gap).length, find ((c :: gap ++ t).drop n) = none) ↔
        find (c :: gap ++ t) = none ∧ ∀ n < gap.length, find ((gap ++ t).drop n) = none := by
      constructor
      · intro hn
        refine ⟨hn 0 (Nat.succ_pos _), fun n hlt => ?_⟩
        have := hn (n + 1) (by rw [List.length_cons]; omega)
        rwa [List.cons_append, List.drop_succ_cons] at this
      · rintro ⟨hfirst, hrest⟩ n hlt
        cases n with
        | zero => exact hfirst
        | succ n =>
          rw [List.cons_append, List.drop_succ_cons]
          exact hrest n (by rw [List.length_cons] at hlt; omega)
    rw [hall, and_assoc, ← ih]
    cases hfind : find (c :: gap ++ t) with
    | none =>
      rw [List.cons_append] at hfind ⊢
      simp [replaceAll_cons_of_none hfind]
    | some p =>
      -- The text in the place of the match starts with another character than `c`.
      rw [List.cons_append] at hfind
      obtain ⟨hne, hhead⟩ := h c (gap ++ t) p hfind
      obtain ⟨d, value, hvalue⟩ := List.exists_cons_of_ne_nil hne
      rw [hvalue, List.head?_cons, ne_eq, Option.some.injEq] at hhead
      simp only [List.cons_append, replaceAll, hfind, hvalue, List.cons.injEq, hhead, false_and,
        reduceCtorEq]

end Localization.Text
