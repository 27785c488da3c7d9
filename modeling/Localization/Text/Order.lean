import Localization.Text.Basic

/-! The order of texts.

It is a linear order (`le_total`, `le_trans`, `le_antisymm`): of two different texts one
stands before the other. -/
namespace Localization.Text

theorem le_refl (a : Text) : le a a = true := by
  induction a with
  | nil => rfl
  | cons c a ih => rw [le, beq_self_eq_true, ih, Bool.and_self, Bool.or_true]

theorem le_cons {c d : Char} {a b : Text} :
    le (c :: a) (d :: b) = true ↔ c < d ∨ (c = d ∧ le a b = true) := by
  rw [le, Bool.or_eq_true, decide_eq_true_iff, Bool.and_eq_true, beq_iff_eq]

theorem le_total (a b : Text) : (le a b || le b a) = true := by
  rw [Bool.or_eq_true]
  induction a generalizing b with
  | nil => exact .inl rfl
  | cons c a ih =>
    cases b with
    | nil => exact .inr rfl
    | cons d b =>
      rw [le_cons, le_cons]
      by_cases hlt : c < d
      · exact .inl (.inl hlt)
      by_cases hgt : d < c
      · exact .inr (.inl hgt)
      have heq : c = d := Char.le_antisymm (Char.not_lt.mp hgt) (Char.not_lt.mp hlt)
      rcases ih b with h | h
      · exact .inl (.inr ⟨heq, h⟩)
      · exact .inr (.inr ⟨heq.symm, h⟩)

theorem le_trans (a b c : Text) (hab : le a b = true) (hbc : le b c = true) : le a c = true := by
  induction a generalizing b c with
  | nil => rfl
  | cons x a ih =>
    cases b with
    | nil => cases hab
    | cons y b =>
      cases c with
      | nil => cases hbc
      | cons z c =>
        rw [le_cons] at hab hbc ⊢
        rcases hab with hxy | ⟨rfl, hab⟩
        · rcases hbc with hyz | ⟨rfl, -⟩
          · exact .inl (Char.lt_trans hxy hyz)
          · exact .inl hxy
        · rcases hbc with hyz | ⟨rfl, hbc⟩
          · exact .inl hyz
          · exact .inr ⟨rfl, ih b c hab hbc⟩

theorem le_antisymm {a b : Text} (hab : le a b = true) (hba : le b a = true) : a = b := by
  induction a generalizing b with
  | nil =>
    cases b with
    | nil => rfl
    | cons d b => cases hba
  | cons c a ih =>
    cases b with
    | nil => cases hab
    | cons d b =>
      rw [le_cons] at hab hba
      rcases hab with hlt | ⟨rfl, hab⟩
      · rcases hba with hgt | ⟨rfl, -⟩
        · exact absurd (Char.lt_trans hlt hgt) (Char.lt_irrefl _)
        · exact absurd hlt (Char.lt_irrefl _)
      · rcases hba with hgt | ⟨-, hba⟩
        · exact absurd hgt (Char.lt_irrefl _)
        · rw [ih hab hba]

end Localization.Text
