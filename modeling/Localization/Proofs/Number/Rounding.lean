import Mathlib
import Localization.Number.Decimal

/-! How quotients are rounded.

A double that is counted in units of `1 / scale` is on the grid: at most `2 ^ 53` steps of a
power of two. Rounding a quotient keeps it on its side of every number of the grid
(`units_ofUnits_le`, `le_units_ofUnits`), so a quotient that is on the grid is not rounded at
all, and it depends on the number that is rounded only, not on the fraction that stands for it
(`ofUnits_congr`). A quotient that is nearer to a double than half a step is rounded to that
double (`ofUnits_eq_of_isNear`). -/
namespace Localization.Binary64

theorem exists_scale_eq : ∃ j, j ≤ 1074 ∧ scale = Nat.pow 2 j := ⟨1074, Nat.le_refl _, scale.eq_1⟩

theorem exists_scale_eq_four_mul : ∃ j, 100 ≤ j ∧ j ≤ 2045 ∧ scale = 4 * 2 ^ j :=
  ⟨1072, by decide, by decide, by rw [scale, Nat.pow_eq, Nat.mul_comm, ← Nat.pow_add 2 1072 2]⟩

theorem scale_pos : 0 < scale := by
  obtain ⟨j, -, hj⟩ := exists_scale_eq
  rw [hj]
  exact Nat.two_pow_pos j

/-! ### The nearest integer -/

section

variable {n d N : Nat} (hd : 0 < d)

include hd

theorem divToEven_le (h : n ≤ N * d) : divToEven n d ≤ N := by
  have hq : n / d ≤ N := Nat.div_le_of_le_mul (by rwa [Nat.mul_comm])
  have hdiv := Nat.div_add_mod n d
  rcases Nat.lt_or_eq_of_le hq with hlt | rfl
  · simp only [divToEven]
    split
    · exact hq
    · split <;> omega
  · have hmod : n % d = 0 := by
      rw [Nat.mul_comm] at h
      omega
    simp only [divToEven, hmod, Nat.mul_zero, if_pos hd]
    exact Nat.le_refl _

theorem le_divToEven (h : N * d ≤ n) : N ≤ divToEven n d := by
  have hq : N ≤ n / d := (Nat.le_div_iff_mul_le hd).mpr h
  simp only [divToEven]
  split
  · exact hq
  · split <;> omega

/-- The nearest integer is at most half a step away. -/
theorem divToEven_error (n : Nat) :
    2 * (divToEven n d * d) ≤ 2 * n + d ∧ 2 * n ≤ 2 * (divToEven n d * d) + d := by
  have hdiv := Nat.div_add_mod n d
  have hmod := Nat.mod_lt n hd
  have hstep : (n / d + 1) * d = d * (n / d) + d := by rw [Nat.add_mul, Nat.one_mul, Nat.mul_comm]
  have hsame : n / d * d = d * (n / d) := Nat.mul_comm _ _
  simp only [divToEven]
  split
  · omega
  · split
    · next h =>
      rw [beq_iff_eq] at h
      rcases Nat.mod_two_eq_zero_or_one (n / d) with hq
        | hq <;> simp only [hq, Nat.add_zero] <;> omega
    · omega

/-- The nearest integer is even if it is half a step away. -/
theorem divToEven_even
    (h : 2 * n + d = 2 * (divToEven n d * d) ∨ 2 * n = 2 * (divToEven n d * d) + d) :
    divToEven n d % 2 = 0 := by
  have hdiv := Nat.div_add_mod n d
  have hmod := Nat.mod_lt n hd
  have hstep : (n / d + 1) * d = d * (n / d) + d := by rw [Nat.add_mul, Nat.one_mul, Nat.mul_comm]
  have hsame : n / d * d = d * (n / d) := Nat.mul_comm _ _
  simp only [divToEven] at h ⊢
  split at h
  · omega
  · next hless =>
    rw [if_neg hless]
    split at h
    · next hhalf =>
      rw [if_pos hhalf]
      omega
    · next hhalf =>
      rw [beq_iff_eq] at hhalf
      omega

/-- The nearest integer is less than half a step away; half a step only if it is even. -/
theorem divToEven_eq (hlow : 2 * N * d ≤ 2 * n + d) (hhigh : 2 * n ≤ 2 * N * d + d)
    (h : N % 2 = 0 ∨ 2 * N * d < 2 * n + d ∧ 2 * n < 2 * N * d + d) : divToEven n d = N := by
  have hdiv := Nat.div_add_mod n d
  have hmod := Nat.mod_lt n hd
  have hbelow : n / d = N ∨ n / d + 1 = N := by
    have h1 : n / d < N + 1 := by
      rw [Nat.div_lt_iff_lt_mul hd, Nat.add_mul]
      have : 2 * N * d = 2 * (N * d) := Nat.mul_assoc ..
      omega
    have h2 : N < n / d + 2 := by
      by_contra hle
      have : (n / d + 2) * d ≤ N * d := Nat.mul_le_mul_right d (by omega)
      rw [Nat.add_mul, Nat.mul_comm (n / d)] at this
      have : 2 * N * d = 2 * (N * d) := Nat.mul_assoc ..
      omega
    omega
  have hassoc : 2 * N * d = 2 * (d * N) := by rw [Nat.mul_assoc, Nat.mul_comm N]
  rw [hassoc] at hlow hhigh h
  simp only [divToEven]
  rcases hbelow with hq | hq
  · -- the integer below: what is left over is at most half
    rw [hq] at hdiv ⊢
    split
    · rfl
    · next hhalf =>
      have hrest : 2 * (n % d) = d := by omega
      rw [if_pos (by simpa using hrest)]
      omega
  · -- the integer above: what is left over is at least half
    have hstep : d * (n / d) + d = d * N := by rw [← hq, Nat.mul_add, Nat.mul_one]
    rw [if_neg (by omega)]
    split
    · next hrest =>
      rw [beq_iff_eq] at hrest
      omega
    · omega

omit hd in
theorem divToEven_mul_right {c : Nat} (hc : 0 < c) : divToEven (n * c) (d * c) = divToEven n d := by
  have hlt : 2 * (n % d * c) < d * c ↔ 2 * (n % d) < d := by
    rw [← Nat.mul_assoc, Nat.mul_lt_mul_right hc]
  have heq : 2 * (n % d * c) = d * c ↔ 2 * (n % d) = d := by
    rw [← Nat.mul_assoc, Nat.mul_left_inj (by omega)]
  simp only [divToEven, Nat.mul_div_mul_right _ _ hc, Nat.mul_mod_mul_right, hlt, beq_iff_eq, heq]

end

theorem div_congr {n d n' d' : Nat} (hd : 0 < d) (hd' : 0 < d') (h : n * d' = n' * d) :
    n / d = n' / d' := by
  rw [← Nat.mul_div_mul_right n d hd', h, Nat.mul_comm d d', Nat.mul_div_mul_right n' d' hd]

theorem divToEven_congr {n d n' d' : Nat} (hd : 0 < d) (hd' : 0 < d') (h : n * d' = n' * d) :
    divToEven n d = divToEven n' d' := by
  rw [← divToEven_mul_right hd', h, Nat.mul_comm d d', divToEven_mul_right hd]

/-! ### The grid -/

/-- Units that a significand and an exponent without bound stand for. -/
def IsGrid (units : Nat) : Prop := ∃ k j, k ≤ 2 ^ 53 ∧ units = k * 2 ^ j

/-- Units of a double. -/
def IsDouble (units : Nat) : Prop := ∃ k j, k < 2 ^ 53 ∧ j ≤ 2045 ∧ units = k * 2 ^ j

theorem IsDouble.isGrid {units : Nat} (h : IsDouble units) : IsGrid units := by
  obtain ⟨k, j, hk, -, rfl⟩ := h
  exact ⟨k, j, hk.le, rfl⟩

theorem IsGrid.mul_two_pow {n : Nat} (h : IsGrid n) (j : Nat) : IsGrid (n * 2 ^ j) := by
  obtain ⟨k, i, hk, rfl⟩ := h
  exact ⟨k, i + j, hk, by rw [Nat.mul_assoc, ← Nat.pow_add]⟩

theorem isGrid_of_le {n : Nat} (h : n ≤ 2 ^ 53) : IsGrid n := ⟨n, 0, h, by simp⟩

theorem IsGrid.mul_scale {n : Nat} (h : IsGrid n) : IsGrid (n * scale) := by
  obtain ⟨j, -, hj⟩ := exists_scale_eq
  rw [hj]
  exact h.mul_two_pow j

/-- Numbers that have few digits before the zeros at their end are on the grid. -/
theorem isGrid_mul_ten_pow {n p : Nat} (h : n * 5 ^ p ≤ 2 ^ 53) : IsGrid (n * 10 ^ p) := by
  have hten : n * 10 ^ p = n * 5 ^ p * 2 ^ p := by
    rw [Nat.mul_assoc, ← Nat.mul_pow]
  rw [hten]
  exact (isGrid_of_le h).mul_two_pow p

/-! ### Rounding -/

/-- The exponent that so many units are rounded at. -/
def exponentOf (units : Nat) : Nat := if units < 2 ^ 53 then 0 else units.log2 - 52

theorem lt_of_exponentOf (units : Nat) : units < 2 ^ (53 + exponentOf units) := by
  rw [exponentOf]
  split
  · next h => simpa using h
  · next h =>
    have hlog : 53 ≤ units.log2 := (Nat.le_log2 (by omega)).mpr (by omega)
    have : 53 + (units.log2 - 52) = units.log2 + 1 := by omega
    rw [this]
    exact Nat.lt_log2_self

theorem le_of_exponentOf {units : Nat} (h : exponentOf units ≠ 0) :
    2 ^ (52 + exponentOf units) ≤ units := by
  rw [exponentOf] at h ⊢
  split
  · next hlt => exact absurd (if_pos hlt) h
  · next hlt =>
    have hne : units ≠ 0 := by omega
    have hlog : 53 ≤ units.log2 := (Nat.le_log2 hne).mpr (by omega)
    have : 52 + (units.log2 - 52) = units.log2 := by omega
    rw [this]
    exact Nat.log2_self_le hne

theorem exponentOf_eq {units e : Nat} (hlow : e ≠ 0 → 2 ^ (52 + e) ≤ units)
    (hhigh : units < 2 ^ (53 + e)) :
    exponentOf units = e := by
  rw [exponentOf]
  split
  · next hlt =>
    by_contra he
    have : 2 ^ 53 ≤ 2 ^ (52 + e) := Nat.pow_le_pow_right (by decide) (by omega)
    have := hlow (Ne.symm he)
    omega
  · next hlt =>
    have he : e ≠ 0 := by
      rintro rfl
      exact hlt hhigh
    have hne : units ≠ 0 := by omega
    have h1 : 52 + e ≤ units.log2 := (Nat.le_log2 hne).mpr (hlow he)
    have h2 : units.log2 < 53 + e := (Nat.log2_lt hne).mpr hhigh
    omega

/-- The exponent and the significand that a number of units is rounded to, before the
significand overflows. -/
def exponent (num den : Nat) : Nat := exponentOf (num / den)

def significand (num den : Nat) : Nat := divToEven num (den * 2 ^ exponent num den)

/-- The double nearest to `num / den` units. -/
def ofUnits (negative : Bool) (num den : Nat) : Binary64 :=
  let units := num / den
  let exponent := if units < Nat.pow 2 53 then 0 else units.log2 - 52
  let significand := divToEven num (den * Nat.pow 2 exponent)
  let (significand, exponent) :=
    if significand == Nat.pow 2 53 then (Nat.pow 2 52, exponent + 1) else (significand, exponent)
  if exponent ≤ 2045 then finite negative significand exponent else infinite negative

theorem ofQuotient_eq_ofUnits (negative : Bool) (num den : Nat) :
    ofQuotient negative num den = ofUnits negative (num * scale) den := rfl

theorem ofUnits_eq (negative : Bool) (num den : Nat) :
    ofUnits negative num den =
      if significand num den = 2 ^ 53 then
        if exponent num den + 1 ≤ 2045 then finite negative (2 ^ 52) (exponent num den + 1) else
          infinite negative
      else if exponent num den ≤ 2045 then finite negative (significand num den) (exponent num den)
      else infinite negative := by
  have hexponent : (if num / den < Nat.pow 2 53 then 0 else (num / den).log2 - 52) =
      exponent num den := rfl
  have hsignificand : divToEven num (den * Nat.pow 2 (exponent num den)) = significand num den :=
    rfl
  simp only [ofUnits, hexponent, hsignificand]
  by_cases hs : significand num den = 2 ^ 53
  · have hb : (significand num den == Nat.pow 2 53) = true := beq_iff_eq.mpr hs
    rw [hb, if_pos hs, if_pos rfl]
    rfl
  · have hb : (significand num den == Nat.pow 2 53) = false := beq_eq_false_iff_ne.mpr hs
    rw [hb, if_neg hs, if_neg Bool.false_ne_true]

/-- What is rounded is the number that the fraction stands for. -/
theorem ofUnits_congr {num den num' den' : Nat} (negative : Bool) (hd : 0 < den) (hd' : 0 < den')
    (h : num * den' = num' * den) : ofUnits negative num den = ofUnits negative num' den' := by
  have hexponent : exponent num den = exponent num' den' := congrArg exponentOf (div_congr hd hd' h)
  have hsignificand : significand num den = significand num' den' := by
    rw [significand, significand, hexponent]
    refine divToEven_congr (Nat.mul_pos hd (Nat.two_pow_pos _))
      (Nat.mul_pos hd' (Nat.two_pow_pos _)) ?_
    rw [← Nat.mul_assoc, h, Nat.mul_assoc]
  rw [ofUnits_eq, ofUnits_eq, hexponent, hsignificand]

section

variable {negative : Bool} {num den units : Nat} (hd : 0 < den)

include hd

theorem significand_le (num : Nat) : significand num den ≤ 2 ^ 53 := by
  refine divToEven_le (Nat.mul_pos hd (Nat.two_pow_pos _)) ?_
  have hlt := lt_of_exponentOf (num / den)
  rw [Nat.div_lt_iff_lt_mul hd, Nat.pow_add] at hlt
  calc num ≤ 2 ^ 53 * 2 ^ exponent num den * den := hlt.le
    _ = 2 ^ 53 * (den * 2 ^ exponent num den) := by rw [Nat.mul_assoc, Nat.mul_comm den]

theorem le_significand (h : exponent num den ≠ 0) : 2 ^ 52 ≤ significand num den := by
  refine le_divToEven (Nat.mul_pos hd (Nat.two_pow_pos _)) ?_
  have hle := le_of_exponentOf h
  rw [Nat.le_div_iff_mul_le hd, Nat.pow_add] at hle
  calc 2 ^ 52 * (den * 2 ^ exponent num den) = 2 ^ 52 * 2 ^ exponent num den * den := by
        rw [Nat.mul_assoc, Nat.mul_comm den]
    _ ≤ num := hle

omit hd in
/-- What is left of units when they are rounded. -/
theorem units_ofUnits (h : (ofUnits negative num den).isFinite = true) :
    (ofUnits negative num den).units = significand num den * 2 ^ exponent num den := by
  rw [ofUnits_eq] at h ⊢
  by_cases hs : significand num den = 2 ^ 53
  · rw [if_pos hs] at h ⊢
    by_cases he : exponent num den + 1 ≤ 2045
    · rw [if_pos he, Binary64.units, hs, Nat.pow_eq, Nat.pow_succ]
      omega
    · rw [if_neg he] at h
      exact absurd h Bool.false_ne_true
  · rw [if_neg hs] at h ⊢
    by_cases he : exponent num den ≤ 2045
    · rw [if_pos he]
      rfl
    · rw [if_neg he] at h
      exact absurd h Bool.false_ne_true

/-- Rounding does not go beyond a number on the grid. -/
theorem rounded_le (hgrid : IsGrid units) (h : num ≤ units * den) :
    significand num den * 2 ^ exponent num den ≤ units := by
  obtain ⟨k, j, hk, rfl⟩ := hgrid
  -- the grid at the exponent of the rounding holds the number too
  obtain ⟨N, hN⟩ : ∃ N, N * 2 ^ exponent num den = k * 2 ^ j := by
    by_cases hj : exponent num den ≤ j
    · refine ⟨k * 2 ^ (j - exponent num den), ?_⟩
      rw [Nat.mul_assoc, ← Nat.pow_add, Nat.sub_add_cancel hj]
    · have hne : exponent num den ≠ 0 := by omega
      refine ⟨2 ^ 52, ?_⟩
      have hlow : 2 ^ (52 + exponent num den) ≤ k * 2 ^ j :=
        (le_of_exponentOf hne).trans (Nat.div_le_of_le_mul (by rwa [Nat.mul_comm]))
      have hhigh : k * 2 ^ j ≤ 2 ^ (52 + exponent num den) :=
        calc k * 2 ^ j ≤ 2 ^ 53 * 2 ^ j := Nat.mul_le_mul_right _ hk
          _ = 2 ^ (53 + j) := (Nat.pow_add 2 53 j).symm
          _ ≤ 2 ^ (52 + exponent num den) := Nat.pow_le_pow_right (by decide) (by omega)
      rw [← Nat.pow_add]
      exact Nat.le_antisymm hlow hhigh
  rw [← hN]
  refine Nat.mul_le_mul_right _ (divToEven_le (Nat.mul_pos hd (Nat.two_pow_pos _)) ?_)
  rwa [Nat.mul_comm den, ← Nat.mul_assoc, hN]

theorem le_rounded (hgrid : IsGrid units) (h : units * den ≤ num) :
    units ≤ significand num den * 2 ^ exponent num den := by
  obtain ⟨k, j, hk, rfl⟩ := hgrid
  by_cases hj : exponent num den ≤ j
  · have hN : k * 2 ^ j = k * 2 ^ (j - exponent num den) * 2 ^ exponent num den := by
      rw [Nat.mul_assoc, ← Nat.pow_add, Nat.sub_add_cancel hj]
    rw [hN]
    refine Nat.mul_le_mul_right _ (le_divToEven (Nat.mul_pos hd (Nat.two_pow_pos _)) ?_)
    rwa [Nat.mul_comm den, ← Nat.mul_assoc, ← hN]
  · calc k * 2 ^ j ≤ 2 ^ 53 * 2 ^ j := Nat.mul_le_mul_right _ hk
      _ = 2 ^ 52 * 2 ^ (j + 1) := by rw [Nat.pow_succ]; omega
      _ ≤ 2 ^ 52 * 2 ^ exponent num den :=
        Nat.mul_le_mul_left _ (Nat.pow_le_pow_right (by decide) (by omega))
      _ ≤ significand num den * 2 ^ exponent num den :=
        Nat.mul_le_mul_right _ (le_significand hd (by omega))

variable (negative) in
/-- A rounded number is at most half a step away, and a step is small for a number with many
digits. -/
theorem units_ofUnits_error (hfinite : (ofUnits negative num den).isFinite = true) :
    ∃ step, 2 * ((ofUnits negative num den).units * den) ≤ 2 * num + den * step ∧
      2 * num ≤ 2 * ((ofUnits negative num den).units * den) + den * step ∧
      (step = 1 ∨ den * (2 ^ 52 * step) ≤ num) := by
  refine ⟨2 ^ exponent num den, ?_⟩
  obtain ⟨hhigh, hlow⟩ := divToEven_error (Nat.mul_pos hd (Nat.two_pow_pos (exponent num den))) num
  have hunits : significand num den * (den * 2 ^ exponent num den) =
      (ofUnits negative num den).units * den := by
    rw [units_ofUnits hfinite]
    ring
  rw [← significand, hunits] at hhigh hlow
  refine ⟨hhigh, hlow, ?_⟩
  by_cases he : exponent num den = 0
  · left
    rw [he, Nat.pow_zero]
  · right
    have hle := le_of_exponentOf he
    rw [Nat.le_div_iff_mul_le hd, Nat.pow_add] at hle
    rw [Nat.mul_comm]
    exact hle

theorem units_ofUnits_le (hgrid : IsGrid units) (h : num ≤ units * den) :
    (ofUnits negative num den).units ≤ units := by
  by_cases hfinite : (ofUnits negative num den).isFinite = true
  · rw [units_ofUnits hfinite]
    exact rounded_le hd hgrid h
  · have hzero : (ofUnits negative num den).units = 0 := by
      revert hfinite
      cases ofUnits negative num den <;> simp [isFinite, Binary64.units]
    omega

theorem le_units_ofUnits (hgrid : IsGrid units) (h : units * den ≤ num)
    (hfinite : (ofUnits negative num den).isFinite = true) :
    units ≤ (ofUnits negative num den).units := by
  rw [units_ofUnits hfinite]
  exact le_rounded hd hgrid h

variable (negative) in
/-- What is no greater than a double is rounded to one. -/
theorem isFinite_ofUnits (hdouble : IsDouble units) (h : num ≤ units * den) :
    (ofUnits negative num den).isFinite = true := by
  have hle := rounded_le hd hdouble.isGrid h
  obtain ⟨k, j, hk, hj, rfl⟩ := hdouble
  have hlt : significand num den * 2 ^ exponent num den < 2 ^ 53 * 2 ^ j :=
    hle.trans_lt (Nat.mul_lt_mul_of_pos_right hk (Nat.two_pow_pos j))
  have hexponent {i e : Nat} (h : 2 ^ i * 2 ^ e < 2 ^ 53 * 2 ^ j) : i + e < 53 + j := by
    rw [← Nat.pow_add, ← Nat.pow_add] at h
    exact (Nat.pow_lt_pow_iff_right (by decide)).mp h
  rw [ofUnits_eq]
  by_cases hs : significand num den = 2 ^ 53
  · have := hexponent (hs ▸ hlt)
    rw [if_pos hs, if_pos (by omega)]
    rfl
  · have he : exponent num den ≤ 2045 := by
      by_cases hzero : exponent num den = 0
      · omega
      · have := hexponent ((Nat.mul_le_mul_right _ (le_significand hd hzero)).trans_lt hlt)
        omega
    rw [if_neg hs, if_pos he]
    rfl

variable (negative) in
/-- Units that are those of a double are not rounded. -/
theorem units_ofUnits_eq (hdouble : IsDouble units) (h : num = units * den) :
    (ofUnits negative num den).isFinite = true ∧ (ofUnits negative num den).units = units := by
  have hfinite := isFinite_ofUnits negative hd hdouble h.le
  exact ⟨hfinite, Nat.le_antisymm (units_ofUnits_le hd hdouble.isGrid h.le)
    (le_units_ofUnits hd hdouble.isGrid h.ge hfinite)⟩

end

/-! ### The form of a double -/

/-- A significand and an exponent in the one form of their value. -/
def IsForm (m e : Nat) : Prop := m < 2 ^ 53 ∧ e ≤ 2045 ∧ (e ≠ 0 → 2 ^ 52 ≤ m)

/-- Whether a double is in the one form of its value. -/
def IsNormal : Binary64 → Prop
  | finite _ m e => IsForm m e
  | _ => True

theorem isNormal_ofUnits (negative : Bool) (num : Nat) {den : Nat} (hd : 0 < den) :
    (ofUnits negative num den).IsNormal := by
  rw [ofUnits_eq]
  by_cases hs : significand num den = 2 ^ 53
  · rw [if_pos hs]
    by_cases he : exponent num den + 1 ≤ 2045
    · rw [if_pos he]
      exact ⟨by decide, he, fun _ => Nat.le_refl _⟩
    · rw [if_neg he]
      trivial
  · rw [if_neg hs]
    by_cases he : exponent num den ≤ 2045
    · rw [if_pos he]
      exact ⟨Nat.lt_of_le_of_ne (significand_le hd num) hs, he, le_significand hd⟩
    · rw [if_neg he]
      trivial

theorem isNegative_ofUnits (negative : Bool) (num den : Nat) :
    (ofUnits negative num den).isNegative = negative := by
  rw [ofUnits_eq]
  split <;> split <;> rfl

/-- A magnitude that is rounded is in that form. -/
theorem exists_form {num den : Nat} {y : Binary64} (hd : 0 < den) (h : y = ofUnits false num den)
    (hfinite : y.isFinite = true) :
    ∃ m e, y = finite false m e ∧ IsForm m e := by
  have hnormal : y.IsNormal := h ▸ isNormal_ofUnits false num hd
  have hsign := isNegative_ofUnits false num den
  rw [← h] at hsign
  cases y with
  | finite s m e =>
    obtain rfl : s = false := hsign
    exact ⟨m, e, rfl, hnormal⟩
  | infinite s => cases hfinite
  | nan => cases hfinite

/-- The interval that is rounded to a double, in quarters of a unit: half a step up and, unless
the step below is half as great, half a step down. -/
def low (m e : Nat) : Nat := (4 * m - (if m == Nat.pow 2 52 && e ≠ 0 then 1 else 2)) * Nat.pow 2 e

def high (m e : Nat) : Nat := (4 * m + 2) * Nat.pow 2 e

/-- Whether a number of units lies in that interval; its ends do so if the significand is even. -/
def IsNear (m e : Nat) (units : ℚ) : Prop :=
  low m e ≤ 4 * units ∧ 4 * units ≤ high m e ∧
  (m % 2 = 0 ∨ low m e < 4 * units ∧ 4 * units < high m e)

/-- The interval for a fraction. -/
theorem isNear_div {m e num den : Nat} (hd : 0 < den) :
    IsNear m e (num / den) ↔ low m e * den ≤ 4 * num ∧ 4 * num ≤ high m e * den ∧
      (m % 2 = 0 ∨ low m e * den < 4 * num ∧ 4 * num < high m e * den) := by
  have hden : (0 : ℚ) < den := by exact_mod_cast hd
  rw [IsNear, ← mul_div_assoc, le_div_iff₀ hden, div_le_iff₀ hden, lt_div_iff₀ hden,
    div_lt_iff₀ hden]
  norm_cast

/-- The ends of the interval in steps of the exponent. -/
theorem low_mul (m e den : Nat) :
    low m e * den = 4 * (m * (den * 2 ^ e)) - (if m = 2 ^ 52 ∧
      e ≠ 0 then 1 else 2) * (den * 2 ^ e) := by
  have hstep : (if m == Nat.pow 2 52 && e ≠ 0 then 1 else 2 : Nat) = if m = 2 ^ 52 ∧
      e ≠ 0 then 1 else 2 := by simp
  rw [low, hstep, Nat.pow_eq, Nat.mul_assoc, Nat.mul_comm (2 ^ e), Nat.sub_mul, Nat.mul_assoc]

theorem high_mul (m e den : Nat) :
    high m e * den = 4 * (m * (den * 2 ^ e)) + 2 * (den * 2 ^ e) := by
  rw [high, Nat.pow_eq, Nat.mul_assoc, Nat.mul_comm (2 ^ e), Nat.add_mul, Nat.mul_assoc]

theorem ofUnits_of_exponent {negative : Bool} {num den m e : Nat} (hexponent : exponent num den = e)
    (hsignificand : significand num den = m) (hm : m < 2 ^ 53) (he : e ≤ 2045) :
    ofUnits negative num den = finite negative m e := by
  rw [ofUnits_eq, hexponent, hsignificand, if_neg (by omega), if_pos he]

/-- A significand that overflows is the least one of the next exponent. -/
theorem ofUnits_of_overflow {negative : Bool} {num den e : Nat}
    (hexponent : exponent num den + 1 = e) (hsignificand : significand num den = 2 ^ 53)
    (he : e ≤ 2045) :
    ofUnits negative num den = finite negative (2 ^ 52) e := by
  rw [ofUnits_eq, hexponent, if_pos hsignificand, if_pos he]

/-- Units that are near to a double are rounded to it. -/
theorem ofUnits_eq_of_isNear {negative : Bool} {m e num den : Nat} (hd : 0 < den) (hm : 0 < m)
    (hform : IsForm m e) (h : IsNear m e (num / den)) :
    ofUnits negative num den = finite negative m e := by
  obtain ⟨hlt, he, hleast⟩ := hform
  obtain ⟨hlow, hhigh, hends⟩ := (isNear_div hd).mp h
  have hstep : 0 < den * 2 ^ e := Nat.mul_pos hd (Nat.two_pow_pos e)
  have hunit {i : Nat} : 2 ^ (i + e) * den = 2 ^ i * (den * 2 ^ e) := by
    rw [Nat.pow_add, Nat.mul_assoc, Nat.mul_comm (2 ^ e)]
  have hleastStep : 1 * (den * 2 ^ e) ≤ m * (den * 2 ^ e) := Nat.mul_le_mul_right _ hm
  have hmost : m * (den * 2 ^ e) ≤ (2 ^ 53 - 1) * (den * 2 ^ e) := Nat.mul_le_mul_right _ (by omega)
  rw [low_mul] at hlow hends
  rw [high_mul] at hhigh hends
  have hbelow : num / den < 2 ^ (53 + e) := by
    rw [Nat.div_lt_iff_lt_mul hd, hunit]
    omega
  by_cases hsame : e ≠ 0 → 2 ^ (52 + e) ≤ num / den
  · -- rounded at the same exponent
    have hexponent : exponent num den = e := exponentOf_eq hsame hbelow
    refine ofUnits_of_exponent hexponent ?_ hlt he
    rw [significand, hexponent]
    refine divToEven_eq hstep ?_ ?_ ?_ <;> rw [Nat.mul_assoc]
    · split at hlow <;> omega
    · omega
    · refine hends.imp id fun hends => ?_
      split at hends <;> omega
  · -- below a power of two the exponent is one less
    rw [not_forall] at hsame
    obtain ⟨hne, hsame⟩ := hsame
    have hless : num < 2 ^ 52 * (den * 2 ^ e) := by
      rw [Nat.le_div_iff_mul_le hd, hunit] at hsame
      omega
    have hpower : m = 2 ^ 52 := by
      by_contra hne'
      have hmore : (2 ^ 52 + 1) * (den * 2 ^ e) ≤ m * (den * 2 ^ e) := by
        have := hleast hne
        exact Nat.mul_le_mul_right _ (by omega)
      rw [if_neg fun h => hne' h.1] at hlow
      omega
    obtain ⟨e, rfl⟩ := Nat.exists_eq_succ_of_ne_zero hne
    rw [if_pos ⟨hpower, hne⟩] at hlow
    rw [hpower] at hlow ⊢
    have hhalf : den * 2 ^ (e + 1) = 2 * (den * 2 ^ e) := by rw [Nat.pow_succ]; ring
    rw [hhalf] at hlow hless hstep
    have hexponent : exponent num den = e := by
      refine exponentOf_eq (fun _ => ?_) ?_
      · rw [Nat.le_div_iff_mul_le hd, Nat.pow_add, Nat.mul_assoc, Nat.mul_comm (2 ^ e)]
        omega
      · rw [Nat.div_lt_iff_lt_mul hd, Nat.pow_add, Nat.mul_assoc, Nat.mul_comm (2 ^ e)]
        omega
    refine ofUnits_of_overflow (by rw [hexponent]) ?_ he
    rw [significand, hexponent]
    refine divToEven_eq (by omega) ?_ ?_ (.inl (by decide)) <;> rw [Nat.mul_assoc] <;> omega

/-- What is rounded to a double is near to it. -/
theorem isNear_of_ofUnits_eq {negative : Bool} {m e num den : Nat} (hd : 0 < den)
    (h : ofUnits negative num den = finite negative m e) : IsNear m e (num / den) := by
  have hstep := Nat.mul_pos hd (Nat.two_pow_pos (exponent num den))
  obtain ⟨hhigh, hlow⟩ := divToEven_error hstep num
  have heven := divToEven_even hstep (n := num)
  rw [← significand] at hhigh hlow heven
  rw [isNear_div hd, low_mul, high_mul]
  have hunit {i : Nat} :
      2 ^ (i + exponent num den) * den = 2 ^ i * (den * 2 ^ exponent num den) := by
    rw [Nat.pow_add, Nat.mul_assoc, Nat.mul_comm (2 ^ exponent num den)]
  rw [ofUnits_eq] at h
  split at h
  · next hs =>
    -- the significand overflows: the step is the one before, half as great
    split at h
    · obtain ⟨-, rfl, rfl⟩ := Binary64.finite.inj h
      have hlt := lt_of_exponentOf (num / den)
      rw [← exponent, Nat.div_lt_iff_lt_mul hd, hunit] at hlt
      have hdouble : den * 2 ^ (exponent num den + 1) = 2 * (den * 2 ^ exponent num den) := by
        rw [Nat.pow_succ]; ring
      rw [if_pos ⟨rfl, Nat.succ_ne_zero _⟩, hdouble]
      rw [hs] at hlow hhigh
      refine ⟨by omega, by omega, .inl (by decide)⟩
    · cases h
  · split at h
    · obtain ⟨-, rfl, rfl⟩ := Binary64.finite.inj h
      split
      · next hpower =>
        -- nothing below a power of two has its exponent
        have hle := le_of_exponentOf hpower.2
        rw [← exponent, Nat.le_div_iff_mul_le hd, hunit] at hle
        rw [hpower.1] at hlow hhigh ⊢
        refine ⟨by omega, by omega, .inl (by decide)⟩
      · refine ⟨by omega, by omega, ?_⟩
        by_contra hodd
        rw [not_or, not_and_or] at hodd
        have hleast :
            1 * (den * 2 ^ exponent num den) ≤ significand num den * (den * 2 ^ exponent num den) :=
          Nat.mul_le_mul_right _ (by omega)
        refine hodd.1 (heven ?_)
        omega
    · cases h

/-! ### Arithmetic -/

theorem exists_finite {x : Binary64} (hx : x.isFinite = true) : ∃ s m e, x = finite s m e := by
  cases x with
  | finite s m e => exact ⟨s, m, e, rfl⟩
  | infinite s => exact absurd hx Bool.false_ne_true
  | nan => exact absurd hx Bool.false_ne_true

section

variable {x y : Binary64} (hx : x.isFinite = true)

include hx

theorem add_eq (hy : y.isFinite = true) (hxsign : x.isNegative = false)
    (hysign : y.isNegative = false) : x + y = ofUnits false (x.units + y.units) 1 := by
  obtain ⟨s, m, e, rfl⟩ := exists_finite hx
  obtain ⟨t, n, f, rfl⟩ := exists_finite hy
  obtain rfl : s = false := hxsign
  obtain rfl : t = false := hysign
  have hsum : (finite false m e).scaled + (finite false n f).scaled =
      ((finite false m e).units + (finite false n f).units : Nat) := rfl
  have hnegative : ¬ (((finite false m e).units + (finite false n f).units : Nat) : Int) < 0 := by
    omega
  change add (finite false m e) (finite false n f) = _
  rw [add, hsum, Int.natAbs_natCast, Bool.and_false, decide_eq_false hnegative, ite_self,
    ofQuotient_eq_ofUnits]
  exact ofUnits_congr _ scale_pos Nat.one_pos (Nat.mul_one _)

theorem mul_eq (hy : y.isFinite = true) :
    x * y = ofUnits (x.isNegative != y.isNegative) (x.units * y.units) scale := by
  obtain ⟨s, m, e, rfl⟩ := exists_finite hx
  obtain ⟨t, n, f, rfl⟩ := exists_finite hy
  change mul (finite s m e) (finite t n f) = _
  rw [mul, ofQuotient_eq_ofUnits]
  exact ofUnits_congr _ (Nat.mul_pos scale_pos scale_pos) scale_pos (Nat.mul_assoc _ _ _)

theorem div_eq (hy : y.isFinite = true) (hzero : y.units ≠ 0) :
    x / y = ofUnits (x.isNegative != y.isNegative) (x.units * scale) y.units := by
  obtain ⟨s, m, e, rfl⟩ := exists_finite hx
  obtain ⟨t, n, f, rfl⟩ := exists_finite hy
  have hn : (n == 0) = false := by
    rw [beq_eq_false_iff_ne]
    rintro rfl
    exact hzero (Nat.zero_mul _)
  change div (finite s m e) (finite t n f) = _
  rw [div, hn, if_neg Bool.false_ne_true, ofQuotient_eq_ofUnits]
  rfl

theorem round_eq :
    x.round = ofUnits x.isNegative ((2 * x.units + scale) / (2 * scale) * scale) 1 := by
  obtain ⟨s, m, e, rfl⟩ := exists_finite hx
  rw [round, ofQuotient_eq_ofUnits]
  rfl

end

theorem ofNat_eq (n : Nat) :
    ofNat n = ofUnits false (n * scale) 1 := by rw [ofNat, ofQuotient_eq_ofUnits]

end Localization.Binary64
