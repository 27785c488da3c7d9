import Mathlib
import Localization.Proofs.Number.Rounding

/-! The shortest digits of a double.

Places of digits are tried from that of the first digit on, and the digits that are taken lie in the
interval that is rounded to the double (`isNear_shortest`); seventeen places always suffice
(`exists_found`). So the digits end at the latest where the value of the double itself does
(`le_exponent_shortest`). -/
namespace Localization.Decimal

open Binary64 (scale scale_pos IsForm IsNear floorLog10)

theorem ten_zpow_pos (p : Int) : (0 : ℚ) < 10 ^ p := by positivity

/-! ### The place of the first digit -/

/-- The logarithm of a number of at least one, by its digits. -/
theorem le_length_toDigits {n : Nat} (h : 0 < n) :
    10 ^ ((Nat.toDigits 10 n).length - 1) ≤ n ∧ n < 10 ^ (Nat.toDigits 10 n).length := by
  have hpos : 0 < (Nat.toDigits 10 n).length := Nat.length_toDigits_pos
  refine ⟨?_, (Nat.length_toDigits_le_iff (by decide) hpos).mp (Nat.le_refl _)⟩
  by_cases hone : (Nat.toDigits 10 n).length = 1
  · rw [hone]
    exact h
  · by_contra hlt
    have :=
      (Nat.length_toDigits_le_iff (b := 10) (k := (Nat.toDigits 10 n).length - 1) (n := n)
        (by decide) (by omega)).mpr
      (by omega)
    omega

/-- Between which powers of ten a number lies. -/
theorem floorLog10_spec {num den : Nat} (hn : 0 < num) (hd : 0 < den) :
    (10 : ℚ) ^ floorLog10 num den ≤ num / den ∧
      (num / den : ℚ) < 10 ^ (floorLog10 num den + 1) := by
  have hden : (0 : ℚ) < den := by exact_mod_cast hd
  have hnum : (0 : ℚ) < num := by exact_mod_cast hn
  rw [floorLog10]
  split
  · next hle =>
    have hq : 0 < num / den := Nat.div_pos hle hd
    obtain ⟨hlow, hhigh⟩ := le_length_toDigits hq
    have hpos : 0 < (Nat.toDigits 10 (num / den)).length := Nat.length_toDigits_pos
    generalize (Nat.toDigits 10 (num / den)).length = digits at hlow hhigh hpos
    obtain ⟨k, rfl⟩ := Nat.exists_eq_succ_of_ne_zero hpos.ne'
    rw [Nat.succ_sub_one, Nat.le_div_iff_mul_le hd] at hlow
    rw [Nat.div_lt_iff_lt_mul hd] at hhigh
    have hcast : ((k.succ : Nat) : Int) - 1 = (k : Nat) := by push_cast; ring
    rw [hcast, le_div_iff₀ hden, div_lt_iff₀ hden]
    refine ⟨by rw [zpow_natCast]; exact_mod_cast hlow, ?_⟩
    rw [show (k : Int) + 1 = ((k + 1 : Nat) : Int) by push_cast; ring, zpow_natCast]
    exact_mod_cast hhigh
  · next hlt =>
    have hq : 0 < den / num := Nat.div_pos (by omega) hn
    obtain ⟨hlow, hhigh⟩ := le_length_toDigits hq
    have hpos : 0 < (Nat.toDigits 10 (den / num)).length := Nat.length_toDigits_pos
    generalize (Nat.toDigits 10 (den / num)).length = digits at hlow hhigh hpos
    obtain ⟨k, rfl⟩ := Nat.exists_eq_succ_of_ne_zero hpos.ne'
    rw [Nat.succ_sub_one, Nat.le_div_iff_mul_le hn] at hlow
    rw [Nat.div_lt_iff_lt_mul hn] at hhigh
    simp only [Nat.succ_sub_one, Nat.pow_eq]
    have hlow' : (10 : ℚ) ^ k * num ≤ den := by exact_mod_cast hlow
    have hhigh' : (den : ℚ) < 10 ^ (k + 1) * num := by exact_mod_cast hhigh
    have hten : (0 : ℚ) < 10 ^ k := by positivity
    split
    · next hle =>
      have hle' : (den : ℚ) ≤ num * 10 ^ k := by exact_mod_cast hle
      have hpow : (10 : ℚ) ^ (-(k : Int)) = 1 / 10 ^ k := by rw [zpow_neg, zpow_natCast, one_div]
      rw [zpow_add₀ (by norm_num), zpow_one, hpow]
      refine ⟨by rw [div_le_div_iff₀ hten hden]; linarith, ?_⟩
      rw [one_div_mul_eq_div, div_lt_div_iff₀ hden hten]
      nlinarith
    · next hgt =>
      have hgt' : (num : ℚ) * 10 ^ k < den := by
        have : num * 10 ^ k < den := by omega
        exact_mod_cast this
      have hpow : (10 : ℚ) ^ (-((k.succ : Nat) : Int)) = 1 / 10 ^ (k + 1) := by
        rw [zpow_neg, zpow_natCast, one_div]
      rw [zpow_add₀ (by norm_num), zpow_one, hpow]
      refine ⟨by rw [div_le_div_iff₀ (by positivity) hden]; linarith, ?_⟩
      rw [one_div_mul_eq_div, div_lt_div_iff₀ hden (by positivity)]
      rw [pow_succ]
      linarith

/-! ### Digits as a number -/

/-- The number that digits stand for. -/
def Digits.value (d : Digits) : ℚ := d.digits * 10 ^ d.exponent

theorem value_normalize (fuel : Nat) (d : Digits) : (d.normalize fuel).value = d.value := by
  induction fuel generalizing d with
  | zero => rfl
  | succ fuel ih =>
    rw [Digits.normalize]
    split
    · next h =>
      simp only [ne_eq, decide_not, Bool.and_eq_true, Bool.not_eq_true', decide_eq_false_iff_not,
        beq_iff_eq] at h
      have hdigits : (d.digits : ℚ) = (d.digits / 10 : Nat) * 10 := by
        have : d.digits = d.digits / 10 * 10 := by omega
        exact_mod_cast this
      rw [ih, Digits.value, Digits.value, zpow_add₀ (by norm_num), zpow_one, hdigits]
      push_cast
      ring
    · rfl

theorem exponent_le_normalize (fuel : Nat) (d : Digits) :
    d.exponent ≤ (d.normalize fuel).exponent := by
  induction fuel generalizing d with
  | zero => exact le_refl _
  | succ fuel ih =>
    rw [Digits.normalize]
    split
    · exact (show d.exponent ≤ d.exponent + 1 by omega).trans (ih _)
    · exact le_refl _

/-! ### Digits on a grid -/

/-- The denominator of fractions with a denominator on a grid. -/
def gridden (den : Nat) (place : Int) : Nat :=
  if 0 ≤ place then den * Nat.pow 10 place.toNat else den

theorem onGrid_snd (num den : Nat) (place : Int) :
    (onGrid num den place).2 = gridden den place := by
  rw [onGrid, gridden]
  split <;> rfl

theorem gridden_pos {den : Nat} (hd : 0 < den) (place : Int) : 0 < gridden den place := by
  rw [gridden]
  split
  · exact Nat.mul_pos hd (Nat.pow_pos (by decide))
  · exact hd

/-- Measuring on a grid divides by its step. -/
theorem onGrid_fst {den : Nat} (hd : 0 < den) (num : Nat) (place : Int) :
    ((onGrid num den place).1 : ℚ) = num / den / 10 ^ place * gridden den place := by
  have hden : (den : ℚ) ≠ 0 := by exact_mod_cast hd.ne'
  have hten := (ten_zpow_pos place).ne'
  rw [onGrid, gridden]
  split
  · next h =>
    obtain ⟨k, rfl⟩ := Int.eq_ofNat_of_zero_le h
    rw [Int.toNat_natCast, Nat.pow_eq, zpow_natCast] at *
    push_cast
    field_simp
  · next h =>
    obtain ⟨k, hk⟩ := Int.eq_ofNat_of_zero_le (show 0 ≤ -place by omega)
    have hplace : place = -(k : Int) := by omega
    rw [hplace, neg_neg, Int.toNat_natCast, Nat.pow_eq, zpow_neg, zpow_natCast] at *
    push_cast
    field_simp

section

variable {tie : Tie} {low value high den : Nat} {closed : Bool} {place : Int} (hd : 0 < den)

/-- Whether digits lie between the bounds, the bounds included if `closed`. -/
def Fits (low high den : Nat) (closed : Bool) (x : ℚ) : Prop :=
  if closed then (low / den : ℚ) ≤ x ∧ x ≤ high / den else (low / den : ℚ) < x ∧ x < high / den

/-- Whether so many steps of a grid lie between the bounds. -/
def fits (low high den : Nat) (closed : Bool) (place : Int) (n : Nat) : Bool :=
  if closed then (onGrid low den place).1 ≤ n * gridden den place && n * gridden den place ≤
    (onGrid high den place).1
  else (onGrid low den place).1 < n * gridden den place && n * gridden den place <
    (onGrid high den place).1

include hd

theorem fits_iff {n : Nat} :
    fits low high den closed place n = true ↔ Fits low high den closed (n * 10 ^ place) := by
  have hten := ten_zpow_pos place
  have hgrid : (0 : ℚ) < gridden den place := by exact_mod_cast gridden_pos hd place
  have hle (num : Nat) : (onGrid num den place).1 ≤ n * gridden den place ↔
      (num / den : ℚ) ≤ n * 10 ^ place := by
    rw [← Nat.cast_le (α := ℚ), onGrid_fst hd, Nat.cast_mul, mul_le_mul_iff_left₀ hgrid,
      div_le_iff₀ hten]
  have hge (num : Nat) : n * gridden den place ≤ (onGrid num den place).1 ↔
      (n * 10 ^ place : ℚ) ≤ num / den := by
    rw [← Nat.cast_le (α := ℚ), onGrid_fst hd, Nat.cast_mul, mul_le_mul_iff_left₀ hgrid,
      le_div_iff₀ hten]
  rw [fits, Fits]
  split
  · rw [Bool.and_eq_true, decide_eq_true_eq, decide_eq_true_eq, hle, hge]
  · rw [Bool.and_eq_true, decide_eq_true_eq, decide_eq_true_eq, ← not_le, ← not_le, hge, hle,
      not_le, not_le]

omit hd in
/-- Which of the two neighbours is taken where both lie between the bounds. -/
def prefersBelow (tie : Tie) (v d : Nat) : Bool :=
  if 2 * (v % d) == d then
    match tie with
    | .up => false
    | .toEven => v / d % 2 == 0
  else 2 * (v % d) < d

omit hd in
theorem nearestWithin_eq :
    nearestWithin tie low value high den closed place =
      let below := (onGrid value den place).1 / gridden den place
      if fits low high den closed place below && fits low high den closed place (below + 1) then
        some ⟨if prefersBelow tie (onGrid value den place).1 (gridden den place) then below else
          below + 1, place⟩
      else if fits low high den closed place below then some ⟨below, place⟩
      else if fits low high den closed place (below + 1) then some ⟨below + 1, place⟩
      else none := by
  rw [← onGrid_snd value den place]
  simp only [fits, ← onGrid_snd value den place]
  rfl

/-- The digits that are taken lie between the bounds. -/
theorem fits_of_nearestWithin {d : Digits}
    (h : nearestWithin tie low value high den closed place = some d) :
    d.exponent = place ∧ Fits low high den closed d.value := by
  have hsome {n : Nat} (hfits : fits low high den closed place n = true)
      (he : (⟨n, place⟩ : Digits) = d) :
      d.exponent = place ∧ Fits low high den closed d.value := by
    subst he
    exact ⟨rfl, (fits_iff hd).mp hfits⟩
  rw [nearestWithin_eq] at h
  simp only at h
  split at h
  · next hboth =>
    rw [Bool.and_eq_true] at hboth
    refine hsome ?_ (Option.some.inj h)
    split
    · exact hboth.1
    · exact hboth.2
  · split at h
    · next hbelow => exact hsome hbelow (Option.some.inj h)
    · split at h
      · next habove => exact hsome habove (Option.some.inj h)
      · cases h

omit hd in
/-- Digits are taken if one of the two neighbours of the value lies between the bounds. -/
theorem isSome_nearestWithin
    (h : fits low high den closed place ((onGrid value den place).1 / gridden den place) = true ∨
      fits low high den closed place ((onGrid value den place).1 / gridden den place + 1) = true) :
    (nearestWithin tie low value high den closed place).isSome = true := by
  rw [nearestWithin_eq]
  simp only
  split
  · rfl
  · split
    · rfl
    · next hbelow =>
      rw [if_pos (h.resolve_left hbelow)]
      rfl

/-- If any step of the grid lies between the bounds of a value, one of its neighbours does. -/
theorem isSome_of_fits {n : Nat} (h : Fits low high den closed (n * 10 ^ place))
    (hlow : low < value) (hhigh : value < high) :
    (nearestWithin tie low value high den closed place).isSome = true := by
  have hden : (0 : ℚ) < den := by exact_mod_cast hd
  have hten := ten_zpow_pos place
  have hgrid := gridden_pos hd place
  have hgrid' : (0 : ℚ) < gridden den place := by exact_mod_cast hgrid
  have hvalue :
      (value / den : ℚ) = (onGrid value den place).1 / gridden den place * 10 ^ place := by
    rw [onGrid_fst hd, mul_div_cancel_right₀ _ hgrid'.ne', div_mul_cancel₀ _ hten.ne']
  have hl : (low / den : ℚ) < value / den := div_lt_div_of_pos_right (by exact_mod_cast hlow) hden
  have hh : (value / den : ℚ) < high / den := div_lt_div_of_pos_right (by exact_mod_cast hhigh) hden
  -- the neighbours are between the value and the step
  have hbelow : ((onGrid value den place).1 / gridden den place : Nat) * (10 : ℚ) ^ place ≤
      value / den := by
    rw [hvalue]
    exact mul_le_mul_of_nonneg_right Nat.cast_div_le hten.le
  have habove : (value / den : ℚ) < ((onGrid value den place).1 / gridden den place + 1 : Nat) *
      10 ^ place := by
    rw [hvalue]
    refine mul_lt_mul_of_pos_right ?_ hten
    rw [div_lt_iff₀ hgrid']
    exact_mod_cast Nat.lt_mul_of_div_lt (Nat.lt_succ_self _) hgrid
  refine isSome_nearestWithin ?_
  rw [fits_iff hd, fits_iff hd]
  by_cases hn : n ≤ (onGrid value den place).1 / gridden den place
  · have hle : (n * 10 ^ place : ℚ) ≤ ((onGrid value den place).1 / gridden den place : Nat) *
        10 ^ place :=
      mul_le_mul_of_nonneg_right (by exact_mod_cast hn) hten.le
    left
    cases closed <;> simp only [Fits, Bool.false_eq_true, if_true, if_false] at h ⊢
    · exact ⟨h.1.trans_le hle, hbelow.trans_lt hh⟩
    · exact ⟨h.1.trans hle, (hbelow.trans_lt hh).le⟩
  · have hle : (((onGrid value den place).1 / gridden den place + 1 : Nat) * 10 ^ place : ℚ) ≤
        n * 10 ^ place :=
      mul_le_mul_of_nonneg_right (by exact_mod_cast Nat.lt_of_not_le hn) hten.le
    right
    cases closed <;> simp only [Fits, Bool.false_eq_true, if_true, if_false] at h ⊢
    · exact ⟨hl.trans habove, hle.trans_lt h.2⟩
    · exact ⟨(hl.trans habove).le, hle.trans h.2⟩

/-- Bounds that are half a step away from the value on both sides, or a whole one above it, have
digits between them. -/
theorem isSome_of_width
    (h : (10 : ℚ) ^ place < 2 * (value / den - low / den) ∧ (10 : ℚ) ^ place <
      2 * (high / den - value / den) ∨ low < value ∧ (10 : ℚ) ^ place < high / den - value / den) :
    (nearestWithin tie low value high den closed place).isSome = true := by
  have hden : (0 : ℚ) < den := by exact_mod_cast hd
  have hten := ten_zpow_pos place
  have hgrid : (0 : ℚ) < gridden den place := by exact_mod_cast gridden_pos hd place
  have hfst := onGrid_fst hd value place
  set v := (onGrid value den place).1 with hv
  set g := gridden den place with hg
  -- the value is `below` steps and a rest
  obtain ⟨rest, hrest, hlt⟩ : ∃ rest : ℚ, (value / den : ℚ) = ((v / g : Nat) + rest) * 10 ^ place ∧
      0 ≤ rest ∧ rest < 1 := by
    refine ⟨(v % g : Nat) / g, ?_, by positivity, ?_⟩
    · have hdiv : (v : ℚ) = g * (v / g : Nat) + (v % g : Nat) := by
        exact_mod_cast (Nat.div_add_mod v g).symm
      have hsteps : (value / den : ℚ) = v / g * 10 ^ place := by
        rw [hfst]
        field_simp
      rw [hsteps, hdiv]
      field_simp
    · rw [div_lt_one hgrid]
      exact_mod_cast Nat.mod_lt v (gridden_pos hd place)
  have hbelow (h1 : (low / den : ℚ) < (v / g : Nat) * 10 ^ place)
      (h2 : ((v / g : Nat) * 10 ^ place : ℚ) < high / den) :
      fits low high den closed place (v / g) = true := by
    rw [fits_iff hd, Fits]
    split
    · exact ⟨h1.le, h2.le⟩
    · exact ⟨h1, h2⟩
  have habove (h1 : (low / den : ℚ) < ((v / g : Nat) + 1) * 10 ^ place)
      (h2 : (((v / g : Nat) + 1) * 10 ^ place : ℚ) < high / den) :
        fits low high den closed place (v / g + 1) = true := by
    rw [fits_iff hd, Fits]
    push_cast
    split
    · exact ⟨h1.le, h2.le⟩
    · exact ⟨h1, h2⟩
  refine isSome_nearestWithin ?_
  rcases h with ⟨hl, hh⟩ | ⟨hl, hh⟩
  · by_cases hhalf : rest ≤ 1 / 2
    · exact .inl (hbelow (by nlinarith) (by nlinarith))
    · exact .inr (habove (by nlinarith) (by nlinarith))
  · have hl' : (low / den : ℚ) < value / den := div_lt_div_of_pos_right (by exact_mod_cast hl) hden
    exact .inr (habove (by nlinarith) (by nlinarith))

end

/-! ### The shortest digits -/

section

variable {m e : Nat}

/-- The value of a double. -/
def size (m e : Nat) : ℚ := m * 2 ^ e / scale

/-- The place of its first digit. -/
def top (m e : Nat) : Int := floorLog10 (4 * m * Nat.pow 2 e) (4 * scale)

/-- The digits that end at a place. -/
def endingAt (tie : Tie) (m e : Nat) (place : Int) : Option Digits :=
  nearestWithin tie (Binary64.low m e) (4 * m * Nat.pow 2 e) (Binary64.high m e) (4 * scale)
    (m % 2 == 0) place

theorem shortest_eq (tie : Tie) (m e : Nat) :
    shortest tie m e =
      ((((List.range 17).map fun n : Nat => top m e - n).findSome? (endingAt tie m e)).getD
      ⟨4 * m * Nat.pow 2 e / (4 * scale), 0⟩).normalize 32 := rfl

theorem quarter_scale_pos : 0 < 4 * scale := Nat.mul_pos (by decide) scale_pos

theorem size_eq (m e : Nat) :
    size m e = ((4 * m * Nat.pow 2 e : Nat) : ℚ) / ((4 * scale : Nat) : ℚ) := by
  rw [size, Nat.pow_eq]
  push_cast
  rw [mul_assoc, mul_div_mul_left _ _ (by norm_num)]

section

variable (hm : 0 < m)

include hm

theorem size_pos : 0 < size m e := by
  have hscale : (0 : ℚ) < scale := by exact_mod_cast scale_pos
  have hm' : (0 : ℚ) < m := by exact_mod_cast hm
  rw [size]
  exact div_pos (by positivity) hscale

/-- A double lies between the powers of ten at the place of its first digit and at the one
before it. -/
theorem top_spec : (10 : ℚ) ^ top m e ≤ size m e ∧ size m e < 10 ^ (top m e + 1) := by
  have hvalue : 0 < 4 * m * Nat.pow 2 e := Nat.mul_pos (by omega) (Nat.pow_pos (by decide))
  have hspec := floorLog10_spec hvalue quarter_scale_pos
  rw [← size_eq] at hspec
  exact hspec

theorem low_cast :
    (Binary64.low m e : ℚ) = (4 * m - if m = 2 ^ 52 ∧ e ≠ 0 then 1 else 2) * 2 ^ e := by
  have hstep : (if m == Nat.pow 2 52 && e ≠ 0 then 1 else 2 : Nat) = if m = 2 ^ 52 ∧
      e ≠ 0 then 1 else 2 := by simp
  have hle : (if m = 2 ^ 52 ∧ e ≠ 0 then 1 else 2) ≤ 4 * m := by split <;> omega
  rw [Binary64.low, hstep, Nat.pow_eq, Nat.cast_mul, Nat.cast_sub hle]
  push_cast
  rfl

theorem le_low : (4 * m - 2) * 2 ^ e ≤ (Binary64.low m e : ℚ) := by
  rw [low_cast hm]
  refine mul_le_mul_of_nonneg_right ?_ (by positivity)
  split <;> linarith

theorem low_lt_value : Binary64.low m e < 4 * m * Nat.pow 2 e := by
  rw [Binary64.low]
  refine Nat.mul_lt_mul_of_pos_right ?_ (Nat.pow_pos (by decide))
  split <;> omega

omit hm in
theorem value_lt_high : 4 * m * Nat.pow 2 e < Binary64.high m e := by
  rw [Binary64.high]
  exact Nat.mul_lt_mul_of_pos_right (by omega) (Nat.pow_pos (by decide))

/-- Seventeen places suffice. -/
theorem isSome_endingAt (tie : Tie) (hlt : m < 2 ^ 53) :
    (endingAt tie m e (top m e - 16)).isSome = true := by
  have hscale : (0 : ℚ) < scale := by exact_mod_cast scale_pos
  have hm' : (0 : ℚ) < m := by exact_mod_cast hm
  have hlt' : (m : ℚ) < 2 ^ 53 := by exact_mod_cast hlt
  -- a step of the exponent is more than one at the seventeenth place
  have hstep : (0 : ℚ) < 2 ^ e / scale := div_pos (by positivity) hscale
  have htop := (top_spec hm (e := e)).1
  have hplaces : (10 : ℚ) ^ top m e = 10 ^ (top m e - 16) * 10 ^ 16 := by
    rw [← zpow_natCast, ← zpow_add₀ (by norm_num)]
    norm_num
  have hsize : size m e = m * (2 ^ e / scale) := by rw [size, mul_div_assoc]
  rw [hplaces, hsize] at htop
  have hten := ten_zpow_pos (top m e - 16)
  refine isSome_of_width quarter_scale_pos ?_
  rw [← size_eq, low_cast hm, Binary64.high, hsize, Nat.pow_eq]
  push_cast
  have hlow (c : ℚ) : ((4 * m - c) * 2 ^ e / (4 * scale) : ℚ) =
      m * (2 ^ e / scale) - c / 4 * (2 ^ e / scale) := by field_simp
  have hhigh : ((4 * m + 2) * 2 ^ e / (4 * scale) : ℚ) =
      m * (2 ^ e / scale) + 1 / 2 * (2 ^ e / scale) := by
    field_simp
    ring
  rw [hlow, hhigh]
  split
  · next hpower =>
    refine .inr ⟨low_lt_value hm, ?_⟩
    rw [hpower.1] at htop ⊢
    push_cast at htop ⊢
    linarith
  · refine .inl ⟨?_, ?_⟩ <;> nlinarith

/-- The shortest digits end at the first place where digits are found. -/
theorem exists_found (tie : Tie) (hlt : m < 2 ^ 53) :
    ∃ (n : Nat) (d : Digits), n ≤ 16 ∧ endingAt tie m e (top m e - n) = some d ∧
      shortest tie m e = d.normalize 32 ∧
      ∀ n' : Nat, (endingAt tie m e (top m e - n')).isSome = true → n ≤ n' := by
  have hsome :
      (((List.range 17).map fun n : Nat => top m e - n).findSome? (endingAt tie m e)).isSome =
        true := by
    rw [List.findSome?_isSome_iff]
    exact ⟨top m e - (16 : Nat), List.mem_map_of_mem (List.mem_range.mpr (by decide)),
      isSome_endingAt hm tie hlt⟩
  obtain ⟨d, hd⟩ := Option.isSome_iff_exists.mp hsome
  obtain ⟨before, place, after, hplaces, hplace, hbefore⟩ := List.findSome?_eq_some_iff.mp hd
  have hlength : before.length ≤ 16 := by
    have := congrArg List.length hplaces
    simp only [List.length_map, List.length_range, List.length_append, List.length_cons] at this
    omega
  have hat : ∀ i : Nat, i ≤ 16 → (before ++ place :: after)[i]? = some (top m e - i) := by
    intro i hi
    rw [← hplaces, List.getElem?_map, List.getElem?_range (by omega)]
    rfl
  have hnth := hat before.length hlength
  rw [List.getElem?_append_right (Nat.le_refl _), Nat.sub_self, List.getElem?_cons_zero,
    Option.some.injEq] at hnth
  refine ⟨before.length, d, hlength, hnth ▸ hplace, ?_, ?_⟩
  · rw [shortest_eq, hd, Option.getD_some]
  · intro n' hn'
    by_contra hless
    have hmem := hat n' (by omega)
    rw [List.getElem?_append_left (by omega)] at hmem
    have := hbefore _ (List.mem_of_getElem? hmem)
    rw [this] at hn'
    cases hn'

omit hm in
/-- What is rounded to a double is what lies between the bounds for its digits. -/
theorem fits_iff_isNear {x : ℚ} :
    Fits (Binary64.low m e) (Binary64.high m e) (4 * scale) (m % 2 == 0) x ↔
      IsNear m e (x * scale) := by
  have hscale : (0 : ℚ) < 4 * scale := by exact_mod_cast quarter_scale_pos
  have hunits : 4 * (x * scale) = x * (4 * scale) := by ring
  rw [Fits, IsNear, hunits]
  push_cast
  rw [div_le_iff₀ hscale, le_div_iff₀ hscale, div_lt_iff₀ hscale, lt_div_iff₀ hscale]
  split
  · next heven =>
    rw [beq_iff_eq] at heven
    exact ⟨fun h => ⟨h.1, h.2, .inl heven⟩, fun h => ⟨h.1, h.2.1⟩⟩
  · next hodd =>
    rw [beq_iff_eq] at hodd
    exact ⟨fun h => ⟨h.1.le, h.2.le, .inr h⟩, fun h => h.2.2.resolve_left hodd⟩

/-- The shortest digits are rounded to the double. -/
theorem isNear_shortest (tie : Tie) (hlt : m < 2 ^ 53) :
    IsNear m e ((shortest tie m e).value * scale) := by
  obtain ⟨n, d, -, hd, hshortest, -⟩ := exists_found hm tie hlt (e := e)
  rw [hshortest, value_normalize]
  exact fits_iff_isNear.mp (fits_of_nearestWithin quarter_scale_pos hd).2

/-- A double is rounded to itself. -/
theorem isNear_size : IsNear m e (size m e * scale) := by
  have hscale : (0 : ℚ) < ((4 * scale : Nat) : ℚ) := by exact_mod_cast quarter_scale_pos
  rw [← fits_iff_isNear, size_eq, Fits, div_le_div_iff_of_pos_right hscale,
    div_le_div_iff_of_pos_right hscale, div_lt_div_iff_of_pos_right hscale,
    div_lt_div_iff_of_pos_right hscale, Nat.cast_le, Nat.cast_le, Nat.cast_lt, Nat.cast_lt]
  have hlow := low_lt_value hm (e := e)
  have hhigh := value_lt_high (m := m) (e := e)
  split
  · exact ⟨hlow.le, hhigh.le⟩
  · exact ⟨hlow, hhigh⟩

/-- The shortest digits end at the latest at a place where any digits end that are rounded to
the double. -/
theorem le_exponent_of_isNear (tie : Tie) (hlt : m < 2 ^ 53) {k : Nat} {place : Int}
    (h : IsNear m e (k * 10 ^ place * scale)) (hplace : place ≤ top m e) :
    place ≤ (shortest tie m e).exponent := by
  obtain ⟨n, d, -, hd, hshortest, hfirst⟩ := exists_found hm tie hlt (e := e)
  obtain ⟨n', hn'⟩ := Int.eq_ofNat_of_zero_le (show 0 ≤ top m e - place by omega)
  have hfound : (endingAt tie m e (top m e - n')).isSome = true := by
    rw [show top m e - (n' : Int) = place by omega]
    exact isSome_of_fits quarter_scale_pos (fits_iff_isNear.mpr h) (low_lt_value hm) value_lt_high
  have hle := hfirst n' hfound
  have hexponent := (fits_of_nearestWithin quarter_scale_pos hd).1
  have hnormal := exponent_le_normalize 32 d
  rw [hshortest]
  omega

/-- Where the value of the double ends, the shortest digits end too. -/
theorem le_exponent_shortest (tie : Tie) (hlt : m < 2 ^ 53) {k : Nat} {place : Int}
    (h : size m e = k * 10 ^ place) :
    place ≤ (shortest tie m e).exponent := by
  refine le_exponent_of_isNear hm tie hlt (k := k) (h ▸ isNear_size hm) ?_
  have hk : 0 < k := by
    have := size_pos hm (e := e)
    rw [h] at this
    by_contra hk
    obtain rfl : k = 0 := by omega
    simp at this
  by_contra hgt
  have hone : (1 : ℚ) ≤ k := by exact_mod_cast hk
  have hpow : (10 : ℚ) ^ (top m e + 1) ≤ 10 ^ place := zpow_le_zpow_right₀ (by norm_num) (by omega)
  refine absurd (top_spec hm (e := e)).2 (not_lt.mpr ?_)
  calc (10 : ℚ) ^ (top m e + 1) ≤ 10 ^ place := hpow
    _ ≤ k * 10 ^ place := le_mul_of_one_le_left (ten_zpow_pos place).le hone
    _ = size m e := h.symm

/-- The shortest digits have at most seventeen places. -/
theorem top_le_exponent_shortest (tie : Tie) (hlt : m < 2 ^ 53) :
    top m e - 16 ≤ (shortest tie m e).exponent := by
  obtain ⟨n, d, hn, hd, hshortest, -⟩ := exists_found hm tie hlt (e := e)
  have hexponent := (fits_of_nearestWithin quarter_scale_pos hd).1
  have hnormal := exponent_le_normalize 32 d
  rw [hshortest]
  omega

end

end

end Localization.Decimal
