import Mathlib
import Localization.Proofs.Plural.Numeral

/-! Rounding for a selector.

A number with few digits is its own rounding (`roundAt_ofNat`, `roundAt_ofNat_multiple`,
`roundAt_decimal`). Whatever is rounded to whole numbers is one, and what is rounded to one or
two significant digits ends with a zero from ten or from a hundred on, unless it is too great to
be read. -/
namespace Localization.Plural

open Binary64 (scale scale_pos ofUnits ofNat IsDouble IsGrid ofUnits_congr units_ofUnits_eq)

/-! ### Powers of ten -/

theorem power_eq {n : Nat} (h : n ≤ 309) : power n = ofUnits false (10 ^ n * scale) 1 := by
  have hlength : (Text.ofNat 1).length = 1 := rfl
  rw [power, Decimal.toBinary64, hlength]
  have hone : ((1 : Nat) == 0) = false := rfl
  simp only [hone, Bool.false_eq_true, if_false]
  rw [if_neg (by omega), if_neg (by omega), if_pos (by omega), Nat.one_mul, Int.toNat_natCast,
    Binary64.ofQuotient_eq_ofUnits, Nat.pow_eq]

theorem power_of_gt {n : Nat} (h : 309 < n) : power n = .infinite false := by
  have hlength : (Text.ofNat 1).length = 1 := rfl
  rw [power, Decimal.toBinary64, hlength]
  have hone : ((1 : Nat) == 0) = false := rfl
  simp only [hone, Bool.false_eq_true, if_false]
  rw [if_pos (by omega)]

/-- A number with few digits before the zeros at its end is one of a double. -/
theorem isDouble_mul_ten_pow {n k : Nat} (hk : k ≤ 900) (h : n * 5 ^ k < 2 ^ 53) :
    IsDouble (n * 10 ^ k * scale) := by
  obtain ⟨j, hj, hscale⟩ := Binary64.exists_scale_eq
  refine ⟨n * 5 ^ k, k + j, h, by omega, ?_⟩
  have hten : n * 10 ^ k = n * 5 ^ k * 2 ^ k := by rw [Nat.mul_assoc, ← Nat.mul_pow]
  rw [hten, hscale, Nat.pow_eq, Nat.mul_assoc, ← Nat.pow_add]

theorem five_pow_lt {k : Nat} (hk : k ≤ 22) : 1 * 5 ^ k < 2 ^ 53 := by
  rw [Nat.one_mul]
  exact (Nat.pow_le_pow_right (by decide) hk).trans_lt (by decide)

theorem units_power {k : Nat} (hk : k ≤ 22) :
    (power k).isFinite = true ∧ (power k).units = 10 ^ k * scale := by
  have hdouble := isDouble_mul_ten_pow (n := 1) (k := k) (by omega) (five_pow_lt hk)
  rw [Nat.one_mul] at hdouble
  rw [power_eq (by omega)]
  exact units_ofUnits_eq _ Nat.one_pos hdouble (Nat.mul_one _).symm

theorem isNegative_power (n : Nat) : (power n).isNegative = false := by
  by_cases h : n ≤ 309
  · rw [power_eq h, Binary64.isNegative_ofUnits]
  · rw [power_of_gt (by omega)]
    rfl

theorem roundAt_natCast (x : Binary64) (k : Nat) : roundAt x k = (x * power k).round / power k := by
  rw [roundAt, if_pos (by omega), Int.toNat_natCast]

theorem roundAt_neg (x : Binary64) {k : Nat} (hk : 0 < k) :
    roundAt x (-(k : Int)) = (x / power k).round * power k := by
  rw [roundAt, if_neg (by omega), neg_neg, Int.toNat_natCast]

/-! ### Numbers that are not rounded -/

/-- A natural number is its own rounding. -/
theorem round_ofUnits {n : Nat} (h : IsDouble (n * scale)) :
    (ofUnits false (n * scale) 1).round = ofUnits false (n * scale) 1 := by
  obtain ⟨hfinite, hunits⟩ := units_ofUnits_eq false Nat.one_pos h (Nat.mul_one _).symm
  have hnearest : (2 * (n * scale) + scale) / (2 * scale) = n := by
    have hscale := scale_pos
    rw [Nat.div_eq_iff (by omega)]
    constructor <;> ring_nf <;> omega
  rw [Binary64.round_eq hfinite, Binary64.isNegative_ofUnits, hunits, hnearest]

/-- Many places behind the point change no natural number. -/
theorem roundAt_ofNat {n k : Nat} (hk : k ≤ 22) (hn : n < 2 ^ 53)
    (hscaled : IsDouble (n * 10 ^ k * scale)) :
    roundAt (ofNat n) k = ofNat n := by
  obtain ⟨hfinite, hunits⟩ := Binary64.units_ofNat hn
  obtain ⟨hpower, hpunits⟩ := units_power hk
  have hnegative : (ofNat n).isNegative = false := by
    rw [Binary64.ofNat_eq, Binary64.isNegative_ofUnits]
  have hproduct : ofNat n * power k = ofUnits false (n * 10 ^ k * scale) 1 := by
    rw [Binary64.mul_eq hfinite hpower, hunits, hpunits, hnegative, isNegative_power]
    refine ofUnits_congr false scale_pos Nat.one_pos ?_
    ring
  obtain ⟨hfinite', hunits'⟩ := units_ofUnits_eq false Nat.one_pos hscaled (Nat.mul_one _).symm
  have hne : (power k).units ≠ 0 := by
    rw [hpunits]
    exact (Nat.mul_pos (Nat.pow_pos (by decide)) scale_pos).ne'
  rw [roundAt_natCast, hproduct, round_ofUnits hscaled, Binary64.div_eq hfinite' hpower hne,
    hunits', hpunits, Binary64.isNegative_ofUnits, isNegative_power, Binary64.ofNat_eq]
  refine ofUnits_congr false (Nat.mul_pos (Nat.pow_pos (by decide)) scale_pos) Nat.one_pos ?_
  ring

/-- Places before the point change no number that ends with so many zeros. -/
theorem roundAt_ofNat_multiple {n k : Nat} (hpos : 0 < k) (hk : k ≤ 22) (h : n * 5 ^ k < 2 ^ 53)
    (hlt : n * 10 ^ k < 2 ^ 53) :
    roundAt (ofNat (n * 10 ^ k)) (-(k : Int)) = ofNat (n * 10 ^ k) := by
  have hn : n < 2 ^ 53 := (Nat.le_mul_of_pos_right n (Nat.pow_pos (by decide))).trans_lt h
  obtain ⟨hfinite, hunits⟩ := Binary64.units_ofNat hlt
  obtain ⟨hpower, hpunits⟩ := units_power hk
  have hnegative : (ofNat (n * 10 ^ k)).isNegative = false := by
    rw [Binary64.ofNat_eq, Binary64.isNegative_ofUnits]
  have hne : (power k).units ≠ 0 := by
    rw [hpunits]
    exact (Nat.mul_pos (Nat.pow_pos (by decide)) scale_pos).ne'
  have hquotient : ofNat (n * 10 ^ k) / power k = ofUnits false (n * scale) 1 := by
    rw [Binary64.div_eq hfinite hpower hne, hunits, hpunits, hnegative, isNegative_power]
    refine ofUnits_congr false (Nat.mul_pos (Nat.pow_pos (by decide)) scale_pos) Nat.one_pos ?_
    ring
  obtain ⟨hfinite', hunits'⟩ := units_ofUnits_eq false Nat.one_pos (Binary64.isDouble_mul_scale hn)
    (Nat.mul_one _).symm
  rw [roundAt_neg _ hpos, hquotient, round_ofUnits (Binary64.isDouble_mul_scale hn),
    Binary64.mul_eq hfinite' hpower, hunits', hpunits, Binary64.isNegative_ofUnits,
    isNegative_power, Binary64.ofNat_eq]
  refine ofUnits_congr false scale_pos Nat.one_pos ?_
  ring

/-- A number that is near to a whole one is rounded to it. -/
theorem round_of_near {x : Binary64} {k q : Nat} (hfinite : x.isFinite = true)
    (hscale : scale = 4 * q) (hlow : 4 * k * q ≤ x.units + q) (hhigh : x.units ≤ 4 * k * q + q) :
    x.round = ofUnits x.isNegative (k * scale) 1 := by
  have hq : 0 < q := by
    have := scale_pos
    omega
  have hnearest : (2 * x.units + scale) / (2 * scale) = k := by
    rw [hscale, Nat.div_eq_iff (by omega)]
    have hkq : k * (2 * (4 * q)) = 2 * (4 * k * q) := by ring
    have hkq' : (k + 1) * (2 * (4 * q)) = 2 * (4 * k * q) + 8 * q := by ring
    constructor
    · omega
    · omega
  rw [Binary64.round_eq hfinite, hnearest]

/-- A decimal fraction as a double. -/
theorem decimal_eq {a j : Nat} (ha : 0 < a) (hj : j ≤ 300) (hlt : a < 10 ^ 200) :
    decimal a j = ofUnits false (a * scale) (10 ^ j) := by
  have hpos : (1 : ℚ) ≤ a := by exact_mod_cast ha
  have hhigh : (a : ℚ) < 10 ^ 200 := by exact_mod_cast hlt
  have hpow : (1 : ℚ) ≤ 10 ^ j := one_le_pow₀ (by norm_num)
  have hvalue : (a * 10 ^ (-(j : Int)) : ℚ) = a / (10 ^ j : Nat) := by
    rw [zpow_neg, zpow_natCast, ← div_eq_mul_inv]
    push_cast
    rfl
  rw [decimal]
  refine Decimal.toBinary64_eq_ofUnits (Nat.pow_pos (by decide)) ?_ ?_ hvalue
  · calc (10 : ℚ) ^ (-330 : Int) < 10 ^ (-(j : Int)) := zpow_lt_zpow_right₀ (by norm_num) (by omega)
      _ ≤ a * 10 ^ (-(j : Int)) := le_mul_of_one_le_left (by positivity) hpos
  · calc (a * 10 ^ (-(j : Int)) : ℚ) ≤ a := by
          rw [hvalue]
          push_cast
          exact div_le_self (by linarith) hpow
      _ < 10 ^ 200 := hhigh
      _ < 10 ^ (310 : Int) := by
          rw [← zpow_natCast]
          exact zpow_lt_zpow_right₀ (by norm_num) (by norm_num)

theorem decimal_zero {a : Nat} (h : a < 10 ^ 200) : decimal a 0 = ofNat a := by
  obtain rfl | ha := Nat.eq_zero_or_pos a
  · rw [Binary64.ofNat_eq, Nat.zero_mul]
    rfl
  · rw [decimal_eq ha (Nat.zero_le _) h, Nat.pow_zero, Binary64.ofNat_eq]

/-- Zeros at the end of its digits change no decimal fraction. -/
theorem decimal_mul_ten_pow {a j z : Nat} (hj : j + z ≤ 300) (h : a * 10 ^ z < 10 ^ 200) :
    decimal (a * 10 ^ z) (j + z) = decimal a j := by
  have hten : 0 < 10 ^ z := Nat.pow_pos (by decide)
  obtain rfl | ha := Nat.eq_zero_or_pos a
  · rw [Nat.zero_mul]
    rfl
  · rw [decimal_eq (Nat.mul_pos ha hten) hj h,
      decimal_eq ha (by omega) ((Nat.le_mul_of_pos_right a hten).trans_lt h)]
    refine ofUnits_congr false (Nat.pow_pos (by decide)) (Nat.pow_pos (by decide)) ?_
    rw [Nat.pow_add]
    ring

/-- A magnitude that is at most a quarter of a step away from `n / 10 ^ k` is rounded to that. -/
theorem roundAt_of_near {x : Binary64} {n k i : Nat} (hfinite : x.isFinite = true)
    (hsign : x.isNegative = false) (hscale : scale = 4 * 2 ^ i) (hi : i ≤ 2045) (hk : k ≤ 22)
    (h : n < 2 ^ 51) (hbelow : (4 * n - 1) * 2 ^ i ≤ x.units * 10 ^ k)
    (habove : x.units * 10 ^ k ≤ (4 * n + 1) * 2 ^ i) :
    roundAt x k = ofUnits false (n * scale) (10 ^ k) := by
  obtain ⟨hpower, hpunits⟩ := units_power hk
  have hproduct : x * power k = ofUnits false (x.units * 10 ^ k) 1 := by
    rw [Binary64.mul_eq hfinite hpower, hpunits, hsign, isNegative_power]
    refine ofUnits_congr false scale_pos Nat.one_pos ?_
    ring
  -- the rounded product is as near to the whole number, since quarters are on the grid
  have hgrid {c : Nat} (hc : c ≤ 2 ^ 53) : IsGrid (c * 2 ^ i) := ⟨c, i, hc, rfl⟩
  have hproductFinite : (x * power k).isFinite = true := by
    rw [hproduct]
    exact Binary64.isFinite_ofUnits _ Nat.one_pos ⟨4 * n + 1, i, by omega, hi,
      rfl⟩ (by rw [Nat.mul_one]; exact habove)
  have hatLeast : (4 * n - 1) * 2 ^ i ≤ (x * power k).units := by
    rw [hproduct] at hproductFinite ⊢
    exact Binary64.le_units_ofUnits Nat.one_pos (hgrid (by omega)) ((Nat.mul_one _).trans_le hbelow)
      hproductFinite
  have hatMost : (x * power k).units ≤ (4 * n + 1) * 2 ^ i := by
    rw [hproduct]
    exact Binary64.units_ofUnits_le Nat.one_pos (hgrid (by omega))
      (habove.trans_eq (Nat.mul_one _).symm)
  have hrounded : (x * power k).round = ofUnits false (n * scale) 1 := by
    rw [Nat.sub_mul] at hatLeast
    rw [Nat.add_mul] at hatMost
    have hproductSign : (x * power k).isNegative = false := by
      rw [hproduct, Binary64.isNegative_ofUnits]
    rw [round_of_near (k := n) hproductFinite hscale (by omega) (by omega), hproductSign]
  have hten : 0 < 10 ^ k := Nat.pow_pos (by decide)
  have hne : (power k).units ≠ 0 := by
    rw [hpunits]
    exact (Nat.mul_pos hten scale_pos).ne'
  obtain ⟨hfinite', hunits'⟩ := units_ofUnits_eq false Nat.one_pos
    (Binary64.isDouble_mul_scale (h.trans (by decide))) (Nat.mul_one _).symm
  rw [roundAt_natCast, hrounded, Binary64.div_eq hfinite' hpower hne, hunits', hpunits,
    Binary64.isNegative_ofUnits, isNegative_power]
  refine ofUnits_congr false (Nat.mul_pos hten scale_pos) hten ?_
  ring

/-- A decimal fraction with few digits is its own rounding. -/
theorem roundAt_decimal {a j k : Nat} (ha : 0 < a) (hj : j ≤ k) (hk : k ≤ 22)
    (h : a * 10 ^ (k - j) < 2 ^ 51) :
    roundAt (decimal a j) k = decimal a j := by
  obtain ⟨i, hi, hmost, hscale⟩ := Binary64.exists_scale_eq_four_mul
  have hlt : a < 2 ^ 51 := (Nat.le_mul_of_pos_right a (Nat.pow_pos (by decide))).trans_lt h
  have hten : 0 < 10 ^ j := Nat.pow_pos (by decide)
  have hdecimal := decimal_eq (j := j) ha (by omega) (hlt.trans (by norm_num))
  have hfinite : (decimal a j).isFinite = true := by
    rw [hdecimal]
    refine Binary64.isFinite_ofUnits _ hten (Binary64.isDouble_mul_scale (hlt.trans (by decide))) ?_
    exact Nat.le_mul_of_pos_right _ hten
  have hsign : (decimal a j).isNegative = false := by rw [hdecimal, Binary64.isNegative_ofUnits]
  -- the whole number that the product is near to
  have hwhole : a * 10 ^ k = a * 10 ^ (k - j) * 10 ^ j := by
    rw [Nat.mul_assoc, ← Nat.pow_add, Nat.sub_add_cancel hj]
  generalize a * 10 ^ (k - j) = n at h hwhole
  obtain ⟨step, hhigh, hlow, hstep⟩ := Binary64.units_ofUnits_error false hten (hdecimal ▸ hfinite)
  rw [← hdecimal] at hhigh hlow
  -- the product is at most a quarter away from it
  have hsmall : step * 10 ^ k ≤ 2 * 2 ^ i := by
    rcases hstep with rfl | hstep
    · rw [Nat.one_mul]
      calc 10 ^ k ≤ 10 ^ 22 := Nat.pow_le_pow_right (by decide) hk
        _ ≤ 2 ^ 100 := by norm_num
        _ ≤ 2 ^ i := Nat.pow_le_pow_right (by decide) hi
        _ ≤ 2 * 2 ^ i := by omega
    · have hscaled : 10 ^ j * (2 ^ 52 * (step * 10 ^ k)) ≤ 10 ^ j * (n * scale) :=
        calc 10 ^ j * (2 ^ 52 * (step * 10 ^ k)) = 10 ^ j * (2 ^ 52 * step) * 10 ^ k := by ring
          _ ≤ a * scale * 10 ^ k := Nat.mul_le_mul_right _ hstep
          _ = 10 ^ j * (n * scale) := by rw [Nat.mul_right_comm, hwhole]; ring
      have hle := Nat.le_of_mul_le_mul_left hscaled hten
      have hlargest : n * scale ≤ 2 ^ 51 * scale := Nat.mul_le_mul_right _ h.le
      rw [hscale] at hle hlargest
      omega
  have hexact : 2 * (a * scale) * 10 ^ k = 10 ^ j * (2 * (n * scale)) := by
    rw [Nat.mul_assoc, Nat.mul_right_comm, hwhole]
    ring
  have hhigh' : 2 * ((decimal a j).units * 10 ^ k) ≤ 2 * (n * scale) + step * 10 ^ k := by
    refine Nat.le_of_mul_le_mul_left ?_ hten
    calc 10 ^ j * (2 * ((decimal a j).units * 10 ^ k)) =
        2 * ((decimal a j).units * 10 ^ j) * 10 ^ k := by ring
      _ ≤ (2 * (a * scale) + 10 ^ j * step) * 10 ^ k := Nat.mul_le_mul_right _ hhigh
      _ = 10 ^ j * (2 * (n * scale) + step * 10 ^ k) := by rw [Nat.add_mul, hexact]; ring
  have hlow' : 2 * (n * scale) ≤ 2 * ((decimal a j).units * 10 ^ k) + step * 10 ^ k := by
    refine Nat.le_of_mul_le_mul_left ?_ hten
    calc 10 ^ j * (2 * (n * scale)) = 2 * (a * scale) * 10 ^ k := hexact.symm
      _ ≤ (2 * ((decimal a j).units * 10 ^ j) + 10 ^ j * step) * 10 ^ k :=
        Nat.mul_le_mul_right _ hlow
      _ = 10 ^ j * (2 * ((decimal a j).units * 10 ^ k) + step * 10 ^ k) := by ring
  have hquarters : n * scale = 4 * n * 2 ^ i := by rw [hscale]; ring
  rw [hquarters] at hhigh' hlow'
  have hround : roundAt (decimal a j) k = ofUnits false (n * scale) (10 ^ k) := by
    refine roundAt_of_near hfinite hsign hscale hmost hk h ?_ ?_
    · rw [Nat.sub_mul]
      omega
    · rw [Nat.add_mul]
      omega
  rw [hround, hdecimal]
  refine ofUnits_congr false (Nat.pow_pos (by decide)) hten ?_
  calc n * scale * 10 ^ j = n * 10 ^ j * scale := by ring
    _ = a * scale * 10 ^ k := by rw [← hwhole]; ring

/-! ### What is rounded -/

theorem isFinite_of_mul {x y : Binary64} (h : (x * y).isFinite = true) :
    x.isFinite = true ∧ y.isFinite = true := by
  change (Binary64.mul x y).isFinite = true at h
  cases x <;> cases y <;> simp only [Binary64.mul] at h <;>
    first | exact ⟨rfl, rfl⟩ | (split at h <;> cases h) | cases h

theorem isFinite_of_div {x y : Binary64} (h : (x / y).isFinite = true) : x.isFinite = true := by
  change (Binary64.div x y).isFinite = true at h
  cases x with
  | finite => rfl
  | infinite => cases y <;> cases h
  | nan => cases h

theorem isFinite_of_round {x : Binary64} (h : x.round.isFinite = true) : x.isFinite = true := by
  cases x with
  | finite => rfl
  | infinite => cases h
  | nan => cases h

/-- Only finite numbers are rounded to finite ones. -/
theorem isFinite_of_roundAt {x : Binary64} {places : Int} (h : (roundAt x places).isFinite = true) :
    x.isFinite = true := by
  rw [roundAt] at h
  split at h
  · exact (isFinite_of_mul (isFinite_of_round (isFinite_of_div h))).1
  · exact isFinite_of_div (isFinite_of_round (isFinite_of_mul h).1)

/-- Rounding an integer leaves an integer. -/
theorem scale_dvd_units_ofUnits (negative : Bool) (n : Nat) :
    scale ∣ (ofUnits negative (n * scale) 1).units := by
  by_cases hfinite : (ofUnits negative (n * scale) 1).isFinite = true
  · by_cases hn : n < 2 ^ 53
    · rw [(units_ofUnits_eq negative Nat.one_pos (Binary64.isDouble_mul_scale hn)
        (Nat.mul_one _).symm).2]
      exact Nat.dvd_mul_left _ _
    · -- the step of so great a number is at least one
      rw [Binary64.units_ofUnits hfinite]
      obtain ⟨j, -, hj⟩ := Binary64.exists_scale_eq
      rw [Nat.pow_eq] at hj
      have hlt := Binary64.lt_of_exponentOf (n * scale / 1)
      rw [Nat.div_one, hj] at hlt
      have hle : 2 ^ (53 + j) ≤ n * 2 ^ j := by
        rw [Nat.pow_add]
        exact Nat.mul_le_mul_right _ (by omega)
      have hexponent := (Nat.pow_lt_pow_iff_right (by decide)).mp (hle.trans_lt hlt)
      rw [hj]
      refine (Nat.pow_dvd_pow 2 ?_).mul_left _
      rw [Binary64.exponent, Nat.div_one]
      omega
  · have hzero : (ofUnits negative (n * scale) 1).units = 0 := by
      revert hfinite
      cases ofUnits negative (n * scale) 1 <;> simp [Binary64.isFinite, Binary64.units]
    rw [hzero]
    exact Nat.dvd_zero _

/-- A number is rounded to a natural one, no greater than any that it exceeds by less than a
half. -/
theorem exists_units_round {x : Binary64} (hx : x.isFinite = true) :
    ∃ n, x.round.units = n * scale ∧ ∀ k < 2 ^ 53, 2 * x.units < (2 * k + 1) * scale → n ≤ k := by
  have hscale := scale_pos
  obtain ⟨n, hn⟩ := scale_dvd_units_ofUnits x.isNegative ((2 * x.units + scale) / (2 * scale))
  rw [← Binary64.round_eq hx, Nat.mul_comm] at hn
  refine ⟨n, hn, fun k hk hle => ?_⟩
  have hnearest : (2 * x.units + scale) / (2 * scale) ≤ k := by
    refine Nat.le_of_lt_succ ((Nat.div_lt_iff_lt_mul (by omega)).mpr ?_)
    calc 2 * x.units + scale < (2 * k + 1) * scale + scale := by omega
      _ = k.succ * (2 * scale) := by rw [Nat.succ_eq_add_one]; ring
  have hgrid : IsGrid (k * scale) := (Binary64.isGrid_of_le hk.le).mul_scale
  have hbound : x.round.units ≤ k * scale := by
    rw [Binary64.round_eq hx]
    exact Binary64.units_ofUnits_le Nat.one_pos hgrid
      (by rw [Nat.mul_one]; exact Nat.mul_le_mul_right _ hnearest)
  rw [hn] at hbound
  exact Nat.le_of_mul_le_mul_right hbound hscale

/-- A power of ten as a double is at least any lesser one that is exact. -/
theorem le_units_power {j k : Nat} (hj : j ≤ 22) (hjk : j ≤ k)
    (hfinite : (power k).isFinite = true) :
    10 ^ j * scale ≤ (power k).units := by
  have hk : k ≤ 309 := by
    by_contra hk
    rw [power_of_gt (by omega)] at hfinite
    cases hfinite
  have hdouble := isDouble_mul_ten_pow (n := 1) (k := j) (by omega) (five_pow_lt hj)
  rw [Nat.one_mul] at hdouble
  rw [power_eq hk] at hfinite ⊢
  refine Binary64.le_units_ofUnits Nat.one_pos hdouble.isGrid ?_ hfinite
  rw [Nat.mul_one]
  exact Nat.mul_le_mul_right _ (Nat.pow_le_pow_right (by decide) hjk)

theorem scale_le_units_power {k : Nat} (hfinite : (power k).isFinite = true) :
    scale ≤ (power k).units := by
  have := le_units_power (j := 0) (by decide) (Nat.zero_le k) hfinite
  omega

/-- A power of ten as a double is hardly greater than itself. -/
theorem units_power_le {k : Nat} (hfinite : (power k).isFinite = true) :
    2 ^ 52 * (power k).units ≤ (2 ^ 52 + 1) * (10 ^ k * scale) := by
  have hk : k ≤ 309 := by
    by_contra hk
    rw [power_of_gt (by omega)] at hfinite
    cases hfinite
  rw [power_eq hk] at hfinite ⊢
  obtain ⟨step, hhigh, -, hstep⟩ := Binary64.units_ofUnits_error false Nat.one_pos hfinite
  have hpos : 0 < 10 ^ k * scale := Nat.mul_pos (Nat.pow_pos (by decide)) scale_pos
  rw [Nat.mul_one, Nat.one_mul] at hhigh
  rw [Nat.one_mul] at hstep
  omega

section

variable {x : Binary64} (hx : x.isFinite = true) (hsign : x.isNegative = false)

include hx hsign

/-- What is rounded behind the point is a natural number of steps. -/
theorem exists_roundAt_natCast {k : Nat} (hfinite : (roundAt x k).isFinite = true) :
    ∃ n, (power k).isFinite = true ∧ roundAt x k =
      ofUnits false (n * scale * scale) (power k).units ∧
      ∀ b ≤ 10 ^ 2, x.units * 10 ^ k ≤ b * scale → n ≤ b := by
  rw [roundAt_natCast] at hfinite ⊢
  have hround := isFinite_of_div hfinite
  have hproduct := isFinite_of_round hround
  have hpower := (isFinite_of_mul hproduct).2
  have hproductEq := Binary64.mul_eq hx hpower
  rw [hsign, isNegative_power] at hproductEq
  have hpositive : (x * power k).round.isNegative = false := by
    rw [Binary64.round_eq hproduct, Binary64.isNegative_ofUnits, hproductEq,
      Binary64.isNegative_ofUnits]
    rfl
  have hne : (power k).units ≠ 0 := (scale_pos.trans_le (scale_le_units_power hpower)).ne'
  obtain ⟨n, hn, hbound⟩ := exists_units_round hproduct
  refine ⟨n, hpower, ?_, fun b hb hle => hbound b (by omega) ?_⟩
  · rw [Binary64.div_eq hround hpower hne, hn, hpositive, isNegative_power]
    rfl
  · -- the rounded product is at most a quarter above the exact one
    obtain ⟨i, -, -, hscale⟩ := Binary64.exists_scale_eq_four_mul
    have hgrid : IsGrid ((4 * b + 1) * 2 ^ i) := ⟨4 * b + 1, i, by omega, rfl⟩
    have hle' : (x * power k).units ≤ (4 * b + 1) * 2 ^ i := by
      rw [hproductEq]
      refine Binary64.units_ofUnits_le scale_pos hgrid ?_
      refine Nat.le_of_mul_le_mul_left (c := 2 ^ 52) ?_ (by decide)
      calc 2 ^ 52 * (x.units * (power k).units) = x.units * (2 ^ 52 * (power k).units) := by ring
        _ ≤ x.units * ((2 ^ 52 + 1) * (10 ^ k * scale)) :=
          Nat.mul_le_mul_left _ (units_power_le hpower)
        _ = (2 ^ 52 + 1) * (x.units * 10 ^ k) * scale := by ring
        _ ≤ (2 ^ 52 + 1) * (b * scale) * scale := Nat.mul_le_mul_right _ (Nat.mul_le_mul_left _ hle)
        _ = (2 ^ 52 + 1) * (4 * b) * 2 ^ i * scale := by
          nth_rewrite 1 [hscale]
          ring
        _ ≤ 2 ^ 52 * (4 * b + 1) * 2 ^ i * scale :=
          Nat.mul_le_mul_right _ (Nat.mul_le_mul_right _ (by omega))
        _ = 2 ^ 52 * ((4 * b + 1) * 2 ^ i * scale) := by ring
    have hpos := Nat.two_pow_pos i
    calc 2 * (x * power k).units ≤ 2 * ((4 * b + 1) * 2 ^ i) := Nat.mul_le_mul_left _ hle'
      _ = (8 * b + 2) * 2 ^ i := by ring
      _ < (8 * b + 4) * 2 ^ i := Nat.mul_lt_mul_of_pos_right (by omega) hpos
      _ = (2 * b + 1) * scale := by rw [hscale]; ring

/-- What is rounded before the point is a natural number of steps too. -/
theorem exists_roundAt_neg {k : Nat} (hk : 0 < k)
    (hfinite : (roundAt x (-(k : Int))).isFinite = true) :
    ∃ n, (power k).isFinite = true ∧ roundAt x (-(k : Int)) =
      ofUnits false (n * scale * (power k).units) scale := by
  rw [roundAt_neg _ hk] at hfinite ⊢
  obtain ⟨hround, hpower⟩ := isFinite_of_mul hfinite
  have hquotient := isFinite_of_round hround
  have hne : (power k).units ≠ 0 := (scale_pos.trans_le (scale_le_units_power hpower)).ne'
  obtain ⟨n, hn, -⟩ := exists_units_round hquotient
  have hpositive : (x / power k).round.isNegative = false := by
    rw [Binary64.round_eq hquotient, Binary64.isNegative_ofUnits, Binary64.div_eq hx hpower hne,
      Binary64.isNegative_ofUnits, hsign, isNegative_power]
    rfl
  refine ⟨n, hpower, ?_⟩
  rw [Binary64.mul_eq hround hpower, hn, hpositive, isNegative_power]
  rfl

end

end Localization.Plural
