import Mathlib
import Localization.Proofs.Plural.Situations

/-! How samples are written with three digits behind the point.

A sample is a natural number, the sum of one and a tenth, or some hundredths. The sum is rounded
once more than the decimal fraction, but its thousandths are the same (`roundAt_tenth`). So no
sample has a third digit (`exists_numeral_of_sample`), and where three digits are asked for the
last one is a zero (`covers_thousandths`). -/
namespace Localization.Plural

open Binary64 (scale scale_pos ofUnits ofNat)
open Decimal (zeros plain shortest)

/-! ### Tenths -/

/-- A digit divided by ten. -/
theorem tenth_eq {t : Nat} (ht : t ≤ 9) :
    (ofNat t / ofNat 10).isFinite = true ∧ ofNat t / ofNat 10 = ofUnits false (t * scale) 10 := by
  have hten : 0 < 10 * scale := Nat.mul_pos (by decide) scale_pos
  obtain ⟨hfinite, hunits⟩ := Binary64.units_ofNat (n := t) (by omega)
  obtain ⟨hfinite', hunits'⟩ := Binary64.units_ofNat (n := 10) (by decide)
  have heq : ofNat t / ofNat 10 = ofUnits false (t * scale) 10 := by
    rw [Binary64.div_eq hfinite hfinite' (hunits' ▸ hten.ne'), hunits, hunits', Binary64.ofNat_eq,
      Binary64.ofNat_eq, Binary64.isNegative_ofUnits, Binary64.isNegative_ofUnits]
    exact Binary64.ofUnits_congr false hten (by decide) (by ring)
  refine ⟨?_, heq⟩
  rw [heq]
  exact Binary64.isFinite_ofUnits false (by decide)
    (Binary64.isDouble_mul_scale (n := t) (by omega)) (Nat.le_mul_of_pos_right _ (by decide))

/-- The sum of a natural number and a tenth is finite, and its thousandths are those of the decimal
fraction. -/
theorem roundAt_tenth {w t : Nat} (hw : w ≤ 20) (ht : t ≤ 9) :
    (ofNat w + ofNat t / ofNat 10).isNegative = false ∧
      roundAt (ofNat w + ofNat t / ofNat 10) 3 = ofUnits false ((10 * w + t) * scale) 10 := by
  obtain ⟨i, hi, hmost, hscale⟩ := Binary64.exists_scale_eq_four_mul
  have hlarge : 2 ^ 100 ≤ 2 ^ i := Nat.pow_le_pow_right (by decide) hi
  obtain ⟨htenth, htenthEq⟩ := tenth_eq ht
  obtain ⟨hwhole, hunits⟩ := Binary64.units_ofNat (n := w) (by omega)
  obtain ⟨step, hhigh, hlow, hstep⟩ :=
    Binary64.units_ofUnits_error false (by decide : 0 < 10) (htenthEq ▸ htenth)
  rw [← htenthEq] at hhigh hlow
  have hsum : ofNat w + ofNat t / ofNat 10 =
      ofUnits false (w * scale + (ofNat t / ofNat 10).units) 1 := by
    rw [Binary64.add_eq hwhole htenth, hunits]
    · rw [Binary64.ofNat_eq, Binary64.isNegative_ofUnits]
    · rw [htenthEq, Binary64.isNegative_ofUnits]
  have hwscale : w * scale = 4 * (w * 2 ^ i) := by rw [hscale]; ring
  have htscale : t * scale = 4 * (t * 2 ^ i) := by rw [hscale]; ring
  have hwle : w * 2 ^ i ≤ 20 * 2 ^ i := Nat.mul_le_mul_right _ hw
  have htle : t * 2 ^ i ≤ 9 * 2 ^ i := Nat.mul_le_mul_right _ ht
  have hsumFinite : (ofUnits false (w * scale + (ofNat t / ofNat 10).units) 1).isFinite = true := by
    refine Binary64.isFinite_ofUnits false Nat.one_pos
      (Binary64.isDouble_mul_scale (n := 32) (by decide)) ?_
    omega
  obtain ⟨step', hhigh', hlow', hstep'⟩ :=
    Binary64.units_ofUnits_error false Nat.one_pos hsumFinite
  rw [← hsum] at hhigh' hlow' hsumFinite
  have hquarters : 4 * (100 * (10 * w + t)) * 2 ^ i = 4000 * (w * 2 ^ i) + 400 * (t * 2 ^ i) := by
    ring
  refine ⟨by rw [hsum, Binary64.isNegative_ofUnits], ?_⟩
  have hround : roundAt (ofNat w + ofNat t / ofNat 10) (3 : Nat) =
      ofUnits false (100 * (10 * w + t) * scale) (10 ^ 3) := by
    refine roundAt_of_near hsumFinite (by rw [hsum, Binary64.isNegative_ofUnits]) hscale hmost
      (by decide) (by omega) ?_ ?_
    · rw [Nat.sub_mul, hquarters]
      omega
    · rw [Nat.add_mul, hquarters]
      omega
  rw [Nat.cast_ofNat] at hround
  rw [hround]
  exact Binary64.ofUnits_congr false (by decide) (by decide) (by ring)

/-! ### Digits of samples -/

/-- What is rounded from a tenth is written with one digit behind the point at most. -/
theorem exists_numeral_of_tenth {y : Binary64} {n : Nat} (h : y = ofUnits false (n * scale) 10)
    (hlt : n < 2 ^ 53) :
    ∃ i places, places.length ≤ 1 ∧ (∀ c ∈ places, c.isDigit = true) ∧
      plain y = numeral i places := by
  have hfinite : y.isFinite = true := by
    rw [h]
    exact Binary64.isFinite_ofUnits false (by decide) (Binary64.isDouble_mul_scale hlt)
      (Nat.le_mul_of_pos_right _ (by decide))
  obtain ⟨m, e, hy, hform⟩ := Binary64.exists_form (by decide) h hfinite
  rw [hy] at h ⊢
  obtain rfl | hm := Nat.eq_zero_or_pos m
  · exact ⟨0, [], Nat.zero_le 1, by simp, rfl⟩
  · exact ⟨_, _, length_fraction_le_one hm hform h.symm, isDigit_fraction _,
      plain_eq_numeral hm hform⟩

/-- The samples with two digits behind the point. -/
def hundredths : List Nat := [1, 2, 3, 5, 11, 12, 101, 102, 111, 121, 211]

theorem plain_hundredth : ∀ a ∈ hundredths,
    plain (decimal a 2) = numeral (a / 100) (Text.lastDigits 2 a) := by
  decide +kernel

/-- A sample has at most two digits behind the point when it is rounded to three. -/
theorem exists_numeral_of_sample {x : Binary64} (h : x ∈ samples) :
    x.isNegative = false ∧ ∃ i places, places.length ≤ 2 ∧ (∀ c ∈ places, c.isDigit = true) ∧
      plain (roundAt x 3) = numeral i places := by
  have hnatural {n : Nat} (hn : n ≤ 10 ^ 7) : (ofNat n).isNegative = false ∧
      ∃ i places, places.length ≤ 2 ∧ (∀ c ∈ places, c.isDigit = true) ∧
        plain (roundAt (ofNat n) 3) = numeral i places := by
    have hround : roundAt (ofNat n) (3 : Nat) = ofNat n :=
      roundAt_ofNat (by decide) (by omega) (isDouble_mul_ten_pow (by decide) (by omega))
    rw [Nat.cast_ofNat] at hround
    refine ⟨by rw [Binary64.ofNat_eq, Binary64.isNegative_ofUnits], n, [], Nat.zero_le 2,
      by simp, ?_⟩
    rw [hround, numeral_nil, Binary64.plain_ofNat (by omega)]
  simp only [samples, List.mem_append, List.mem_map, List.mem_flatMap, List.mem_range] at h
  rcases h with ((⟨n, hn, rfl⟩ | ⟨k, hk, rfl⟩) | ⟨w, hw, t, ht, rfl⟩) | h
  · exact hnatural (by omega)
  · have hpowers : ∀ k ∈ [3, 4, 5, 6, 7], Nat.pow 10 k ≤ 10 ^ 7 := by decide
    exact hnatural (hpowers k hk)
  · obtain ⟨hsign, hround⟩ := roundAt_tenth (w := w) (t := t + 1) (by omega) (by omega)
    obtain ⟨i, places, hlength, hplaces⟩ := exists_numeral_of_tenth hround (by omega)
    exact ⟨hsign, i, places, hlength.trans (by decide), hplaces⟩
  · obtain ⟨a, ha, rfl⟩ : ∃ a ∈ hundredths, decimal a 2 = x := List.mem_map.mp h
    have hbounds : ∀ a ∈ hundredths, 0 < a ∧ a < 1000 := by decide
    obtain ⟨hpos, hlt⟩ := hbounds a ha
    have hround : roundAt (decimal a 2) (3 : Nat) = decimal a 2 :=
      roundAt_decimal hpos (by decide) (by decide) (by omega)
    rw [Nat.cast_ofNat] at hround
    refine ⟨?_, a / 100, Text.lastDigits 2 a, (Text.length_lastDigits 2 a).le,
      Text.isDigit_lastDigits, by rw [hround, plain_hundredth a ha]⟩
    rw [decimal_eq hpos (by decide) (hlt.trans (by norm_num)), Binary64.isNegative_ofUnits]

/-! ### The last of three digits -/

/-- What is known of a sample with three digits behind the point: the last one is a zero. -/
def Situation.thousandths : Situation :=
  ⟨.unknown, .atLeast 0, .only 3, ⟨0, none, 10⟩, .atLeast 0⟩

theorem abs_eq {x : Binary64} (h : x.isNegative = false) : x.abs = x := by
  cases x with
  | finite s m e => rw [Binary64.abs, show s = false from h]
  | infinite s => rw [Binary64.abs, show s = false from h]
  | nan => rfl

theorem covers_thousandths {o : Options} (ho : o.precision = .fraction 3 3) {x : Binary64}
    (hx : x ∈ samples) {operands : Operands} (h : Operands.ofText? (write o x) = some operands) :
    Situation.thousandths.Covers operands := by
  obtain ⟨hsign, i, places, hlength, hplaces, htext⟩ := exists_numeral_of_sample hx
  obtain ⟨z, hwrite⟩ := write_eq o x
  have hdigits : ∀ c ∈ places ++ zeros (3 - places.length), c.isDigit = true := by
    intro c hc
    rcases List.mem_append.mp hc with hc | hc
    · exact hplaces c hc
    · exact isDigit_zeros c hc
  rw [hwrite, abs_eq hsign, ho] at h
  simp only [Precision.round, Precision.places] at h
  rw [Nat.cast_ofNat, htext, fillFraction_numeral, ofText?_numeral z i hdigits] at h
  split at h
  · obtain rfl := Option.some.inj h
    have hthree : (places ++ zeros (3 - places.length)).length = 3 := by
      rw [List.length_append, zeros, List.length_replicate]
      omega
    have hten : 10 ∣ fractionNumber (places ++ zeros (3 - places.length)) := by
      rw [fractionNumber_append_zeros]
      exact (dvd_pow_self 10 (by omega)).mul_left _
    refine ⟨trivial, Extent.covers_any i, ?_, ⟨Nat.zero_le _, fun _ hhigh => ?_, hten⟩,
      Extent.covers_any _⟩
    · rw [operands, hthree]
      exact Extent.covers_only 3
    · cases hhigh
  · cases h

end Localization.Plural
