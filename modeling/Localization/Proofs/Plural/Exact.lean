import Mathlib
import Localization.Proofs.Plural.Samples

/-! Which categories are listed.

A few of the samples, the `witnesses`, are written with the digits that they have and zeros behind
these (`select?_witness`). At a precision that asks for few digits they select between them all that
can be selected in any of its situations (`mem_of_select?`), so the categories that are listed are
those that some number selects (`categories_spec`). More digits than the samples have can be asked
for, and then a number can select a category that is not listed
(`isSelected_not_mem_categories_dsb`). -/
namespace Localization.Plural

open Binary64 (scale scale_pos ofUnits ofNat)
open Decimal (zeros plain)

/-! ### Numbers with few digits -/

/-- Whether a number with few digits, `a / 10 ^ k`, has no more of them than are written. -/
def Precision.IsExact : Precision → Nat → Nat → Prop
  | fraction _ most, _, k => k ≤ most
  | significant _ most, a, _ => 10 ^ ((Text.ofNat a).length - most) ∣ a

instance : (p : Precision) → (a k : Nat) → Decidable (p.IsExact a k)
  | .fraction _ most, _, k => inferInstanceAs (Decidable (k ≤ most))
  | .significant _ most, a, _ =>
    inferInstanceAs (Decidable (10 ^ ((Text.ofNat a).length - most) ∣ a))

theorem length_ofNat (n : Nat) : 1 ≤ (Text.ofNat n).length :=
  List.length_pos_iff.mpr (Text.ofNat_ne_nil n)

theorem magnitude_ofNat {n : Nat} (h : n < 2 ^ 53) :
    magnitude (ofNat n) = (Text.ofNat n).length - 1 := by
  obtain ⟨-, hunits⟩ := Binary64.units_ofNat h
  rw [magnitude, hunits]
  obtain rfl | hn := Nat.eq_zero_or_pos n
  · rw [Nat.zero_mul]
    rfl
  · have hne : (n * scale == 0) = false := beq_eq_false_iff_ne.mpr (Nat.mul_pos hn scale_pos).ne'
    rw [hne, if_neg Bool.false_ne_true, Binary64.floorLog10, if_pos (Nat.le_mul_of_pos_left _ hn),
      Nat.mul_div_cancel _ scale_pos]
    rfl

/-- A natural number with few digits in front of its zeros is its own rounding. -/
theorem round_ofNat {p : Precision} (hp : p.IsValid) {c j : Nat} (h : c * 5 ^ (j + 15) < 2 ^ 53)
    (hlt : c * 10 ^ j < 2 ^ 53) (hj : j ≤ 7) (hexact : p.IsExact (c * 10 ^ j) 0) :
    p.round (ofNat (c * 10 ^ j)) = ofNat (c * 10 ^ j) := by
  have hbehind {k : Nat} (hk : k ≤ 15) : roundAt (ofNat (c * 10 ^ j)) k = ofNat (c * 10 ^ j) := by
    refine roundAt_ofNat (by omega) hlt ?_
    rw [Nat.mul_assoc c, ← Nat.pow_add]
    refine isDouble_mul_ten_pow (by omega) (lt_of_le_of_lt ?_ h)
    exact Nat.mul_le_mul_left _ (Nat.pow_le_pow_right (by decide) (by omega))
  cases p with
  | fraction least most => exact hbehind hp.2
  | significant least most =>
    obtain ⟨hleast, hle, hlimit⟩ := hp
    rw [Precision.IsExact] at hexact
    have hlength := length_ofNat (c * 10 ^ j)
    rw [Precision.round, magnitude_ofNat hlt]
    by_cases hdigits : (Text.ofNat (c * 10 ^ j)).length ≤ most
    · rw [show (most : Int) - 1 - ((Text.ofNat (c * 10 ^ j)).length - 1) =
        ((most - (Text.ofNat (c * 10 ^ j)).length : Nat) : Int) by omega]
      exact hbehind ((Nat.sub_le _ _).trans hlimit)
    · -- the digits behind the last one that is written are zeros
      obtain ⟨n, hn⟩ := hexact
      generalize hk : (Text.ofNat (c * 10 ^ j)).length - most = k at hn
      rw [show (most : Int) - 1 - ((Text.ofNat (c * 10 ^ j)).length - 1) = -(k : Int) by omega]
      have hshort := (Text.length_ofNat_le_iff (k := 16) (by decide)).mpr (hlt.trans (by norm_num))
      rw [Nat.mul_comm (10 ^ k)] at hn
      rw [hn] at hlt ⊢
      refine roundAt_ofNat_multiple (by omega) (by omega) (lt_of_le_of_lt ?_ hlt) hlt
      exact Nat.mul_le_mul_left _ (Nat.pow_le_pow_left (by decide) k)

/-- A decimal fraction with few digits is its own rounding. -/
theorem round_decimal {p : Precision} (hp : p.IsValid) {a k : Nat} (ha : 0 < a) (hk : k ≤ 7)
    (hlt : a * 10 ^ 14 < 2 ^ 51) (hzeros : ¬ 10 ∣ a)
    (hmagnitude : magnitude (decimal a k) = (Text.ofNat a).length - 1 - k) (hpos : 0 < k)
    (hexact : p.IsExact a k) : p.round (decimal a k) = decimal a k := by
  cases p with
  | fraction least most =>
    refine roundAt_decimal ha hexact (hp.2.trans (by decide)) (lt_of_le_of_lt ?_ hlt)
    have hlimit : most ≤ 15 := hp.2
    exact Nat.mul_le_mul_left _ (Nat.pow_le_pow_right (by decide) (by omega))
  | significant least most =>
    obtain ⟨hleast, hle, hlimit⟩ := hp
    have hlimit : most ≤ 15 := hlimit
    rw [Precision.IsExact] at hexact
    have hlength := length_ofNat a
    -- without zeros at the end all digits are written
    have hdigits : (Text.ofNat a).length ≤ most := by
      by_contra hmore
      exact hzeros ((dvd_pow_self 10 (by omega)).trans hexact)
    rw [Precision.round, hmagnitude, show (most : Int) - 1 - ((Text.ofNat a).length - 1 - k) =
      ((most - (Text.ofNat a).length + k : Nat) : Int) by omega]
    refine roundAt_decimal ha (by omega) (by omega) (lt_of_le_of_lt ?_ hlt)
    exact Nat.mul_le_mul_left _ (Nat.pow_le_pow_right (by decide) (by omega))

/-! ### Witnesses -/

/-- Digits and places of samples that select whatever can be selected. -/
def witnesses : List (Nat × Nat) :=
  [0, 1, 2, 3, 4, 5, 6, 8, 11, 20, 21, 22, 101, 102, 103, 1000000].map (·, 0) ++
    [11, 12, 13].map (·, 1) ++
    [1, 2, 3].map (·, 2)

/-- A sample with few digits as it is written without filling. -/
structure IsWitness (a k : Nat) : Prop where
  mem : decimal a k ∈ samples
  text : plain (decimal a k) = numeral (a / 10 ^ k) (Text.lastDigits k a)
  digits : countSignificant (numeral (a / 10 ^ k) (Text.lastDigits k a)) = (Text.ofNat a).length
  round : ∀ p : Precision, p.IsValid → p.IsExact a k → p.round (decimal a k) = decimal a k
  small : a < 10 ^ 7 ∧ k ≤ 2
  kept : k = 0 ∨ ¬ 10 ∣ a
  value : (if k = 0 then Value.natural a else .fractional).Covers (decimal a k)

theorem isWitness_natural {c j : Nat} (h : c * 5 ^ (j + 15) < 2 ^ 53) (hj : j ≤ 7)
    (hlt : c * 10 ^ j < 10 ^ 7) (hmem : ofNat (c * 10 ^ j) ∈ samples) :
    IsWitness (c * 10 ^ j) 0 where
  mem := by rwa [decimal_zero (hlt.trans (by norm_num))]
  text := by
    rw [decimal_zero (hlt.trans (by norm_num)), Binary64.plain_ofNat (hlt.trans (by norm_num)),
      Nat.pow_zero, Nat.div_one, Text.lastDigits, numeral_nil]
  digits := by rw [Nat.pow_zero, Nat.div_one, Text.lastDigits, numeral_nil, countSignificant_ofNat]
  round p hp hexact := by
    rw [decimal_zero (hlt.trans (by norm_num))]
    exact round_ofNat hp h (hlt.trans (by norm_num)) hj hexact
  small := ⟨hlt, by decide⟩
  kept := .inl rfl
  value := by
    rw [if_pos rfl]
    exact ⟨hlt.trans (by norm_num), decimal_zero (hlt.trans (by norm_num))⟩

/-- A multiple of a part of one that is no natural number. -/
theorem covers_fractional {x : Binary64} (h : ¬ scale ∣ x.units) : Value.fractional.Covers x := by
  intro n hn
  obtain ⟨hfinite, hunits⟩ := Binary64.units_ofNat hn
  rw [Binary64.sameNumber]
  by_contra hsame
  rw [Bool.not_eq_false, Bool.and_eq_true, beq_iff_eq] at hsame
  have habs := congrArg Int.natAbs hsame.2
  have hscaled (y : Binary64) : y.scaled.natAbs = y.units := by
    rw [Binary64.scaled]
    split <;> simp
  rw [hscaled, hscaled, hunits] at habs
  exact h (habs ▸ Nat.dvd_mul_left _ _)

/-- What the samples with a fraction are written as, and that the tenths are the doubles nearest
to their values. -/
theorem decimal_spec :
    (∀ w ∈ [11, 12, 13].map (·, 1) ++ [1, 2, 3].map (·, 2),
      plain (decimal w.1 w.2) = numeral (w.1 / 10 ^ w.2) (Text.lastDigits w.2 w.1) ∧
        countSignificant (numeral (w.1 / 10 ^ w.2) (Text.lastDigits w.2 w.1)) =
          (Text.ofNat w.1).length ∧
          magnitude (decimal w.1 w.2) = (Text.ofNat w.1).length - 1 - w.2 ∧
          ¬ scale ∣ (decimal w.1 w.2).units) ∧
      ∀ a ∈ [11, 12, 13], a - 11 < 9 ∧ ofNat 1 + ofNat (a - 11 + 1) / ofNat 10 = decimal a 1 := by
  decide +kernel

theorem isWitness_decimal {a k : Nat} (h : (a, k) ∈ [11, 12, 13].map (·, 1) ++ [1, 2, 3].map (·, 2))
    (hmem : decimal a k ∈ samples) : IsWitness a k := by
  have hshape : ∀ w ∈ [11, 12, 13].map (·, 1) ++ [1, 2, 3].map (·, 2), 0 < w.1 ∧ w.1 ≤ 13 ∧
      ¬ 10 ∣ w.1 ∧ 0 < w.2 ∧ w.2 ≤ 2 := by
    decide
  obtain ⟨hpos, hle, hzeros, hk, hplaces⟩ := hshape _ h
  obtain ⟨htext, hdigits, hmagnitude, hunits⟩ := decimal_spec.1 _ h
  refine ⟨hmem, htext, hdigits, fun p hp hexact => ?_, ⟨by omega, hplaces⟩, .inr hzeros, ?_⟩
  · exact round_decimal hp hpos (by omega) (by omega) hzeros hmagnitude hk hexact
  · rw [if_neg hk.ne']
    exact covers_fractional hunits

theorem decimal_mem_samples {a k : Nat}
    (h : (a, k) ∈ [11, 12, 13].map (·, 1) ++ [1, 2, 3].map (·, 2)) :
    decimal a k ∈ samples := by
  rcases List.mem_append.mp h with h | h
  · obtain ⟨a, ha, he⟩ := List.mem_map.mp h
    cases he
    obtain ⟨hlt, heq⟩ := decimal_spec.2 a ha
    rw [← heq]
    refine List.mem_append_left _ (List.mem_append_right _ ?_)
    exact List.mem_flatMap.mpr ⟨1, List.mem_range.mpr (by decide),
      List.mem_map.mpr ⟨_, List.mem_range.mpr hlt, rfl⟩⟩
  · obtain ⟨a, ha, he⟩ := List.mem_map.mp h
    cases he
    refine List.mem_append_right _ ?_
    simp only [List.mem_cons, List.not_mem_nil, or_false] at ha
    rcases ha with rfl | rfl | rfl <;> simp

theorem isWitness_of_mem {w : Nat × Nat} (h : w ∈ witnesses) : IsWitness w.1 w.2 := by
  rw [witnesses, List.append_assoc] at h
  rcases List.mem_append.mp h with h | h
  · obtain ⟨n, hn, rfl⟩ := List.mem_map.mp h
    have hsizes : ∀ n ∈ [0, 1, 2, 3, 4, 5, 6, 8, 11, 20, 21, 22, 101, 102, 103, 1000000], n ≤ 200 ∨
        n = 1 * 10 ^ 6 := by decide
    rcases hsizes n hn with hle | rfl
    · have hmem : ofNat (n * 10 ^ 0) ∈ samples := by
        rw [Nat.pow_zero, Nat.mul_one]
        refine List.mem_append_left _ (List.mem_append_left _ (List.mem_append_left _ ?_))
        exact List.mem_map.mpr ⟨n, List.mem_range.mpr (by omega), rfl⟩
      have hwitness := isWitness_natural (c := n) (j := 0) (by omega) (by decide) (by omega) hmem
      rwa [Nat.pow_zero, Nat.mul_one] at hwitness
    · refine isWitness_natural (by decide) (by decide) (by decide) ?_
      refine List.mem_append_left _ (List.mem_append_left _ (List.mem_append_right _ ?_))
      exact List.mem_map.mpr ⟨6, by decide, congrArg ofNat (by decide)⟩
  · exact isWitness_decimal h (decimal_mem_samples h)

/-! ### How witnesses are written -/

theorem fractionNumber_lastDigits (k a : Nat) :
    fractionNumber (Text.lastDigits k a) = a % 10 ^ k := by
  rw [fractionNumber, Text.ofDigitChars_lastDigits, Nat.zero_mul, Nat.zero_add]

/-- Zeros that are filled in are no digits of the fraction without zeros at its end. -/
theorem kept_append_zeros {a k z : Nat} (hk : k ≤ 2) (hzeros : k = 0 ∨ ¬ 10 ∣ a) :
    (word? ((Text.lastDigits k a ++ zeros z).reverse.dropWhile (· == '0')).reverse).getD 0 =
      a % 10 ^ k := by
  have hdrop : (Text.lastDigits k a ++ zeros z).reverse.dropWhile (· == '0') =
      (Text.lastDigits k a).reverse.dropWhile (· == '0') := by
    rw [List.reverse_append, zeros, List.reverse_replicate, List.dropWhile_append_of_pos]
    intro c hc
    rw [List.eq_of_mem_replicate hc]
    rfl
  rw [hdrop]
  cases k with
  | zero => rw [Nat.pow_zero, Nat.mod_one]; rfl
  | succ k =>
    have hlast : ¬ (Nat.digitChar (a % 10) == '0') = true := by
      have hdigits : ∀ d < 10, d ≠ 0 → ¬ (Nat.digitChar d == '0') = true := by decide
      refine hdigits _ (Nat.mod_lt _ (by decide)) fun h => ?_
      exact hzeros.resolve_left (Nat.succ_ne_zero k) (Nat.dvd_of_mod_eq_zero h)
    have hkept : ((Text.lastDigits (k + 1) a).reverse.dropWhile (· == '0')).reverse =
        Text.lastDigits (k + 1) a := by
      rw [Text.lastDigits, List.reverse_append, List.reverse_singleton, List.singleton_append,
        List.dropWhile_cons, if_neg hlast, List.reverse_cons, List.reverse_reverse]
    have hnumber := fractionNumber_lastDigits (k + 1) a
    have hlt : a % 10 ^ (k + 1) < 10 ^ 2 :=
      (Nat.mod_lt _ (Nat.pow_pos (by decide))).trans_le (Nat.pow_le_pow_right (by decide) hk)
    rw [fractionNumber] at hnumber
    rw [hkept, word?_eq (by simp [Text.lastDigits]) Text.isDigit_lastDigits, hnumber,
      if_pos (hlt.trans (by decide)), Option.getD_some]

/-- The operands of few digits with zeros filled in behind them. -/
def filled (a k z : Nat) : Operands := operands (a / 10 ^ k) (Text.lastDigits k a ++ zeros z)

/-- What these operands are. -/
def situationOf (a k z : Nat) : Situation :=
  ⟨if k = 0 then .natural a else .fractional, .only (a / 10 ^ k), .only (k + z),
    .only (a % 10 ^ k * 10 ^ z), .only (a % 10 ^ k)⟩

theorem covers_situationOf {a k z : Nat} (h : IsWitness a k) (hz : z ≤ 15) :
    (situationOf a k z).Covers (filled a k z) := by
  have hlength : (Text.lastDigits k a ++ zeros z).length = k + z := by
    rw [List.length_append, Text.length_lastDigits, zeros, List.length_replicate]
  have hnumber : fractionNumber (Text.lastDigits k a ++ zeros z) = a % 10 ^ k * 10 ^ z := by
    rw [fractionNumber_append_zeros, fractionNumber_lastDigits]
  obtain ⟨hsmall, hplaces⟩ := h.small
  refine ⟨?_, Extent.covers_only _, ?_, ?_, ?_⟩
  · have hdigits : a / 10 ^ k * 10 ^ (k + z) + a % 10 ^ k * 10 ^ z = a * 10 ^ z := by
      rw [Nat.pow_add, ← Nat.mul_assoc, ← Nat.add_mul, Nat.mul_comm (a / 10 ^ k), Nat.div_add_mod]
    have hn : (filled a k z).n = decimal a k := by
      have hbound : a * 10 ^ z < 10 ^ 200 :=
        calc a * 10 ^ z < 10 ^ 7 * 10 ^ z :=
          Nat.mul_lt_mul_of_pos_right hsmall (Nat.pow_pos (by decide))
          _ = 10 ^ (7 + z) := (Nat.pow_add 10 7 z).symm
          _ ≤ 10 ^ 200 := Nat.pow_le_pow_right (by decide) (by omega)
      rw [← decimal_mul_ten_pow (by omega) hbound, filled, operands, hlength, hnumber, hdigits]
      rfl
    rw [hn]
    exact h.value
  · rw [filled, operands, hlength]
    exact Extent.covers_only _
  · rw [filled, operands, hnumber]
    exact Extent.covers_only _
  · rw [filled, operands, kept_append_zeros hplaces h.kept]
    exact Extent.covers_only _

theorem missing_le {p : Precision} (hp : p.IsValid) (places digits : Nat) :
    p.missing places digits ≤ 15 := by
  cases p with
  | fraction least most => exact (Nat.sub_le _ _).trans (hp.1.trans hp.2)
  | significant least most => exact (Nat.sub_le _ _).trans (hp.2.1.trans hp.2.2)

theorem isNegative_decimal (a k : Nat) : (decimal a k).isNegative = false := by
  rw [decimal, Decimal.toBinary64]
  repeat' split
  all_goals first | rfl | (rw [Binary64.ofQuotient_eq_ofUnits, Binary64.isNegative_ofUnits])

/-- Witnesses are written with their digits and zeros behind these. -/
theorem select?_witness {o : Options} {a k : Nat} (h : IsWitness a k)
    (hexact : o.precision.IsExact a k) (rules : Rules) :
    select? rules o (decimal a k) = some
      (rules.select (filled a k (o.precision.missing k (Text.ofNat a).length))) := by
  obtain ⟨z, hwrite⟩ := write_eq o (decimal a k)
  have habs := abs_eq (isNegative_decimal a k)
  have hround := h.round o.precision (isValid_precision o) hexact
  rw [habs, hround, h.text, fillFraction_places, h.digits, Text.length_lastDigits] at hwrite
  obtain ⟨hsmall, hplaces⟩ := h.small
  have hmissing := missing_le (isValid_precision o) k (Text.ofNat a).length
  generalize o.precision.missing k (Text.ofNat a).length = missing at hwrite hmissing ⊢
  have hall : ∀ c ∈ Text.lastDigits k a ++ zeros missing, c.isDigit = true := by
    intro c hc
    rcases List.mem_append.mp hc with hc | hc
    · exact Text.isDigit_lastDigits c hc
    · exact isDigit_zeros c hc
  have hnumber := fractionNumber_lt hall
  rw [List.length_append, Text.length_lastDigits, zeros, List.length_replicate, ← zeros] at hnumber
  have hbound : 10 ^ (k + missing) ≤ 10 ^ 17 := Nat.pow_le_pow_right (by decide) (by omega)
  have hwhole : a / 10 ^ k ≤ a := Nat.div_le_self _ _
  have hword : 10 ^ 17 < Nat.pow 2 64 := by decide
  rw [select?, hwrite, ofText?_numeral z _ hall, if_pos ⟨by omega, by omega⟩]
  rfl

/-! ### The tables -/

/-- The rules of all languages. -/
def tables : List Rules := (cardinalRules ++ ordinalRules).map (·.2)

/-- A precision with no more digits than the witnesses have. -/
def Precision.reduce : Precision → Precision
  | fraction least most => .fraction least (min most 2)
  | significant least most => .significant least (min most 3)

/-- Precisions that ask for few digits. -/
def reduced : List Precision :=
  [.fraction 0 0, .fraction 0 1, .fraction 0 2, .fraction 1 1, .fraction 1 2, .fraction 2 2,
    .significant 1 1, .significant 1 2,
    .significant 1 3, .significant 2 2, .significant 2 3, .significant 3 3]

/-- Whether witnesses select all that can be selected in the situations of a precision. -/
def isCovered (p : Precision) (rules : Rules) : Bool :=
  p.situations.all fun s => (rules.outcomes s).all fun c =>
    c == .other || witnesses.any fun w =>
      decide (p.IsExact w.1 w.2) && rules.outcomes
        (situationOf w.1 w.2 (p.missing w.2 (Text.ofNat w.1).length)) == [c]

/-- Whether natural numbers select all that can be selected, whatever zeros are filled in behind
them. -/
def isCoveredByNaturals (rules : Rules) : Bool :=
  (rules.outcomes ⟨.unknown, .atLeast 0, .atLeast 0, .atLeast 0, .atLeast 0⟩).all fun c =>
    c == .other || witnesses.any fun w =>
      w.2 == 0 && rules.outcomes ⟨.natural w.1, .only w.1, .atLeast 0, .only 0, .only 0⟩ == [c]

/-- Witnesses cover the tables. Ordinal rules do not look at digits behind the point but for
whether there are any. -/
theorem isCovered_tables :
    (reduced.all fun p => tables.all (isCovered p)) = true ∧
      ((ordinalRules.map (·.2)).all isCoveredByNaturals) = true := by
  decide +kernel

namespace Precision

/-- Whether a precision asks for no more digits than samples have. -/
def IsCovered : Precision → Prop
  | fraction least _ => least ≤ 2
  | significant least _ => least ≤ 3

theorem situations_reduce (p : Precision) : p.reduce.situations = p.situations := by
  cases p with
  | fraction least most =>
    rw [reduce]
    rcases Nat.le_total most 2 with h | h
    · rw [min_eq_left h]
    · simp only [min_eq_right h, situations, if_neg (show ¬ 2 ≤ 1 by decide),
        if_neg (show ¬ most ≤ 1 by omega)]
  | significant least most =>
    rw [reduce]
    rcases Nat.le_total most 3 with h | h
    · rw [min_eq_left h]
    · simp only [min_eq_right h, situations, if_neg (show ¬ 3 = 1 by decide),
        if_neg (show ¬ 3 = 2 by decide), if_neg (show ¬ most = 1 by omega),
        if_neg (show ¬ most = 2 by omega)]

theorem missing_reduce (p : Precision) (places digits : Nat) :
    p.reduce.missing places digits = p.missing places digits := by
  cases p <;> rfl

theorem isExact_of_reduce {p : Precision} {a k : Nat} (h : p.reduce.IsExact a k) :
    p.IsExact a k := by
  cases p with
  | fraction least most => exact Nat.le_trans h (min_le_left _ _)
  | significant least most =>
    exact (Nat.pow_dvd_pow 10 (Nat.sub_le_sub_left (min_le_left _ _) _)).trans h

theorem reduce_mem {p : Precision} (hp : p.IsValid) (h : p.IsCovered) : p.reduce ∈ reduced := by
  cases p with
  | fraction least most =>
    have hall : ∀ l ≤ 2, ∀ m ≤ 2, l ≤ m → Precision.fraction l m ∈ reduced := by decide
    exact hall least h _ (min_le_right _ _) (le_min hp.1 h)
  | significant least most =>
    have hall : ∀ l ≤ 3, ∀ m ≤ 3, 1 ≤ l ∧ l ≤ m → Precision.significant l m ∈ reduced := by decide
    exact hall least h _ (min_le_right _ _) ⟨hp.1, le_min hp.2.1 h⟩

/-- A precision that asks for more digits leaves natural numbers with few of them as they are. -/
theorem isExact_natural {p : Precision} (hp : p.IsValid) (h : ¬ p.IsCovered) {w : Nat × Nat}
    (hw : w ∈ witnesses) (hk : w.2 = 0) :
    p.IsExact w.1 w.2 := by
  cases p with
  | fraction least most => exact hk ▸ Nat.zero_le _
  | significant least most =>
    have hdigits : ∀ w ∈ witnesses, w.2 = 0 → 10 ^ ((Text.ofNat w.1).length - 4) ∣ w.1 := by decide
    have hmost : 4 ≤ most := (Nat.lt_of_not_le h).trans_le hp.2.1
    exact (Nat.pow_dvd_pow 10 (Nat.sub_le_sub_left hmost _)).trans (hdigits w hw hk)

end Precision

/-- Whether a selector is ordinal or asks for no more digits than samples have. -/
def Options.IsCovered (o : Options) : Prop := o.kind = .ordinal ∨ o.precision.IsCovered

/-! ### What samples select -/

theorem mem_tables {kind : Kind} {lang : Text} {rules : Rules} (h : rules? kind lang = some rules) :
    rules ∈ tables ∧ (kind = .ordinal → rules ∈ ordinalRules.map (·.2)) := by
  obtain ⟨tag, -, hrules⟩ := Option.bind_eq_some_iff.mp h
  have hmem {tag : LanguageTag} (h : rulesOf? kind tag = some rules) :
      rules ∈ tables ∧ (kind = .ordinal → rules ∈ ordinalRules.map (·.2)) := by
    obtain ⟨group, hfind, rfl⟩ := Option.map_eq_some_iff.mp h
    have hgroup := List.mem_of_find?_eq_some hfind
    cases kind with
    | cardinal => exact ⟨List.mem_map_of_mem (List.mem_append_left _ hgroup), fun h => by cases h⟩
    | ordinal =>
      exact ⟨List.mem_map_of_mem (List.mem_append_right _ hgroup),
        fun _ => List.mem_map_of_mem hgroup⟩
  rcases Option.or_eq_some_iff.mp hrules with h | ⟨-, h⟩
  · exact hmem h
  · exact hmem h

section

variable {o : Options} {rules : Rules} {x : Binary64} {c : Category}

/-- What is written is one of the situations of its precision, and only a finite number is read. -/
theorem exists_covers_of_select? (h : select? rules o x = some c) :
    x.isFinite = true ∧ ∃ s ∈ o.precision.situations, ∃ operands, s.Covers operands ∧
      rules.select operands = c := by
  obtain ⟨operands, hread, rfl⟩ := Option.map_eq_some_iff.mp h
  obtain ⟨z, hwrite⟩ := write_eq o x
  rw [hwrite] at hread
  have hvalid := isValid_precision o
  have hsign : x.abs.isNegative = false := by cases x <;> rfl
  obtain ⟨hfinite, i, places, hdigits, hallows, rfl⟩ := exists_operands hvalid hsign hread
  obtain ⟨s, hs, hcovers⟩ := exists_covers hvalid hdigits hallows
  refine ⟨?_, s, hs, _, hcovers, rfl⟩
  cases x with
  | finite => rfl
  | infinite => cases hfinite
  | nan => cases hfinite

/-- A witness that selects a category is a sample that does. -/
theorem mem_of_witness {w : Nat × Nat} (hw : w ∈ witnesses) (hexact : o.precision.IsExact w.1 w.2)
    {s : Situation}
    (hs : s.Covers (filled w.1 w.2 (o.precision.missing w.2 (Text.ofNat w.1).length)))
    (hc : rules.outcomes s = [c]) :
    c ∈ samples.filterMap (select? rules o) := by
  have hwitness := isWitness_of_mem hw
  refine List.mem_filterMap.mpr ⟨_, hwitness.mem, ?_⟩
  rw [select?_witness hwitness hexact, Rules.select_eq_of_outcomes hs hc]

/-- What any number selects a sample selects too, if no more digits are asked for than samples
have. -/
theorem mem_of_select? (ho : o.IsCovered) (htables : rules ∈ tables)
    (hordinal : o.kind = .ordinal → rules ∈ ordinalRules.map (·.2))
    (h : select? rules o x = some c) :
    c = .other ∨ c ∈ samples.filterMap (select? rules o) := by
  obtain ⟨-, s, hs, operands, hcovers, rfl⟩ := exists_covers_of_select? h
  have hvalid := isValid_precision o
  by_cases hfew : o.precision.IsCovered
  · have hall :=
      List.all_eq_true.mp (List.all_eq_true.mp isCovered_tables.1 _
        (Precision.reduce_mem hvalid hfew)) rules htables
    rw [isCovered, Precision.situations_reduce] at hall
    have hc :=
      List.all_eq_true.mp (List.all_eq_true.mp hall s hs) _
        (Rules.select_mem_outcomes hcovers rules)
    rw [Bool.or_eq_true, beq_iff_eq, List.any_eq_true] at hc
    refine hc.imp_right fun ⟨w, hw, hsel⟩ => ?_
    rw [Bool.and_eq_true, decide_eq_true_eq, beq_iff_eq, Precision.missing_reduce] at hsel
    exact mem_of_witness hw (Precision.isExact_of_reduce hsel.1)
      (covers_situationOf (isWitness_of_mem hw) (missing_le hvalid _ _)) hsel.2
  · have hall := List.all_eq_true.mp isCovered_tables.2 rules (hordinal (ho.resolve_right hfew))
    have hany :
        Situation.Covers ⟨.unknown, .atLeast 0, .atLeast 0, .atLeast 0, .atLeast 0⟩ operands :=
      ⟨trivial, Extent.covers_any _, Extent.covers_any _, Extent.covers_any _, Extent.covers_any _⟩
    have hc := List.all_eq_true.mp hall _ (Rules.select_mem_outcomes hany rules)
    rw [Bool.or_eq_true, beq_iff_eq, List.any_eq_true] at hc
    refine hc.imp_right fun ⟨⟨a, k⟩, hw, hsel⟩ => ?_
    rw [Bool.and_eq_true, beq_iff_eq, beq_iff_eq] at hsel
    obtain ⟨rfl, hsel⟩ := hsel
    refine mem_of_witness hw (Precision.isExact_natural hvalid hfew hw rfl) ?_ hsel
    obtain ⟨hvalue, hwhole, -, hfraction, hkept⟩ :=
      covers_situationOf (isWitness_of_mem hw) (missing_le hvalid 0 (Text.ofNat a).length)
    simp only [situationOf, Nat.pow_zero, Nat.div_one, Nat.mod_one, Nat.zero_mul,
      if_true] at hvalue hwhole hfraction hkept
    exact ⟨hvalue, hwhole, Extent.covers_any _, hfraction, hkept⟩

end

/-! ### What is listed -/

/-- Whether some finite number selects a category. -/
def IsSelected (lang : Text) (o : Options) (c : Category) : Prop :=
  ∃ rules, rules? o.kind lang = some rules ∧ ∃ x : Binary64, x.isFinite = true ∧
    select? rules o x = some c

theorem mem_categories_iff {lang : Text} {o : Options} {c : Category} :
    c ∈ categories lang o ↔ c = .other ∨ ∃ rules, rules? o.kind lang = some rules ∧
      c ∈ samples.filterMap (select? rules o) := by
  rw [categories, List.mem_filter, Bool.or_eq_true, beq_iff_eq, List.contains_iff_mem]
  cases rules? o.kind lang with
  | none => simp [Category.mem_all]
  | some rules => simp [Category.mem_all]

/-- **The categories that are listed are those that numbers select.** They come in their fixed
order, each is `other` or selected by a finite number, and unless more digits are asked for than
the samples have each that any finite number selects is listed. -/
theorem categories_spec (lang : Text) (o : Options) :
    ((categories lang o).Pairwise fun a b => a.rank < b.rank) ∧
      (∀ c ∈ categories lang o, c = .other ∨ IsSelected lang o c) ∧
      (o.IsCovered → ∀ c, c ∈ categories lang o ↔ c = .other ∨ IsSelected lang o c) := by
  have hsound : ∀ c ∈ categories lang o, c = .other ∨ IsSelected lang o c := by
    intro c hc
    refine (mem_categories_iff.mp hc).imp_right fun ⟨rules, hrules, hsample⟩ => ?_
    obtain ⟨x, -, hx⟩ := List.mem_filterMap.mp hsample
    exact ⟨rules, hrules, x, (exists_covers_of_select? hx).1, hx⟩
  refine ⟨pairwise_categories lang o, hsound, fun ho c => ⟨hsound c, ?_⟩⟩
  rintro (rfl | ⟨rules, hrules, x, -, hx⟩)
  · exact other_mem_categories lang o
  · obtain ⟨htables, hordinal⟩ := mem_tables hrules
    exact mem_categories_iff.mpr ((mem_of_select? ho htables hordinal hx).imp_right fun h =>
      ⟨rules, hrules, h⟩)

/-- Two digits behind the point, in a language whose rules look at them. -/
theorem categories_spec_hundredths :
    let o : Options := { Options.plain with minFraction := some 2 }
    o.IsCovered ∧ ∀ c, c ∈ categories "dsb" o ↔ c = .other ∨ IsSelected "dsb" o c :=
  have hcovered : ({ Options.plain with minFraction := some 2 } : Options).IsCovered :=
    .inr (Nat.le_refl 2)
  ⟨hcovered, (categories_spec "dsb" _).2.2 hcovered⟩

/-- Three digits behind the point are one more than the samples have: one thousandth selects a
category, but every sample has a zero at its end and selects `other`. -/
theorem isSelected_not_mem_categories_dsb :
    let o : Options := { Options.plain with minFraction := some 3 }
    IsSelected "dsb" o .one ∧ .one ∉ categories "dsb" o := by
  refine ⟨⟨_, rfl, decimal 1 3, by decide +kernel, by decide +kernel⟩, fun h => ?_⟩
  obtain h | ⟨rules, hrules, hsample⟩ := mem_categories_iff.mp h
  · cases h
  · cases hrules
    obtain ⟨x, hx, hselect⟩ := List.mem_filterMap.mp hsample
    obtain ⟨operands, hread, hone⟩ := Option.map_eq_some_iff.mp hselect
    rw [Rules.select_eq_of_outcomes (covers_thousandths rfl hx hread) (c := .other) (by decide)]
      at hone
    cases hone

end Localization.Plural
