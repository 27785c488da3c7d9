import Mathlib
import Localization.Plural.Selection
import Localization.Proofs.Number.Plain

/-! What selectors write.

A finite number is written as a `numeral`: its integer digits and, behind a point, digits of a
fraction if there are any. Its operands are told by these (`ofText?_numeral`); zeros in front change
none of them. Whatever digits the options ask for, a magnitude is rounded and then filled up with
zeros behind the point (`write_eq`). -/
namespace Localization.Plural

open Decimal (zeros plain)

/-! ### Numerals -/

/-- Integer digits and a fraction. -/
def numeral (i : Nat) (fraction : Text) : Text :=
  Text.ofNat i ++ (if fraction.isEmpty then [] else '.' :: fraction)

theorem numeral_nil (i : Nat) : numeral i [] = Text.ofNat i := by
  rw [numeral, List.isEmpty_nil, if_pos rfl, List.append_nil]

theorem numeral_of_ne_nil (i : Nat) {fraction : Text} (h : fraction ≠ []) :
    numeral i fraction = Text.ofNat i ++ '.' :: fraction := by
  rw [numeral, if_neg (by simpa using h)]

theorem isDigit_zeros {k : Nat} : ∀ c ∈ zeros k, c.isDigit = true := by
  intro c hc
  rw [List.eq_of_mem_replicate hc]
  rfl

theorem ne_point_of_isDigit {c : Char} (h : c.isDigit = true) : (c != '.') = true := by
  rw [bne_iff_ne]
  rintro rfl
  exact absurd h (by decide)

/-- The number of the digits behind the point. -/
def fractionNumber (fraction : Text) : Nat := Nat.ofDigitChars 10 fraction 0

/-- The operands of a numeral. -/
def operands (i : Nat) (fraction : Text) : Operands where
  n :=
    Decimal.toBinary64 false (i * 10 ^ fraction.length + fractionNumber fraction)
      (-(fraction.length : Int))
  i := i
  v := fraction.length
  f := fractionNumber fraction
  t := (word? (fraction.reverse.dropWhile (· == '0')).reverse).getD 0

theorem word?_eq {t : Text} (hne : t ≠ []) (h : ∀ c ∈ t, c.isDigit = true) :
    word? t = if Nat.ofDigitChars 10 t 0 < Nat.pow 2 64 then some (Nat.ofDigitChars 10 t 0)
      else none := by
  rw [word?, Text.decimal?_eq hne h, Option.bind_some]

theorem ofDigitChars_zeros_append (z : Nat) (t : Text) :
    Nat.ofDigitChars 10 (zeros z ++ t) 0 = Nat.ofDigitChars 10 t 0 := by
  induction z with
  | zero => rfl
  | succ z ih =>
    rw [zeros, List.replicate_succ, List.cons_append, Nat.ofDigitChars_cons]
    exact ih

theorem ofDigitChars_start (t : Text) (start : Nat) :
    Nat.ofDigitChars 10 t start = start * 10 ^ t.length + Nat.ofDigitChars 10 t 0 := by
  induction t generalizing start with
  | nil => simp [Nat.ofDigitChars]
  | cons c t ih =>
    rw [Nat.ofDigitChars_cons, Nat.ofDigitChars_cons, ih, ih (10 * 0 + _), List.length_cons,
      Nat.pow_succ]
    ring

theorem fractionNumber_append_zeros (places : Text) (z : Nat) :
    fractionNumber (places ++ zeros z) = fractionNumber places * 10 ^ z := by
  have hzeros : Nat.ofDigitChars 10 (zeros z) 0 = 0 := by
    have h := ofDigitChars_zeros_append z []
    rwa [List.append_nil] at h
  rw [fractionNumber, Nat.ofDigitChars_append, ofDigitChars_start, hzeros, zeros,
    List.length_replicate, Nat.add_zero]
  rfl

/-- Digits on either side of the point, with any number of zeros in front. -/
theorem ofText?_numeral (z i : Nat) {fraction : Text} (hf : ∀ c ∈ fraction, c.isDigit = true) :
    Operands.ofText? (zeros z ++ numeral i fraction) =
      if i < Nat.pow 2 64 ∧ fractionNumber fraction < Nat.pow 2 64 then some (operands i fraction)
        else none := by
  have hwhole : ∀ c ∈ zeros z ++ Text.ofNat i, c.isDigit = true := by
    intro c hc
    rcases List.mem_append.mp hc with hc | hc
    · exact isDigit_zeros c hc
    · exact Text.isDigit_ofNat c hc
  have hne : zeros z ++ Text.ofNat i ≠ [] :=
    List.append_ne_nil_of_right_ne_nil _ (Text.ofNat_ne_nil i)
  have hvalue : Nat.ofDigitChars 10 (zeros z ++ Text.ofNat i) 0 = i := by
    rw [ofDigitChars_zeros_append, Decimal.ofDigitChars_ofNat]
  have hpoint : ∀ c ∈ zeros z ++ Text.ofNat i, (c != '.') = true :=
    fun c hc => ne_point_of_isDigit (hwhole c hc)
  have hword := word?_eq hne hwhole
  rw [hvalue] at hword
  by_cases hempty : fraction = []
  · subst hempty
    have hread := Decimal.ofScript?_whole hwhole hne false
    rw [Decimal.sign, if_neg Bool.false_ne_true, List.nil_append, hvalue] at hread
    have htake : (zeros z ++ Text.ofNat i).takeWhile (· != '.') = zeros z ++ Text.ofNat i :=
      List.takeWhile_eq_self_iff.mpr hpoint
    rw [numeral_nil, Operands.ofText?]
    simp only [hread, htake, hword, List.drop_length, Option.pure_def, Option.bind_eq_bind,
      Option.bind_some]
    by_cases hlt : i < Nat.pow 2 64
    · rw [if_pos hlt, if_pos ⟨hlt, Nat.pow_pos (by decide)⟩]
      simp only [Option.bind_some, operands, fractionNumber, Nat.ofDigitChars, List.foldl_nil,
        List.length_nil, Nat.pow_zero, Nat.mul_one, Nat.add_zero]
      rfl
    · rw [if_neg hlt, if_neg fun h => hlt h.1]
      rfl
  · have hread := Decimal.ofScript?_point hwhole hne false hf
    have hall : Nat.ofDigitChars 10 (zeros z ++ Text.ofNat i ++ fraction) 0 =
        i * 10 ^ fraction.length + fractionNumber fraction := by
      rw [Nat.ofDigitChars_append, hvalue, ofDigitChars_start, fractionNumber]
    rw [Decimal.sign, if_neg Bool.false_ne_true, List.nil_append, hall] at hread
    have htake : (zeros z ++ Text.ofNat i ++ '.' :: fraction).takeWhile (· != '.') =
        zeros z ++ Text.ofNat i := by
      rw [List.takeWhile_append_of_pos hpoint, List.takeWhile_cons_of_neg (by simp),
        List.append_nil]
    have hword' : word? fraction =
        if fractionNumber fraction < Nat.pow 2 64 then some (fractionNumber fraction) else none :=
          word?_eq hempty hf
    rw [numeral_of_ne_nil i hempty, ← List.append_assoc, Operands.ofText?]
    simp only [hread, htake, hword, hword', List.drop_left, Option.pure_def, Option.bind_eq_bind,
      Option.bind_some]
    by_cases hlt : i < Nat.pow 2 64
    · rw [if_pos hlt, Option.bind_some]
      by_cases hlt' : fractionNumber fraction < Nat.pow 2 64
      · rw [if_pos hlt', if_pos ⟨hlt, hlt'⟩]
        rfl
      · have hnot : ¬ (i < Nat.pow 2 64 ∧ fractionNumber fraction < Nat.pow 2 64) :=
          fun h => hlt' h.2
        rw [if_neg hlt', if_neg hnot]
        rfl
    · have hnot : ¬ (i < Nat.pow 2 64 ∧ fractionNumber fraction < Nat.pow 2 64) := fun h => hlt h.1
      rw [if_neg hlt, if_neg hnot]
      rfl

/-! ### Doubles as numerals -/

/-- The integer digits of digits with an exponent. -/
def whole (d : Decimal.Digits) : Nat := d.digits * 10 ^ d.exponent.toNat / 10 ^ (-d.exponent).toNat

/-- The digits behind the point. -/
def fraction (d : Decimal.Digits) : Text := Text.lastDigits (-d.exponent).toNat d.digits

@[simp] theorem length_fraction (d : Decimal.Digits) : (fraction d).length = (-d.exponent).toNat :=
  Text.length_lastDigits _ _

theorem isDigit_fraction (d : Decimal.Digits) : ∀ c ∈ fraction d, c.isDigit = true :=
  Text.isDigit_lastDigits

theorem fraction_eq_nil {d : Decimal.Digits} (h : 0 ≤ d.exponent) : fraction d = [] :=
  List.eq_nil_of_length_eq_zero (by rw [length_fraction]; omega)

theorem whole_of_nonneg {d : Decimal.Digits} {k : Nat} (h : d.exponent = k) :
    whole d = d.digits * 10 ^ k := by
  rw [whole, h, Int.toNat_natCast, Int.toNat_neg_natCast, Nat.pow_zero, Nat.div_one]

theorem whole_of_neg {d : Decimal.Digits} {k : Nat} (h : d.exponent = -k) :
    whole d = d.digits / 10 ^ k := by
  rw [whole, h, neg_neg, Int.toNat_natCast, Int.toNat_neg_natCast, Nat.pow_zero, Nat.mul_one]

/-- Digits that end before the point are a multiple of ten. -/
theorem ten_dvd_whole {d : Decimal.Digits} (h : 0 < d.exponent) : 10 ∣ whole d := by
  obtain ⟨k, hk⟩ := Int.eq_ofNat_of_zero_le h.le
  rw [whole_of_nonneg hk]
  exact (dvd_pow_self 10 (by omega)).mul_left _

theorem whole_le_value (d : Decimal.Digits) : (whole d : ℚ) ≤ d.value := by
  rcases Int.le_total 0 d.exponent with hsign | hsign
  · obtain ⟨k, hk⟩ := Int.eq_ofNat_of_zero_le hsign
    rw [whole_of_nonneg hk, Decimal.Digits.value_of_nonneg hk, Nat.cast_one, div_one]
  · obtain ⟨k, hk⟩ := Int.eq_ofNat_of_zero_le (show 0 ≤ -d.exponent by omega)
    have hk : d.exponent = -(k : Int) := by omega
    rw [whole_of_neg hk, Decimal.Digits.value_of_neg hk]
    exact Nat.cast_div_le

theorem positional_eq_numeral {d : Decimal.Digits} (hd : 0 < d.digits) :
    Decimal.positional d = numeral (whole d) (fraction d) := by
  by_cases hsign : 0 ≤ d.exponent
  · obtain ⟨k, hk⟩ := Int.eq_ofNat_of_zero_le hsign
    rw [Decimal.positional_of_nonneg hsign, fraction_eq_nil hsign, numeral_nil, whole_of_nonneg hk,
      hk, Int.toNat_natCast, Text.ofNat_append_zeros hd]
  · obtain ⟨k, hk⟩ := Int.eq_ofNat_of_zero_le (show 0 ≤ -d.exponent by omega)
    have hplace : d.exponent = -(k : Int) := by omega
    have hne : fraction d ≠ [] := by
      rw [← List.length_pos_iff, length_fraction]
      omega
    rw [Decimal.positional_of_neg (by omega) hplace, numeral_of_ne_nil _ hne, whole_of_neg hplace,
      fraction, hk, Int.toNat_natCast]

section

open Binary64 (scale scale_pos IsForm IsNear)
open Decimal (shortest)

variable {m e : Nat} (hm : 0 < m) (hform : IsForm m e)

include hm hform

/-- A magnitude is written as the numeral of its shortest digits. -/
theorem plain_eq_numeral :
    plain (.finite false m e) = numeral (whole (shortest .up m e))
      (fraction (shortest .up m e)) := by
  have hpos := Decimal.digits_pos hm hform (Decimal.isNear_shortest hm .up hform.1)
  rw [Decimal.plain_finite false hm, ← positional_eq_numeral hpos, Decimal.sign,
    if_neg Bool.false_ne_true, List.nil_append]

/-- What is written before the point is no more than the magnitude. -/
theorem mul_scale_le_of_le_whole {n : Nat} (hn : n < 2 ^ 53) (h : n ≤ whole (shortest .up m e)) :
    n * scale ≤ m * 2 ^ e := by
  have hscale : (0 : ℚ) < scale := by exact_mod_cast scale_pos
  -- the digits are at most half a step above it
  have hhigh : 2 * (n * scale) ≤ 2 * (m * 2 ^ e) + 2 ^ e := by
    have hle : (n : ℚ) * scale ≤ (shortest .up m e).value * scale := by
      refine mul_le_mul_of_nonneg_right ((Nat.cast_le.mpr h).trans (whole_le_value _)) hscale.le
    have hnear := (Decimal.isNear_shortest hm .up hform.1 (e := e)).2.1
    rw [Binary64.high, Nat.pow_eq] at hnear
    push_cast at hnear
    have hcast : (2 * (n * scale) : ℚ) ≤ 2 * (m * 2 ^ e) + 2 ^ e := by linarith
    exact_mod_cast hcast
  obtain ⟨j, -, hj⟩ := Binary64.exists_scale_eq
  rw [Nat.pow_eq] at hj
  by_cases he : e ≤ j
  · -- and they are so many steps too
    have hsteps : n * scale = n * 2 ^ (j - e) * 2 ^ e := by
      rw [hj, Nat.mul_assoc, ← Nat.pow_add, Nat.sub_add_cancel he]
    rw [hsteps] at hhigh ⊢
    have hlt : n * 2 ^ (j - e) < m + 1 := by
      refine Nat.lt_of_mul_lt_mul_right (a := 2 ^ e) ?_
      have := Nat.two_pow_pos e
      rw [Nat.add_mul]
      omega
    exact Nat.mul_le_mul_right _ (by omega)
  · calc n * scale ≤ 2 ^ 53 * 2 ^ j := hj ▸ Nat.mul_le_mul_right _ hn.le
      _ = 2 ^ 52 * 2 ^ (j + 1) := by rw [Nat.pow_succ]; omega
      _ ≤ m * 2 ^ e :=
        Nat.mul_le_mul (hform.2.2 (by omega)) (Nat.pow_le_pow_right (by decide) (by omega))

theorem whole_le {n : Nat} (hn : n + 1 < 2 ^ 53) (h : m * 2 ^ e ≤ n * scale) :
    whole (shortest .up m e) ≤ n := by
  by_contra hlt
  have hle := mul_scale_le_of_le_whole hm hform hn (by omega)
  have hscale := scale_pos
  rw [Nat.add_mul] at hle
  omega

omit hform in
/-- The place of the first digit. -/
theorem le_top {t : Nat} (h : 10 ^ t * scale ≤ m * 2 ^ e) : (t : Int) ≤ Decimal.top m e := by
  have hscale : (0 : ℚ) < scale := by exact_mod_cast scale_pos
  have hle : (10 : ℚ) ^ (t : Int) ≤ Decimal.size m e := by
    rw [Decimal.size, le_div_iff₀ hscale, zpow_natCast]
    exact_mod_cast h
  have hlt := (zpow_lt_zpow_iff_right₀ (by norm_num)).mp (hle.trans_lt (Decimal.top_spec hm).2)
  omega

/-- Steps of a power of ten that are rounded to a magnitude. -/
theorem le_exponent_of_ofUnits {n k : Nat} (hn : 0 < n) (hk : k ≤ 22)
    (h : Binary64.ofUnits false (n * 10 ^ k * scale) 1 = .finite false m e) :
    (k : Int) ≤ (shortest .up m e).exponent := by
  have hnear := Binary64.isNear_of_ofUnits_eq Nat.one_pos h
  refine Decimal.le_exponent_of_isNear hm .up hform.1 (k := n) ?_ (le_top hm ?_)
  · rw [zpow_natCast]
    push_cast at hnear
    rwa [div_one] at hnear
  · have hgrid : Binary64.IsGrid (10 ^ k * scale) := by
      rw [← Nat.one_mul (10 ^ k)]
      exact (Binary64.isGrid_mul_ten_pow
        ((Nat.mul_le_mul_left 1 (Nat.pow_le_pow_right (by decide) hk)).trans (by decide))).mul_scale
    have hfinite : (Binary64.ofUnits false (n * 10 ^ k * scale) 1).isFinite = true := by rw [h]; rfl
    have hmultiple : 10 ^ k * scale * 1 ≤ n * 10 ^ k * scale := by
      rw [Nat.mul_one]
      exact Nat.mul_le_mul_right _ (Nat.le_mul_of_pos_left _ hn)
    have hle := Binary64.le_units_ofUnits Nat.one_pos hgrid hmultiple hfinite
    rw [h] at hle
    exact hle

end

/-! ### Filling up -/

theorem fractionOf_numeral (i : Nat) (fraction : Text) :
    fractionOf (numeral i fraction) = if fraction.isEmpty then none else some fraction := by
  have hdrop : ∀ rest, (Text.ofNat i ++ rest).dropWhile (· != '.') = rest.dropWhile (· != '.') :=
    fun rest =>
    List.dropWhile_append_of_pos fun c hc => ne_point_of_isDigit (Text.isDigit_ofNat c hc)
  rw [fractionOf, numeral, hdrop]
  by_cases hempty : fraction.isEmpty
  · rw [if_pos hempty, if_pos hempty]
    rfl
  · rw [if_neg hempty, if_neg hempty, List.dropWhile_cons_of_neg (by simp)]

theorem getD_fractionOf_numeral (i : Nat) (fraction : Text) :
    (fractionOf (numeral i fraction)).getD [] = fraction := by
  rw [fractionOf_numeral]
  split
  · next h => rw [List.isEmpty_iff.mp h]; rfl
  · rfl

/-- A numeral is filled up by zeros at its end. -/
theorem fillFraction_numeral (i : Nat) (fraction : Text) (places : Nat) :
    fillFraction (numeral i fraction) places =
      numeral i (fraction ++ zeros (places - fraction.length)) := by
  rw [fillFraction, fractionOf_numeral]
  by_cases hempty : fraction = []
  · subst hempty
    rw [List.isEmpty_nil, if_pos rfl, List.nil_append, List.length_nil, Nat.sub_zero, numeral_nil]
    by_cases hzero : places = 0
    · subst hzero
      rw [beq_self_eq_true, if_pos rfl, zeros, List.replicate_zero, numeral_nil]
    · have hne : zeros places ≠ [] := by
        rw [zeros, Ne, List.replicate_eq_nil_iff]
        exact hzero
      rw [if_neg (by simpa using hzero), numeral_of_ne_nil i hne]
  · have hne : fraction.isEmpty = false := by simpa using hempty
    rw [hne, if_neg Bool.false_ne_true, numeral_of_ne_nil i hempty,
      numeral_of_ne_nil i (by simp [hempty])]
    simp only [List.append_assoc, List.cons_append]

theorem head_ofNat {n : Nat} (h : 0 < n) :
    ∃ c rest, Text.ofNat n = c :: rest ∧ (c == '0') = false := by
  induction n using Nat.strong_induction_on with
  | _ n ih =>
    by_cases hten : 10 ≤ n
    · obtain ⟨c, rest, hrest, hc⟩ :=
        ih (n / 10) (Nat.div_lt_self h (by decide)) (Nat.div_pos hten (by decide))
      have hlast : Text.ofNat n = Text.ofNat (n / 10) ++ [Nat.digitChar (n % 10)] :=
        Nat.toDigits_of_base_le (by decide) hten
      exact ⟨c, rest ++ [Nat.digitChar (n % 10)], by rw [hlast, hrest, List.cons_append], hc⟩
    · have hone : Text.ofNat n = [Nat.digitChar n] := Nat.toDigits_of_lt_base (by omega)
      have hdigit : ∀ k < 10, 0 < k → (Nat.digitChar k == '0') = false := by decide
      exact ⟨_, _, hone, hdigit n (by omega) h⟩

/-- Every digit of a natural number is significant, and so is its digit if it is zero. -/
theorem countSignificant_ofNat (n : Nat) :
    countSignificant (Text.ofNat n) = (Text.ofNat n).length := by
  have hfilter : (Text.ofNat n).filter Char.isDigit = Text.ofNat n :=
    List.filter_eq_self.mpr Text.isDigit_ofNat
  rw [countSignificant]
  simp only [hfilter]
  obtain rfl | hn := Nat.eq_zero_or_pos n
  · rfl
  · obtain ⟨c, rest, hrest, hc⟩ := head_ofNat hn
    rw [hrest, List.dropWhile_cons_of_neg (by rw [hc]; exact Bool.false_ne_true)]
    rfl

/-! ### Precision -/

/-- How many digits are written at least and at most, behind the point or significant. -/
inductive Precision where
  | fraction (least most : Nat)
  | significant (least most : Nat)
  deriving DecidableEq, Repr

/-- The digits that options ask for, within the limits. -/
def Options.precision (o : Options) : Precision :=
  if o.minSignificant.isSome || o.maxSignificant.isSome then
    let most := max 1 (min (o.maxSignificant.getD precisionLimit) precisionLimit)
    .significant (max 1 (min (o.minSignificant.getD 1) most)) most
  else
    let least := min (o.minFraction.getD 0) precisionLimit
    .fraction least (max least (min (o.maxFraction.getD (max least 3)) precisionLimit))

namespace Precision

/-- The bounds of digits are in order and within the limits. -/
def IsValid : Precision → Prop
  | fraction least most => least ≤ most ∧ most ≤ precisionLimit
  | significant least most => 1 ≤ least ∧ least ≤ most ∧ most ≤ precisionLimit

/-- A magnitude without the digits behind the last one that is written. -/
def round (p : Precision) (x : Binary64) : Binary64 :=
  match p with
  | fraction _ most => roundAt x most
  | significant _ most => roundAt x ((most : Int) - 1 - magnitude x)

/-- How many digits are written behind the point at least. -/
def places (p : Precision) (text : Text) : Nat :=
  match p with
  | fraction least _ => least
  | significant least _ => ((fractionOf text).getD []).length + (least - countSignificant text)

end Precision

theorem isValid_precision (o : Options) : o.precision.IsValid := by
  rw [Options.precision]
  split
  · exact ⟨le_max_left _ _, max_le (le_max_left _ _) (min_le_right _ _),
      max_le (by decide) (min_le_right _ _)⟩
  · exact ⟨le_max_left _ _, max_le (min_le_right _ _) (min_le_right _ _)⟩

theorem fillFraction_length (text : Text) :
    fillFraction text ((fractionOf text).getD []).length = text := by
  rw [fillFraction]
  split
  · next fraction h =>
      rw [h, Option.getD_some, Nat.sub_self, zeros, List.replicate_zero, List.append_nil]
  · next h => rw [h, Option.getD_none]; rfl

/-- A number is rounded and then filled up, whatever digits the options ask for. -/
theorem write_eq (o : Options) (x : Binary64) :
    ∃ z, write o x = zeros z ++ fillFraction (plain (o.precision.round x.abs))
      (o.precision.places (plain (o.precision.round x.abs))) := by
  have htext : (if o.minSignificant.isSome || o.maxSignificant.isSome then writeSignificant o x.abs
      else writeFraction o x.abs) = fillFraction (plain (o.precision.round x.abs))
        (o.precision.places (plain (o.precision.round x.abs))) := by
    rw [Options.precision]
    split
    · simp only [writeSignificant, Precision.round, Precision.places]
      split
      · next hle => rw [Nat.sub_eq_zero_of_le hle, Nat.add_zero, fillFraction_length]
      · rfl
    · rfl
  rw [write, htext]
  split
  · exact ⟨0, rfl⟩
  · exact ⟨_, rfl⟩

end Localization.Plural
