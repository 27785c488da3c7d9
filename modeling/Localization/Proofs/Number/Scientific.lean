import Mathlib
import Localization.Proofs.Number.Plain

/-! Doubles with an exponent.

The text of a double with an exponent or a fraction holds the same digits as its text without,
laid out in one of three ways: with a point among zeros, with `.0` behind an integer, or with
one digit before the point and a power of ten. Each of them is read as the double
(`ofScript?_scientific`). -/
namespace Localization.Decimal

open Binary64 (scale IsForm IsNear)

theorem scientific_finite (negative : Bool) {m : Nat} (hm : 0 < m) (e : Nat) :
    scientific (.finite negative m e) =
      sign negative ++
        (if -5 < (shortest .toEven m e).exponent +
          (Text.ofNat (shortest .toEven m e).digits).length ∧
            (shortest .toEven m e).exponent + (Text.ofNat (shortest .toEven m e).digits).length ≤
              (16 : Int) then
          positional (shortest .toEven m e) ++ (if 0 ≤ (shortest .toEven m e).exponent then
            ['.', '0'] else [])
        else withExponent (shortest .toEven m e)) := by
  obtain ⟨k, rfl⟩ := Nat.exists_eq_succ_of_ne_zero hm.ne'
  simp [scientific]

/-! ### One digit and a power of ten -/

/-- The first digit of a number, and the others. -/
theorem exists_ofNat_eq_append {n : Nat} (hn : 0 < n) :
    ∃ k, (Text.ofNat n).length = k + 1 ∧ (Text.ofNat (n / 10 ^ k)).length = 1 ∧
      Text.ofNat n = Text.ofNat (n / 10 ^ k) ++ Text.lastDigits k n := by
  have hpos : 0 < (Text.ofNat n).length := Nat.length_toDigits_pos
  obtain ⟨k, hk⟩ : ∃ k, (Text.ofNat n).length = k + 1 := ⟨_, (Nat.succ_pred_eq_of_pos hpos).symm⟩
  have hsplit : Text.ofNat n = Text.ofNat (n / 10 ^ k) ++ Text.lastDigits k n := by
    refine Text.ofNat_eq_append ?_
    have hleast := (le_length_toDigits hn).1
    change 10 ^ ((Text.ofNat n).length - 1) ≤ n at hleast
    rwa [hk, Nat.add_sub_cancel] at hleast
  refine ⟨k, hk, ?_, hsplit⟩
  have hlength := congrArg List.length hsplit
  rw [hk, List.length_append, Text.length_lastDigits] at hlength
  omega

/-- The last digits of a number as a fraction, if there are any. -/
def laterDigits (k n : Nat) : Option Text := if k = 0 then none else some (Text.lastDigits k n)

theorem laterDigits_getD (k n : Nat) : (laterDigits k n).getD [] = Text.lastDigits k n := by
  cases k <;> rfl

theorem isDigit_laterDigits {k n : Nat} : ∀ f ∈ laterDigits k n, ∀ c ∈ f, c.isDigit = true := by
  intro f hf
  cases k with
  | zero => cases hf
  | succ k =>
    obtain rfl : Text.lastDigits (k + 1) n = f := Option.some.inj hf
    exact Text.isDigit_lastDigits

/-- A power of ten as it is written. -/
def powerText (power : Int) : Text :=
  'e' :: (if power < 0 then '-' else '+') :: Text.ofNat power.natAbs

theorem readExponent_powerText (power : Int) :
    readExponent (powerText power) =
      some (some (decide (power < 0), Text.ofNat power.natAbs)) := by
  have hne : (Text.ofNat power.natAbs).isEmpty = false := by simpa using Text.ofNat_ne_nil _
  have hdigit : (Text.ofNat power.natAbs).all Char.isDigit = true :=
    List.all_eq_true.mpr Text.isDigit_ofNat
  by_cases hsign : power < 0 <;> simp [powerText, readExponent, hsign, hne, hdigit]

/-- One digit before the point, the others behind it, and the power of ten. -/
theorem withExponent_eq {d : Digits} {k : Nat} (hk : (Text.ofNat d.digits).length = k + 1)
    (hfirst : (Text.ofNat (d.digits / 10 ^ k)).length = 1)
    (hsplit : Text.ofNat d.digits =
      Text.ofNat (d.digits / 10 ^ k) ++ Text.lastDigits k d.digits) :
    withExponent d = Text.ofNat (d.digits / 10 ^ k) ++
      ((laterDigits k d.digits).elim [] ('.' :: ·) ++ powerText (d.exponent + k)) := by
  have htake : (Text.ofNat d.digits).take 1 = Text.ofNat (d.digits / 10 ^ k) := by
    rw [hsplit, List.take_left' hfirst]
  have hdrop : (Text.ofNat d.digits).drop 1 = Text.lastDigits k d.digits := by
    rw [hsplit, List.drop_left' hfirst]
  have hpower : d.exponent + (Text.ofNat d.digits).length - 1 = d.exponent + k := by
    rw [hk]
    push_cast
    omega
  have hlayout : (if ((Text.ofNat d.digits).length == 1) = true then [] else
      '.' :: Text.lastDigits k d.digits) = (laterDigits k d.digits).elim [] ('.' :: ·) := by
    by_cases hzero : k = 0 <;> simp [laterDigits, hk, hzero]
  simp only [withExponent, powerText, hpower, htake, hdrop, hlayout, List.append_assoc,
    List.cons_append, List.nil_append]

/-- The numeral with one digit before the point has the value of all its digits. -/
theorem toBinary64_laterDigits {d : Digits} {k : Nat}
    (hsplit : Text.ofNat d.digits =
      Text.ofNat (d.digits / 10 ^ k) ++ Text.lastDigits k d.digits) (negative : Bool) :
    Numeral.toBinary64 ⟨negative, Text.ofNat (d.digits / 10 ^ k), laterDigits k d.digits,
      some (decide (d.exponent + k < 0), Text.ofNat (d.exponent + k).natAbs)⟩ =
        toBinary64 negative d.digits d.exponent := by
  have hwhole : ∀ c ∈ Text.ofNat (d.digits / 10 ^ k) ++ Text.lastDigits k d.digits,
      c.isDigit = true := by
    rw [← hsplit]
    exact Text.isDigit_ofNat
  have hall : Nat.ofDigitChars 10 (Text.ofNat (d.digits / 10 ^ k) ++ Text.lastDigits k d.digits) 0 =
      d.digits := by
    rw [← hsplit, ofDigitChars_ofNat]
  have hpower : (if decide (d.exponent + k < 0) = true then -((d.exponent + k).natAbs : Int)
      else (d.exponent + k).natAbs) - k = d.exponent := by
    by_cases hsign : d.exponent + k < 0
    · rw [if_pos (by simpa using hsign)]
      omega
    · rw [if_neg (by simpa using hsign)]
      omega
  simp only [Numeral.toBinary64, laterDigits_getD, digitsValue_eq hwhole, hall,
    digitsValue_eq Text.isDigit_ofNat, ofDigitChars_ofNat, Text.length_lastDigits, hpower]

/-! ### Reading back -/

section

variable {d : Digits} {m e : Nat} (negative : Bool) (hm : 0 < m) (hform : IsForm m e)
    (h : IsNear m e (d.value * scale))

include hm hform h

/-- An integer with `.0` behind it. -/
theorem ofScript?_positional_zero (hnonneg : 0 ≤ d.exponent) :
    ofScript? (sign negative ++ (positional d ++ ['.', '0'])) = some (.finite negative m e) := by
  obtain ⟨k, hk⟩ := Int.eq_ofNat_of_zero_le hnonneg
  have hzero : ∀ c ∈ ['0'], c.isDigit = true := by
    rintro c hc
    rw [List.mem_singleton.mp hc]
    rfl
  have hall : Nat.ofDigitChars 10 (Text.ofNat (d.digits * 10 ^ k) ++ ['0']) 0 =
      d.digits * 10 ^ k * 10 := by
    rw [Nat.ofDigitChars_append, ofDigitChars_ofNat]
    simp [Nat.ofDigitChars, Nat.mul_comm]
  rw [positional_of_nonneg hnonneg, hk, Int.toNat_natCast,
    Text.ofNat_append_zeros (digits_pos hm hform h),
    ofScript?_point Text.isDigit_ofNat (Text.ofNat_ne_nil _) negative hzero, hall]
  have hvalue := Digits.value_of_nonneg hk
  refine congrArg some (toBinary64_of_isNear Nat.one_pos hm hform ?_ (hvalue ▸ h))
  rw [List.length_singleton]
  push_cast
  rw [zpow_neg_one, div_one, mul_assoc, mul_inv_cancel₀ (by norm_num), mul_one]

/-- One digit before the point, and a power of ten. -/
theorem ofScript?_withExponent :
    ofScript? (sign negative ++ withExponent d) = some (.finite negative m e) := by
  obtain ⟨k, hk, hfirst, hsplit⟩ := exists_ofNat_eq_append (digits_pos hm hform h)
  rw [withExponent_eq hk hfirst hsplit, ofScript?_eq Text.isDigit_ofNat (Text.ofNat_ne_nil _)
    negative _ _ isDigit_laterDigits (by rintro c ⟨⟩; decide) (readExponent_powerText _),
    toBinary64_laterDigits hsplit, toBinary64_digits negative hm hform h]

end

/-- **A finite double is read back from its text with an exponent.** -/
theorem ofScript?_scientific {x : Binary64} (hfinite : x.isFinite = true) (hnormal : x.IsNormal) :
    ofScript? (scientific x) = some x := by
  obtain ⟨negative, m, e, rfl⟩ := Binary64.exists_finite hfinite
  obtain rfl | hm := Nat.eq_zero_or_pos m
  · have he : e = 0 := by
      by_contra he
      exact absurd (hnormal.2.2 he) (by decide)
    rw [he]
    cases negative <;> decide
  · have hnear := isNear_shortest hm .toEven hnormal.1 (e := e)
    rw [scientific_finite negative hm]
    split
    · split
      · next hnonneg => exact ofScript?_positional_zero negative hm hnormal hnear hnonneg
      · rw [List.append_nil]
        exact ofScript?_positional negative hm hnormal hnear
    · exact ofScript?_withExponent negative hm hnormal hnear

end Localization.Decimal
