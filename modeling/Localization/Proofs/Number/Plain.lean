import Mathlib
import Localization.Proofs.Number.Shortest

/-! The text of a double.

Without an exponent the shortest digits of a double are written out: with zeros behind them, or
with a point between them (`positional_of_nonneg`, `positional_of_neg`). A natural number below
`2 ^ 53` is written as itself (`plain_ofNat`), and every finite double reads back as itself
(`ofScript?_plain`). -/
namespace Localization

/-! ### Texts of digits -/

namespace Text

theorem isDigit_ofNat {n : Nat} : ∀ c ∈ ofNat n, c.isDigit = true :=
  fun _ h => Nat.isDigit_of_mem_toDigits (by decide) (by decide) h

theorem decimal?_eq {t : Text} (hne : t ≠ []) (h : ∀ c ∈ t, c.isDigit = true) :
    decimal? t = some (Nat.ofDigitChars 10 t 0) := by
  have hall : t.all Char.isDigit = true := List.all_eq_true.mpr h
  have hempty : t.isEmpty = false := by simpa using hne
  rw [decimal?, hempty, hall, Nat.ofDigitChars_eq_foldl]
  rfl

theorem ofNat_ne_nil (n : Nat) : ofNat n ≠ [] := Nat.toDigits_ne_nil

/-- The last `k` digits of a number, with zeros in front. -/
def lastDigits : Nat → Nat → Text
  | 0, _ => []
  | k + 1, n => lastDigits k (n / 10) ++ [Nat.digitChar (n % 10)]

@[simp] theorem length_lastDigits (k n : Nat) : (lastDigits k n).length = k := by
  induction k generalizing n with
  | zero => rfl
  | succ k ih => rw [lastDigits, List.length_append, ih, List.length_singleton]

theorem isDigit_digitChar {n : Nat} (h : n < 10) : (Nat.digitChar n).isDigit = true := by
  revert n
  decide

theorem isDigit_lastDigits {k n : Nat} : ∀ c ∈ lastDigits k n, c.isDigit = true := by
  induction k generalizing n with
  | zero => simp [lastDigits]
  | succ k ih =>
    intro c hc
    rw [lastDigits, List.mem_append, List.mem_singleton] at hc
    rcases hc with hc | rfl
    · exact ih c hc
    · exact isDigit_digitChar (Nat.mod_lt _ (by decide))

theorem toNat_digitChar {n : Nat} (h : n < 10) : (Nat.digitChar n).toNat - '0'.toNat = n := by
  revert n
  decide

theorem ofDigitChars_lastDigits (k n start : Nat) :
    Nat.ofDigitChars 10 (lastDigits k n) start = start * 10 ^ k + n % 10 ^ k := by
  induction k generalizing n with
  | zero => simp [lastDigits, Nat.ofDigitChars, Nat.mod_one]
  | succ k ih =>
    have hsplit : n % 10 ^ (k + 1) = 10 * (n / 10 % 10 ^ k) + n % 10 := by
      rw [Nat.pow_succ', Nat.mod_mul]
      omega
    rw [lastDigits, Nat.ofDigitChars_append, ih, Nat.ofDigitChars_cons,
      toNat_digitChar (Nat.mod_lt _ (by decide)), hsplit]
    simp only [Nat.ofDigitChars, List.foldl_nil]
    ring

/-- A number is written as what stands before its last digits, and these. -/
theorem ofNat_eq_append {k n : Nat} (h : 10 ^ k ≤ n) :
    ofNat n = ofNat (n / 10 ^ k) ++ lastDigits k n := by
  induction k generalizing n with
  | zero => rw [Nat.pow_zero, Nat.div_one, lastDigits, List.append_nil]
  | succ k ih =>
    have hten : 10 ≤ n :=
      le_trans (by rw [Nat.pow_succ]; exact Nat.le_mul_of_pos_left _ (Nat.pow_pos (by decide))) h
    have hdiv : 10 ^ k ≤ n / 10 := by
      rw [Nat.le_div_iff_mul_le (by decide), ← Nat.pow_succ]
      exact h
    have hlast : ofNat n = ofNat (n / 10) ++ [Nat.digitChar (n % 10)] :=
      Nat.toDigits_of_base_le (by decide) hten
    rw [hlast, ih hdiv, lastDigits, List.append_assoc, Nat.pow_succ', Nat.div_div_eq_div_mul]

theorem length_ofNat_le_iff {n k : Nat} (hk : 0 < k) : (ofNat n).length ≤ k ↔ n < 10 ^ k :=
  Nat.length_toDigits_le_iff (by decide) hk

/-- A number with zeros in front is its last digits. -/
theorem zeros_append_ofNat {k n : Nat} (hk : 0 < k) (h : n < 10 ^ k) :
    Decimal.zeros (k - (ofNat n).length) ++ ofNat n = lastDigits k n := by
  have hlength := (length_ofNat_le_iff hk).mpr h
  induction k generalizing n with
  | zero => exact absurd hk (Nat.lt_irrefl 0)
  | succ k ih =>
    by_cases hten : 10 ≤ n
    · have hlast : ofNat n = ofNat (n / 10) ++ [Nat.digitChar (n % 10)] :=
        Nat.toDigits_of_base_le (by decide) hten
      have hk' : 0 < k := by
        by_contra hk'
        obtain rfl : k = 0 := by omega
        omega
      have hlt : n / 10 < 10 ^ k := by
        rw [Nat.div_lt_iff_lt_mul (by decide), ← Nat.pow_succ]
        exact h
      rw [hlast, List.length_append, List.length_singleton, Nat.add_sub_add_right,
        ← List.append_assoc, ih hk' hlt ((length_ofNat_le_iff hk').mpr hlt), lastDigits]
    · have hone : ofNat n = [Nat.digitChar n] := Nat.toDigits_of_lt_base (by omega)
      have hzeros : ∀ k, Decimal.zeros k = lastDigits k 0 := by
        intro k
        induction k with
        | zero => rfl
        | succ k ih =>
          rw [lastDigits, Nat.zero_div, ← ih, Decimal.zeros, List.replicate_succ']
          rfl
      rw [hone, List.length_singleton, Nat.add_sub_cancel, hzeros, lastDigits,
        Nat.mod_eq_of_lt (by omega), Nat.div_eq_of_lt (by omega)]

/-- A number with zeros behind it. -/
theorem ofNat_append_zeros {n : Nat} (hn : 0 < n) (k : Nat) :
    ofNat n ++ Decimal.zeros k = ofNat (n * 10 ^ k) := by
  induction k with
  | zero => rw [Nat.pow_zero, Nat.mul_one]; exact List.append_nil _
  | succ k ih =>
    have hten : 10 ≤ n * 10 ^ (k + 1) := by
      rw [Nat.pow_succ, ← Nat.mul_assoc]
      exact Nat.le_mul_of_pos_left _ (Nat.mul_pos hn (Nat.pow_pos (by decide)))
    have hdiv : n * 10 ^ (k + 1) / 10 = n * 10 ^ k := by
      rw [Nat.pow_succ, ← Nat.mul_assoc, Nat.mul_div_cancel _ (by decide)]
    have hmod : n * 10 ^ (k + 1) % 10 = 0 := by
      rw [Nat.pow_succ, ← Nat.mul_assoc, Nat.mul_mod_left]
    have hlast : ofNat (n * 10 ^ (k + 1)) =
        ofNat (n * 10 ^ (k + 1) / 10) ++ [Nat.digitChar (n * 10 ^ (k + 1) % 10)] :=
      Nat.toDigits_of_base_le (by decide) hten
    rw [hlast, hdiv, hmod, ← ih, Decimal.zeros, Decimal.zeros, List.replicate_succ',
      List.append_assoc]
    rfl

end Text

namespace Decimal

open Binary64 (scale scale_pos IsForm IsNear)

/-! ### Layout -/

theorem positional_of_nonneg {d : Digits} (h : 0 ≤ d.exponent) :
    positional d = Text.ofNat d.digits ++ zeros d.exponent.toNat := by rw [positional, if_pos h]

/-- Digits with a point between them. -/
theorem positional_of_neg {d : Digits} {k : Nat} (hk : 0 < k) (h : d.exponent = -k) :
    positional d = Text.ofNat (d.digits / 10 ^ k) ++ '.' :: Text.lastDigits k d.digits := by
  have hneg : ¬ (0 : Int) ≤ d.exponent := by omega
  have hplaces : (-d.exponent).toNat = k := by omega
  rw [positional, if_neg hneg, hplaces]
  by_cases hlong : k < (Text.ofNat d.digits).length
  · have hle : 10 ^ k ≤ d.digits := by
      by_contra hlt
      have := (Text.length_ofNat_le_iff hk).mpr (by omega : d.digits < 10 ^ k)
      omega
    have happend := Text.ofNat_eq_append hle
    have hlength : (Text.ofNat d.digits).length - k = (Text.ofNat (d.digits / 10 ^ k)).length := by
      rw [happend, List.length_append, Text.length_lastDigits, Nat.add_sub_cancel]
    rw [if_pos hlong, hlength]
    have htake : (Text.ofNat d.digits).take (Text.ofNat (d.digits / 10 ^ k)).length =
        Text.ofNat (d.digits / 10 ^ k) := by
      rw [happend, List.take_left]
    have hdrop : (Text.ofNat d.digits).drop (Text.ofNat (d.digits / 10 ^ k)).length =
        Text.lastDigits k d.digits := by
      rw [happend, List.drop_left]
    rw [htake, hdrop]
  · have hlt : d.digits < 10 ^ k := (Text.length_ofNat_le_iff hk).mp (by omega)
    rw [if_neg hlong, Nat.div_eq_of_lt hlt, List.append_assoc, Text.zeros_append_ofNat hk hlt]
    rfl

theorem plain_finite (negative : Bool) {m : Nat} (hm : 0 < m) (e : Nat) :
    plain (.finite negative m e) = sign negative ++ positional (shortest .up m e) := by
  obtain ⟨k, rfl⟩ := Nat.exists_eq_succ_of_ne_zero hm.ne'
  rw [plain]
  exact Nat.succ_ne_zero k

/-! ### Reading numerals -/

theorem readExponent_nil : readExponent [] = some none := rfl

theorem digitsValue_eq {t : Text} (h : ∀ c ∈ t, c.isDigit = true) :
    digitsValue t = Nat.ofDigitChars 10 t 0 := by
  by_cases hne : t = []
  · subst hne
    rfl
  · rw [digitsValue, Text.decimal?_eq hne h, Option.getD_some]

/-- The parts of a numeral behind its sign. -/
def unsigned (negative : Bool) (body : Text) : Option Numeral :=
  match body.dropWhile Char.isDigit with
  | '.' :: r =>
    (readExponent (r.dropWhile Char.isDigit)).map fun e =>
      ⟨negative, body.takeWhile Char.isDigit, some (r.takeWhile Char.isDigit), e⟩
  | r => (readExponent r).map fun e => ⟨negative, body.takeWhile Char.isDigit, none, e⟩

theorem ofText?_sign (negative : Bool) {body : Text} (h : ∀ r, body ≠ '-' :: r) :
    Numeral.ofText? (sign negative ++ body) = unsigned negative body := by
  cases negative with
  | true => rfl
  | false =>
    rw [sign, if_neg Bool.false_ne_true, List.nil_append]
    rw [Numeral.ofText?]
    · rfl
    · exact h

section

variable {whole fraction : Text} (hwhole : ∀ c ∈ whole, c.isDigit = true) (hne : whole ≠ [])

include hwhole hne

theorem ne_minus (rest r : Text) : whole ++ rest ≠ '-' :: r := by
  obtain ⟨c, tail, rfl⟩ := List.exists_cons_of_ne_nil hne
  intro h
  have hminus := hwhole c List.mem_cons_self
  rw [(List.cons.inj h).1] at hminus
  exact absurd hminus (by decide)

omit hne in
theorem takeWhile_whole (rest : Text) (hrest : ∀ c, rest.head? = some c → c.isDigit = false) :
    (whole ++ rest).takeWhile Char.isDigit = whole ∧
      (whole ++ rest).dropWhile Char.isDigit = rest := by
  rw [List.takeWhile_append_of_pos hwhole, List.dropWhile_append_of_pos hwhole]
  cases rest with
  | nil => simp
  | cons c rest =>
    have hc : ¬ c.isDigit = true := by rw [hrest c rfl]; exact Bool.false_ne_true
    rw [List.takeWhile_cons_of_neg hc, List.dropWhile_cons_of_neg hc, List.append_nil]
    exact ⟨rfl, rfl⟩

/-- A numeral is cut into its sign, its digits, those behind the point if there is one, and what
follows them. -/
theorem ofText?_eq (negative : Bool) (fraction : Option Text) (tail : Text)
    {exponent : Option (Bool × Text)} (hfraction : ∀ f ∈ fraction, ∀ c ∈ f, c.isDigit = true)
    (htail : ∀ c, tail.head? = some c → c.isDigit = false ∧ c ≠ '.')
    (hexponent : readExponent tail = some exponent) :
    Numeral.ofText? (sign negative ++ (whole ++ (fraction.elim [] ('.' :: ·) ++ tail))) =
      some ⟨negative, whole, fraction, exponent⟩ := by
  rw [ofText?_sign negative (ne_minus hwhole hne _), unsigned]
  cases fraction with
  | none =>
    obtain ⟨htake, hdrop⟩ := takeWhile_whole hwhole tail fun c hc => (htail c hc).1
    rw [Option.elim_none, List.nil_append, htake, hdrop]
    split
    · exact absurd rfl (htail _ rfl).2
    · rw [hexponent]
      rfl
  | some f =>
    obtain ⟨htake, hdrop⟩ := takeWhile_whole hwhole ('.' :: (f ++ tail)) (by rintro c ⟨⟩; decide)
    obtain ⟨htake', hdrop'⟩ := takeWhile_whole (hfraction f rfl) tail fun c hc => (htail c hc).1
    rw [Option.elim_some, List.cons_append, htake, hdrop]
    simp only [htake', hdrop', hexponent, Option.map_some]

/-- The number of a numeral. -/
theorem ofScript?_eq (negative : Bool) (fraction : Option Text) (tail : Text)
    {exponent : Option (Bool × Text)} (hfraction : ∀ f ∈ fraction, ∀ c ∈ f, c.isDigit = true)
    (htail : ∀ c, tail.head? = some c → c.isDigit = false ∧ c ≠ '.')
    (hexponent : readExponent tail = some exponent) :
    ofScript? (sign negative ++ (whole ++ (fraction.elim [] ('.' :: ·) ++ tail))) =
      some (Numeral.toBinary64 ⟨negative, whole, fraction, exponent⟩) := by
  have hempty : whole.isEmpty = false := by simpa using hne
  rw [ofScript?, ofText?_eq hwhole hne negative fraction tail hfraction htail hexponent]
  simp [hempty]

/-- A numeral without a point. -/
theorem ofScript?_whole (negative : Bool) :
    ofScript? (sign negative ++ whole) =
      some (toBinary64 negative (Nat.ofDigitChars 10 whole 0) 0) := by
  have h := ofScript?_eq hwhole hne negative none [] (by simp) (by simp) readExponent_nil
  rw [Option.elim_none, List.append_nil, List.append_nil] at h
  rw [h]
  simp only [Numeral.toBinary64, Option.getD_none, List.append_nil, List.length_nil,
    digitsValue_eq hwhole]
  rfl

/-- A numeral with a point. -/
theorem ofScript?_point (negative : Bool) (hfraction : ∀ c ∈ fraction, c.isDigit = true) :
    ofScript? (sign negative ++ (whole ++ '.' :: fraction)) =
      some (toBinary64 negative (Nat.ofDigitChars 10 (whole ++ fraction) 0)
        (-(fraction.length : Int))) := by
  have h :=
    ofScript?_eq hwhole hne negative (some fraction) [] (by rintro f ⟨⟩; exact hfraction) (by simp)
    readExponent_nil
  have hdigits : ∀ c ∈ whole ++ fraction, c.isDigit = true := by
    intro c hc
    rcases List.mem_append.mp hc with hc | hc
    · exact hwhole c hc
    · exact hfraction c hc
  rw [Option.elim_some, List.append_nil] at h
  rw [h]
  simp only [Numeral.toBinary64, Option.getD_some, digitsValue_eq hdigits, Int.zero_sub]

end

/-! ### Reading back -/

theorem scale_cast : (scale : ℚ) = 2 ^ 1074 := by
  rw [scale, Nat.pow_eq, Nat.cast_pow, Nat.cast_ofNat]

theorem two_pow_1024_lt : (2 : ℚ) ^ 1024 ≤ 10 ^ 309 := by
  have hstep : (2 : ℚ) ^ 128 ≤ 4 * 10 ^ 38 := by norm_num
  calc (2 : ℚ) ^ 1024 = (2 ^ 128) ^ 8 := by rw [← pow_mul]
    _ ≤ (4 * 10 ^ 38) ^ 8 := pow_le_pow_left₀ (by positivity) hstep 8
    _ = 65536 * 10 ^ 304 := by rw [mul_pow, ← pow_mul]; norm_num
    _ ≤ 10 ^ 5 * 10 ^ 304 := by
      refine mul_le_mul_of_nonneg_right (by norm_num) (by positivity)
    _ = 10 ^ 309 := by rw [← pow_add]

/-- A number that is near to a double is within the range that is read with its power of ten. -/
theorem bounds_of_isNear {m e : Nat} {x : ℚ} (hm : 0 < m) (hform : IsForm m e)
    (h : IsNear m e (x * scale)) :
    (10 : ℚ) ^ (-330 : Int) < x ∧ x < 10 ^ (310 : Int) := by
  obtain ⟨hlow, hhigh, -⟩ := h
  obtain ⟨hlt, he, -⟩ := hform
  have hscale : (0 : ℚ) < scale := by exact_mod_cast scale_pos
  have htwo : 2 ≤ Binary64.low m e := by
    have hpow : 1 ≤ 2 ^ e := Nat.one_le_two_pow
    have hsteps : 2 ≤ 4 * m - (if m == Nat.pow 2 52 && e ≠ 0 then 1 else 2) := by split <;> omega
    exact Nat.mul_le_mul hsteps hpow
  have hmost : Binary64.high m e ≤ 4 * 2 ^ 53 * 2 ^ 2045 :=
    Nat.mul_le_mul (by omega) (Nat.pow_le_pow_right (by decide) he)
  have htwo' : (2 : ℚ) ≤ Binary64.low m e := by exact_mod_cast htwo
  have hmost' : (Binary64.high m e : ℚ) ≤ 4 * 2 ^ 53 * 2 ^ 2045 := by exact_mod_cast hmost
  have hlimit : (2 : ℚ) ^ 53 * 2 ^ 2045 = 2 ^ 1024 * scale := by
    rw [scale_cast, ← pow_add, ← pow_add]
  constructor
  · have hscaled : (10 : ℚ) ^ (-330 : Int) * scale < 1 / 2 := by
      have hpow : (2 : ℚ) ^ 1074 = 2 ^ 1024 * 2 ^ 50 := by rw [← pow_add]
      have hten : (10 : ℚ) ^ (-330 : Int) * (10 ^ 309 * 10 ^ 21) = 1 := by
        rw [← pow_add, ← zpow_natCast, ← zpow_add₀ (by norm_num)]
        norm_num
      have hless : (2 : ℚ) ^ 1024 * 2 ^ 50 < 10 ^ 309 * 10 ^ 21 / 2 := by
        have hfactor : (2 : ℚ) ^ 50 < 10 ^ 21 / 2 := by norm_num
        calc (2 : ℚ) ^ 1024 * 2 ^ 50 ≤ 10 ^ 309 * 2 ^ 50 :=
          mul_le_mul_of_nonneg_right two_pow_1024_lt (by positivity)
          _ < 10 ^ 309 * (10 ^ 21 / 2) := mul_lt_mul_of_pos_left hfactor (by positivity)
          _ = 10 ^ 309 * 10 ^ 21 / 2 := by rw [mul_div_assoc]
      rw [scale_cast, hpow]
      calc (10 : ℚ) ^ (-330 : Int) * (2 ^ 1024 * 2 ^ 50) <
          10 ^ (-330 : Int) * (10 ^ 309 * 10 ^ 21 / 2) :=
            mul_lt_mul_of_pos_left hless (ten_zpow_pos _)
        _ = 1 / 2 := by rw [← mul_div_assoc, hten]
    by_contra hle
    have := mul_le_mul_of_nonneg_right (not_lt.mp hle) hscale.le
    linarith
  · have hx : x * scale ≤ 2 ^ 1024 * scale := by
      rw [← hlimit]
      linarith
    calc x ≤ 2 ^ 1024 := le_of_mul_le_mul_right hx hscale
      _ ≤ 10 ^ 309 := two_pow_1024_lt
      _ < 10 ^ (310 : Int) := by
          rw [← zpow_natCast]
          exact zpow_lt_zpow_right₀ (by norm_num) (by norm_num)

/-- Digits whose number is within that range are read with their power of ten. -/
theorem toBinary64_eq_ofUnits {negative : Bool} {digits num den : Nat} {exponent : Int}
    (hd : 0 < den) (hlow : (10 : ℚ) ^ (-330 : Int) < digits * 10 ^ exponent)
    (hhigh : (digits * 10 ^ exponent : ℚ) < 10 ^ (310 : Int))
    (h : (digits * 10 ^ exponent : ℚ) = num / den) :
    toBinary64 negative digits exponent = Binary64.ofUnits negative (num * scale) den := by
  have hten : (1 : ℚ) < 10 := by norm_num
  have hden : (den : ℚ) ≠ 0 := by exact_mod_cast hd.ne'
  have hdigits : 0 < digits := by
    by_contra hzero
    obtain rfl : digits = 0 := by omega
    rw [Nat.cast_zero, zero_mul] at hlow
    exact absurd hlow (not_lt.mpr (ten_zpow_pos _).le)
  obtain ⟨hleast, hmost⟩ := le_length_toDigits hdigits
  have hpos : 0 < (Text.ofNat digits).length := Nat.length_toDigits_pos
  change 10 ^ ((Text.ofNat digits).length - 1) ≤ digits at hleast
  change digits < 10 ^ (Text.ofNat digits).length at hmost
  have hexponent := ten_zpow_pos exponent
  -- the magnitude is in range, so the power of ten is taken
  have hgreat : ¬ ((Text.ofNat digits).length : Int) + exponent > 310 := by
    intro hgt
    have hle : (10 : ℚ) ^ (310 : Int) ≤ digits * 10 ^ exponent :=
      calc (10 : ℚ) ^ (310 : Int) ≤ 10 ^ (((Text.ofNat digits).length - 1 : Nat) +
          exponent : Int) :=
            zpow_le_zpow_right₀ hten.le (by omega)
        _ = 10 ^ ((Text.ofNat digits).length - 1) * 10 ^ exponent := by
          rw [zpow_add₀ (by norm_num), zpow_natCast]
        _ ≤ digits * 10 ^ exponent := by
            refine mul_le_mul_of_nonneg_right ?_ hexponent.le
            exact_mod_cast hleast
    exact absurd hhigh (not_lt.mpr hle)
  have hsmall : ¬ ((Text.ofNat digits).length : Int) + exponent < -330 := by
    intro hlt
    have hle : (digits * 10 ^ exponent : ℚ) ≤ 10 ^ (-330 : Int) :=
      calc (digits * 10 ^ exponent : ℚ) ≤ 10 ^ (Text.ofNat digits).length * 10 ^ exponent := by
            refine mul_le_mul_of_nonneg_right ?_ hexponent.le
            exact_mod_cast hmost.le
        _ = 10 ^ ((Text.ofNat digits).length + exponent : Int) := by
          rw [zpow_add₀ (by norm_num), zpow_natCast]
        _ ≤ 10 ^ (-330 : Int) := zpow_le_zpow_right₀ hten.le (by omega)
    exact absurd hlow (not_lt.mpr hle)
  have hzero : (digits == 0) = false := beq_eq_false_iff_ne.mpr hdigits.ne'
  rw [toBinary64]
  simp only [hzero, if_neg hgreat, if_neg hsmall, Bool.false_eq_true, if_false]
  split
  · next hnonneg =>
    obtain ⟨k, rfl⟩ := Int.eq_ofNat_of_zero_le hnonneg
    rw [zpow_natCast, eq_div_iff hden] at h
    rw [Binary64.ofQuotient_eq_ofUnits, Int.toNat_natCast]
    refine Binary64.ofUnits_congr negative Nat.one_pos hd ?_
    have hvalue : digits * 10 ^ k * den = num := by exact_mod_cast h
    rw [Nat.pow_eq, ← hvalue, Nat.mul_one, Nat.mul_right_comm]
  · next hneg =>
    obtain ⟨k, hk⟩ := Int.eq_ofNat_of_zero_le (show 0 ≤ -exponent by omega)
    have hplace : exponent = -(k : Int) := by omega
    have hpow : (10 : ℚ) ^ k ≠ 0 := by positivity
    rw [hplace, zpow_neg, zpow_natCast, ← div_eq_mul_inv, div_eq_div_iff hpow hden] at h
    rw [Binary64.ofQuotient_eq_ofUnits, hk, Int.toNat_natCast]
    refine Binary64.ofUnits_congr negative (Nat.pow_pos (by decide)) hd ?_
    have hvalue : digits * den = num * 10 ^ k := by exact_mod_cast h
    rw [Nat.pow_eq, Nat.mul_right_comm, hvalue, Nat.mul_right_comm]

/-- A number that is near to a double is read as the double. -/
theorem toBinary64_of_isNear {negative : Bool} {digits num den m e : Nat} {exponent : Int}
    (hd : 0 < den) (hm : 0 < m) (hform : IsForm m e) (h : (digits * 10 ^ exponent : ℚ) = num / den)
    (hnear : IsNear m e (num / den * scale)) :
    toBinary64 negative digits exponent = .finite negative m e := by
  obtain ⟨hlow, hhigh⟩ := bounds_of_isNear hm hform hnear
  rw [← h] at hlow hhigh
  rw [toBinary64_eq_ofUnits hd hlow hhigh h]
  refine Binary64.ofUnits_eq_of_isNear hd hm hform ?_
  rw [Nat.cast_mul, mul_div_right_comm]
  exact hnear

theorem ofDigitChars_ofNat (n : Nat) : Nat.ofDigitChars 10 (Text.ofNat n) 0 = n :=
  Nat.ofDigitChars_toDigits (by decide) (by decide)

theorem Digits.value_of_nonneg {d : Digits} {k : Nat} (h : d.exponent = k) :
    d.value = (d.digits * 10 ^ k : Nat) / (1 : Nat) := by
  rw [Digits.value, h, zpow_natCast]
  push_cast
  rw [div_one]

theorem Digits.value_of_neg {d : Digits} {k : Nat} (h : d.exponent = -k) :
    d.value = (d.digits : Nat) / (10 ^ k : Nat) := by
  rw [Digits.value, h, zpow_neg, zpow_natCast, div_eq_mul_inv]
  push_cast
  rfl

section

variable {d : Digits} {m e : Nat} (negative : Bool) (hm : 0 < m) (hform : IsForm m e)
    (h : IsNear m e (d.value * scale))

include hm hform h

omit negative in
theorem digits_pos : 0 < d.digits := by
  by_contra hzero
  have hvalue :
      d.value = 0 := by rw [Digits.value, show d.digits = 0 by omega, Nat.cast_zero, zero_mul]
  rw [hvalue] at h
  exact absurd (bounds_of_isNear hm hform h).1 (not_lt.mpr (ten_zpow_pos _).le)

/-- Digits and a power of ten that are near to a double are read as the double. -/
theorem toBinary64_digits : toBinary64 negative d.digits d.exponent = .finite negative m e := by
  rcases Int.le_total 0 d.exponent with hsign | hsign
  · obtain ⟨k, hk⟩ := Int.eq_ofNat_of_zero_le hsign
    have hvalue := Digits.value_of_nonneg hk
    exact toBinary64_of_isNear Nat.one_pos hm hform hvalue (hvalue ▸ h)
  · obtain ⟨k, hk⟩ := Int.eq_ofNat_of_zero_le (show 0 ≤ -d.exponent by omega)
    have hvalue := Digits.value_of_neg (show d.exponent = -(k : Int) by omega)
    exact toBinary64_of_isNear (Nat.pow_pos (by decide)) hm hform hvalue (hvalue ▸ h)

/-- Digits that are near to a double are read as the double, however they are laid out. -/
theorem ofScript?_positional :
    ofScript? (sign negative ++ positional d) = some (.finite negative m e) := by
  by_cases hnonneg : 0 ≤ d.exponent
  · obtain ⟨k, hk⟩ := Int.eq_ofNat_of_zero_le hnonneg
    rw [positional_of_nonneg hnonneg, hk, Int.toNat_natCast,
      Text.ofNat_append_zeros (digits_pos hm hform h),
      ofScript?_whole Text.isDigit_ofNat (Text.ofNat_ne_nil _), ofDigitChars_ofNat]
    have hvalue := Digits.value_of_nonneg hk
    refine congrArg some (toBinary64_of_isNear Nat.one_pos hm hform ?_ (hvalue ▸ h))
    rw [zpow_zero, mul_one, Nat.cast_one, div_one]
  · obtain ⟨k, hk⟩ := Int.eq_ofNat_of_zero_le (show 0 ≤ -d.exponent by omega)
    have hplace : d.exponent = -(k : Int) := by omega
    have hall :
        Nat.ofDigitChars 10 (Text.ofNat (d.digits / 10 ^ k) ++ Text.lastDigits k d.digits) 0 =
          d.digits := by
      rw [Nat.ofDigitChars_append, ofDigitChars_ofNat, Text.ofDigitChars_lastDigits, Nat.mul_comm,
        Nat.div_add_mod]
    rw [positional_of_neg (by omega) hplace,
      ofScript?_point Text.isDigit_ofNat (Text.ofNat_ne_nil _) negative Text.isDigit_lastDigits,
      hall, Text.length_lastDigits, ← hplace, toBinary64_digits negative hm hform h]

end

/-- **A finite double is read back from its text.** -/
theorem ofScript?_plain {x : Binary64} (hfinite : x.isFinite = true) (hnormal : x.IsNormal) :
    ofScript? (plain x) = some x := by
  obtain ⟨negative, m, e, rfl⟩ := Binary64.exists_finite hfinite
  obtain rfl | hm := Nat.eq_zero_or_pos m
  · have he : e = 0 := by
      by_contra he
      exact absurd (hnormal.2.2 he) (by decide)
    rw [he]
    cases negative <;> decide
  · rw [plain_finite negative hm]
    exact ofScript?_positional negative hm hnormal (isNear_shortest hm .up hnormal.1)

/-! ### Natural numbers -/

/-- The magnitude of a double that stands for a natural number. -/
theorem size_of_units {m e n : Nat} (h : m * 2 ^ e = n * scale) : size m e = n := by
  have hscale : (scale : ℚ) ≠ 0 := by exact_mod_cast scale_pos.ne'
  rw [size, div_eq_iff hscale]
  exact_mod_cast h

/-- The steps of a double below `2 ^ 53` are no greater than one. -/
theorem two_pow_le_scale {m e n : Nat} (hform : IsForm m e) (hn : n < 2 ^ 53)
    (h : m * 2 ^ e = n * scale) : 2 ^ e ≤ scale := by
  by_cases he : e = 0
  · rw [he]
    exact scale_pos
  · obtain ⟨j, -, hj⟩ := Binary64.exists_scale_eq
    rw [Nat.pow_eq] at hj
    have hlt : 2 ^ (52 + e) < 2 ^ (53 + j) :=
      calc 2 ^ (52 + e) = 2 ^ 52 * 2 ^ e := Nat.pow_add 2 52 e
        _ ≤ m * 2 ^ e := Nat.mul_le_mul_right _ (hform.2.2 he)
        _ = n * 2 ^ j := by rw [h, hj]
        _ < 2 ^ 53 * 2 ^ j := Nat.mul_lt_mul_of_pos_right hn (Nat.two_pow_pos j)
        _ = 2 ^ (53 + j) := (Nat.pow_add 2 53 j).symm
    have := (Nat.pow_lt_pow_iff_right (by decide)).mp hlt
    rw [hj]
    exact Nat.pow_le_pow_right (by decide) (by omega)

/-- Only one natural number is near to a double that stands for one below `2 ^ 53`. -/
theorem eq_of_isNear {m e n k : Nat} (hm : 0 < m) (hform : IsForm m e) (hn : n < 2 ^ 53)
    (h : m * 2 ^ e = n * scale) (hnear : IsNear m e (k * scale)) : k = n := by
  have hscale : (0 : ℚ) < scale := by exact_mod_cast scale_pos
  have hstep : (2 : ℚ) ^ e ≤ scale := by exact_mod_cast two_pow_le_scale hform hn h
  have hvalue : (m : ℚ) * 2 ^ e = n * scale := by exact_mod_cast h
  obtain ⟨hlow, hhigh, -⟩ := hnear
  rw [Binary64.high, Nat.pow_eq] at hhigh
  push_cast at hhigh
  have hlow := (le_low hm).trans hlow
  have hle : (k : ℚ) * scale ≤ (n + 1 / 2) * scale := by linarith
  have hge : ((n : ℚ) - 1 / 2) * scale ≤ k * scale := by linarith
  have hle' := le_of_mul_le_mul_right hle hscale
  have hge' := le_of_mul_le_mul_right hge hscale
  have h1 : (k : ℚ) < (n + 1 : Nat) := by push_cast; linarith
  have h2 : (n : ℚ) < (k + 1 : Nat) := by push_cast; linarith
  exact Nat.le_antisymm (Nat.le_of_lt_succ (Nat.cast_lt.mp h1))
    (Nat.le_of_lt_succ (Nat.cast_lt.mp h2))

/-- The shortest digits of a natural number below `2 ^ 53` are its own. -/
theorem positional_of_units {m e n : Nat} (hm : 0 < m) (hform : IsForm m e) (hn : n < 2 ^ 53)
    (h : m * 2 ^ e = n * scale) :
    positional (shortest .up m e) = Text.ofNat n := by
  have hexponent : 0 ≤ (shortest .up m e).exponent :=
    le_exponent_shortest hm .up hform.1 (k := n) (by rw [size_of_units h, zpow_zero, mul_one])
  obtain ⟨k, hk⟩ := Int.eq_ofNat_of_zero_le hexponent
  have hnear := isNear_shortest hm .up hform.1 (e := e)
  have hvalue : (shortest .up m e).value = ((shortest .up m e).digits * 10 ^ k : Nat) := by
    rw [Digits.value, hk, zpow_natCast]
    push_cast
    rfl
  rw [hvalue] at hnear
  have heq := eq_of_isNear hm hform hn h hnear
  have hdigits : 0 < (shortest .up m e).digits := by
    by_contra hzero
    rw [show (shortest .up m e).digits = 0 by omega, Nat.zero_mul] at heq
    rw [← heq, Nat.zero_mul] at h
    exact absurd h (Nat.mul_pos hm (Nat.two_pow_pos e)).ne'
  rw [positional_of_nonneg hexponent, hk, Int.toNat_natCast, Text.ofNat_append_zeros hdigits, heq]

end Decimal

namespace Binary64

open Decimal (plain plain_finite positional_of_units)

theorem isNormal_ofNat (n : Nat) : (ofNat n).IsNormal := by
  rw [ofNat_eq]
  exact isNormal_ofUnits false _ Nat.one_pos

theorem isDouble_mul_scale {n : Nat} (h : n < 2 ^ 53) : IsDouble (n * scale) := by
  obtain ⟨j, hj, hscale⟩ := exists_scale_eq
  exact ⟨n, j, h, by omega, by rw [hscale, Nat.pow_eq]⟩

theorem units_ofNat {n : Nat} (h : n < 2 ^ 53) :
    (ofNat n).isFinite = true ∧ (ofNat n).units = n * scale := by
  rw [ofNat_eq]
  exact units_ofUnits_eq _ Nat.one_pos (isDouble_mul_scale h) (Nat.mul_one _).symm

/-- A natural number below `2 ^ 53` is written as itself. -/
theorem plain_ofNat {n : Nat} (h : n < 2 ^ 53) : plain (ofNat n) = Text.ofNat n := by
  obtain ⟨hfinite, hunits⟩ := units_ofNat h
  have hnegative : (ofNat n).isNegative = false := by rw [ofNat_eq, isNegative_ofUnits]
  have hnormal := isNormal_ofNat n
  obtain ⟨s, m, e, hx⟩ := exists_finite hfinite
  rw [hx] at hunits hnegative hnormal ⊢
  obtain rfl : s = false := hnegative
  rw [units, Nat.pow_eq] at hunits
  obtain rfl | hm := Nat.eq_zero_or_pos m
  · have hn : n = 0 := by
      rw [Nat.zero_mul] at hunits
      exact (Nat.mul_eq_zero.mp hunits.symm).resolve_right scale_pos.ne'
    rw [hn]
    rfl
  · rw [plain_finite false hm, Decimal.sign, if_neg Bool.false_ne_true, List.nil_append]
    exact positional_of_units hm hnormal h hunits

end Binary64

end Localization
