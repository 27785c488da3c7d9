import Mathlib
import Localization.Proofs.Plural.Outcomes
import Localization.Proofs.Plural.Rounded

/-! What the digits that are asked for say of a text.

A magnitude that is rounded for a selector is finite and written as a numeral, or it is not read
at all (`exists_operands`). How many digits are written then tells what its operands can be: no
fraction if it is rounded to whole numbers, one digit behind the point if it is rounded to
tenths and filled up to them, and so on. `Precision.situations` lists what can be said, and one
of them always holds (`exists_covers`). -/
namespace Localization.Plural

open Binary64 (scale scale_pos ofUnits)
open Decimal (zeros plain shortest)

/-! ### Texts that are read -/

theorem exists_fillFraction_eq (text : Text) (places : Nat) :
    ∃ tail, fillFraction text places = text ++ tail := by
  rw [fillFraction]
  split
  · exact ⟨_, rfl⟩
  · split
    · exact ⟨[], (List.append_nil _).symm⟩
    · exact ⟨_, rfl⟩

/-- A text that goes on with a letter, or a sign that is not its first character, is no numeral. -/
theorem ofScript?_zeros_append {z : Nat} {c : Char} (hdigit : c.isDigit = false) (hpoint : c ≠ '.')
    (hexponent : (c == 'e' || c == 'E') = false) (hminus : z = 0 → c ≠ '-') (rest : Text) :
    Decimal.ofScript? (zeros z ++ c :: rest) = none := by
  have hbody : ∀ r, zeros z ++ c :: rest ≠ '-' :: r := by
    intro r h
    cases z with
    | zero => exact hminus rfl (List.cons.inj h).1
    | succ z => exact absurd (List.cons.inj h).1 (by decide)
  obtain ⟨htake, hdrop⟩ :=
    Decimal.takeWhile_whole (isDigit_zeros (k := z)) (c :: rest) (by rintro _ ⟨⟩; exact hdigit)
  have hnone : Decimal.Numeral.ofText? (zeros z ++ c :: rest) = none := by
    have h := Decimal.ofText?_sign false hbody
    rw [Decimal.sign, if_neg Bool.false_ne_true, List.nil_append] at h
    rw [h, Decimal.unsigned, hdrop]
    split
    · next h => exact absurd (List.cons.inj h).1 hpoint
    · have hread : Decimal.readExponent (c :: rest) = none :=
        if_neg (by rw [hexponent]; exact Bool.false_ne_true)
      rw [hread]
      rfl
  rw [Decimal.ofScript?, hnone]

/-- What is no finite number is not read. -/
theorem ofText?_of_not_isFinite {y : Binary64} (h : y.isFinite = false) (z k : Nat) :
    Operands.ofText? (zeros z ++ fillFraction (plain y) k) = none := by
  obtain ⟨tail, htail⟩ := exists_fillFraction_eq (plain y) k
  have hnone : Decimal.ofScript? (zeros z ++ (plain y ++ tail)) = none := by
    match y, z with
    | .finite .., _ => cases h
    | .infinite false, _ =>
      exact ofScript?_zeros_append (c := 'i') (by decide) (by decide) (by decide)
        (fun _ => by decide) _
    | .infinite true, 0 => rfl
    | .infinite true, z + 1 =>
      exact ofScript?_zeros_append (c := '-') (by decide) (by decide) (by decide) (fun hz =>
        absurd hz (Nat.succ_ne_zero z)) _
    | .nan, _ =>
      exact ofScript?_zeros_append (c := 'N') (by decide) (by decide) (by decide)
        (fun _ => by decide) _
  rw [htail, Operands.ofText?, hnone]
  rfl

/-! ### Integer digits and fractions of what is rounded -/

/-- What a precision allows to be written: few places behind the point, and few significant
digits. -/
def Precision.Allows : Precision → Nat → Text → Prop
  | fraction _ most, _, places => most ≤ 1 → places.length ≤ most
  | significant _ most, i, places =>
    most ≤ 2 → 10 ∣ i ∧ places = [] ∨ i ≤ 10 ^ most ∧ (places = [] ∨ i < 10 ^ (most - 1))

/-- A tenth as a double is no less than a tenth. -/
theorem scale_le_tenth : scale ≤ 10 * (ofUnits false (1 * scale) 10).units := by decide +kernel

section

variable {m e : Nat} (hm : 0 < m) (hform : Binary64.IsForm m e)

include hm hform

/-- A multiple of a tenth is written with one digit behind the point at most. -/
theorem length_fraction_le_one {n : Nat} (h : ofUnits false (n * scale) 10 = .finite false m e) :
    (fraction (shortest .up m e)).length ≤ 1 := by
  have hten : 0 < 10 := by decide
  have hscale := scale_pos
  have hfinite : (ofUnits false (n * scale) 10).isFinite = true := by rw [h]; rfl
  have hunits : (ofUnits false (n * scale) 10).units = m * 2 ^ e := by rw [h]; rfl
  have hpos : 0 < m * 2 ^ e := Nat.mul_pos hm (Nat.two_pow_pos e)
  -- a tenth as a double is a little greater, and two tenths are greater than an eighth
  have hleast : scale ≤ 10 * (m * 2 ^ e) := by
    rw [← hunits]
    obtain rfl | rfl | hn : n = 0 ∨ n = 1 ∨ 2 ≤ n := by omega
    · have hzero : (ofUnits false (0 * scale) 10).units ≤ 0 :=
        Binary64.units_ofUnits_le hten (Binary64.isGrid_of_le (Nat.zero_le _))
          (by rw [Nat.zero_mul, Nat.zero_mul])
      omega
    · exact scale_le_tenth
    · obtain ⟨i, hi, -, hquarter⟩ := Binary64.exists_scale_eq_four_mul
      have hhalf : 2 ^ i = 2 * 2 ^ (i - 1) := by
        rw [← Nat.pow_succ', Nat.succ_eq_add_one, Nat.sub_add_cancel (by omega)]
      have hgrid : Binary64.IsGrid (2 ^ (i - 1)) := ⟨1, i - 1, by decide, (Nat.one_mul _).symm⟩
      have hle : 2 ^ (i - 1) * 10 ≤ n * scale :=
        calc 2 ^ (i - 1) * 10 ≤ 2 * scale := by omega
          _ ≤ n * scale := Nat.mul_le_mul_right _ hn
      have := Binary64.le_units_ofUnits hten hgrid hle hfinite
      omega
  have htop : (-1 : Int) ≤ Decimal.top m e := by
    have hscale' : (0 : ℚ) < scale := by exact_mod_cast hscale
    have hle : (10 : ℚ) ^ (-1 : Int) ≤ Decimal.size m e := by
      have hcast : (scale : ℚ) ≤ 10 * (m * 2 ^ e) := by exact_mod_cast hleast
      rw [Decimal.size, le_div_iff₀ hscale', zpow_neg_one]
      linarith
    have hlt := (zpow_lt_zpow_iff_right₀ (by norm_num)).mp (hle.trans_lt (Decimal.top_spec hm).2)
    omega
  have hnear := Binary64.isNear_of_ofUnits_eq hten h
  have hexponent : (-1 : Int) ≤ (shortest .up m e).exponent :=
    Decimal.le_exponent_of_isNear hm .up hform.1 (k := n) (by
      rw [zpow_neg_one]
      push_cast at hnear
      rwa [mul_div_right_comm, div_eq_mul_inv] at hnear) htop
  rw [length_fraction]
  omega

/-- A magnitude of at most `n` is written with less than `n` in front of a fraction. -/
theorem fraction_eq_nil_or_whole_lt {n : Nat} (hn : n + 1 < 2 ^ 53) (h : m * 2 ^ e ≤ n * scale) :
    fraction (shortest .up m e) = [] ∨ whole (shortest .up m e) < n := by
  rcases Nat.lt_or_ge (whole (shortest .up m e)) n with hlt | hge
  · exact .inr hlt
  · left
    have hle := mul_scale_le_of_le_whole hm hform (n := n) (by omega) hge
    have hsize := Decimal.size_of_units (Nat.le_antisymm h hle)
    exact fraction_eq_nil (Decimal.le_exponent_shortest hm .up hform.1 (k := n)
      (by rw [hsize, zpow_zero, mul_one]))

end

/-! ### What is written at a precision -/

section

variable {x : Binary64}

theorem units_lt_of_magnitude (hpos : 0 < x.units) :
    (x.units / scale : ℚ) < 10 ^ (magnitude x + 1) := by
  rw [magnitude, if_neg (by simpa using hpos.ne')]
  exact (Decimal.floorLog10_spec hpos scale_pos).2

/-- So many places behind the point leave all digits but the first `most` behind it. -/
theorem units_mul_le_of_magnitude {most k : Nat} (h : (most : Int) - 1 - magnitude x = k) :
    x.units * 10 ^ k ≤ 10 ^ most * scale := by
  obtain hzero | hpos := Nat.eq_zero_or_pos x.units
  · rw [hzero, Nat.zero_mul]
    exact Nat.zero_le _
  · have hlt := units_lt_of_magnitude hpos
    have hscale : (0 : ℚ) < scale := by exact_mod_cast scale_pos
    rw [show magnitude x + 1 = most - k by omega, zpow_sub₀ (by norm_num), zpow_natCast,
      zpow_natCast, div_lt_div_iff₀ hscale (by positivity)] at hlt
    exact_mod_cast hlt.le

variable (hx : x.isFinite = true) (hsign : x.isNegative = false)

include hx hsign

/-- A number that is rounded before the point is written without one, and with a zero at its end. -/
theorem exists_numeral_neg {k : Nat} (hk : 0 < k)
    (hfinite : (roundAt x (-(k : Int))).isFinite = true) :
    ∃ i, plain (roundAt x (-(k : Int))) = numeral i [] ∧ 10 ∣ i := by
  obtain ⟨n, hpower, heq⟩ := exists_roundAt_neg hx hsign hk hfinite
  obtain ⟨m, e, hy, hform⟩ := Binary64.exists_form scale_pos heq hfinite
  rw [hy] at heq ⊢
  obtain rfl | hm := Nat.eq_zero_or_pos m
  · exact ⟨0, rfl, Nat.dvd_zero 10⟩
  have hn : 0 < n := by
    by_contra hzero
    obtain rfl : n = 0 := by omega
    have hle : (ofUnits false (0 * scale * (power k).units) scale).units ≤ 0 :=
      Binary64.units_ofUnits_le scale_pos (Binary64.isGrid_of_le (Nat.zero_le _))
        (by simp only [Nat.zero_mul, Nat.le_refl])
    rw [← heq] at hle
    exact absurd hle (Nat.not_le.mpr (Nat.mul_pos hm (Nat.two_pow_pos e)))
  have hexponent : 0 < (shortest .up m e).exponent := by
    by_cases hle : k ≤ 22
    · have hone : ofUnits false (n * 10 ^ k * scale) 1 = .finite false m e := by
        rw [heq, (units_power hle).2]
        exact Binary64.ofUnits_congr false Nat.one_pos scale_pos (by ring)
      have := le_exponent_of_ofUnits hm hform hn hle hone
      omega
    · -- so great a number has no more than seventeen digits in front of its zeros
      have hpow := le_units_power (j := 22) (by decide) (by omega) hpower
      have hgrid : Binary64.IsGrid (10 ^ 22 * scale) := by
        have hdouble :=
          isDouble_mul_ten_pow (n := 1) (k := 22) (by decide) (five_pow_lt (by decide))
        rw [Nat.one_mul] at hdouble
        exact hdouble.isGrid
      have hunits :
          10 ^ 22 * scale ≤ (ofUnits false (n * scale * (power k).units) scale).units := by
        refine Binary64.le_units_ofUnits scale_pos hgrid ?_ (by rw [← heq]; rfl)
        calc 10 ^ 22 * scale * scale ≤ (power k).units * scale := Nat.mul_le_mul_right _ hpow
          _ = 1 * ((power k).units * scale) := (Nat.one_mul _).symm
          _ ≤ n * ((power k).units * scale) := Nat.mul_le_mul_right _ hn
          _ = n * scale * (power k).units := by ring
      rw [← heq] at hunits
      have htop := le_top hm hunits
      have := Decimal.top_le_exponent_shortest hm .up hform.1 (e := e)
      omega
  refine ⟨_, ?_, ten_dvd_whole hexponent⟩
  rw [plain_eq_numeral hm hform, fraction_eq_nil hexponent.le]

/-- A number that is rounded behind the point is written with few places there if there are none
or one, and what is written before the point is bounded where the number is. -/
theorem exists_numeral_natCast {k : Nat} (hfinite : (roundAt x k).isFinite = true) :
    ∃ i places, plain (roundAt x k) = numeral i places ∧ (∀ c ∈ places, c.isDigit = true) ∧
      (k ≤ 1 → places.length ≤ k) ∧
      ∀ most ≤ 2, 1 ≤ most → x.units * 10 ^ k ≤ 10 ^ most * scale →
        i ≤ 10 ^ most ∧ (places = [] ∨ i < 10 ^ (most - 1)) := by
  obtain ⟨n, hpower, heq, hbound⟩ := exists_roundAt_natCast hx hsign hfinite
  have hone := scale_le_units_power hpower
  have hpos : 0 < (power k).units := scale_pos.trans_le hone
  obtain ⟨m, e, hy, hform⟩ := Binary64.exists_form hpos heq hfinite
  rw [hy] at heq ⊢
  obtain rfl | hm := Nat.eq_zero_or_pos m
  · exact ⟨0, [], rfl, by simp, fun _ => Nat.zero_le _, fun most _ _ _ => ⟨Nat.zero_le _, .inl rfl⟩⟩
  have hplaces : k ≤ 1 → (fraction (shortest .up m e)).length ≤ k := by
    intro hk
    have hexact : ofUnits false (n * scale) (10 ^ k) = .finite false m e := by
      rw [heq, (units_power (by omega)).2]
      exact Binary64.ofUnits_congr false (Nat.pow_pos (by decide))
        (Nat.mul_pos (Nat.pow_pos (by decide)) scale_pos) (by ring)
    obtain rfl | rfl : k = 0 ∨ k = 1 := by omega
    · have hn : 0 < n := by
        by_contra hzero
        obtain rfl : n = 0 := by omega
        have hle : (ofUnits false (0 * scale) (10 ^ 0)).units ≤ 0 :=
          Binary64.units_ofUnits_le Nat.one_pos (Binary64.isGrid_of_le (Nat.zero_le _))
            (by simp only [Nat.zero_mul, Nat.le_refl])
        rw [hexact] at hle
        exact absurd hle (Nat.not_le.mpr (Nat.mul_pos hm (Nat.two_pow_pos e)))
      have :=
        le_exponent_of_ofUnits hm hform (n := n) (k := 0) hn (by decide)
          (by rw [Nat.pow_zero, Nat.mul_one]; exact hexact)
      rw [length_fraction]
      omega
    · exact length_fraction_le_one hm hform hexact
  refine ⟨_, _, plain_eq_numeral hm hform, isDigit_fraction _, hplaces,
    fun most hmost hleast hle => ?_⟩
  have hhundred : 10 ^ most ≤ 10 ^ 2 := Nat.pow_le_pow_right (by decide) hmost
  have hn := hbound (10 ^ most) hhundred hle
  have hunits {b : Nat} (hb : b ≤ 10 ^ 2) (hle : n * scale * scale ≤ b * scale * (power k).units) :
      m * 2 ^ e ≤ b * scale := by
    have hgrid : Binary64.IsGrid (b * scale) := (Binary64.isGrid_of_le (by omega)).mul_scale
    have hrounded : (ofUnits false (n * scale * scale) (power k).units).units ≤ b * scale :=
      Binary64.units_ofUnits_le hpos hgrid hle
    rw [← heq] at hrounded
    exact hrounded
  have hmostUnits : m * 2 ^ e ≤ 10 ^ most * scale :=
    hunits hhundred (Nat.mul_le_mul (Nat.mul_le_mul_right _ hn) hone)
  refine ⟨whole_le hm hform (by omega) hmostUnits, ?_⟩
  obtain rfl | hk := Nat.eq_zero_or_pos k
  · exact .inl (List.eq_nil_of_length_eq_zero (Nat.le_zero.mp (hplaces (Nat.zero_le 1))))
  · have hless : 10 ^ most = 10 ^ (most - 1) * 10 := by
      rw [← Nat.pow_succ, Nat.succ_eq_add_one, Nat.sub_add_cancel hleast]
    refine fraction_eq_nil_or_whole_lt hm hform (by omega) (hunits (by omega) ?_)
    have hten := le_units_power (j := 1) (by decide) hk hpower
    calc n * scale * scale ≤ 10 ^ most * scale * scale :=
      Nat.mul_le_mul_right _ (Nat.mul_le_mul_right _ hn)
      _ = 10 ^ (most - 1) * scale * (10 ^ 1 * scale) := by rw [hless]; ring
      _ ≤ 10 ^ (most - 1) * scale * (power k).units := Nat.mul_le_mul_left _ hten

/-- A number that is rounded at a precision is written as the precision allows. -/
theorem exists_numeral {p : Precision} (hp : p.IsValid) (hfinite : (p.round x).isFinite = true) :
    ∃ i places, plain (p.round x) = numeral i places ∧ (∀ c ∈ places, c.isDigit = true) ∧
      p.Allows i places := by
  cases p with
  | fraction least most =>
    obtain ⟨i, places, htext, hdigits, hplaces, -⟩ := exists_numeral_natCast hx hsign hfinite
    exact ⟨i, places, htext, hdigits, hplaces⟩
  | significant least most =>
    obtain ⟨hleast, hle, -⟩ := hp
    rw [Precision.round] at hfinite ⊢
    by_cases hbehind : 0 ≤ (most : Int) - 1 - magnitude x
    · obtain ⟨k, hk⟩ := Int.eq_ofNat_of_zero_le hbehind
      rw [hk] at hfinite ⊢
      obtain ⟨i, places, htext, hdigits, -, hmost⟩ := exists_numeral_natCast hx hsign hfinite
      exact ⟨i, places, htext, hdigits, fun hm =>
        .inr (hmost most hm (hleast.trans hle) (units_mul_le_of_magnitude hk))⟩
    · obtain ⟨k, hk⟩ :=
        Int.eq_ofNat_of_zero_le (show 0 ≤ -((most : Int) - 1 - magnitude x) by omega)
      rw [show (most : Int) - 1 - magnitude x = -(k : Int) by omega] at hfinite ⊢
      obtain ⟨i, htext, hten⟩ := exists_numeral_neg hx hsign (by omega) hfinite
      exact ⟨i, [], htext, by simp, fun _ => .inl ⟨hten, rfl⟩⟩

end

/-! ### Operands at a precision -/

theorem one_le_countSignificant (i : Nat) (places : Text) :
    1 ≤ countSignificant (numeral i places) := by
  have hdigit : ((numeral i places).filter Char.isDigit) ≠ [] := by
    obtain ⟨c, rest, hc⟩ := List.exists_cons_of_ne_nil (Text.ofNat_ne_nil i)
    have hmem : c ∈ numeral i places := List.mem_append_left _ (hc ▸ List.mem_cons_self)
    exact List.ne_nil_of_mem (List.mem_filter.mpr ⟨hmem,
      Text.isDigit_ofNat c (hc ▸ List.mem_cons_self)⟩)
  rw [countSignificant]
  split
  · exact List.length_pos_iff.mpr hdigit
  · next hkept => exact List.length_pos_iff.mpr (by simpa using hkept)

/-- How many zeros are filled in behind so many places and significant digits. -/
def Precision.missing : Precision → Nat → Nat → Nat
  | fraction least _, places, _ => least - places
  | significant least _, _, digits => least - digits

theorem fillFraction_places (p : Precision) (i : Nat) (places : Text) :
    fillFraction (numeral i places) (p.places (numeral i places)) =
      numeral i (places ++ zeros (p.missing places.length
        (countSignificant (numeral i places)))) := by
  rw [fillFraction_numeral]
  cases p with
  | fraction => rfl
  | significant =>
    rw [Precision.places, getD_fractionOf_numeral, Nat.add_sub_cancel_left]
    rfl

/-- What is read of a magnitude as it is written; only a finite one is read. -/
theorem exists_operands {p : Precision} (hp : p.IsValid) {x : Binary64}
    (hsign : x.isNegative = false) {z : Nat} {o : Operands}
    (h : Operands.ofText? (zeros z ++ fillFraction (plain (p.round x))
      (p.places (plain (p.round x)))) = some o) :
    x.isFinite = true ∧ ∃ i places, (∀ c ∈ places, c.isDigit = true) ∧ p.Allows i places ∧
      o =
        operands i (places ++ zeros (p.missing places.length
          (countSignificant (numeral i places)))) := by
  have hfinite : (p.round x).isFinite = true := by
    by_contra hnot
    rw [ofText?_of_not_isFinite (by simpa using hnot)] at h
    cases h
  have hx : x.isFinite = true := by
    cases p with
    | fraction => exact isFinite_of_roundAt hfinite
    | significant => exact isFinite_of_roundAt hfinite
  obtain ⟨i, places, htext, hdigits, hallows⟩ := exists_numeral hx hsign hp hfinite
  have hall : ∀ c ∈ places ++ zeros (p.missing places.length (countSignificant (numeral i places))),
      c.isDigit = true := by
    intro c hc
    rcases List.mem_append.mp hc with hc | hc
    · exact hdigits c hc
    · exact isDigit_zeros c hc
  rw [htext, fillFraction_places, ofText?_numeral z i hall] at h
  split at h
  · exact ⟨hx, i, places, hdigits, hallows, (Option.some.inj h).symm⟩
  · cases h

/-! ### Situations -/

/-- A natural number that ends with a zero. -/
def Situation.tens : Situation := ⟨.unknown, ⟨0, none, 10⟩, .only 0, .only 0, .atLeast 0⟩

/-- A natural number that is known. -/
def Situation.natural (n : Nat) : Situation := ⟨.natural n, .only n, .only 0, .only 0, .atLeast 0⟩

/-- A natural number between bounds. -/
def Situation.within (low : Nat) (high : Option Nat) : Situation :=
  ⟨.unknown, ⟨low, high, 1⟩, .only 0, .only 0, .atLeast 0⟩

/-- A number with digits behind the point. -/
def Situation.behind (whole : Extent) : Situation :=
  ⟨.unknown, whole, .atLeast 1, .atLeast 0, .atLeast 0⟩

/-- What is known of a text that is written at a precision. -/
def Precision.situations : Precision → List Situation
  | fraction least most =>
    let bound (n : Nat) : Option Nat := if most ≤ 1 then some n else none
    [⟨.unknown, .atLeast 0, ⟨least, bound most, 1⟩, ⟨0, bound (10 ^ most - 1), 1⟩, .atLeast 0⟩]
  | significant least most =>
    if most = 1 then .tens :: .behind (.only 0) :: (List.range 10).map .natural
    else if least = 1 then [⟨.unknown, .atLeast 0, .atLeast 0, .atLeast 0, .atLeast 0⟩]
    else
      .behind (.atLeast 0) ::
        if most = 2 then [.within 10 (some 99), .tens] else [.within (10 ^ (least - 1)) none]

theorem fractionNumber_lt {places : Text} (h : ∀ c ∈ places, c.isDigit = true) :
    fractionNumber places < 10 ^ places.length := by
  rw [fractionNumber]
  induction places with
  | nil => decide
  | cons c places ih =>
    have hc : c.toNat - '0'.toNat ≤ 9 := by
      have hbounds := Char.isDigit_iff_toNat.mp (h c List.mem_cons_self)
      have hnine : '9'.toNat = '0'.toNat + 9 := rfl
      omega
    have hlt := ih fun d hd => h d (List.mem_cons_of_mem _ hd)
    have hle := Nat.mul_le_mul_right (10 ^ places.length) hc
    rw [Nat.ofDigitChars_cons, Nat.mul_zero, Nat.zero_add, ofDigitChars_start, List.length_cons,
      Nat.pow_succ]
    omega

theorem Extent.covers_any (n : Nat) : (atLeast 0).Covers n := covers_atLeast (Nat.zero_le n)

section

variable {i : Nat} {places : Text}

/-- A natural number has no digits behind the point. -/
theorem covers_nil {s : Situation} (hvalue : s.value.Covers (operands i []).n)
    (hwhole : s.whole.Covers i) (hplaces : s.places = .only 0) (hfraction : s.fraction = .only 0)
    (hkept : s.kept = .atLeast 0) :
    s.Covers (operands i []) where
  value := hvalue
  whole := hwhole
  places := hplaces ▸ Extent.covers_only 0
  fraction := hfraction ▸ Extent.covers_only 0
  kept := hkept ▸ Extent.covers_any _

theorem covers_tens (h : 10 ∣ i) : Situation.tens.Covers (operands i []) :=
  covers_nil trivial ⟨Nat.zero_le i, by simp [Situation.tens], h⟩ rfl rfl rfl

theorem covers_within {low : Nat} {high : Option Nat} (hlow : low ≤ i)
    (hhigh : ∀ h, high = some h → i ≤ h) :
    (Situation.within low high).Covers (operands i []) :=
  covers_nil trivial ⟨hlow, hhigh, Nat.one_dvd i⟩ rfl rfl rfl

theorem covers_behind {whole : Extent} (hwhole : whole.Covers i) (hne : places ≠ []) :
    (Situation.behind whole).Covers (operands i places) where
  value := trivial
  whole := hwhole
  places := Extent.covers_atLeast (List.length_pos_iff.mpr hne)
  fraction := Extent.covers_any _
  kept := Extent.covers_any _

theorem covers_natural (hi : i < 10) : (Situation.natural i).Covers (operands i []) := by
  refine covers_nil ⟨by omega, ?_⟩ (Extent.covers_only i) rfl rfl rfl
  rw [← decimal_zero (a := i) (hi.trans (by norm_num)), operands, decimal, List.length_nil,
    Nat.pow_zero, Nat.mul_one]
  rfl

/-- Significant digits of a natural number are all its digits. -/
theorem pow_le_of_le_countSignificant {k : Nat} (hk : 2 ≤ k)
    (h : k ≤ countSignificant (numeral i [])) : 10 ^ (k - 1) ≤ i := by
  by_contra hlt
  have := (Text.length_ofNat_le_iff (n := i) (k := k - 1) (by omega)).mpr (by omega)
  rw [numeral_nil, countSignificant_ofNat] at h
  omega

/-- A number of fraction digits. -/
theorem exists_covers_fraction {least most : Nat} (hle : least ≤ most)
    (hdigits : ∀ c ∈ places, c.isDigit = true) (hmost : most ≤ 1 → places.length ≤ most) :
    ∃ s ∈ (Precision.fraction least most).situations,
      s.Covers (operands i (places ++ zeros (least - places.length))) := by
  have hlength : (places ++ zeros (least - places.length)).length = max places.length least := by
    rw [List.length_append, zeros, List.length_replicate]
    omega
  have hall : ∀ c ∈ places ++ zeros (least - places.length), c.isDigit = true := by
    intro c hc
    rcases List.mem_append.mp hc with hc | hc
    · exact hdigits c hc
    · exact isDigit_zeros c hc
  have hlt := fractionNumber_lt hall
  rw [hlength] at hlt
  refine ⟨_, List.mem_singleton.mpr rfl, trivial, Extent.covers_any i, ?_, ?_, Extent.covers_any _⟩
  · refine ⟨(le_max_right _ _).trans hlength.ge, fun h hh => ?_, Nat.one_dvd _⟩
    split at hh
    · next hfew =>
      cases hh
      exact hlength.trans_le (max_le (hmost hfew) hle)
    · cases hh
  · refine ⟨Nat.zero_le _, fun h hh => ?_, Nat.one_dvd _⟩
    split at hh
    · next hfew =>
      cases hh
      have hpow : 10 ^ max places.length least ≤ 10 ^ most :=
        Nat.pow_le_pow_right (by decide) (max_le (hmost hfew) hle)
      exact Nat.le_pred_of_lt (hlt.trans_le hpow)
    · cases hh

/-- One significant digit: nothing is filled in. -/
theorem exists_covers_one
    (hallows : 10 ∣ i ∧ places = [] ∨ i ≤ 10 ^ 1 ∧ (places = [] ∨ i < 10 ^ (1 - 1))) :
    ∃ s ∈ (Precision.significant 1 1).situations, s.Covers (operands i places) := by
  rw [Precision.situations, if_pos rfl]
  rcases hallows with ⟨hten, rfl⟩ | ⟨hi, rfl | hlt⟩
  · exact ⟨_, List.mem_cons_self, covers_tens hten⟩
  · by_cases hten : i = 10
    · exact ⟨_, List.mem_cons_self, covers_tens (hten ▸ dvd_rfl)⟩
    · have hi : i < 10 := by omega
      exact ⟨_, List.mem_cons_of_mem _ (List.mem_cons_of_mem _
        (List.mem_map_of_mem (List.mem_range.mpr hi))), covers_natural hi⟩
  · obtain rfl : i = 0 := by omega
    by_cases hne : places = []
    · subst hne
      exact ⟨_, List.mem_cons_self, covers_tens (Nat.dvd_zero 10)⟩
    · exact ⟨_, List.mem_cons_of_mem _ List.mem_cons_self,
        covers_behind (Extent.covers_only 0) hne⟩

/-- Several significant digits, and a natural number that has all of them. -/
theorem exists_covers_whole {least most : Nat} (hleast : 2 ≤ least) (hle : least ≤ most)
    (hcount : least ≤ countSignificant (numeral i []))
    (hallows : (Precision.significant least most).Allows i []) :
    ∃ s ∈ (Precision.significant least most).situations, s.Covers (operands i []) := by
  have hlow := pow_le_of_le_countSignificant hleast hcount
  rw [Precision.situations, if_neg (by omega), if_neg (by omega)]
  by_cases htwo : most = 2
  · obtain rfl : least = 2 := by omega
    subst htwo
    rw [if_pos rfl]
    by_cases hten : 10 ∣ i
    · exact ⟨_, List.mem_cons_of_mem _ (List.mem_cons_of_mem _ List.mem_cons_self),
        covers_tens hten⟩
    · have hhigh : i ≤ 100 := ((hallows (by decide)).resolve_left fun h => hten h.1).1
      have hne : i ≠ 100 := fun h => hten (h ▸ by decide)
      exact ⟨_, List.mem_cons_of_mem _ List.mem_cons_self,
        covers_within hlow fun h hh => by cases hh; omega⟩
  · rw [if_neg htwo]
    exact ⟨_, List.mem_cons_of_mem _ List.mem_cons_self,
      covers_within hlow fun h hh => by cases hh⟩

/-- What a precision allows to be written is one of its situations. -/
theorem exists_covers {p : Precision} (hp : p.IsValid) (hdigits : ∀ c ∈ places, c.isDigit = true)
    (hallows : p.Allows i places) :
    ∃ s ∈ p.situations,
      s.Covers (operands i (places ++ zeros
        (p.missing places.length (countSignificant (numeral i places))))) := by
  cases p with
  | fraction least most => exact exists_covers_fraction hp.1 hdigits hallows
  | significant least most =>
    obtain ⟨hleast, hle, -⟩ := hp
    rw [Precision.missing]
    by_cases hone : most = 1
    · obtain rfl : least = 1 := by omega
      subst hone
      rw [Nat.sub_eq_zero_of_le (one_le_countSignificant i places), zeros, List.replicate_zero,
        List.append_nil]
      exact exists_covers_one (hallows (by decide))
    by_cases hfirst : least = 1
    · rw [Precision.situations, if_neg hone, if_pos hfirst]
      exact ⟨_, List.mem_singleton.mpr rfl, trivial, Extent.covers_any _, Extent.covers_any _,
        Extent.covers_any _, Extent.covers_any _⟩
    by_cases hne : places ++ zeros (least - countSignificant (numeral i places)) = []
    · obtain ⟨rfl, hzeros⟩ := List.append_eq_nil_iff.mp hne
      rw [zeros, List.replicate_eq_nil_iff] at hzeros
      rw [hne]
      exact exists_covers_whole (by omega) hle (by omega) hallows
    · rw [Precision.situations, if_neg hone, if_neg hfirst]
      exact ⟨_, List.mem_cons_self, covers_behind (Extent.covers_any i) hne⟩

end

end Localization.Plural
