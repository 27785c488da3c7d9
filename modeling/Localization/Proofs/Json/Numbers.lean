import Mathlib
import Localization.Proofs.Json.Distinct
import Localization.Proofs.Number.Plain

/-! Numbers of a value that is read.

A numeral is held as a word and a power of ten. Its double is the word, or what one product or some
quotients make of it: a product is only taken if it is finite, and a quotient by a power of ten is
no greater than what is divided. So the numbers of a value that is read are integers, and finite
doubles in the one form of their value (`isRegular_ofText?`). -/
namespace Localization

open Binary64 (scale scale_pos ofUnits ofNat IsDouble)

/-- Whether a number is an integer or a finite double in the one form of its value. -/
def Json.Number.IsRegular : Json.Number → Prop
  | .integer _ => True
  | .double x => x.isFinite = true ∧ x.IsNormal

namespace Json

mutual

/-- The numbers in a value. -/
def Value.numbers : Value → List Number
  | .number n => [n]
  | .array items => itemNumbers items
  | .object entries => entryNumbers entries
  | _ => []

def itemNumbers : List Value → List Number
  | [] => []
  | v :: rest => v.numbers ++ itemNumbers rest

def entryNumbers : List (Text × Value) → List Number
  | [] => []
  | (_, v) :: rest => v.numbers ++ entryNumbers rest

end

theorem mem_itemNumbers_iff {n : Number} {items : List Value} :
    n ∈ itemNumbers items ↔ ∃ v ∈ items, n ∈ v.numbers := by
  induction items with
  | nil => simp [itemNumbers]
  | cons v rest ih => simp [itemNumbers, ih]

theorem mem_entryNumbers_iff {n : Number} {entries : List (Text × Value)} :
    n ∈ entryNumbers entries ↔ ∃ e ∈ entries, n ∈ e.2.numbers := by
  induction entries with
  | nil => simp [entryNumbers]
  | cons e rest ih => simp [entryNumbers, ih]

/-! ### Doubles -/

theorem isDouble_units {x : Binary64} (h : (Number.double x).IsRegular) : IsDouble x.units := by
  obtain ⟨hfinite, hnormal⟩ := h
  obtain ⟨s, m, e, rfl⟩ := Binary64.exists_finite hfinite
  exact ⟨m, e, hnormal.1, hnormal.2.1, rfl⟩

theorem isRegular_neg {x : Binary64} (h : (Number.double x).IsRegular) :
    (Number.double (-x)).IsRegular := by
  cases x with
  | finite => exact h
  | infinite => exact h
  | nan => exact h

/-- The greatest power of ten that is a double. -/
def greatestPower : Nat := Nat.pow 10 308

theorem pow_le_greatestPower {k : Nat} (h : k ≤ 308) : Nat.pow 10 k ≤ greatestPower :=
  Nat.pow_le_pow_right (by decide) h

theorem exists_greatestPower_le : ∃ j, j ≤ 971 ∧ greatestPower ≤ (2 ^ 53 - 1) * 2 ^ j :=
  ⟨971, Nat.le_refl _, by decide +kernel⟩

theorem maxWord_le : maxWord ≤ greatestPower := by decide +kernel

theorem isRegular_ofNat {n : Nat} (h : n ≤ greatestPower) :
    (Number.double (ofNat n)).IsRegular := by
  obtain ⟨i, hi, hpower⟩ := exists_greatestPower_le
  obtain ⟨j, hj, hscale⟩ := Binary64.exists_scale_eq
  refine ⟨?_, Binary64.isNormal_ofNat n⟩
  rw [Binary64.ofNat_eq]
  refine Binary64.isFinite_ofUnits false Nat.one_pos
    ⟨2 ^ 53 - 1, i + j, by decide, by omega, rfl⟩ ?_
  rw [Nat.mul_one, Nat.pow_add, ← Nat.mul_assoc, hscale, Nat.pow_eq]
  exact Nat.mul_le_mul_right _ (h.trans hpower)

/-- A quotient by a number that is no less than one. -/
theorem isRegular_div {x : Binary64} (h : (Number.double x).IsRegular) {n : Nat} (hpos : 0 < n)
    (hle : n ≤ greatestPower) : (Number.double (x / ofNat n)).IsRegular := by
  have hfinite := (isRegular_ofNat hle).1
  have hone : scale ≤ (ofNat n).units := by
    rw [Binary64.ofNat_eq] at hfinite ⊢
    refine Binary64.le_units_ofUnits Nat.one_pos ?_ ?_ hfinite
    · rw [← Nat.one_mul scale]
      exact (Binary64.isGrid_of_le (by decide)).mul_scale
    · rw [Nat.mul_one]
      exact Nat.le_mul_of_pos_left _ hpos
  have hunits : 0 < (ofNat n).units := scale_pos.trans_le hone
  have hle : x.units * scale ≤ x.units * (ofNat n).units := Nat.mul_le_mul_left _ hone
  rw [Binary64.div_eq h.1 hfinite hunits.ne']
  exact ⟨Binary64.isFinite_ofUnits _ hunits (isDouble_units h) hle,
    Binary64.isNormal_ofUnits _ _ hunits⟩

/-- A finite product. -/
theorem isRegular_mul {x y : Binary64} (hx : x.isFinite = true) (hy : y.isFinite = true)
    (h : (x * y).isFinite = true) : (Number.double (x * y)).IsRegular := by
  refine ⟨h, ?_⟩
  have hscale := scale_pos
  rw [Binary64.mul_eq hx hy]
  -- the scale is no number to compute with
  generalize scale = units at hscale ⊢
  exact Binary64.isNormal_ofUnits _ _ hscale

/-! ### Numerals -/

theorem significand_ofWhole_le (digits : Text) : (Scaled.ofWhole digits).significand ≤ maxWord := by
  suffices hgo : ∀ s ≤ maxWord, (Scaled.ofWhole.go s digits).significand ≤ maxWord from
    hgo 0 (Nat.zero_le _)
  induction digits with
  | nil => exact fun s hs => hs
  | cons c rest ih =>
    intro s hs
    simp only [Scaled.ofWhole.go]
    split
    · next hnext => exact ih _ hnext
    · exact hs

theorem significand_withFraction_le {x : Scaled} (h : x.significand ≤ maxWord) (digits : Text) :
    (x.withFraction digits).significand ≤ maxWord := by
  induction digits generalizing x with
  | nil => exact h
  | cons c rest ih =>
    simp only [Scaled.withFraction]
    split
    · next hnext => exact ih hnext
    · exact h

theorem isRegular_scaleDown (fuel : Nat) {x : Binary64} (h : (Number.double x).IsRegular)
    {exponent : Int} (he : exponent < 0) :
    (Number.double (scaleDown fuel x exponent)).IsRegular := by
  induction fuel generalizing x exponent with
  | zero => exact h
  | succ fuel ih =>
    rw [scaleDown]
    split
    · next hge =>
      exact isRegular_div h (Nat.pow_pos (by decide)) (pow_le_greatestPower (by omega))
    · split
      · exact h
      · exact ih (isRegular_div h (Nat.pow_pos (by decide)) (Nat.le_refl _)) (by omega)

theorem isRegular_toBinary64? {x : Scaled} (hword : x.significand ≤ maxWord) {y : Binary64}
    (h : x.toBinary64? = some y) : (Number.double y).IsRegular := by
  have hs := isRegular_ofNat (hword.trans maxWord_le)
  simp only [Scaled.toBinary64?] at h
  split at h
  · next he =>
    cases h
    exact isRegular_scaleDown 3 hs he
  split at h
  · cases h
    exact hs
  split at h
  · cases h
  split at h
  · next hfinite =>
    cases h
    exact isRegular_mul hs.1 (isRegular_ofNat (pow_le_greatestPower (by omega))).1 hfinite
  · cases h

/-- The number of a numeral is regular. -/
theorem isRegular_ofNumeral? {numeral : Decimal.Numeral} {n : Number}
    (h : Number.ofNumeral? numeral = some n) : n.IsRegular := by
  have hwhole := significand_ofWhole_le numeral.whole
  have hfraction := significand_withFraction_le hwhole
  have hsigned {x : Binary64} (hx : (Number.double x).IsRegular) :
      (Number.double (if numeral.negative then -x else x)).IsRegular := by
    split
    · exact isRegular_neg hx
    · exact hx
  have hscaled {x : Scaled} (hx : x.significand ≤ maxWord)
      (h : (x.toBinary64?.map fun x => Number.double (if numeral.negative then -x else x)) =
        some n) : n.IsRegular := by
    obtain ⟨y, hy, rfl⟩ := Option.map_eq_some_iff.mp h
    exact hsigned (isRegular_toBinary64? hx hy)
  simp only [Number.ofNumeral?] at h
  split at h
  · split at h
    · split at h
      · cases h
        trivial
      · split at h
        · cases h
          trivial
        · cases h
          exact hsigned (isRegular_ofNat (hwhole.trans maxWord_le))
    · exact hscaled hwhole h
  · exact hscaled (hfraction _) h
  · split at h
    · split at h
      · cases h
        exact hsigned (isRegular_ofNat (Nat.zero_le _))
      · cases h
    · next negative digits _ _ =>
      have hsignificand := hfraction (numeral.fraction.getD [])
      generalize ((Scaled.ofWhole numeral.whole).withFraction (numeral.fraction.getD [])) = x
        at hsignificand h
      exact @hscaled ⟨x.significand, if negative then _ else _⟩ hsignificand h

/-! ### Values -/

theorem mem_entryNumbers_insertAll {entries more : Object} {n : Number}
    (h : n ∈ entryNumbers (Object.insertAll entries more)) :
    n ∈ entryNumbers entries ∨ n ∈ entryNumbers more := by
  induction more generalizing entries with
  | nil => exact .inl h
  | cons e rest ih =>
    have h : n ∈ entryNumbers (Object.insertAll (Object.insert entries e.1 e.2) rest) := h
    rw [entryNumbers, List.mem_append]
    refine (ih h).elim (fun h => ?_) fun h => .inr (.inr h)
    obtain ⟨e', he', hn⟩ := mem_entryNumbers_iff.mp h
    rcases Object.mem_of_mem_insert he' with rfl | he'
    · exact .inr (.inl hn)
    · exact .inl (mem_entryNumbers_iff.mpr ⟨e', he', hn⟩)

mutual

theorem isRegular_toValue? {depth : Nat} : ∀ {r : Raw} {v : Value},
    r.toValue? depth = some v → ∀ n ∈ v.numbers, n.IsRegular
  | .null, v, h => by
    rw [Raw.toValue?] at h
    cases h
    exact fun _ hn => by cases hn
  | .bool b, v, h => by
    rw [Raw.toValue?] at h
    cases h
    exact fun _ hn => by cases hn
  | .numeral numeral, v, h => by
    rw [Raw.toValue?] at h
    obtain ⟨x, hx, rfl⟩ := Option.map_eq_some_iff.mp h
    intro n hn
    rw [List.mem_singleton.mp hn]
    exact isRegular_ofNumeral? hx
  | .string s, v, h => by
    rw [Raw.toValue?] at h
    obtain ⟨t, -, rfl⟩ := Option.map_eq_some_iff.mp h
    exact fun _ hn => by cases hn
  | .array items, v, h => by
    cases depth with
    | zero => rw [Raw.toValue?] at h; cases h
    | succ depth =>
      rw [Raw.toValue?] at h
      obtain ⟨vs, hvs, rfl⟩ := Option.map_eq_some_iff.mp h
      exact isRegular_toValues? hvs
  | .object entries, v, h => by
    cases depth with
    | zero => rw [Raw.toValue?] at h; cases h
    | succ depth =>
      rw [Raw.toValue?] at h
      obtain ⟨es, hes, rfl⟩ := Option.map_eq_some_iff.mp h
      intro n hn
      have hn : n ∈ entryNumbers (Object.insertAll [] es) := hn
      exact isRegular_toEntries? hes n ((mem_entryNumbers_insertAll hn).resolve_left nofun)

theorem isRegular_toValues? {depth : Nat} : ∀ {items : List Raw} {vs : List Value},
    Raw.toValues? depth items = some vs → ∀ n ∈ itemNumbers vs, n.IsRegular
  | [], vs, h => by
    rw [Raw.toValues?] at h
    cases h
    exact fun _ hn => by cases hn
  | r :: rest, vs, h => by
    rw [Raw.toValues?] at h
    obtain ⟨v, hv, h⟩ := Option.bind_eq_some_iff.mp h
    obtain ⟨more, hmore, h⟩ := Option.bind_eq_some_iff.mp h
    cases h
    intro n hn
    rcases List.mem_append.mp hn with hn | hn
    · exact isRegular_toValue? hv n hn
    · exact isRegular_toValues? hmore n hn

theorem isRegular_toEntries? {depth : Nat} : ∀ {entries : List (List Glyph × Raw)}
    {es : List (Text × Value)}, Raw.toEntries? depth entries = some es →
      ∀ n ∈ entryNumbers es, n.IsRegular
  | [], es, h => by
    rw [Raw.toEntries?] at h
    cases h
    exact fun _ hn => by cases hn
  | (key, r) :: rest, es, h => by
    rw [Raw.toEntries?] at h
    obtain ⟨k, -, h⟩ := Option.bind_eq_some_iff.mp h
    obtain ⟨v, hv, h⟩ := Option.bind_eq_some_iff.mp h
    obtain ⟨more, hmore, h⟩ := Option.bind_eq_some_iff.mp h
    cases h
    intro n hn
    rcases List.mem_append.mp hn with hn | hn
    · exact isRegular_toValue? hv n hn
    · exact isRegular_toEntries? hmore n hn

end

/-- **The numbers of a value that is read are integers and finite doubles** in the one form of
their values. -/
theorem isRegular_ofText? {t : Text} {v : Value} (h : Value.ofText? t = some v) :
    ∀ n ∈ v.numbers, n.IsRegular := by
  obtain ⟨r, -, hv⟩ := Option.bind_eq_some_iff.mp h
  exact isRegular_toValue? hv

end Json

end Localization
