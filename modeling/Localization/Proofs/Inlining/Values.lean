import Mathlib
import Localization.Inlining.Chunk
import Localization.Proofs.Inlining.Nested
import Localization.Proofs.Script.Following

/-! What values start with.

The value of a site is a literal, an array, a chain in parentheses or a number, so it starts with a
character that starts no name (`isValueText_resolve`), while the text of a call starts with a name.
Putting values in the place of calls therefore changes a text at the first character of each. A
number that is none, which no JSON text spells, is written as `null` and is the one exception. -/
namespace Localization.Inlining

open Marker (Call)
open Script (isNameStart)

/-! ### Numbers -/

/-- Whether a number is one. -/
def isFinite : Json.Number → Bool
  | .integer _ => true
  | .double (.finite _ _ _) => true
  | .double _ => false

/-- A text that starts with a digit. -/
def StartsWithDigit (t : Text) : Prop := ∃ c rest, t = c :: rest ∧ c.isDigit = true

theorem StartsWithDigit.append {t : Text} (h : StartsWithDigit t) (z : Text) :
    StartsWithDigit (t ++ z) := by
  obtain ⟨c, rest, rfl, hc⟩ := h
  exact ⟨c, rest ++ z, rfl, hc⟩

theorem StartsWithDigit.take {t : Text} (h : StartsWithDigit t) {n : Nat} (hn : 0 < n) :
    StartsWithDigit (t.take n) := by
  obtain ⟨c, rest, rfl, hc⟩ := h
  obtain ⟨n, rfl⟩ : ∃ m, n = m + 1 := ⟨n - 1, by omega⟩
  exact ⟨c, rest.take n, rfl, hc⟩

theorem startsWithDigit_ofNat (n : Nat) : StartsWithDigit (Text.ofNat n) := by
  have hne : Nat.toDigits 10 n ≠ [] := List.ne_nil_of_length_pos Nat.length_toDigits_pos
  obtain ⟨c, rest, hc⟩ := List.exists_cons_of_ne_nil hne
  have hmem : c ∈ Nat.toDigits 10 n := hc ▸ List.mem_cons_self
  exact ⟨c, rest, hc, Nat.isDigit_of_mem_toDigits (by decide) (by decide) hmem⟩

theorem startsWithDigit_positional (d : Decimal.Digits) :
    StartsWithDigit (Decimal.positional d) := by
  have hdigits := startsWithDigit_ofNat d.digits
  simp only [Decimal.positional]
  split
  · exact hdigits.append _
  · split
    · exact (hdigits.take (by omega)).append _
    · exact ⟨'0', _, rfl, rfl⟩

theorem startsWithDigit_withExponent (d : Decimal.Digits) :
    StartsWithDigit (Decimal.withExponent d) := by
  rw [Decimal.withExponent]
  exact ((((startsWithDigit_ofNat d.digits).take Nat.one_pos).append _).append _).append _

/-- A text that starts with a character that starts no name. -/
def StartsOutsideName (t : Text) : Prop := ∃ c rest, t = c :: rest ∧ isNameStart c = false

/-- Whether a number is written with a sign. -/
def isNegative : Json.Number → Bool
  | .integer i => i < 0
  | .double (.finite s _ _) => s
  | .double _ => false

/-- The text of a number is its sign, if it has one, and a text that starts with a digit. -/
theorem exists_toText_eq {n : Json.Number} (h : isFinite n = true) :
    ∃ t, StartsWithDigit t ∧ n.toText = Decimal.sign (isNegative n) ++ t := by
  cases n with
  | integer i => exact ⟨_, startsWithDigit_ofNat _, rfl⟩
  | double x =>
    cases x with
    | infinite s => cases h
    | nan => cases h
    | finite s m e =>
      simp only [Json.Number.toText, isNegative]
      unfold Decimal.scientific
      split
      · next heq =>
        cases heq
        exact ⟨"0.0".toList, ⟨'0', _, rfl, rfl⟩, rfl⟩
      · next heq =>
        cases heq
        refine ⟨_, ?_, rfl⟩
        split
        · exact (startsWithDigit_positional _).append _
        · exact startsWithDigit_withExponent _
      · next h1 h2 => exact absurd rfl (h2 _ _ _)

/-- The text of a number starts with a digit or a sign. -/
theorem startsOutsideName_toText {n : Json.Number} (h : isFinite n = true) :
    StartsOutsideName n.toText := by
  obtain ⟨t, ⟨c, rest, rfl, hc⟩, htext⟩ := exists_toText_eq h
  rw [htext]
  cases isNegative n with
  | true => exact ⟨'-', c :: rest, rfl, rfl⟩
  | false => exact ⟨c, rest, rfl, Script.not_isNameStart_of_isDigit hc⟩

/-- A number that is none is written as `null`. -/
theorem toText_of_not_isFinite {n : Json.Number} (h : isFinite n = false) :
    n.toText = "null".toList := by
  cases n with
  | integer i => cases h
  | double x =>
    cases x with
    | finite s m e => cases h
    | infinite s => rfl
    | nan => rfl

/-! ### Values -/

/-- Whether the trees hold numbers only that JSON can spell. Trees that are read from files do. -/
def Context.HasFiniteNumbers (x : Context) : Prop :=
  ∀ lang raw n, x.valueOf? lang raw = some (.number n) → isFinite n = true

/-- What a value looks like: it starts outside of a name, or it is that of a number that is none. -/
def IsValueText (x : Context) (t : Text) : Prop :=
  StartsOutsideName t ∨ t = "null".toList ∧ ¬ x.HasFiniteNumbers

theorem IsValueText.ne_nil {x : Context} {t : Text} (h : IsValueText x t) : t ≠ [] := by
  rcases h with ⟨c, rest, rfl, -⟩ | ⟨rfl, -⟩
  · exact List.cons_ne_nil c rest
  · decide

/-- A character that starts a name is not the first one of a value, but for the `n` of `null`. -/
theorem IsValueText.head?_ne {x : Context} {t : Text} (h : IsValueText x t) {c : Char}
    (hc : isNameStart c = true) (hn : c ≠ 'n' ∨ x.HasFiniteNumbers) : t.head? ≠ some c := by
  rcases h with ⟨d, rest, rfl, hd⟩ | ⟨rfl, hx⟩
  · rintro ⟨⟩
    rw [hc] at hd
    cases hd
  · rintro ⟨⟩
    exact hn.elim (fun h => h rfl) hx

theorem isValueText_lookup (x : Context) (lang raw : Text) (params : Properties) :
    IsValueText x (x.lookup lang raw params).1 := by
  have hvalue : ∀ t, valueText? params (x.valueOf? lang raw) = some t → IsValueText x t := by
    intro t ht
    unfold valueText? at ht
    split at ht
    · cases ht
      exact .inl ⟨'`', _, rfl, by decide⟩
    · next n hv =>
      cases ht
      cases hn : isFinite n with
      | true => exact .inl (startsOutsideName_toText hn)
      | false =>
        refine .inr ⟨toText_of_not_isFinite hn, fun hx => ?_⟩
        rw [hx lang raw n hv] at hn
        cases hn
    · cases ht
      rw [Json.Value.compact]
      exact .inl ⟨'\x7b', _, rfl, by decide⟩
    · cases ht
      rw [Json.Value.compact]
      exact .inl ⟨'[', _, rfl, by decide⟩
    · cases ht
  rw [lookup_eq_getD]
  cases ht : valueText? params (x.valueOf? lang raw) with
  | none => exact .inl ⟨'`', ['`'], rfl, by decide⟩
  | some t => exact hvalue t ht

/-- A value before the sites nested in it are looked at. -/
theorem isValueText_render (x : Context) (lang : Text) (call : Call) (request : Request) :
    IsValueText x (x.render lang call request).1 := by
  cases request with
  | key raw => exact isValueText_lookup x _ raw _
  | keys raws => exact .inl ⟨'[', _, rfl, by decide⟩
  | plural => exact .inl ⟨'(', _, rfl, by decide⟩

/-! ### Sites in sites -/

/-- No call starts at a character that starts no name, so at the head of a text it is kept. -/
theorem Rendered.head?_eq {x : Context} {lang t u : Text} {sites : List Site}
    (h : Rendered x lang sites t u) (hcalls : AreCalls sites) {c : Char} (ht : t.head? = some c)
    (hc : isNameStart c = false) : u.head? = some c := by
  cases h with
  | nil => cases ht
  | kept _ _ => exact ht
  | replaced hs _ =>
    obtain ⟨name, hname⟩ := hcalls.of_mem hs
    obtain ⟨d, raw, hraw, hd⟩ := hname.exists_eq_cons
    rw [hraw] at ht
    cases ht
    rw [hc] at hd
    cases hd

/-- A text without a parenthesis carries no call, so it is kept. -/
theorem Rendered.eq_of_not_mem {x : Context} {lang t u : Text} {sites : List Site}
    (h : Rendered x lang sites t u) (hcalls : AreCalls sites) (ht : '(' ∉ t) : u = t := by
  refine h.eq_of_not_carried fun site hs hinside => ht ?_
  obtain ⟨name, hname⟩ := hcalls.of_mem hs
  exact hinside.subset hname.parenthesis_mem

/-- Putting in the values of nested sites keeps how a value starts. -/
theorem IsValueText.rendered {x : Context} {lang t u : Text} {sites : List Site}
    (ht : IsValueText x t) (hcalls : AreCalls sites) (h : Rendered x lang sites t u) :
    IsValueText x u := by
  rcases ht with ⟨c, rest, rfl, hc⟩ | ⟨rfl, hx⟩
  · obtain ⟨u, rfl⟩ := List.head?_eq_some_iff.mp (h.head?_eq hcalls rfl hc)
    exact .inl ⟨c, u, rfl, hc⟩
  · exact .inr ⟨h.eq_of_not_mem hcalls (by decide), hx⟩

/-- **The value of a site starts outside of a name.** -/
theorem isValueText_resolve (x : Context) (lang : Text) {sites : List Site} (h : AreCalls sites)
    {site : Site} (hs : site ∈ sites) : IsValueText x (resolve x lang site).1 :=
  (isValueText_render x lang site.call site.request).rendered (h.nested hs)
    ((h.nested hs).rendered x lang)

end Localization.Inlining
