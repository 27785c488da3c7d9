import Localization.Json.Raw
import Localization.Json.Value

/-! Reading JSON values.

A text of the JSON grammar is a value if its containers nest at most `maxDepth` deep,
its escapes form characters and its numbers are in range. -/
namespace Localization.Json

/-- How deep arrays and objects may nest. -/
def maxDepth : Nat := 127

/-! ### Strings -/

/-- The characters of a string literal; an escaped unit of a surrogate pair must have
its partner. -/
def decode? : List Glyph → Option Text
  | [] => some []
  | .char c :: rest => (decode? rest).map (c :: ·)
  | .unit code :: rest =>
    if 0xD800 ≤ code && code ≤ 0xDBFF then
      match rest with
      | .unit low :: rest =>
        if 0xDC00 ≤ low && low ≤ 0xDFFF then
          (decode? rest).map (Char.ofNat (0x10000 + (code - 0xD800) * 0x400 + (low - 0xDC00)) :: ·)
        else none
      | _ => none
    else if 0xDC00 ≤ code && code ≤ 0xDFFF then none
    else (decode? rest).map (Char.ofNat code :: ·)

/-! ### Numbers

A number is held as a word of 64 bits and a power of ten, and only then made a
double: by one multiplication or division where the power of ten is a double. Digits
that no longer fit the word are dropped; those in front of the point still count
towards the power. -/

def maxWord : Nat := Nat.pow 2 64 - 1

/-- A significand below `2 ^ 64` and a power of ten. -/
structure Scaled where
  significand : Nat
  exponent : Int

/-- Digits in front of the point. -/
def Scaled.ofWhole (digits : Text) : Scaled :=
  let rec go : Nat → Text → Scaled
    | s, [] => ⟨s, 0⟩
    | s, c :: rest =>
      let next := 10 * s + (c.toNat - '0'.toNat)
      if next ≤ maxWord then go next rest else ⟨s, (rest.length + 1 : Nat)⟩
  go 0 digits

/-- Digits behind the point. -/
def Scaled.withFraction (x : Scaled) : Text → Scaled
  | [] => x
  | c :: rest =>
    let next := 10 * x.significand + (c.toNat - '0'.toNat)
    if next ≤ maxWord then withFraction ⟨next, x.exponent - 1⟩ rest else x

/-- Divides by `10 ^ 308` until the power of ten is a double; three times leave nothing
of any word. -/
def scaleDown : Nat → Binary64 → Int → Binary64
  | 0, x, _ => x
  | fuel + 1, x, exponent =>
    if exponent ≥ -308 then x / Binary64.ofNat (Nat.pow 10 exponent.natAbs)
    else if x.isZero then x
    else scaleDown fuel (x / Binary64.ofNat (Nat.pow 10 308)) (exponent + 308)

/-- The double of a scaled number, none if it is out of range. -/
def Scaled.toBinary64? (x : Scaled) : Option Binary64 :=
  let s := Binary64.ofNat x.significand
  if x.exponent < 0 then some (scaleDown 3 s x.exponent)
  else if x.significand == 0 then some s
  else if x.exponent > 308 then none
  else
    let product := s * Binary64.ofNat (Nat.pow 10 x.exponent.natAbs)
    if product.isFinite then some product else none

/-- The number that a numeral denotes. -/
def Number.ofNumeral? (n : Decimal.Numeral) : Option Number :=
  let signed (x : Binary64) : Number := .double (if n.negative then -x else x)
  let whole := Scaled.ofWhole n.whole
  match n.fraction, n.exponent with
  | none, none =>
    if whole.exponent == 0 then
      if !n.negative then some (.integer whole.significand)
      else if whole.significand ≠ 0 && whole.significand ≤ Nat.pow 2 63 then
        some (.integer (-(whole.significand : Int)))
      else some (signed (Binary64.ofNat whole.significand))
    else whole.toBinary64?.map signed
  | fraction, none => (whole.withFraction (fraction.getD [])).toBinary64?.map signed
  | fraction, some (negative, digits) =>
    let x := whole.withFraction (fraction.getD [])
    let power := Decimal.digitsValue digits
    if power > Nat.pow 2 31 - 1 then
      if negative || x.significand == 0 then some (signed 0) else none
    else
      let exponent := if negative then x.exponent - power else x.exponent + power
      (Scaled.mk x.significand exponent).toBinary64?.map signed

/-! ### Values -/

mutual

/-- The value of a text as written, with at most `depth` containers inside each other. -/
def Raw.toValue? (depth : Nat) : Raw → Option Value
  | .null => some .null
  | .bool b => some (.bool b)
  | .numeral n => (Number.ofNumeral? n).map .number
  | .string s => (decode? s).map .string
  | .array items =>
    match depth with
    | 0 => none
    | depth + 1 => (Raw.toValues? depth items).map .array
  | .object entries =>
    match depth with
    | 0 => none
    | depth + 1 => (Raw.toEntries? depth entries).map fun e => .object (Object.ofList e)

def Raw.toValues? (depth : Nat) : List Raw → Option (List Value)
  | [] => some []
  | v :: rest => do return (← v.toValue? depth) :: (← Raw.toValues? depth rest)

def Raw.toEntries? (depth : Nat) : List (List Glyph × Raw) → Option (List (Text × Value))
  | [] => some []
  | (key, v) :: rest => do
    return (← decode? key, ← v.toValue? depth) :: (← Raw.toEntries? depth rest)

end

/-- The value that a text spells. -/
def Value.ofText? (t : Text) : Option Value := (Raw.ofText? t).bind (Raw.toValue? maxDepth)

end Localization.Json
