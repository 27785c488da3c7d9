import Localization.Plural.Options

/-! Numbers as a selector writes them.

`write` rounds the magnitude of a number to the digits that the options ask for and
fills up with zeros. Options on significant digits, if there are any, take the place of
those on fraction digits. -/
namespace Localization.Plural

/-- The most digits behind the point, and the most significant digits. -/
def precisionLimit : Nat := 15

/-- `10 ^ n` as a double. -/
def power (n : Nat) : Binary64 := Decimal.toBinary64 false 1 n

/-- Rounds to a number of places behind the point, or before it if negative, and away from
zero on a tie. -/
def roundAt (x : Binary64) (places : Int) : Binary64 :=
  if 0 ≤ places then (x * power places.toNat).round / power places.toNat
  else (x / power (-places).toNat).round * power (-places).toNat

/-- The digits behind the point, none if there is no point. -/
def fractionOf (text : Text) : Option Text :=
  match text.dropWhile (· != '.') with
  | _ :: fraction => some fraction
  | [] => none

/-- Fills the fraction up to a number of digits. -/
def fillFraction (text : Text) (places : Nat) : Text :=
  match fractionOf text with
  | some fraction => text ++ Decimal.zeros (places - fraction.length)
  | none => if places == 0 then text else text ++ '.' :: Decimal.zeros places

/-- Digits from the first that is not zero; of a zero every digit counts. -/
def countSignificant (text : Text) : Nat :=
  let digits := text.filter Char.isDigit
  let kept := digits.dropWhile (· == '0')
  if kept.isEmpty then digits.length else kept.length

/-- Rounds and fills by fraction digits. -/
def writeFraction (o : Options) (x : Binary64) : Text :=
  let least := min (o.minFraction.getD 0) precisionLimit
  let most := max least (min (o.maxFraction.getD (max least 3)) precisionLimit)
  fillFraction (Decimal.plain (roundAt x most)) least

/-- The exponent of the first digit, zero for a zero. -/
def magnitude (x : Binary64) : Int :=
  if x.units == 0 then 0 else Binary64.floorLog10 x.units Binary64.scale

/-- Rounds and fills by significant digits. -/
def writeSignificant (o : Options) (x : Binary64) : Text :=
  let most := max 1 (min (o.maxSignificant.getD precisionLimit) precisionLimit)
  let least := max 1 (min (o.minSignificant.getD 1) most)
  let text := Decimal.plain (roundAt x ((most : Int) - 1 - magnitude x))
  let digits := countSignificant text
  if least ≤ digits then text
  else fillFraction text (((fractionOf text).getD []).length + (least - digits))

/-- The magnitude of a number as the options write it. -/
def write (o : Options) (x : Binary64) : Text :=
  let text :=
    if o.minSignificant.isSome || o.maxSignificant.isSome then writeSignificant o x.abs
    else writeFraction o x.abs
  match o.minInteger with
  | none => text
  | some least => Decimal.zeros (least - (text.takeWhile (· != '.')).length) ++ text

end Localization.Plural
