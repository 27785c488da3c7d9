import Localization.Argument.Basic
import Localization.Plural.Condition

/-! Options of a plural selector: cardinal or ordinal, and how many digits are written. -/
namespace Localization.Plural

inductive Kind where
  | cardinal
  | ordinal
  deriving DecidableEq, Repr

/-- How a selector chooses and how the number is written before it does. -/
structure Options where
  kind : Kind
  minInteger : Option Nat
  minFraction : Option Nat
  maxFraction : Option Nat
  minSignificant : Option Nat
  maxSignificant : Option Nat
  deriving DecidableEq, Repr

namespace Options

/-- Cardinal, with no word on digits. -/
def plain : Options := ⟨.cardinal, none, none, none, none, none⟩

/-- The number of digits that a number stands for: without its fraction and at most the
greatest word of 32 bits; none for a negative or infinite number. -/
def digits? (x : Binary64) : Option Nat :=
  if x.isFinite && (!x.isNegative || x.isZero) then
    some (min x.truncate (Nat.pow 2 32 - 1)) else none

/-- Sets what one property says. Anything but a literal says nothing, and so does a key
that is no option. -/
def set (o : Options) (key : Text) : Argument → Options
  | .string value =>
    if key == "type" then { o with kind := if value == "ordinal" then .ordinal else .cardinal }
    else o
  | .number x =>
    if key == "minimumIntegerDigits" then { o with minInteger := digits? x }
    else if key == "minimumFractionDigits" then { o with minFraction := digits? x }
    else if key == "maximumFractionDigits" then { o with maxFraction := digits? x }
    else if key == "minimumSignificantDigits" then { o with minSignificant := digits? x }
    else if key == "maximumSignificantDigits" then { o with maxSignificant := digits? x }
    else o
  | _ => o

/-- The options that the properties of an object literal set, the last word on each. -/
def ofProperties (properties : Properties) : Options :=
  properties.foldl (fun o (key, a) => o.set key a) plain

theorem ofProperties_append (a b : Properties) :
    ofProperties (a ++ b) = b.foldl (fun o (key, x) => o.set key x) (ofProperties a) := by
  simp [ofProperties]

end Options

end Localization.Plural
