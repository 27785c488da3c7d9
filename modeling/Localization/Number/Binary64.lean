/-! Doubles.

A finite double is a sign, a significand below `2 ^ 53` and an exponent: it stands
for `± significand * 2 ^ exponent / 2 ^ 1074`. The exponent of a value below
`2 ^ -1021` is zero, and any other significand is at least `2 ^ 52`, so a value has
one form. Every operation computes its result exactly as a fraction and then rounds
it once, to the nearest double and to the even significand on a tie. -/
namespace Localization

/-- A double. -/
inductive Binary64 where
  | finite (negative : Bool) (significand exponent : Nat)
  | infinite (negative : Bool)
  | nan
  deriving DecidableEq, Repr

namespace Binary64

/-- Finite doubles are counted in units of `1 / scale`. -/
def scale : Nat := Nat.pow 2 1074

/-- The quotient to the nearest integer, to the even one on a tie. -/
def divToEven (num den : Nat) : Nat :=
  let q := num / den
  let r := num % den
  if 2 * r < den then q
  else if 2 * r == den then q + q % 2
  else q + 1

/-- The double nearest to `± num / den`. -/
def ofQuotient (negative : Bool) (num den : Nat) : Binary64 :=
  let units := num * scale / den
  let exponent := if units < Nat.pow 2 53 then 0 else units.log2 - 52
  let significand := divToEven (num * scale) (den * Nat.pow 2 exponent)
  let (significand, exponent) :=
    if significand == Nat.pow 2 53 then (Nat.pow 2 52, exponent + 1) else (significand, exponent)
  if exponent ≤ 2045 then finite negative significand exponent else infinite negative

/-- The double nearest to a natural number. -/
def ofNat (n : Nat) : Binary64 := ofQuotient false n 1

instance (n : Nat) : OfNat Binary64 n := ⟨ofNat n⟩

def isFinite : Binary64 → Bool
  | finite _ _ _ => true
  | _ => false

/-- Either zero. -/
def isZero : Binary64 → Bool
  | finite _ 0 _ => true
  | _ => false

/-- Carries a minus sign. -/
def isNegative : Binary64 → Bool
  | finite s _ _ => s
  | infinite s => s
  | nan => false

def abs : Binary64 → Binary64
  | finite _ m e => finite false m e
  | infinite _ => infinite false
  | nan => nan

def neg : Binary64 → Binary64
  | finite s m e => finite (!s) m e
  | infinite s => infinite (!s)
  | nan => nan

/-- The magnitude of a finite double in units of `1 / scale`. -/
def units : Binary64 → Nat
  | finite _ m e => m * Nat.pow 2 e
  | _ => 0

/-- The value of a finite double in units of `1 / scale`. -/
def scaled (x : Binary64) : Int := if x.isNegative then -(x.units : Int) else x.units

def add : Binary64 → Binary64 → Binary64
  | nan, _ => nan
  | _, nan => nan
  | infinite s, infinite t => if s == t then infinite s else nan
  | infinite s, _ => infinite s
  | _, infinite s => infinite s
  | finite s m e, finite t n f =>
    let sum := (finite s m e).scaled + (finite t n f).scaled
    ofQuotient (if sum == 0 then s && t else sum < 0) sum.natAbs scale

def mul : Binary64 → Binary64 → Binary64
  | nan, _ => nan
  | _, nan => nan
  | infinite s, y => if y.isZero then nan else infinite (s != y.isNegative)
  | x, infinite t => if x.isZero then nan else infinite (x.isNegative != t)
  | finite s m e, finite t n f =>
    ofQuotient (s != t) (m * Nat.pow 2 e * (n * Nat.pow 2 f)) (scale * scale)

def div : Binary64 → Binary64 → Binary64
  | nan, _ => nan
  | _, nan => nan
  | infinite s, y => if y.isFinite then infinite (s != y.isNegative) else nan
  | finite s _ _, infinite t => finite (s != t) 0 0
  | finite s m e, finite t n f =>
    if n == 0 then (if m == 0 then nan else infinite (s != t))
    else ofQuotient (s != t) (m * Nat.pow 2 e) (n * Nat.pow 2 f)

instance : Add Binary64 := ⟨add⟩
instance : Mul Binary64 := ⟨mul⟩
instance : Div Binary64 := ⟨div⟩
instance : Neg Binary64 := ⟨neg⟩

/-- The integer nearest to a finite double, the greater magnitude on a tie. -/
def round : Binary64 → Binary64
  | finite s m e => ofQuotient s ((2 * (m * Nat.pow 2 e) + scale) / (2 * scale)) 1
  | x => x

/-- The magnitude of a finite double without its fraction. -/
def truncate (x : Binary64) : Nat := x.units / scale

/-- Whether two doubles stand for the same finite number. -/
def sameNumber (x y : Binary64) : Bool :=
  x.isFinite && y.isFinite && x.scaled == y.scaled

/-- The greatest `n` with `10 ^ n ≤ num / den`, for positive numbers. -/
def floorLog10 (num den : Nat) : Int :=
  if den ≤ num then ((Nat.toDigits 10 (num / den)).length : Int) - 1
  else
    let places := (Nat.toDigits 10 (den / num)).length
    if den ≤ num * Nat.pow 10 (places - 1) then -((places - 1 : Nat) : Int) else -(places : Int)

end Binary64

end Localization
