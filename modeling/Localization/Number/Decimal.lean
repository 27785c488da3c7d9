import Localization.Text.Basic
import Localization.Number.Binary64

/-! Decimal text of doubles.

A double is written with the fewest digits that read back as the same double, and
among those with the digits nearest to it. Two layouts use the same digits: `plain`
never writes an exponent, `scientific` writes one outside `1e-5 ≤ |x| < 1e16` and
always keeps a fraction or an exponent. They also differ in which of two equally near
digit strings they take. -/
namespace Localization.Decimal

/-- `digits * 10 ^ exponent`. -/
structure Digits where
  digits : Nat
  exponent : Int
  deriving DecidableEq, Repr

/-- Which of two equally near digit strings is taken. -/
inductive Tie where
  | up
  | toEven

/-- Moves the zeros at the end of the digits into the exponent, at most `fuel` of
them. -/
def Digits.normalize : Nat → Digits → Digits
  | 0, d => d
  | fuel + 1, d =>
    if d.digits ≠ 0 && d.digits % 10 == 0 then normalize fuel ⟨d.digits / 10, d.exponent + 1⟩ else d

/-- `num / den` measured on the grid of multiples of `10 ^ place`, as a fraction. -/
def onGrid (num den : Nat) (place : Int) : Nat × Nat :=
  if 0 ≤ place then (num, den * Nat.pow 10 place.toNat) else (num * Nat.pow 10 (-place).toNat, den)

/-- The multiple of `10 ^ place` between the bounds `low / den` and `high / den` that is
nearest to `value / den`, the bounds included if `closed`. Only the two neighbours of
the value need be tried. -/
def nearestWithin (tie : Tie) (low value high den : Nat) (closed : Bool) (place : Int) :
    Option Digits :=
  let (v, d) := onGrid value den place
  let (lo, _) := onGrid low den place
  let (hi, _) := onGrid high den place
  let below := v / d
  let above := below + 1
  let fits (n : Nat) : Bool :=
    if closed then lo ≤ n * d && n * d ≤ hi else lo < n * d && n * d < hi
  let rest := v % d
  let preferBelow : Bool :=
    if 2 * rest == d then
      match tie with
      | .up => false
      | .toEven => below % 2 == 0
    else 2 * rest < d
  if fits below && fits above then some ⟨if preferBelow then below else above, place⟩
  else if fits below then some ⟨below, place⟩
  else if fits above then some ⟨above, place⟩
  else none

/-- The shortest digits that read back as the positive double `significand * 2 ^ exponent /
2 ^ 1074`. Its rounding interval reaches half a unit up and, unless the significand
is the least of its exponent, half a unit down; seventeen digits always suffice. -/
def shortest (tie : Tie) (significand exponent : Nat) : Digits :=
  let unit := Nat.pow 2 exponent
  let value := 4 * significand * unit
  let high := (4 * significand + 2) * unit
  let low :=
    (4 * significand - (if significand == Nat.pow 2 52 && exponent ≠ 0 then 1 else 2)) * unit
  let den := 4 * Binary64.scale
  let top := Binary64.floorLog10 value den
  let grids := (List.range 17).map fun (n : Nat) => top - n
  let found := grids.findSome? (nearestWithin tie low value high den (significand % 2 == 0))
  (found.getD ⟨value / den, 0⟩).normalize 32

def zeros (n : Nat) : Text := List.replicate n '0'

/-! ### Layouts -/

/-- Digits written out without exponent: `12300`, `12.3`, `0.00123`. -/
def positional (d : Digits) : Text :=
  let text := Text.ofNat d.digits
  if 0 ≤ d.exponent then text ++ zeros d.exponent.toNat
  else
    let places := (-d.exponent).toNat
    if places < text.length then
      text.take (text.length - places) ++ '.' :: text.drop (text.length - places)
    else "0." ++ zeros (places - text.length) ++ text

def sign (negative : Bool) : Text := if negative then ['-'] else []

/-- The text of a double without exponent and, if it is an integer, without point. -/
def plain : Binary64 → Text
  | .finite s 0 _ => sign s ++ ['0']
  | .finite s m e => sign s ++ positional (shortest .up m e)
  | .infinite s => sign s ++ "inf"
  | .nan => "NaN"

/-- Digits with one digit before the point and a signed exponent: `1.23e+17`. -/
def withExponent (d : Digits) : Text :=
  let text := Text.ofNat d.digits
  let power : Int := d.exponent + text.length - 1
  let head := text.take 1 ++ (if text.length == 1 then [] else '.' :: text.drop 1)
  head ++ ['e', if power < 0 then '-' else '+'] ++ Text.ofNat power.natAbs

/-- The text of a finite double, always with a fraction or an exponent. -/
def scientific : Binary64 → Text
  | .finite s 0 _ => sign s ++ "0.0"
  | .finite s m e =>
    let d := shortest .toEven m e
    let point : Int := d.exponent + (Text.ofNat d.digits).length
    sign s ++
      (if -5 < point && point ≤ 16 then
        positional d ++ (if 0 ≤ d.exponent then ['.', '0'] else [])
      else withExponent d)
  | _ => "null"

/-! ### Reading -/

/-- The double nearest to `± digits * 10 ^ exponent`. Far outside the range of doubles the
answer is known without the power of ten. -/
def toBinary64 (negative : Bool) (digits : Nat) (exponent : Int) : Binary64 :=
  let magnitude : Int := (Text.ofNat digits).length + exponent
  if digits == 0 then .finite negative 0 0
  else if magnitude > 310 then .infinite negative
  else if magnitude < -330 then .finite negative 0 0
  else if 0 ≤ exponent then Binary64.ofQuotient negative (digits * Nat.pow 10 exponent.toNat) 1
  else Binary64.ofQuotient negative digits (Nat.pow 10 (-exponent).toNat)

/-- The parts of a decimal numeral as written. -/
structure Numeral where
  negative : Bool
  whole : Text
  fraction : Option Text
  exponent : Option (Bool × Text)
  deriving DecidableEq, Repr

/-- Reads an optional exponent, which must be all that is left of the text. -/
def readExponent : Text → Option (Option (Bool × Text))
  | [] => some none
  | c :: rest =>
    if c == 'e' || c == 'E' then
      let (negative, digits) : Bool × Text :=
        match rest with
        | '-' :: r => (true, r)
        | '+' :: r => (false, r)
        | r => (false, r)
      if digits.isEmpty || !digits.all Char.isDigit then none else some (some (negative, digits))
    else none

/-- Cuts a text into sign, digits, fraction and exponent; the digits on either side of
the point may be missing. -/
def Numeral.ofText? (t : Text) : Option Numeral :=
  let (negative, body) : Bool × Text :=
    match t with
    | '-' :: r => (true, r)
    | r => (false, r)
  let whole := body.takeWhile Char.isDigit
  let rest := body.dropWhile Char.isDigit
  match rest with
  | '.' :: r =>
    (readExponent (r.dropWhile Char.isDigit)).map fun e =>
      ⟨negative, whole, some (r.takeWhile Char.isDigit), e⟩
  | r => (readExponent r).map fun e => ⟨negative, whole, none, e⟩

/-- The number a text of digits stands for, zero for the empty text. -/
def digitsValue (t : Text) : Nat := (Text.decimal? t).getD 0

/-- The double nearest to a numeral. -/
def Numeral.toBinary64 (n : Numeral) : Binary64 :=
  let fraction := n.fraction.getD []
  let exponent : Int :=
    match n.exponent with
    | none => 0
    | some (negative, digits) =>
      if negative then -(digitsValue digits : Int) else digitsValue digits
  Decimal.toBinary64 n.negative (digitsValue (n.whole ++ fraction)) (exponent - fraction.length)

/-- The double a script numeral denotes: `12`, `12.`, `.5`, `-1.5e3`. -/
def ofScript? (t : Text) : Option Binary64 :=
  match Numeral.ofText? t with
  | some n => if n.whole.isEmpty && (n.fraction.getD []).isEmpty then none else some n.toBinary64
  | none => none

end Localization.Decimal
