import Localization.Number.Decimal
import Localization.Plural.Category

/-! Plural conditions.

Which category a number selects depends on the number as it is written: its value, its
integer digits, and its fraction with and without zeros at the end. `Operands` holds
these for one text; a `Condition` is a statement about them, and `Rules` are the
conditions of a language in the order in which they are tried. -/
namespace Localization.Plural

/-- What plural rules know of a written number. -/
structure Operands where
  /-- The number itself. -/
  n : Binary64
  /-- Its integer digits. -/
  i : Nat
  /-- How many fraction digits are written. -/
  v : Nat
  /-- The fraction digits as a number. -/
  f : Nat
  /-- The fraction digits without zeros at the end as a number. -/
  t : Nat
  deriving DecidableEq, Repr

/-- The value of a text of digits if it fits a word of 64 bits. -/
def word? (digits : Text) : Option Nat :=
  (Text.decimal? digits).bind fun n => if n < Nat.pow 2 64 then some n else none

/-- The operands of a written number, none if its digits on either side of the point do
not fit a word. -/
def Operands.ofText? (text : Text) : Option Operands := do
  let n ← Decimal.ofScript? text
  let whole := text.takeWhile (· != '.')
  let i ← word? whole
  match text.drop whole.length with
  | _ :: fraction =>
    let f ← word? fraction
    let kept := (fraction.reverse.dropWhile (· == '0')).reverse
    return ⟨n, i, fraction.length, f, (word? kept).getD 0⟩
  | [] => return ⟨n, i, 0, 0, 0⟩

/-! ### Conditions -/

/-- An operand that is a natural number. -/
inductive Source where
  | i
  | v
  | f
  | t
  deriving DecidableEq, Repr

/-- An operand, or its remainder by `modulus`; zero stands for no modulus. -/
structure Term where
  source : Source
  modulus : Nat
  deriving DecidableEq, Repr

def Term.value (x : Term) (o : Operands) : Nat :=
  (match x.source with
    | .i => o.i
    | .v => o.v
    | .f => o.f
    | .t => o.t) % x.modulus

/-- A statement about operands. -/
inductive Condition where
  /-- The number itself is this one. -/
  | number (value : Nat)
  /-- The term lies between two bounds, both included. -/
  | within (x : Term) (low high : Nat)
  | not (c : Condition)
  | and (a b : Condition)
  | or (a b : Condition)
  deriving DecidableEq, Repr

def Condition.holds (o : Operands) : Condition → Bool
  | number value => o.n.sameNumber (.ofNat value)
  | within x low high => low ≤ x.value o && x.value o ≤ high
  | not c => !c.holds o
  | and a b => a.holds o && b.holds o
  | or a b => a.holds o || b.holds o

instance : AndOp Condition := ⟨Condition.and⟩
instance : OrOp Condition := ⟨Condition.or⟩
instance : HMod Term Nat Term := ⟨fun x m => ⟨x.source, m⟩⟩

namespace Term

def i : Term := ⟨.i, 0⟩
def v : Term := ⟨.v, 0⟩
def f : Term := ⟨.f, 0⟩
def t : Term := ⟨.t, 0⟩

/-- The term is `k`. -/
def is (x : Term) (k : Nat) : Condition := .within x k k

/-- The term is not `k`. -/
def isNot (x : Term) (k : Nat) : Condition := .not (x.is k)

def within (x : Term) (low high : Nat) : Condition := .within x low high

def outside (x : Term) (low high : Nat) : Condition := .not (.within x low high)

end Term

/-! ### Rules -/

/-- Conditions in the order in which they are tried. -/
abbrev Rules := List (Category × Condition)

/-- The category of the first condition that holds, `other` if none does. -/
def Rules.select (rules : Rules) (o : Operands) : Category :=
  match rules.find? fun (_, condition) => condition.holds o with
  | some (category, _) => category
  | none => .other

end Localization.Plural
