import Localization.Text.Basic

/-! Plural categories. -/
namespace Localization.Plural

/-- The six plural categories. -/
inductive Category where
  | zero
  | one
  | two
  | few
  | many
  | other
  deriving DecidableEq, Repr

namespace Category

/-- Every category in its fixed order. -/
def all : List Category := [zero, one, two, few, many, other]

theorem mem_all (c : Category) : c ∈ all := by cases c <;> decide

/-- The place of a category in the fixed order. -/
def rank : Category → Nat
  | zero => 0
  | one => 1
  | two => 2
  | few => 3
  | many => 4
  | other => 5

/-- The fixed order is that of the ranks. -/
theorem pairwise_all : all.Pairwise fun a b => a.rank < b.rank := by decide

def name : Category → Text
  | zero => "zero"
  | one => "one"
  | two => "two"
  | few => "few"
  | many => "many"
  | other => "other"

/-- The category of a name. -/
def ofName? (name : Text) : Option Category := all.find? fun c => c.name == name

/-- Names are read back, so different categories have different names. -/
@[simp] theorem ofName?_name (c : Category) : ofName? c.name = some c := by cases c <;> rfl

end Category

end Localization.Plural
