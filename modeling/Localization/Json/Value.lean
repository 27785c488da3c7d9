import Localization.Text.Basic
import Localization.Number.Binary64

/-! JSON values.

An object is the list of its entries in the order in which its keys were first
written; a key stands in it once. Looking a key up, `get?`, and setting it, `insert`,
are all the rest of the library knows of that list. -/
namespace Localization.Json

/-- Integers that fit a signed or unsigned word of 64 bits are kept exactly; every
other number is a double. -/
inductive Number where
  | integer (value : Int)
  | double (value : Binary64)
  deriving DecidableEq, Repr

/-- A JSON value. -/
inductive Value where
  | null
  | bool (value : Bool)
  | number (value : Number)
  | string (value : Text)
  | array (items : List Value)
  | object (entries : List (Text × Value))
  deriving Repr

/-- The entries of an object. -/
abbrev Object := List (Text × Value)

namespace Object

/-- The value of a key. -/
def get? (entries : Object) (key : Text) : Option Value := entries.lookup key

/-- Sets a key, in its place if it is there and at the end otherwise. -/
def insert : Object → Text → Value → Object
  | [], key, value => [(key, value)]
  | (k, v) :: rest, key, value =>
    if key == k then (key, value) :: rest else (k, v) :: insert rest key value

/-- The entries set one after the other; of a key given twice the first place and the
last value stay. -/
def insertAll (entries : Object) (more : List (Text × Value)) : Object :=
  more.foldl (fun e (key, value) => insert e key value) entries

def ofList (entries : List (Text × Value)) : Object := insertAll [] entries

theorem get?_insert (entries : Object) (key : Text) (value : Value) (k : Text) :
    get? (insert entries key value) k = if k == key then some value else get? entries k := by
  induction entries with
  | nil => simp [insert, get?, List.lookup_cons]; split <;> simp_all
  | cons e rest ih =>
    obtain ⟨k', v'⟩ := e
    simp only [get?] at ih
    simp only [insert, get?]
    by_cases h : key = k'
    · subst h
      by_cases hk : k = key
      · simp [hk]
      · have hk' : (k == key) = false := by simpa using hk
        simp [List.lookup_cons, hk']
    · by_cases hk : k = k'
      · subst hk
        have : ¬ k = key := fun e => h e.symm
        simp [h, this]
      · have hk' : (k == k') = false := by simpa using hk
        simp [List.lookup_cons, h, hk', ih]

theorem insertAll_append (entries : Object) (a b : List (Text × Value)) :
    insertAll entries (a ++ b) = insertAll (insertAll entries a) b := by
  simp [insertAll]

end Object

end Localization.Json
