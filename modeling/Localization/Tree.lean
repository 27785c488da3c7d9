import Localization.Json.Value

/-! Trees of texts.

The texts of a language are a JSON object; a path of keys leads through objects
and, by index, through arrays. `setAt` replaces whatever is in its way by objects,
`merge` lets the second tree win where the two do not both hold objects, and `sort`
puts the keys of every object in order. -/
namespace Localization

open Json (Value)

/-- The texts of one language. -/
abbrev Tree := Json.Object

/-! ### Looking up -/

/-- The index that a segment spells. A plus sign may stand before it. -/
def index? (segment : Text) : Option Nat :=
  match segment with
  | '+' :: digits => Text.decimal? digits
  | digits => Text.decimal? digits

/-- What a path leads to inside a value. -/
def valueAt? : Value → List Text → Option Value
  | v, [] => some v
  | .object entries, key :: rest => (Json.Object.get? entries key).bind (valueAt? · rest)
  | .array items, segment :: rest => ((index? segment).bind (items[·]?)).bind (valueAt? · rest)
  | _, _ :: _ => none

namespace Tree

/-- What a path leads to. The empty path leads nowhere. -/
def at? (tree : Tree) : List Text → Option Value
  | [] => none
  | key :: rest => (Json.Object.get? tree key).bind (valueAt? · rest)

/-! ### Setting -/

/-- The entries of an object, none for any other value. -/
def entriesOf : Option Value → Tree
  | some (.object entries) => entries
  | _ => []

/-- Sets the value at a path. Objects are made on the way, in place of anything else. -/
def setAt (tree : Tree) : List Text → Value → Tree
  | [], _ => tree
  | [key], value => Json.Object.insert tree key value
  | key :: next :: rest, value =>
    Json.Object.insert tree key
      (.object (setAt (entriesOf (Json.Object.get? tree key)) (next :: rest) value))

/-! ### Merging -/

mutual

/-- The value that `existing` and `incoming` make together: two objects merge, else the
incoming value stays. -/
def mergeValue (existing : Option Value) : Value → Value
  | .object incoming => match existing with
    | some (.object entries) => .object (mergeEntries entries incoming)
    | _ => .object incoming
  | incoming => incoming

/-- Merges entries into a tree, one after the other. -/
def mergeEntries (tree : Tree) : List (Text × Value) → Tree
  | [] => tree
  | (key, value) :: rest =>
    mergeEntries (Json.Object.insert tree key (mergeValue (Json.Object.get? tree key) value)) rest

end

/-- `source` merged into `target`. -/
def merge (target source : Tree) : Tree := mergeEntries target source

/-! ### Depth -/

mutual

/-- How deep objects nest at least: nothing for a value that is no object, and one more
than the shallowest entry for an object. -/
def leafDepth : Value → Nat
  | .object entries => 1 + (leafDepths entries).getD 0
  | _ => 0

def leafDepths : List (Text × Value) → Option Nat
  | [] => none
  | (_, v) :: rest =>
    match leafDepths rest with
    | some depth => some (min (leafDepth v) depth)
    | none => some (leafDepth v)

end

/-! ### Sorting -/

mutual

/-- A value with the keys of every object in it in order. -/
def ordered : Value → Value
  | .object entries => .object ((orderedEntries entries).mergeSort fun a b => Text.le a.1 b.1)
  | .array items => .array (orderedItems items)
  | v => v

def orderedEntries : List (Text × Value) → List (Text × Value)
  | [] => []
  | (key, v) :: rest => (key, ordered v) :: orderedEntries rest

def orderedItems : List Value → List Value
  | [] => []
  | v :: rest => ordered v :: orderedItems rest

end

/-- The tree with the keys of every object in it in order. -/
def sort (tree : Tree) : Tree := (orderedEntries tree).mergeSort fun a b => Text.le a.1 b.1

end Tree

end Localization
