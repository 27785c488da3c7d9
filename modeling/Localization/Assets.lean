import Localization.Error
import Localization.Json.Reader
import Localization.Json.Writer
import Localization.Tree

/-! Asset files.

The tree of a language is kept in files. A file is a JSON object; the files of a
language make one tree together, a later file winning where two have the same key.
Going the other way, `split` gives every key with an object a file of its own name and
puts all other keys in the default file. -/
namespace Localization.Assets

open Json (Value)

/-- The tree in the text of a file. -/
def parse (path : Text) (text : Text) : Except Error Tree :=
  match Value.ofText? text with
  | some (.object entries) => .ok entries
  | some _ => .error (.notAnObject path)
  | none => .error (.malformedJson path)

/-- The text of a file. -/
def render (tree : Tree) : Text := (Value.object tree).pretty ++ ['\n']

/-- One tree out of those of several files, in order. -/
def combine (trees : List Tree) : Tree := trees.foldl Json.Object.insertAll []

/-- Whether an entry belongs in the default file. -/
def isFlat (filename : Text) (entry : Text × Value) : Bool :=
  entry.1 == filename || Tree.leafDepth entry.2 == 0

/-- The files of a tree by name: the default file, unless it is empty, and then one for
each other key. -/
def split (filename : Text) (tree : Tree) : List (Text × Tree) :=
  let flat := tree.filter (isFlat filename)
  let own := tree.filter fun e => !isFlat filename e
  (if flat.isEmpty then [] else [(filename, flat)]) ++ own.map fun e => (e.1, [e])

end Localization.Assets
