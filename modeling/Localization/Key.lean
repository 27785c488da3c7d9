import Localization.Error
import Localization.Json.Reader
import Localization.Plural.Category
import Localization.Tree

/-! Keys of texts.

A raw key, as a script gives it, is a key and perhaps its default value behind a
separator. A key is split at another separator into the path of its value in the
tree. -/
namespace Localization.Key

open Json (Value)

/-- The key and its default value. What follows a second separator is dropped. -/
def cut (separator raw : Text) : Text × Option Text :=
  match Text.splitOn separator raw with
  | [] => ([], none)
  | key :: rest => (key, rest.head?)

/-- The segments of a key. -/
def path (separator key : Text) : List Text := Text.splitOn separator key

/-- The key of a plural category under a base key, the name of the category without
one. -/
def ofCategory (base : Option Text) (category : Plural.Category) (separator : Text) : Text :=
  match base with
  | some (c :: rest) => c :: rest ++ separator ++ category.name
  | _ => category.name

/-- Whether a text starts and ends like a JSON array or object on one line. -/
def looksStructured (raw : Text) : Bool :=
  let opens := raw.head? == some '[' || raw.head? == some '{'
  let closes := raw.getLast? == some ']' || raw.getLast? == some '}'
  opens && closes && 2 ≤ raw.length && !raw.contains '\n'

/-- The default value of a key. A text that looks like a JSON array or object must be one,
unless it starts like a parameter; any other text is the value itself. -/
def initialValue (key : Text) (raw : Option Text) : Except Error Value :=
  match raw with
  | none => .ok (.string [])
  | some raw =>
    if looksStructured raw && !(['{', '{'].isPrefixOf raw) then
      match Value.ofText? raw with
      | some v => .ok v
      | none => .error (.invalidDefault key raw)
    else .ok (.string raw)

end Localization.Key
