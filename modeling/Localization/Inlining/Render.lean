import Localization.Argument.Basic
import Localization.Json.Writer

/-! Values as script text.

A string becomes a template literal, a number itself, and an object or array its JSON
text. A parameter token of a string is replaced by the parameter of its name: the text
of a literal, and a substitution for any other expression. -/
namespace Localization.Inlining

open Json (Value)

/-- The literal in place of a missing value. -/
def absentText : Text := ['`', '`']

/-- Whether a character may stand in the name of a parameter token. -/
def isTokenChar (c : Char) : Bool := c != '{' && c != '}' && !Text.isBlank c

/-- Drops one blank. -/
def dropBlank : Text → Text
  | [] => []
  | c :: rest => if Text.isBlank c then rest else c :: rest

/-- At the head of a text, a parameter token: its name and the length of it all. A blank
may stand on either side of the name. -/
def token? : Text → Option (Text × Nat)
  | '{' :: '{' :: t =>
    let inner := dropBlank t
    let name := inner.takeWhile isTokenChar
    match dropBlank (inner.drop name.length) with
    | '}' :: '}' :: rest => some (name, t.length + 2 - rest.length)
    | _ => none
  | _ => none

/-- A parameter inside a template literal. A literal that is a template with substitutions
goes in as it is. -/
def insertion (a : Argument) : Text :=
  match a with
  | .string t => if a.hasSubstitution then t else Script.encode t
  | .number x => Decimal.plain x
  | a => '$' :: '{' :: a.toScript ++ ['}']

/-- What stands for the parameter token at the head of a text: the parameter of its name, or
the token itself if there is none. -/
def parameter? (params : Properties) (t : Text) : Option (Text × Nat) :=
  (token? t).map fun (name, length) =>
    (((params.lookup name).map insertion).getD (t.take length), length)

/-- The body of the template literal of a text. -/
def templateBody (params : Properties) (t : Text) : Text :=
  Text.replaceAll (parameter? params) 0 (Script.encode t)

/-- The script text of a value, none if it counts as missing: an empty string, null, a truth
value, or nothing at all. -/
def valueText? (params : Properties) : Option Value → Option Text
  | some (.string (c :: rest)) => some ('`' :: templateBody params (c :: rest) ++ ['`'])
  | some (.number n) => some n.toText
  | some (.object entries) => some (Value.object entries).compact
  | some (.array items) => some (Value.array items).compact
  | _ => none

/-- An array literal. -/
def arrayText (elements : List Text) : Text := '[' :: Text.join "," elements ++ [']']

end Localization.Inlining
