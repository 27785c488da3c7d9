import Localization.Json.Writer
import Localization.Script.Literal
import Localization.Script.Name

/-! Arguments of calls.

Only literals, arrays, objects, paths of names and calls are told apart; every other
expression is kept as its text. `toScript` writes an argument back as script text,
strings always as template literals. -/
namespace Localization

/-- An argument of a call. -/
inductive Argument where
  | string (value : Text)
  | number (value : Binary64)
  /-- A name or a path of member names. -/
  | name (path : Text)
  | array (elements : List Argument)
  | object (properties : List (Text × Argument))
  | call (callee : Text) (arguments : List Argument) (raw : Text)
  /-- Any other expression. -/
  | other (raw : Text)
  deriving Repr

/-- The properties of an object literal in source order. -/
abbrev Properties := List (Text × Argument)

namespace Argument

/-- The text of a string literal. -/
def string? : Argument → Option Text
  | string value => some value
  | _ => none

/-- The properties of an object literal. -/
def properties? : Argument → Option Properties
  | object properties => some properties
  | _ => none

/-- Whether the value is only known when the script runs. The placeholders `undefined`
and `null` are known. -/
def isDynamic : Argument → Bool
  | name _ => true
  | call _ _ _ => true
  | other raw => !(raw == "undefined" || raw == "null")
  | _ => false

/-- Whether the text of a string literal holds a substitution. -/
def hasSubstitution : Argument → Bool
  | string value => Script.hasSubstitution value
  | _ => false

end Argument

/-! ### Writing -/

/-- A property key as script text: itself if it is a name, else a string literal. -/
def keyScript (key : Text) : Text :=
  match key with
  | c :: rest =>
    if Script.isNameStart c && rest.all Script.isNameChar then key else Json.quote key
  | [] => Json.quote []

mutual

/-- The argument as script text. -/
def Argument.toScript : Argument → Text
  | .string value => '`' :: Script.encode value ++ ['`']
  | .number value => Decimal.plain value
  | .name path => path
  | .array elements => '[' :: Text.join ", " (elementScripts elements) ++ [']']
  | .object properties => '{' :: Text.join ", " (propertyScripts properties) ++ ['}']
  | .call _ _ raw => raw
  | .other raw => raw

def elementScripts : List Argument → List Text
  | [] => []
  | a :: rest => a.toScript :: elementScripts rest

def propertyScripts : Properties → List Text
  | [] => []
  | (key, a) :: rest => (keyScript key ++ ':' :: ' ' :: a.toScript) :: propertyScripts rest

end

/-- Properties as the body of an object literal. -/
def Properties.toScript (properties : Properties) : Text :=
  Text.join ", " (propertyScripts properties)

end Localization
