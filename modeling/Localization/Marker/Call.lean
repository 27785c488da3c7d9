import Localization.Argument.Reader
import Localization.Marker.Alias
import Localization.Script.Code

/-! Marker calls.

`scan` finds the calls of a family in a text: the places in code where one of its names
stands and is followed by a balanced list of arguments. A call that does not balance is
absent. -/
namespace Localization.Marker

open Script

/-- A marker call. -/
structure Call where
  family : Family
  /-- Characters before the call. -/
  start : Nat
  /-- The call from its name to its closing parenthesis. -/
  raw : Text
  arguments : List Argument
  deriving Repr

namespace Call

/-- Characters up to the end of the call. -/
def stop (call : Call) : Nat := call.start + call.raw.length

def argument? (call : Call) (index : Nat) : Option Argument := call.arguments[index]?

def key? (call : Call) : Option Argument := call.argument? call.family.keyPosition

def params? (call : Call) : Option Argument := call.argument? call.family.paramsPosition

def options? (call : Call) : Option Argument :=
  call.family.optionsPosition?.bind call.argument?

def lang? (call : Call) : Option Argument := call.argument? call.family.langPosition

/-- The call with every run of blanks made one space. -/
def display (call : Call) : Text := Text.join " " (Text.words call.raw)

/-- The bytes before the call and up to its end. -/
def byteSpan (code : Text) (call : Call) : Nat × Nat :=
  let start := Text.size (code.take call.start)
  (start, start + Text.size call.raw)

end Call

/-- What stands between a name and its argument list: type arguments that touch both, or
blanks. -/
def afterCallee? (t : Text) : Option Text :=
  if t.head? == some '<' then (typeArguments? t).map (·.2) else some (skipBlanks t)

/-- The call of `name` at a place: its text and its arguments. -/
def callAt? (name : Text) (place : Cursor) : Option (Text × List Argument) := do
  let opening ← afterCallee? (place.after.drop name.length)
  if opening.head? == some '(' then
    let (group, rest) ← groupPrefix? opening
    let arguments ← readArguments (group.drop 1).dropLast
    return (place.after.take (place.after.length - rest.length), arguments)
  else none

/-- The calls of one name. -/
def scanName (family : Family) (name code : Text) : List Call :=
  (occurrences name code).filterMap fun place =>
    (callAt? name place).map fun (raw, arguments) => ⟨family, place.position, raw, arguments⟩

/-- Calls in the order of their starts; those that start together keep their order. -/
def inOrder (calls : List Call) : List Call := calls.mergeSort fun a b => a.start ≤ b.start

/-- The calls of a family whose marker goes by its aliases. A text without the marker has
none. -/
def scan (family : Family) (marker code : Text) : List Call :=
  if Text.occursIn marker code then
    inOrder ((aliases family marker code).flatMap fun name => scanName family name code)
  else []

end Localization.Marker
