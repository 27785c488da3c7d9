import Localization.Marker.Family
import Localization.Script.Name

/-! Local names of markers.

A marker goes by another name where an import renames it, `$translate as t`, and the
function of the hook family has only the name that the hook's result is given,
`const t = useTranslate$()`. Both are found in the text itself, from left to right and
without overlap.

A marker is any text, so what it begins or ends with may also be read as part of the
blanks around it. The readings of a stretch of blanks are therefore listed, the longest
first, and the first that leads to a whole match counts. -/
namespace Localization.Marker

open Script (isNameStart)

/-- What follows `t` if it starts with `word`. -/
def after? (word t : Text) : Option Text :=
  if word.isPrefixOf t then some (t.drop word.length) else none

/-- What follows at least one blank. -/
def afterBlanks? : Text → Option Text
  | [] => none
  | c :: rest => if Text.isBlank c then some (rest.dropWhile Text.isBlank) else none

/-- The name at the head of a text and what follows it. It goes on with word characters
and `$`. -/
def namePrefix? : Text → Option (Text × Text)
  | [] => none
  | c :: rest =>
    let inName (c : Char) : Bool := Text.isWord c || c == '$'
    if isNameStart c then some (c :: rest.takeWhile inName, rest.dropWhile inName) else none

/-! ### Renamed imports -/

/-- At the head of a text, a rename of `marker`: the new name and the length of it all. -/
def rename? (marker : Text) : Text → Option (Text × Nat)
  | [] => none
  | c :: rest =>
    if Text.isBlank c || c == ',' || c == '{' then do
      let t ← after? marker rest
      let t ← afterBlanks? t
      let t ← after? "as" t
      let t ← afterBlanks? t
      let (name, t) ← namePrefix? t
      return (name, rest.length + 1 - t.length)
    else none

/-! ### Results of the hook -/

/-- What follows the blanks at the head of a text, if any number of them is read, from
all of them to none. -/
def blankReadings : Text → List Text
  | [] => [[]]
  | c :: rest => if Text.isBlank c then blankReadings rest ++ [c :: rest] else [c :: rest]

/-- What follows `await` and at least one blank at the head of a text, from all its blanks
to one, and last the text itself. -/
def awaitReadings (t : Text) : List Text :=
  let awaited :=
    match after? "await" t with
    | some (c :: rest) => if Text.isBlank c then blankReadings rest else []
    | _ => []
  awaited ++ [t]

/-- What follows type arguments, if there are any, and a parenthesis. -/
def afterCallOpening? (t : Text) : Option Text :=
  match t.dropWhile Text.isBlank with
  | '(' :: rest => some rest
  | '<' :: rest =>
    match (rest.dropWhile (· != '>')).drop 1 |>.dropWhile Text.isBlank with
    | '(' :: rest => some rest
    | _ => none
  | _ => none

/-- At the head of a text, a declaration that is given the result of `marker`: its name and
the length of it all. -/
def declaration? (marker t : Text) : Option (Text × Nat) := do
  let rest ← (after? "const" t).or ((after? "let" t).or (after? "var" t))
  let rest ← afterBlanks? rest
  let (name, rest) ← namePrefix? rest
  let rest ← after? "=" (rest.dropWhile Text.isBlank)
  let calls := ((blankReadings rest).flatMap awaitReadings).filterMap (after? marker)
  let rest ← calls.findSome? afterCallOpening?
  return (name, t.length - rest.length)

/-! ### Names -/

/-- The names under which `marker` is called. Without a rename a marker goes by its own
name; a hook without a declaration has none. -/
def aliases (family : Family) (marker code : Text) : List Text :=
  match family with
  | .useTranslate => (Text.findAll (declaration? marker) 0 code).eraseDups
  | _ =>
    let names := (Text.findAll (rename? marker) 0 code).eraseDups
    if names.isEmpty then [marker] else names

end Localization.Marker
