import Localization.Json.Value
import Localization.Number.Decimal

/-! Writing JSON.

`compact` writes a value without blanks; `pretty` puts every item on a line of its own,
two spaces deeper than its container, and leaves empty containers closed up. Strings
escape the quote, the backslash and the control characters, and nothing else. -/
namespace Localization.Json

def Number.toText : Number → Text
  | .integer i => Decimal.sign (i < 0) ++ Text.ofNat i.natAbs
  | .double x => Decimal.scientific x

/-- The lower-case hexadecimal digits of a byte. -/
def hexByte (n : Nat) : Text := [Nat.digitChar (n / 16), Nat.digitChar (n % 16)]

/-- One character inside a string literal. -/
def escapeChar (c : Char) : Text :=
  if c == '"' then ['\\', '"']
  else if c == '\\' then ['\\', '\\']
  else if c == '\x08' then ['\\', 'b']
  else if c == '\x0c' then ['\\', 'f']
  else if c == '\n' then ['\\', 'n']
  else if c == '\r' then ['\\', 'r']
  else if c == '\t' then ['\\', 't']
  else if c.toNat < 0x20 then "\\u00" ++ hexByte c.toNat
  else [c]

/-- A string literal. -/
def quote (t : Text) : Text := '"' :: t.flatMap escapeChar ++ ['"']

def Value.scalar : Value → Text
  | .null => "null"
  | .bool b => if b then "true" else "false"
  | .number n => n.toText
  | .string s => quote s
  | .array _ => "[]"
  | .object _ => "\x7b\x7d"

/-! ### Without blanks -/

mutual

def Value.compact : Value → Text
  | .array items => '[' :: Text.join "," (compactItems items) ++ [']']
  | .object entries => '{' :: Text.join "," (compactEntries entries) ++ ['}']
  | v => v.scalar

def compactItems : List Value → List Text
  | [] => []
  | v :: rest => v.compact :: compactItems rest

def compactEntries : List (Text × Value) → List Text
  | [] => []
  | (key, v) :: rest => (quote key ++ ':' :: v.compact) :: compactEntries rest

end

/-! ### On lines -/

/-- A line end and the blanks that a line at some depth starts with, in front of `rest`. -/
def newLine (depth : Nat) (rest : Text) : Text :=
  '\n' :: (List.replicate (2 * depth) ' ' ++ rest)

mutual

/-- A value at some depth, in front of `rest`. -/
def Value.prettyBefore (depth : Nat) (rest : Text) : Value → Text
  | .array [] => '[' :: ']' :: rest
  | .array (v :: items) =>
    '[' :: newLine (depth + 1)
      (v.prettyBefore (depth + 1) (itemsBefore (depth + 1) (newLine depth (']' :: rest)) items))
  | .object [] => '{' :: '}' :: rest
  | .object ((key, v) :: entries) =>
    let more := entriesBefore (depth + 1) (newLine depth ('}' :: rest)) entries
    '{' :: newLine (depth + 1) (quote key ++ ':' :: ' ' :: v.prettyBefore (depth + 1) more)
  | v => v.scalar ++ rest

/-- The items behind the first one, in front of `rest`. -/
def itemsBefore (depth : Nat) (rest : Text) : List Value → Text
  | [] => rest
  | v :: items => ',' :: newLine depth (v.prettyBefore depth (itemsBefore depth rest items))

/-- The entries behind the first one, in front of `rest`. -/
def entriesBefore (depth : Nat) (rest : Text) : List (Text × Value) → Text
  | [] => rest
  | (key, v) :: entries =>
    ',' :: newLine depth
      (quote key ++ ':' :: ' ' :: v.prettyBefore depth (entriesBefore depth rest entries))

end

/-- The value on lines of its own. -/
def Value.pretty (v : Value) : Text := v.prettyBefore 0 []

theorem newLine_append (depth : Nat) (a b : Text) :
    newLine depth (a ++ b) = newLine depth a ++ b := by simp [newLine]

mutual

/-- What stands behind a value has no part in how it is written. -/
theorem Value.prettyBefore_append (depth : Nat) (a b : Text) :
    (v : Value) → v.prettyBefore depth (a ++ b) = v.prettyBefore depth a ++ b
  | .array [] | .object [] => by simp [Value.prettyBefore]
  | .array (v :: items) => by
    simp only [Value.prettyBefore, ← List.cons_append, newLine_append, itemsBefore_append,
      Value.prettyBefore_append]
  | .object ((key, v) :: entries) => by
    simp only [Value.prettyBefore, ← List.cons_append, newLine_append, entriesBefore_append,
      Value.prettyBefore_append, ← List.append_assoc]
  | .null | .bool _ | .number _ | .string _ => by simp [Value.prettyBefore]

theorem itemsBefore_append (depth : Nat) (a b : Text) :
    (items : List Value) → itemsBefore depth (a ++ b) items = itemsBefore depth a items ++ b
  | [] => rfl
  | v :: items => by
    simp only [itemsBefore, itemsBefore_append depth a b items, Value.prettyBefore_append,
      newLine_append, ← List.cons_append]

theorem entriesBefore_append (depth : Nat) (a b : Text) :
    (entries : List (Text × Value)) →
      entriesBefore depth (a ++ b) entries = entriesBefore depth a entries ++ b
  | [] => rfl
  | (key, v) :: entries => by
    simp only [entriesBefore, entriesBefore_append depth a b entries, Value.prettyBefore_append,
      newLine_append, ← List.cons_append, ← List.append_assoc]

end

end Localization.Json
