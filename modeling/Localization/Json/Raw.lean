import Localization.Number.Decimal

/-! JSON text as written.

`Raw.ofText?` accepts exactly the texts of the JSON grammar and keeps what a value
would lose: repeated keys, the spelling of numerals, and escaped code units that do
not form a character. A text is first cut into tokens; the tokens then drive a stack of
open containers. Both are one pass over their input. -/
namespace Localization.Json

/-- A piece of a string literal: a character, or a code unit written `\uXXXX`. -/
inductive Glyph where
  | char (c : Char)
  | unit (code : Nat)
  deriving DecidableEq, Repr

inductive Token where
  | openBrace
  | closeBrace
  | openBracket
  | closeBracket
  | comma
  | colon
  | null
  | bool (value : Bool)
  | numeral (value : Decimal.Numeral)
  | string (value : List Glyph)
  deriving DecidableEq, Repr

/-! ### Tokens -/

/-- What the text read so far leaves unfinished; what was read of a word or a string
is kept in reverse. -/
inductive Lexing where
  | between
  | word (read : Text)
  | string (read : List Glyph)
  | escape (read : List Glyph)
  | unit (read : List Glyph) (left : Nat) (code : Nat)

/-- The blanks of JSON. -/
def isSpace (c : Char) : Bool := c == ' ' || c == '\t' || c == '\n' || c == '\r'

/-- The characters of numerals and of the names `null`, `true` and `false`. -/
def isBare (c : Char) : Bool := c.isAlphanum || c == '-' || c == '+' || c == '.'

/-- A numeral of the JSON grammar: digits on both sides of a point, and no zero in
front of other digits. -/
def isJsonNumeral (n : Decimal.Numeral) : Bool :=
  !n.whole.isEmpty && (n.whole == ['0'] || n.whole.head? != some '0') &&
    n.fraction != some []

/-- The token of a bare word. -/
def bare? (w : Text) : Option Token :=
  if w == "null" then some .null
  else if w == "true" then some (.bool true)
  else if w == "false" then some (.bool false)
  else (Decimal.Numeral.ofText? w).bind fun n => if isJsonNumeral n then some (.numeral n) else none

/-- What a character outside of words and strings begins. -/
def enter (c : Char) : Option (List Token × Lexing) :=
  if isSpace c then some ([], .between)
  else if c == '"' then some ([], .string [])
  else if c == '{' then some ([.openBrace], .between)
  else if c == '}' then some ([.closeBrace], .between)
  else if c == '[' then some ([.openBracket], .between)
  else if c == ']' then some ([.closeBracket], .between)
  else if c == ',' then some ([.comma], .between)
  else if c == ':' then some ([.colon], .between)
  else if isBare c then some ([], .word [c])
  else none

/-- The character of a one-letter escape. -/
def escaped? (c : Char) : Option Char :=
  if c == '"' || c == '\\' || c == '/' then some c
  else if c == 'b' then some '\x08'
  else if c == 'f' then some '\x0c'
  else if c == 'n' then some '\n'
  else if c == 'r' then some '\r'
  else if c == 't' then some '\t'
  else none

/-- The tokens of a text. -/
def lex : Lexing → Text → Option (List Token)
  | .between, [] => some []
  | .between, c :: rest =>
    match enter c with
    | some (tokens, next) => (lex next rest).map (tokens ++ ·)
    | none => none
  | .word read, [] => (bare? read.reverse).map ([·])
  | .word read, c :: rest =>
    if isBare c then lex (.word (c :: read)) rest
    else match bare? read.reverse, enter c with
      | some token, some (tokens, next) => (lex next rest).map (token :: tokens ++ ·)
      | _, _ => none
  | .string read, c :: rest =>
    if c == '"' then (lex .between rest).map (.string read.reverse :: ·)
    else if c == '\\' then lex (.escape read) rest
    else if c.toNat < 0x20 then none
    else lex (.string (.char c :: read)) rest
  | .escape read, c :: rest =>
    if c == 'u' then lex (.unit read 3 0) rest
    else match escaped? c with
      | some e => lex (.string (.char e :: read)) rest
      | none => none
  | .unit read left code, c :: rest =>
    match Text.hexDigit? c, left with
    | some d, left + 1 => lex (.unit read left (16 * code + d)) rest
    | some d, 0 => lex (.string (.unit (16 * code + d) :: read)) rest
    | none, _ => none
  | .string _, [] => none
  | .escape _, [] => none
  | .unit _ _ _, [] => none

/-- Blanks between tokens are passed over. -/
theorem lex_space {c : Char} (hc : isSpace c = true) (rest : Text) :
    lex .between (c :: rest) = lex .between rest := by
  rw [lex, enter, if_pos hc]
  simp

/-! ### Nesting -/

/-- JSON text as written. -/
inductive Raw where
  | null
  | bool (value : Bool)
  | numeral (value : Decimal.Numeral)
  | string (value : List Glyph)
  | array (items : List Raw)
  | object (entries : List (List Glyph × Raw))
  deriving Repr

/-- A container that is still open, with what it holds so far in reverse. A `member` is
an object whose next value belongs to `key`. -/
inductive Open where
  | array (items : List Raw)
  | object (entries : List (List Glyph × Raw))
  | member (entries : List (List Glyph × Raw)) (key : List Glyph)

/-- What may come next: a value, a value or the end of the array just opened, a key, a
key or the end of the object just opened, a colon, or a comma or the end of the
innermost container. -/
inductive Expected where
  | value
  | firstItem
  | key
  | firstKey
  | colon
  | next

inductive Reading where
  | inside (expected : Expected) (containers : List Open)
  | finished (value : Raw)

/-- A value is complete: it is an item or a member of the innermost container. -/
def complete (v : Raw) : List Open → Option Reading
  | [] => some (.finished v)
  | .array items :: outer => some (.inside .next (.array (v :: items) :: outer))
  | .member entries key :: outer => some (.inside .next (.object ((key, v) :: entries) :: outer))
  | .object _ :: _ => none

/-- The value or the container that a token begins. -/
def begin? (t : Token) (outer : List Open) : Option Reading :=
  match t with
  | .null => complete .null outer
  | .bool b => complete (.bool b) outer
  | .numeral n => complete (.numeral n) outer
  | .string s => complete (.string s) outer
  | .openBracket => some (.inside .firstItem (.array [] :: outer))
  | .openBrace => some (.inside .firstKey (.object [] :: outer))
  | _ => none

/-- One token. -/
def advance (t : Token) : Reading → Option Reading
  | .finished _ => none
  | .inside .value outer => begin? t outer
  | .inside .firstItem outer =>
    match t, outer with
    | .closeBracket, .array items :: outer => complete (.array items.reverse) outer
    | t, outer => begin? t outer
  | .inside .firstKey outer =>
    match t, outer with
    | .string key, .object entries :: outer => some (.inside .colon (.member entries key :: outer))
    | .closeBrace, .object entries :: outer => complete (.object entries.reverse) outer
    | _, _ => none
  | .inside .key outer =>
    match t, outer with
    | .string key, .object entries :: outer => some (.inside .colon (.member entries key :: outer))
    | _, _ => none
  | .inside .colon outer =>
    match t with
    | .colon => some (.inside .value outer)
    | _ => none
  | .inside .next outer =>
    match t, outer with
    | .comma, .array items :: outer => some (.inside .value (.array items :: outer))
    | .closeBracket, .array items :: outer => complete (.array items.reverse) outer
    | .comma, .object entries :: outer => some (.inside .key (.object entries :: outer))
    | .closeBrace, .object entries :: outer => complete (.object entries.reverse) outer
    | _, _ => none

/-- The tokens in order. -/
def advanceAll : Reading → List Token → Option Reading
  | r, [] => some r
  | r, t :: rest =>
    match advance t r with
    | some next => advanceAll next rest
    | none => none

theorem advanceAll_append (r : Reading) (a b : List Token) :
    advanceAll r (a ++ b) = (advanceAll r a).bind (advanceAll · b) := by
  induction a generalizing r with
  | nil => rfl
  | cons t rest ih =>
    simp only [List.cons_append, advanceAll]
    cases advance t r with
    | none => rfl
    | some next => exact ih next

/-- The one value that a text of the JSON grammar spells. -/
def Raw.ofText? (t : Text) : Option Raw :=
  match (lex .between t).bind (advanceAll (.inside .value [])) with
  | some (.finished v) => some v
  | _ => none

end Localization.Json
