import Localization.Text.Word
import Localization.Script.Region

/-! Names in script text.

Names are made of ASCII letters, digits, `_` and `$`. A `Cursor` is a place in a text:
what stands before it, nearest first, and what follows. -/
namespace Localization.Script

def isNameStart (c : Char) : Bool := c.isAlpha || c == '_' || c == '$'

def isNameChar (c : Char) : Bool := c.isAlphanum || c == '_' || c == '$'

def skipBlanks (t : Text) : Text := t.dropWhile Text.isAsciiBlank

/-- A place in a text. -/
structure Cursor where
  /-- The characters before the place, from the nearest to the farthest. -/
  before : Text
  after : Text
  deriving DecidableEq, Repr

namespace Cursor

/-- The start of a text. -/
def start (t : Text) : Cursor := ⟨[], t⟩

/-- Characters before the place. -/
def position (c : Cursor) : Nat := c.before.length

end Cursor

/-- Whether what ends here, blanks aside, is `word` and not the tail of a longer name. At
least one blank must separate it from here. -/
def precededBy (word before : Text) : Bool :=
  match before with
  | [] => false
  | c :: _ =>
    let trimmed := skipBlanks before
    Text.isAsciiBlank c && word.reverse.isPrefixOf trimmed &&
      match trimmed.drop word.length with
      | [] => true
      | d :: _ => !isNameChar d

/-- Whether a name here can be called: it is not a member of what stands before it, unless
that is the `...` of a spread, and not the name of a function declaration. -/
def callableAfter (before : Text) : Bool :=
  (before.head? != some '.' || ['.', '.', '.'].isPrefixOf before) &&
    !precededBy "function" before

/-- Keywords that a string may follow without a blank. -/
def keywordsBeforeString : List String := [
  "await", "case", "default", "delete", "do", "else", "export", "from", "import",
  "in", "instanceof", "new", "of", "return", "throw", "typeof", "void", "yield"]

/-- A quote glued to the end of a word is an apostrophe, unless the word is a keyword. -/
def opensString (before : Text) : Bool :=
  let word := (before.takeWhile isNameChar).reverse
  word.isEmpty || keywordsBeforeString.any fun k => word == k.toList

/-! ### Paths of member names -/

/-- What was read last of a path such as `a`, `a.b` or `a?.b . c`. -/
inductive PathState where
  /-- Nothing: a name must start. -/
  | start
  | inName
  /-- Blanks behind a name. -/
  | gap
  /-- A `?`, which a point must follow. -/
  | question
  /-- A point and perhaps blanks: a name must start. -/
  | point
  deriving DecidableEq, Repr

/-- Whether a text completes a path. Names go on with any word character here. -/
def PathState.accepts : PathState → Text → Bool
  | .inName, [] => true
  | _, [] => false
  | .start, c :: rest => isNameStart c && PathState.inName.accepts rest
  | .inName, c :: rest =>
    if Text.isWord c || c == '$' then PathState.inName.accepts rest
    else if Text.isBlank c then PathState.gap.accepts rest
    else if c == '?' then PathState.question.accepts rest
    else c == '.' && PathState.point.accepts rest
  | .gap, c :: rest =>
    if Text.isBlank c then PathState.gap.accepts rest
    else if c == '?' then PathState.question.accepts rest
    else c == '.' && PathState.point.accepts rest
  | .question, c :: rest => c == '.' && PathState.point.accepts rest
  | .point, c :: rest =>
    if Text.isBlank c then PathState.point.accepts rest
    else isNameStart c && PathState.inName.accepts rest

/-- Whether the text is a name or a path of member names. -/
def isPath (t : Text) : Bool := PathState.start.accepts t

/-- The rest of a path of ASCII names up to the end of its last name, and what follows it;
`behind` was read since the last name and belongs to the path only if a name follows. None
where a point is not followed by a name. -/
def pathFrom (s : PathState) (behind : Text) : Text → Option (Text × Text)
  | [] =>
    match s with
    | .inName | .gap => some ([], behind)
    | _ => none
  | c :: rest =>
    let go (next : PathState) : Option (Text × Text) := pathFrom next (behind ++ [c]) rest
    let name (_ : Unit) : Option (Text × Text) :=
      (pathFrom .inName [] rest).map fun (path, after) => (behind ++ c :: path, after)
    match s with
    | .start => if isNameStart c then name () else none
    | .inName =>
      if isNameChar c then name ()
      else if Text.isAsciiBlank c then go .gap
      else if c == '.' then go .point
      else if c == '?' && rest.head? == some '.' then go .question
      else some ([], c :: rest)
    | .gap =>
      if Text.isAsciiBlank c then go .gap
      else if c == '.' then go .point
      else if c == '?' && rest.head? == some '.' then go .question
      else some ([], behind ++ c :: rest)
    | .question => if c == '.' then go .point else none
    | .point =>
      if Text.isAsciiBlank c then go .point
      else if isNameStart c then name ()
      else none

/-- The path of ASCII names at the head of a text, and what follows it. -/
def pathPrefix? (t : Text) : Option (Text × Text) := pathFrom .start [] t

theorem pathFrom_append {s : PathState} {behind t path after : Text}
    (h : pathFrom s behind t = some (path, after)) (hs : s = .inName → behind = []) :
    behind ++ t = path ++ after := by
  induction t generalizing s behind path with
  | nil => cases s <;> simp_all [pathFrom]
  | cons c rest ih =>
    have name {p : Text} (hn : ((pathFrom .inName [] rest).map fun (path, after) =>
        (behind ++ c :: path, after)) = some (p, after)) : behind ++ c :: rest = p ++ after := by
      obtain ⟨⟨q, a⟩, hq, he⟩ := Option.map_eq_some_iff.mp hn
      cases he
      have := ih hq (fun _ => rfl)
      simp_all
    have go {n : PathState} (hne : n ≠ .inName)
        (hn : pathFrom n (behind ++ [c]) rest = some (path, after)) :
        behind ++ c :: rest = path ++ after := by
      have := ih hn (fun e => absurd e hne)
      simp_all
    cases s <;> simp only [pathFrom] at h <;> (repeat' split at h) <;>
      first
      | exact name h
      | exact go (by decide) h
      | cases h; simp_all
      | cases h

end Localization.Script
