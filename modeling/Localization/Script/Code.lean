import Localization.Script.Comment
import Localization.Script.Name

/-! Names in code position.

`occurrences` walks a text and finds the places where a name stands as code: not in a
string, the text of a template, a comment, the text of a JSX element or one of its
tags. Code starts again inside `${` of a template and inside `{` of an element. The
walk reads one lexical piece at a time and keeps the stack of what it is inside of. -/
namespace Localization.Script

/-- What the walk is inside of. -/
inductive Frame where
  /-- A `{` in code. -/
  | block
  /-- A `${` in a template; the text of the template goes on behind its `}`. -/
  | substitution
  /-- A `{` in an element. -/
  | elementCode
  /-- The attributes of a tag, up to `>` or `/>`. -/
  | tag
  /-- The children of an element. -/
  | children
  deriving DecidableEq, Repr

/-- One lexical piece: its length, at least one, and the frames behind it. -/
structure Piece where
  length : Nat
  frames : List Frame
  deriving DecidableEq, Repr

/-- The length of the text of a template up to and with its backtick or the `${` of its
next substitution, and whether it is a substitution. -/
def templateText : Text → Nat × Bool
  | [] => (0, false)
  | ['\\'] => (1, false)
  | '\\' :: _ :: rest => let (n, more) := templateText rest; (n + 2, more)
  | '`' :: _ => (1, false)
  | '$' :: '{' :: _ => (2, true)
  | _ :: rest => let (n, more) := templateText rest; (n + 1, more)

/-- A piece that ends with the text of a template, which starts behind its first
character. -/
def templatePiece (frames : List Frame) (rest : Text) : Piece :=
  let (n, more) := templateText rest
  ⟨1 + n, if more then .substitution :: frames else frames⟩

/-- The length of the string that `quote` opens in front of `rest`; one for a quote that
opens no string. -/
def stringLength (quote : Char) (rest : Text) : Nat :=
  match closing (.inside (.quoted quote)) rest with
  | some (read, _) => 1 + read.length
  | none => 1

/-! ### Elements -/

/-- The characters behind which an element may start. -/
def startsOperand (c : Char) : Bool :=
  ['(', ',', '=', ':', '?', '{', '[', ';', '!', '&', '|', '>'].contains c

/-- Whether what follows a `<` may be an element: its name is not the name of a type
parameter of a generic function. -/
def looksLikeTag : Text → Bool
  | [] => false
  | '>' :: _ => true
  | c :: rest =>
    isNameStart c &&
      let after := skipBlanks ((c :: rest).dropWhile isNameChar)
      !(after.head? == some ',' || "extends ".toList.isPrefixOf after) &&
        match after with
        | '>' :: more =>
          match more with
          | '(' :: _ =>
            match groupPrefix? more with
            | some (_, behind) =>
              let next := skipBlanks behind
              !(['=', '>'].isPrefixOf next || next.head? == some ':')
            | none => true
          | _ => true
        | _ => true

/-- Whether a `<` between `before` and `rest` opens an element, and not a comparison or a
list of type arguments. -/
def opensElement (before rest : Text) : Bool :=
  looksLikeTag rest &&
    ((match skipBlanks before with
      | [] => true
      | c :: _ => startsOperand c) || precededBy "return" before)

/-- The tag whose `<` stands in front of `rest`. -/
def tagPiece (frames : List Frame) (rest : Text) : Piece :=
  match rest with
  | '/' :: _ =>
    let outer :=
      match frames with
      | .children :: outer => outer
      | frames => frames
    ⟨1 + min rest.length ((rest.takeWhile (· != '>')).length + 1), outer⟩
  | '>' :: _ => ⟨2, .children :: frames⟩
  | _ => ⟨1, .tag :: frames⟩

/-! ### The walk -/

/-- The piece of code that starts with `c`. -/
def codePiece (frames : List Frame) (before : Text) (c : Char) (rest : Text) : Piece :=
  if c == '\'' || c == '"' then
    ⟨if opensString before then stringLength c rest else 1, frames⟩
  else if c == '`' then templatePiece frames rest
  else if c == '/' then
    match commentPrefix? (c :: rest) with
    | some after => ⟨1 + rest.length - after.length, frames⟩
    | none => ⟨1, frames⟩
  else if c == '<' && opensElement before rest then tagPiece frames rest
  else if c == '{' then ⟨1, .block :: frames⟩
  else if c == '}' then
    match frames with
    | .substitution :: outer => templatePiece outer rest
    | _ :: outer => ⟨1, outer⟩
    | [] => ⟨1, []⟩
  else if isNameChar c then ⟨((c :: rest).takeWhile isNameChar).length, frames⟩
  else ⟨1, frames⟩

/-- The piece that starts with `c`. -/
def piece (frames : List Frame) (before : Text) (c : Char) (rest : Text) : Piece :=
  match frames with
  | .children :: _ =>
    if c == '{' then ⟨1, .elementCode :: frames⟩
    else if c == '<' then tagPiece frames rest
    else ⟨1, frames⟩
  | .tag :: outer =>
    if c == '\'' || c == '"' then ⟨stringLength c rest, frames⟩
    else if c == '{' then ⟨1, .elementCode :: frames⟩
    else if c == '/' && rest.head? == some '>' then ⟨2, outer⟩
    else if c == '>' then ⟨1, .children :: outer⟩
    else ⟨1, frames⟩
  | _ => codePiece frames before c rest

/-- Whether the walk is in code. -/
def inCode : List Frame → Bool
  | .children :: _ => false
  | .tag :: _ => false
  | _ => true

/-- Whether the piece at a place in code is `name` where it may be called. -/
def isOccurrence (name : Text) (frames : List Frame) (place : Cursor) : Bool :=
  inCode frames &&
    (match place.after with
      | [] => false
      | c :: _ => isNameStart c) &&
    place.after.takeWhile isNameChar == name && callableAfter place.before

/-- The occurrences of `name` from here on; `skip` characters belong to a piece already
read. -/
def occurrencesFrom (name : Text) : (skip : Nat) → List Frame → (before : Text) → Text → List Cursor
  | _, _, _, [] => []
  | skip + 1, frames, before, c :: rest => occurrencesFrom name skip frames (c :: before) rest
  | 0, frames, before, c :: rest =>
    let p := piece frames before c rest
    let later := occurrencesFrom name (p.length - 1) p.frames (c :: before) rest
    if isOccurrence name frames ⟨before, c :: rest⟩ then ⟨before, c :: rest⟩ :: later else later

/-- The places where `name` stands as code, from left to right. -/
def occurrences (name t : Text) : List Cursor := occurrencesFrom name 0 [] [] t

theorem occurrencesFrom_append (name a b : Text) (n : Nat) (h : a.length = n)
    (frames : List Frame) (before : Text) :
    occurrencesFrom name n frames before (a ++ b) =
      occurrencesFrom name 0 frames (a.reverse ++ before) b := by
  induction a generalizing n before with
  | nil => subst h; rfl
  | cons c rest ih =>
    subst h
    simp only [List.cons_append, List.length_cons, occurrencesFrom]
    rw [ih rest.length rfl]
    simp

end Localization.Script
