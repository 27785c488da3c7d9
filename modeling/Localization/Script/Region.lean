import Localization.Text.Basic

/-! Regions of script text.

Script text nests bracket groups, quoted strings, template literals and comments. A
`State` is the stack of regions that are open at some point of a text, and `State.step`
reads one more character. Brackets, strings and comments count only where they are
code: inside a string or a comment nothing opens, inside a template only `${` does,
and the `}` that closes it leads back into the template.

`closing` reads from inside a region to the character that closes it. It gives
nothing where a bracket meets the wrong closer, where a string in `'` or `"` meets a
line end, and where the text ends first. `closing_append` says that what it reads and
what it leaves make up the text. -/
namespace Localization.Script

/-- A region that is open. -/
inductive Region where
  /-- A bracket group that ends with `closer`. -/
  | group (closer : Char)
  /-- A string literal between two `quote`s. -/
  | quoted (quote : Char)
  | template
  | lineComment
  | blockComment
  deriving DecidableEq, Repr

/-- The last character where the next one may complete it: `/` in code, `\` in a
literal, `$` in a template, `*` in a block comment. -/
inductive Pending where
  | none
  | slash
  | escape
  | dollar
  | star
  deriving DecidableEq, Repr

/-- What is open after some text, the innermost region first. -/
structure State where
  regions : List Region
  pending : Pending
  deriving DecidableEq, Repr

namespace State

/-- Just inside one region. -/
def inside (r : Region) : State := ⟨[r], .none⟩

/-- Outside of everything. -/
def top : State := ⟨[], .none⟩

end State

/-- The closer of an opening bracket. -/
def closer? (c : Char) : Option Char :=
  if c == '(' then some ')'
  else if c == '[' then some ']'
  else if c == '{' then some '}'
  else none

def isCloser (c : Char) : Bool := c == ')' || c == ']' || c == '}'

/-- The literal that a quote or a backtick opens. -/
def literal? (c : Char) : Option Region :=
  if c == '\'' || c == '"' then some (.quoted c)
  else if c == '`' then some .template
  else none

/-- One character of code below the regions `rs`. -/
def stepCode (rs : List Region) (pending : Pending) (c : Char) : Option State :=
  if pending == .slash && c == '/' then some ⟨.lineComment :: rs, .none⟩
  else if pending == .slash && c == '*' then some ⟨.blockComment :: rs, .none⟩
  else if let some r := literal? c then some ⟨r :: rs, .none⟩
  else if c == '/' then some ⟨rs, .slash⟩
  else if let some closer := closer? c then some ⟨.group closer :: rs, .none⟩
  else if isCloser c then
    match rs with
    | .group closer :: outer => if c == closer then some ⟨outer, .none⟩ else none
    | _ => none
  else some ⟨rs, .none⟩

/-- One character. -/
def State.step (s : State) (c : Char) : Option State :=
  match s.regions with
  | [] => stepCode [] s.pending c
  | .group closer :: outer => stepCode (.group closer :: outer) s.pending c
  | .quoted quote :: outer =>
    if s.pending == .escape then some ⟨s.regions, .none⟩
    else if c == '\\' then some ⟨s.regions, .escape⟩
    else if c == '\n' then none
    else if c == quote then some ⟨outer, .none⟩
    else some ⟨s.regions, .none⟩
  | .template :: outer =>
    if s.pending == .escape then some ⟨s.regions, .none⟩
    else if s.pending == .dollar && c == '{' then some ⟨.group '}' :: s.regions, .none⟩
    else if c == '\\' then some ⟨s.regions, .escape⟩
    else if c == '`' then some ⟨outer, .none⟩
    else if c == '$' then some ⟨s.regions, .dollar⟩
    else some ⟨s.regions, .none⟩
  | .lineComment :: outer =>
    if c == '\n' then some ⟨outer, .none⟩ else some ⟨s.regions, .none⟩
  | .blockComment :: outer =>
    if s.pending == .star && c == '/' then some ⟨outer, .none⟩
    else if c == '*' then some ⟨s.regions, .star⟩
    else some ⟨s.regions, .none⟩

/-- The characters of a text in order. -/
def State.run (s : State) : Text → Option State
  | [] => some s
  | c :: rest =>
    match s.step c with
    | some next => next.run rest
    | none => none

theorem State.run_append (s : State) (a b : Text) :
    s.run (a ++ b) = (s.run a).bind (·.run b) := by
  induction a generalizing s with
  | nil => rfl
  | cons c rest ih =>
    simp only [List.cons_append, State.run]
    cases s.step c with
    | none => rfl
    | some next => exact ih next

/-! ### The end of a region -/

/-- Reads until no region is open: the text up to and with the last closing character,
and what follows it. -/
def closing (s : State) : Text → Option (Text × Text)
  | [] => none
  | c :: rest =>
    match s.step c with
    | none => none
    | some next =>
      if next.regions.isEmpty then some ([c], rest)
      else (closing next rest).map fun (read, after) => (c :: read, after)

theorem closing_append {s : State} {t read after : Text} (h : closing s t = some (read, after)) :
    t = read ++ after := by
  induction t generalizing s read with
  | nil => simp [closing] at h
  | cons c rest ih =>
    simp only [closing] at h
    split at h
    · cases h
    · split at h
      · cases h; rfl
      · obtain ⟨⟨r, a⟩, hr, he⟩ := Option.map_eq_some_iff.mp h
        cases he
        simp [ih hr]

/-- The literal at the head of a text, with its quotes, and what follows it. -/
def literalPrefix? : Text → Option (Text × Text)
  | [] => none
  | c :: rest =>
    match literal? c with
    | none => none
    | some r => (closing (.inside r) rest).map fun (read, after) => (c :: read, after)

/-- The bracket group at the head of a text, with its brackets, and what follows it. -/
def groupPrefix? : Text → Option (Text × Text)
  | [] => none
  | c :: rest =>
    match closer? c with
    | none => none
    | some closer =>
      (closing (.inside (.group closer)) rest).map fun (read, after) => (c :: read, after)

theorem literalPrefix?_append {t read after : Text} (h : literalPrefix? t = some (read, after)) :
    t = read ++ after := by
  cases t with
  | nil => simp [literalPrefix?] at h
  | cons c rest =>
    simp only [literalPrefix?] at h
    split at h
    · cases h
    · obtain ⟨⟨r, a⟩, hr, he⟩ := Option.map_eq_some_iff.mp h
      cases he
      simp [closing_append hr]

theorem groupPrefix?_append {t read after : Text} (h : groupPrefix? t = some (read, after)) :
    t = read ++ after := by
  cases t with
  | nil => simp [groupPrefix?] at h
  | cons c rest =>
    simp only [groupPrefix?] at h
    split at h
    · cases h
    · obtain ⟨⟨r, a⟩, hr, he⟩ := Option.map_eq_some_iff.mp h
      cases he
      simp [closing_append hr]

end Localization.Script
