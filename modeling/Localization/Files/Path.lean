import Localization.Text.Basic

/-! Paths.

A path is kept as it is spelled; what it names is the list of its components, in which
repeated slashes and a `.` between components leave no trace. Paths are ordered by
their components, so a directory comes right before what is in it. -/
namespace Localization

/-- A path as it is spelled. -/
abbrev Path := Text

namespace Path

/-- A component of a path. -/
inductive Component where
  | root
  | current
  | parent
  | name (text : Text)
  deriving DecidableEq, Repr

def isAbsolute (p : Path) : Bool := p.head? == some '/'

/-- What stands between the slashes of a path. -/
def pieces (p : Path) : List Text := Text.splitFrom ['/'] 0 p

/-- The component of a piece that does not start the path; an empty piece and a `.` are
none. -/
def component? (piece : Text) : Option Component :=
  if piece.isEmpty || piece == ['.'] then none
  else if piece == ['.', '.'] then some .parent
  else some (.name piece)

/-- What a path names, piece by piece. -/
def components (p : Path) : List Component :=
  let inner := (pieces p).filterMap component?
  if isAbsolute p then .root :: inner
  else if (pieces p).head? == some ['.'] then .current :: inner
  else inner

/-- `child` seen from `parent`. An absolute child stands for itself. -/
def join (parent child : Path) : Path :=
  if isAbsolute child then child
  else if parent.isEmpty || parent.getLast? == some '/' then parent ++ child
  else parent ++ '/' :: child

/-! ### Order -/

def Component.rank : Component → Nat
  | .root => 0
  | .current => 1
  | .parent => 2
  | .name _ => 3

def Component.le : Component → Component → Bool
  | .name a, .name b => Text.le a b
  | a, b => a.rank ≤ b.rank

def componentsLe : List Component → List Component → Bool
  | [], _ => true
  | _ :: _, [] => false
  | a :: as, b :: bs => if a == b then componentsLe as bs else a.le b

/-- The order of paths: component by component, names by their bytes. -/
def le (a b : Path) : Bool := componentsLe (components a) (components b)

/-- Whether two paths have the same components. -/
def same (a b : Path) : Bool := components a == components b

/-- The paths in order, each once; of several spellings the first stays. -/
def sortDistinct (paths : List Path) : List Path :=
  ((paths.foldl (fun kept p => if kept.any (same p) then kept else kept ++ [p]) [])).mergeSort le

def sort (paths : List Path) : List Path := paths.mergeSort le

/-! ### Parts of a path -/

/-- The last component if it is a name. -/
def fileName? (p : Path) : Option Text :=
  match (components p).getLast? with
  | some (.name n) => some n
  | _ => none

/-- Whether a `.` is the last thing between slashes. -/
def endsInPoint (p : Path) : Bool :=
  ((pieces p).filter fun piece => !piece.isEmpty).getLast? == some ['.']

/-- What follows the last point of a file name, unless that point starts the name. -/
def extensionOf? (name : Text) : Option Text :=
  let fromEnd := name.reverse
  let extension := fromEnd.takeWhile (· != '.')
  if extension.length + 1 < name.length then some extension.reverse else none

def extension? (p : Path) : Option Text := (fileName? p).bind extensionOf?

/-- Whether a path starts with all the components of another. -/
def startsWith (p base : Path) : Bool := (components base).isPrefixOf (components p)

/-- Drops what leads to the first component of a relative path. -/
def dropLeading : (skip : Nat) → Text → Text
  | _, [] => []
  | skip + 1, _ :: rest => dropLeading skip rest
  | 0, c :: rest =>
    if c == '/' then dropLeading 0 rest
    else if c == '.' && (rest.isEmpty || rest.head? == some '/') then dropLeading 0 rest
    else c :: rest

/-- Drops slashes and lone points that end a path and name nothing. -/
def dropTrailing (p : Text) : Text := (dropLeading 0 p.reverse).reverse

/-- Drops a number of components from the front of a path. -/
def dropComponents : Nat → Path → Path
  | 0, p => dropLeading 0 p
  | n + 1, p => dropComponents n ((dropLeading 0 p).dropWhile (· != '/'))

/-- The rest of a path behind all the components of another, spelled as it is there. -/
def relativeTo? (p base : Path) : Option Path :=
  if startsWith p base then
    let inner := (components base).filter fun c => c != .root && c != .current
    some (dropTrailing (dropComponents inner.length p))
  else none

/-- The rest of a path behind another, or the path if that does not lead to it. -/
def relativeTo (p base : Path) : Path := (relativeTo? p base).getD p

/-- The path without its last component, none for a root and the empty path. -/
def parent? (p : Path) : Option Path :=
  match (components p).getLast? with
  | none => none
  | some .root => none
  | some _ =>
    let trimmed := dropTrailing p
    let kept := (trimmed.reverse.dropWhile (· != '/')).reverse
    let parent := dropTrailing kept
    some (if parent.isEmpty && isAbsolute p then ['/'] else parent)

end Path

end Localization
