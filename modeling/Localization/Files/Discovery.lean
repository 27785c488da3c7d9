import Localization.Error
import Localization.Files.Pattern
import Localization.Files.Store

/-! Finding source files.

`sources` walks the roots of a project and gives the source files below them, in path
order and each once. A root is a directory, or a pattern that stands for directories. An
excluded path is passed over with everything below it; a pattern excludes a path by its
full spelling or by its spelling seen from the base directory.

Every directory of a store can be read, so no directory entry fails a walk or the expansion
of a pattern. What stands so deep that its path is too long to lead anywhere is passed over. -/
namespace Localization

namespace Discovery

def sourceExtensions : List Text := ["js", "jsx", "ts", "tsx", "mjs", "cjs"]

/-- A file name with one of these between its points is a test. -/
def testParts : List Text := ["test", "spec"]

/-- Whether a file of this name is a source: by its extension, and no test. -/
def isSourceName (name : Text) : Bool :=
  (match Path.extensionOf? name with
    | some e => sourceExtensions.contains e
    | none => false) &&
    !(Text.splitOn "." name).any testParts.contains

/-! ### Exclusions -/

/-- What is excluded, seen from a base directory. -/
structure Exclusions where
  base : Path
  paths : List Path
  patterns : List Pattern

/-- The exclusions that texts spell. -/
def Exclusions.ofTexts (base : Path) (texts : List Text) : Except Error Exclusions := do
  let patterns ← (texts.filter Pattern.isPattern).mapM fun t =>
    match Pattern.ofText? t with
    | some p => .ok p
    | none => .error (.invalidExclusion t)
  let paths := (texts.filter fun t => !Pattern.isPattern t).map (Path.join base)
  return ⟨base, paths, patterns⟩

/-- Whether a path is excluded. -/
def Exclusions.covers (x : Exclusions) (p : Path) : Bool :=
  let relative := (Path.relativeTo? p x.base).map fun r =>
    r.map fun c => if c == '\\' then '/' else c
  x.paths.any (Path.startsWith p) ||
    x.patterns.any fun pattern =>
      Pattern.isMatch pattern p ||
        match relative with
        | some r => Pattern.isMatch pattern r
        | none => false

/-! ### Walking -/

/-- More steps than lead to any file of a store. -/
def depth (s : Store) : Nat := (s.entries.map fun (l, _) => l.length).foldl max 0 + 1

/-- The files at and below a path, in name order and without what is excluded. -/
def walk (s : Store) (excluded : Path → Bool) : (fuel : Nat) → Path → List Path
  | 0, _ => []
  | fuel + 1, p =>
    if excluded p then []
    else match s.names? p with
      | some names => names.flatMap fun n => walk s excluded fuel (Path.join p n)
      | none => if s.isFile p then [p] else []

/-- Everything below a directory, each directory before what is in it. -/
def below (s : Store) : (fuel : Nat) → Path → List Path
  | 0, _ => []
  | fuel + 1, p =>
    ((s.names? p).getD []).flatMap fun n => Path.join p n :: below s fuel (Path.join p n)

/-! ### Patterns of directories -/

/-- Makes one of each run of patterns for any number of components. -/
def mergeRecursive : List Pattern → List Pattern
  | [] => []
  | p :: rest =>
    match mergeRecursive rest with
    | q :: more =>
      if Pattern.isRecursive p && Pattern.isRecursive q then q :: more else p :: q :: more
    | [] => [p]

/-- The names in a directory that a pattern stands for. A pattern with a point in front
also stands for the directory itself and the one above. -/
def matchingNames (s : Store) (pattern : Pattern) (p : Path) : List Text :=
  let special : List Text :=
    match pattern with
    | .char '.' :: _ => [['.', '.'], ['.']]
    | _ => []
  match s.names? p with
  | some names => (special ++ names).filter (Pattern.isMatch pattern)
  | none => []

/-- What a list of component patterns stands for below a path. -/
def expandFrom (s : Store) : List Pattern → Path → List Path
  | [], p => [p]
  | pattern :: rest, p =>
    if Pattern.isRecursive pattern then
      match rest with
      | [] => below s (depth s) p
      | next :: more =>
        (below s (depth s) p).flatMap fun child =>
          match Path.fileName? child with
          | some n => if Pattern.isMatch next n then expandFrom s more child else []
          | none => []
    else match Pattern.literal? pattern with
      | some piece =>
        let next := Path.join p piece
        let there :=
          if piece == ['.'] || piece == ['.', '.'] then s.isDirectory p else s.contains next
        if there then expandFrom s rest next else []
      | none => (matchingNames s pattern p).flatMap fun n => expandFrom s rest (Path.join p n)

/-- The pieces of a pattern; a slash at the end ends the last one. -/
def patternPieces (t : Text) : List Text :=
  let pieces := Text.splitFrom ['/'] 0 t
  if pieces.getLast? == some [] then pieces.dropLast else pieces

/-- The directories that an absolute pattern stands for, none if it is malformed. -/
def expand? (s : Store) (t : Text) : Option (List Path) := do
  let _ ← Pattern.ofText? t
  let patterns ← (patternPieces (t.drop 1)).mapM Pattern.ofText?
  return (expandFrom s (mergeRecursive patterns) ['/']).filter s.isDirectory

/-! ### Sources -/

/-- The directories that a root stands for. -/
def rootsOf (s : Store) (base : Path) (root : Text) : Except Error (List Path) :=
  let p := Path.join base root
  if Pattern.isPattern root then
    match expand? s p with
    | some dirs => .ok dirs
    | none => .error (.invalidSource root)
  else if s.isDirectory p then .ok [p]
  else .error (.missingSource p)

/-- The source files below some roots, in path order and each once. -/
def sources (s : Store) (base : Path) (roots excluded : List Text) : Except Error (List Path) := do
  let exclusions ← Exclusions.ofTexts base excluded
  let dirs ← roots.mapM (rootsOf s base)
  let files := dirs.flatten.flatMap (walk s exclusions.covers (depth s))
  return Path.sortDistinct (files.filter fun p => ((Path.fileName? p).map isSourceName).getD false)

end Discovery

end Localization
