import Localization.Assets
import Localization.Files.Store

/-! Assets of a project.

The files of a language stand in a directory named like it. They are read in name order
and combined; they are written as `Assets.split` says, over whatever was there. -/
namespace Localization.Project

/-- What a run does: it reads and changes the store, and may fail. What it changed before
it failed stays changed. -/
abbrev Run := ExceptT Error (StateM Store)

/-- An answer that only depends on the store. -/
def Run.ofExcept {α : Type} (result : Except Error α) : Run α := fun s => (result, s)

/-- A change of the store, with the error for when it cannot be made. -/
def Run.change (error : Error) (f : Store → Option Store) : Run Unit := fun s =>
  match f s with
  | some next => (.ok (), next)
  | none => (.error error, s)

/-- Writes a text file. -/
def writeText (p : Path) (t : Text) : Run Unit :=
  .change (.unwrittenFile p) fun s => s.write? p (.text t)

/-- Makes a directory; those that lead to it stay even if it cannot be made. -/
def makeDirectories (p : Path) : Run Unit := fun s =>
  match s.makeDirectories p with
  | (next, true) => (.ok (), next)
  | (next, false) => (.error (.uncreatedDirectory p), next)

/-- The text of a file. -/
def readText (s : Store) (p : Path) : Except Error Text :=
  match s.readText? p with
  | some t => .ok t
  | none => .error (.unreadableFile p)

/-- The files in a directory that have one of some extensions, in name order. -/
def filesWith (s : Store) (dir : Path) (extensions : List Text) : Option (List Path) :=
  (s.names? dir).map fun names =>
    Path.sort ((names.map (Path.join dir)).filter fun p =>
      s.isFile p && ((Path.extension? p).map extensions.contains).getD false)

/-! ### Reading -/

/-- The tree of a language. Without a directory it is empty, unless one is required. -/
def readLocale (s : Store) (format : Text) (required : Bool) (dir : Path) : Except Error Tree :=
  if s.isDirectory dir then
    match filesWith s dir [format] with
    | none => .error (.unreadableDirectory dir)
    | some files => do
      let trees ← files.mapM fun p => do Assets.parse p (← readText s p)
      return Assets.combine trees
  else if required then .error (.missingAssets dir)
  else .ok []

/-- The trees of some languages. -/
def readLocales (s : Store) (format : Text) (required : Bool) (dir : Path) (langs : List Text) :
    Except Error (List (Text × Tree)) :=
  langs.mapM fun lang => do return (lang, ← readLocale s format required (Path.join dir lang))

/-! ### Writing -/

/-- Writes the files of a tree into a directory. -/
def writeLocale (dir : Path) (filename format : Text) (tree : Tree) : Run (List Path) := do
  makeDirectories dir
  (Assets.split filename tree).mapM fun (name, part) => do
    let p := Path.join dir (name ++ '.' :: format)
    writeText p (Assets.render part)
    return p

end Localization.Project
