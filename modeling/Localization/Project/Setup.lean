import Localization.Config.Json
import Localization.Config.Validation
import Localization.Project.Assets

/-! The configuration file of a project.

It is searched for in a directory and those above it, up to the one that holds a
repository. -/
namespace Localization.Project

def configName : Text := ".tolkrc.json"

/-- A directory that holds this is not searched beyond. -/
def repositoryName : Text := ".git"

/-- The configuration file of a directory, from the nearest directory that has one. -/
def findConfigFrom (s : Store) : (fuel : Nat) → Path → Option Path
  | 0, _ => none
  | fuel + 1, dir =>
    if s.contains (Path.join dir configName) then some (Path.join dir configName)
    else if s.contains (Path.join dir repositoryName) then none
    else match Path.parent? dir with
      | some parent => findConfigFrom s fuel parent
      | none => none

def findConfig (s : Store) (dir : Path) : Option Path := findConfigFrom s (dir.length + 1) dir

/-- The configuration for a directory, and whether a file gave it. -/
def configFrom (s : Store) (dir : Path) : Except Error (Config × Bool) :=
  match findConfig s dir with
  | none => .ok (Config.standard, false)
  | some p =>
    match s.readText? p with
    | none => .error (.unreadableConfig p)
    | some t =>
      match Config.ofText? t with
      | some c => .ok (c, true)
      | none => .error (.malformedConfig p)

/-- The text of the configuration file that a new project starts with. -/
def standardConfigText : Text := Config.standard.toText ++ ['\n']

/-- Writes a configuration file into a directory that has none. -/
def createConfig (dir : Path) : Run Unit := do
  let p := Path.join dir configName
  if (← get).contains p then throw (.configExists configName)
  writeText p standardConfigText

end Localization.Project
