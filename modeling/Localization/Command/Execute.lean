import Localization.Command.Arguments
import Localization.Command.Report

/-! Running a command.

A command runs in a directory. Its root is that directory or the one its options name;
the configuration found there gives way to the options and must then be valid. A run
that fails keeps what it changed before. -/
namespace Localization.Command

open Project (Run)

/-- The directory that a command is about, by its one spelling. -/
def rootOf (s : Store) (cwd : Path) (o : Options) : Except Error Path :=
  let named := o.root.getD cwd
  match s.canonical? (Path.join cwd named) with
  | some root => .ok root
  | none => .error (.invalidRoot named)

/-- What the options change of a configuration. -/
def Options.override (o : Options) (c : Config) : Config :=
  { c with
    locales := if o.locales.isEmpty then c.locales else o.locales.map Locale.ofTag
    defaultLocale := o.defaultLocale.or c.defaultLocale
    assetsPath := o.assetsPath.getD c.assetsPath }

/-- Without options a configuration stays as it is. -/
theorem override_none (c : Config) : Options.none.override c = c := by
  simp [Options.override, Options.none]

/-- The valid configuration of a command. -/
def configOf (s : Store) (cwd : Path) (o : Options) : Except Error Config := do
  let root ← rootOf s cwd o
  let (c, _) ← Project.configFrom s root
  ((o.override c).rooted root).validate

/-- Says that no configuration was found, to those who want to know. -/
def noteLines (s : Store) (cwd : Path) (o : Options) : List Text :=
  match rootOf s cwd o with
  | .error _ => []
  | .ok root =>
    match Project.configFrom s root with
    | .ok (_, false) =>
      if o.verbose then ["Note: No " ++ Project.configName ++ " found, using default configuration"]
      else []
    | _ => []

def Options.display (o : Options) (colored : Bool) : Display := ⟨colored, o.verbose⟩

/-- What a command does and reports. -/
def run (cwd : Path) (colored : Bool) : Command → Run Report
  | .extract o => do
    let c ← Run.ofExcept (configOf (← get) cwd o)
    return Report.ofExtract (o.display colored) c (← Project.extract c)
  | .inlined o => do
    let c ← Run.ofExcept (configOf (← get) cwd o)
    let c := { c with outDir := o.outDir.getD c.outDir }
    return Report.ofInlined (o.display colored) o.denyMissing c (← Project.inlined c)
  | .init => do
    Project.createConfig cwd
    return Report.created ⟨colored, false⟩

def notes (s : Store) (cwd : Path) : Command → List Text
  | .extract o | .inlined o => noteLines s cwd o
  | .init => []

/-- A path up to the first piece of it that is a pattern. -/
def fixedPart (p : Path) : Path :=
  Text.join "/" ((Path.pieces p).takeWhile fun piece => !Pattern.isPattern piece)

/-- All that a command looks at, its configuration apart, is at or below one of these. -/
def places (s : Store) (cwd : Path) : Command → List Path
  | .extract o | .inlined o =>
    match configOf s cwd o with
    | .error _ => []
    | .ok c =>
      let c := { c with outDir := o.outDir.getD c.outDir }
      [c.basePath, c.assetsRoot, c.chunkDir, c.logFilePath] ++
        c.sourcePaths.map fun p => fixedPart (Path.join c.basePath p)
  | .init => []

/-- The report of a command, the error it failed with, and the store it leaves. -/
def execute (s : Store) (cwd : Path) (colored : Bool) (command : Command) :
    Report × Option Error × Store :=
  let notes := command.notes s cwd
  match command.run cwd colored s with
  | (.ok r, s) => ({ r with err := notes ++ r.err }, none, s)
  | (.error e, s) => (⟨.error, [], notes⟩, some e, s)

end Localization.Command
