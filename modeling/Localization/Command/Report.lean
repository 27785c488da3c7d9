import Localization.Project.Extract
import Localization.Project.Inline
import Localization.Project.Setup
import Localization.Text.Width

/-! What a finished command prints.

Files are named by their path from the base directory. A verbose report of inlining
lists the findings behind the names of their chunks, in a column as wide as the widest
name. -/
namespace Localization.Command

/-- The colors of a terminal that reports use. -/
inductive Color where
  | green
  | red
  | cyan
  | boldYellow
  deriving DecidableEq, Repr

namespace Color

/-- The escape sequence with some parameters. -/
def escape (parameters : Text) : Text := '\x1b' :: '[' :: parameters ++ ['m']

/-- Ends a color. -/
def reset : Text := escape "0"

/-- Starts a color. -/
def start : Color → Text
  | green => escape "32"
  | red => escape "31"
  | cyan => escape "36"
  | boldYellow => escape "1;33"

end Color

/-- How reports are printed. -/
structure Display where
  colored : Bool
  verbose : Bool

namespace Display

/-- A text in a color. A reset inside it starts the color again. -/
def paint (d : Display) (c : Color) (t : Text) : Text :=
  if d.colored then
    c.start ++ Text.join (Color.reset ++ c.start) (Text.splitOn Color.reset t) ++ Color.reset
  else t

/-- Without colors a text is printed as it is. -/
theorem paint_plain (c : Color) (t : Text) (verbose : Bool) :
    paint ⟨false, verbose⟩ c t = t := rfl

end Display

/-- A number of things. -/
def counted (n : Nat) (one many : Text) : Text :=
  Text.ofNat n ++ " " ++ if n == 1 then one else many

/-! ### Lines -/

def writtenLines (d : Display) (base : Path) (paths : List Path) : List Text :=
  paths.map fun p => d.paint .green "Wrote" ++ " " ++ Path.relativeTo p base

/-- The line of a success. -/
def successLine (d : Display) (t : Text) : Text := d.paint .green "✓" ++ " " ++ d.paint .green t

/-- The lines of the findings, each behind the name of its chunk. -/
def findingLines (d : Display) (run : Inlining.RunFindings) : List Text :=
  let shown := run.filter fun (_, r) => !r.isEmpty
  let width := (shown.map fun (name, _) => Text.width name).foldl max 0
  shown.flatMap fun (name, r) =>
    r.lines.map fun line =>
      d.paint .cyan name ++ List.replicate (width - Text.width name) ' ' ++ "  " ++ line

def missingLine (d : Display) (log : Path) (missing : Nat) : Text :=
  d.paint .red "✘" ++ " " ++ Text.ofNat missing ++ " missing translation " ++
    (if missing == 1 then "value" else "values") ++ " (see " ++ log ++ ")"

def warningLine (d : Display) (log : Path) (run : Inlining.RunFindings) : Text :=
  d.paint .boldYellow "warning:" ++ " " ++ Text.ofNat run.missingTotal ++ " missing " ++
    (if run.missingTotal == 1 then "value" else "values") ++ ", " ++
    Text.ofNat run.dynamicTotal ++ " dynamic " ++
    (if run.dynamicTotal == 1 then "call" else "calls") ++ " skipped (see " ++ log ++
    (if d.verbose then ")" else " or use -v)")

/-! ### Reports -/

/-- How a command ends. -/
inductive Status where
  | success
  /-- Values are missing where that is denied. -/
  | missingValues
  | error
  deriving DecidableEq, Repr

def Status.code : Status → Nat
  | success => 0
  | missingValues => 1
  | error => 2

/-- What a command prints and how it ends. -/
structure Report where
  status : Status
  out : List Text
  err : List Text
  deriving DecidableEq, Repr

namespace Report

def outText (r : Report) : Text := Inlining.RunFindings.asLines r.out

def errText (r : Report) : Text := Inlining.RunFindings.asLines r.err

def ofExtract (d : Display) (c : Config) (r : Project.ExtractResult) : Report where
  status := .success
  out :=
    writtenLines d c.basePath r.written ++
    (if d.verbose then ["scanned source files: " ++ Text.ofNat r.stats.files] else []) ++
    r.stats.summary ++
    [successLine d ("Extracted " ++ counted r.stats.uniqueKeys "key" "keys" ++ " from " ++
      counted r.stats.files "source file" "source files")]
  err := []

/-- Findings are a warning, or the end of a run that denies missing values. -/
def ofInlined (d : Display) (denyMissing : Bool) (c : Config) (r : Project.InlineResult) :
    Report :=
  let log := Path.relativeTo c.logFilePath c.basePath
  let denied := denyMissing && r.findings.missingTotal > 0
  { status := if denied then .missingValues else .success
    out :=
      (if d.verbose then writtenLines d c.basePath r.written ++ findingLines d r.findings
        else []) ++
      [successLine d ("Inlined " ++ counted r.chunks "chunk" "chunks" ++ " for " ++
        counted r.locales "locale" "locales")] ++
      (if denied then [missingLine d log r.findings.missingTotal] else [])
    err :=
      if !denyMissing && r.findings.anyFinding then [warningLine d log r.findings] else [] }

def created (d : Display) : Report :=
  ⟨.success, [successLine d ("Created " ++ Project.configName)], []⟩

end Report

end Localization.Command
