import Localization.Text.Basic

/-! Findings of inlining.

A record per chunk holds three lists of lines: values that are missing, each line once,
and calls that are left alone because their key, or anything else of them, is only
known at run time. `append` puts one record behind another, and the findings of a run
are the records of its chunks. -/
namespace Localization.Inlining

/-- Something found in a chunk. -/
inductive Finding where
  | missing (lang key : Text)
  | dynamicKey (call : Text)
  | dynamicParams (call : Text)
  | dynamicPlural (call : Text)
  deriving DecidableEq, Repr

def Finding.line : Finding → Text
  | missing lang key => lang ++ " - missing value for key: " ++ key
  | dynamicKey call => "dynamic key: " ++ call ++ " - skip"
  | dynamicParams call => "dynamic params: " ++ call ++ " - skip"
  | dynamicPlural call => "dynamic plural: " ++ call ++ " - skip"

/-- The findings of one chunk. -/
structure Findings where
  missing : List Text
  dynamicKeys : List Text
  dynamicParams : List Text
  deriving DecidableEq, Repr

namespace Findings

def empty : Findings := ⟨[], [], []⟩

/-- Adds a line unless it is there. -/
def addOnce (lines : List Text) (line : Text) : List Text :=
  if lines.contains line then lines else lines ++ [line]

/-- Records a finding. -/
def record (r : Findings) (f : Finding) : Findings :=
  match f with
  | .missing _ _ => { r with missing := addOnce r.missing f.line }
  | .dynamicKey _ => { r with dynamicKeys := r.dynamicKeys ++ [f.line] }
  | .dynamicParams _ => { r with dynamicParams := r.dynamicParams ++ [f.line] }
  | .dynamicPlural _ => { r with dynamicParams := r.dynamicParams ++ [f.line] }

/-- The findings in order. -/
def ofList (fs : List Finding) : Findings := fs.foldl record empty

/-- One record behind another of the same chunk. -/
def append (a b : Findings) : Findings :=
  ⟨b.missing.foldl addOnce a.missing, a.dynamicKeys ++ b.dynamicKeys,
    a.dynamicParams ++ b.dynamicParams⟩

instance : Append Findings := ⟨append⟩

/-- The lines of the log: missing values, dynamic keys, dynamic parameters. -/
def lines (r : Findings) : List Text := r.missing ++ r.dynamicKeys ++ r.dynamicParams

def isEmpty (r : Findings) : Bool := r.lines.isEmpty

end Findings

/-- The findings of a run, by chunk. -/
abbrev RunFindings := List (Text × Findings)

namespace RunFindings

def missingTotal (run : RunFindings) : Nat := run.foldl (fun n (_, r) => n + r.missing.length) 0

def dynamicTotal (run : RunFindings) : Nat :=
  run.foldl (fun n (_, r) => n + (r.dynamicKeys.length + r.dynamicParams.length)) 0

def anyFinding (run : RunFindings) : Bool := run.any fun (_, r) => !r.isEmpty

/-- Lines with their line ends. -/
def asLines (lines : List Text) : Text := lines.flatMap (· ++ ['\n'])

/-- The block of a run in the log: the lines of each chunk that has any, between a header
and a footer. -/
def log (header footer : Text) (run : RunFindings) : Text :=
  asLines ([header] ++
    (run.filter fun (_, r) => !r.isEmpty).flatMap (fun (name, r) => (name ++ [':']) :: r.lines) ++
    [footer])

end RunFindings

end Localization.Inlining
