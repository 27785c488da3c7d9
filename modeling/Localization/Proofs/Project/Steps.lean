import Mathlib
import Localization.Project.Inline
import Localization.Proofs.Project.Writes

/-! Runs that write, as lists of steps.

An extraction and an inlining first work out what to write, and fail without a step if they
cannot (`extract_of_error`, `inlined_of_error`). Then all they do to the store is to make
directories and to write files, step by step (`extract_of_ok`, `inlined_of_ok`); the log comes
last. -/
namespace Localization.Project

open Localization.Path (join)

/-- One thing that a run does to a store. -/
inductive Step where
  /-- Makes a directory. -/
  | directory (p : Path)
  /-- Writes a text file. -/
  | file (p : Path) (t : Text)

def Step.run : Step → Run Unit
  | directory p => makeDirectories p
  | file p t => writeText p t

/-- Takes some steps, up to the first that fails. -/
def runSteps : List Step → Run Unit
  | [] => pure ()
  | step :: rest => do
    step.run
    runSteps rest

/-! ### Runs that are lists of steps -/

theorem runSteps_append (a b : List Step) : runSteps (a ++ b) = (do runSteps a; runSteps b) := by
  induction a with
  | nil => rw [List.nil_append, runSteps, pure_bind]
  | cons step a ih => rw [List.cons_append, runSteps, runSteps, ih, bind_assoc]

theorem runSteps_singleton (step : Step) : runSteps [step] = step.run := by
  rw [runSteps, runSteps]
  exact bind_pure_unit

/-- Runs one after the other take the steps of each of them. -/
theorem mapM_eq_runSteps {α β : Type} {f : α → Run β} (steps : α → List Step) (result : α → β)
    (h : ∀ a, f a = (do runSteps (steps a); return result a)) (l : List α) :
    l.mapM f = (do runSteps (l.flatMap steps); return l.map result) := by
  induction l with
  | nil => rw [List.mapM_nil, List.flatMap_nil, runSteps, pure_bind, List.map_nil]
  | cons a l ih =>
    rw [List.mapM_cons, ih, h, List.flatMap_cons, runSteps_append]
    simp only [bind_assoc, pure_bind, List.map_cons]

theorem forIn_eq_runSteps {α : Type} (step : α → Step) (l : List α) :
    (forIn l () fun a _ => do (step a).run; return .yield ()) = runSteps (l.map step) := by
  induction l with
  | nil => rfl
  | cons a l ih =>
    rw [List.forIn_cons, List.map_cons, runSteps, ← ih]
    simp only [bind_assoc, pure_bind]

/-- The steps that write files. -/
def fileSteps (files : List (Path × Text)) : List Step := files.map fun f => .file f.1 f.2

/-- The steps that write a tree. -/
def localeSteps (c : Config) (t : Text × Tree) : List Step :=
  .directory (join c.assetsRoot t.1) ::
    fileSteps (localeFiles (join c.assetsRoot t.1) c.filename c.format t.2)

theorem writeLocale_eq_runSteps (dir : Path) (filename format : Text) (tree : Tree) :
    writeLocale dir filename format tree = (do
      runSteps (.directory dir :: fileSteps (localeFiles dir filename format tree))
      return (localeFiles dir filename format tree).map (·.1)) := by
  have hfiles := mapM_eq_runSteps (f := fun f : Text × Tree => (do
      writeText (join dir (f.1 ++ '.' :: format)) (Assets.render f.2)
      return join dir (f.1 ++ '.' :: format) : Run Path))
    (fun f => [.file (join dir (f.1 ++ '.' :: format)) (Assets.render f.2)])
    (fun f => join dir (f.1 ++ '.' :: format))
    (fun f => by rw [runSteps_singleton]; rfl) (Assets.split filename tree)
  have hsteps : (Assets.split filename tree).flatMap
      (fun f => [Step.file (join dir (f.1 ++ '.' :: format)) (Assets.render f.2)]) =
      fileSteps (localeFiles dir filename format tree) := by
    rw [← List.map_eq_flatMap, fileSteps, localeFiles, List.map_map]
    rfl
  have hpaths : (Assets.split filename tree).map (fun f => join dir (f.1 ++ '.' :: format)) =
      (localeFiles dir filename format tree).map (·.1) := by
    rw [localeFiles, List.map_map]
    rfl
  rw [hsteps, hpaths] at hfiles
  rw [runSteps, bind_assoc, ← hfiles]
  rfl

/-- The steps that write the trees of all languages. -/
def treeSteps (c : Config) (trees : List (Text × Tree)) : List Step := trees.flatMap (localeSteps c)

theorem writeTrees_eq_runSteps (c : Config) (trees : List (Text × Tree)) :
    writeTrees c trees = (do
      runSteps (treeSteps c trees)
      return Path.sort ((treeFiles c trees).map (·.1))) := by
  have htrees := mapM_eq_runSteps
    (f := fun t : Text × Tree => writeLocale (join c.assetsRoot t.1) c.filename c.format t.2)
    (localeSteps c)
    (fun t => (localeFiles (join c.assetsRoot t.1) c.filename c.format t.2).map (·.1))
    (fun t => writeLocale_eq_runSteps _ _ _ _) trees
  have hpaths :
      (trees.map fun t => (localeFiles (join c.assetsRoot t.1) c.filename c.format t.2).map
        (·.1)).flatten =
      (treeFiles c trees).map (·.1) := by
    rw [treeFiles, List.map_flatMap, List.flatMap_def]
  show (do
    let written ← trees.mapM fun (t : Text × Tree) =>
        writeLocale (join c.assetsRoot t.1) c.filename c.format t.2
    return Path.sort written.flatten) = _
  rw [htrees, treeSteps]
  simp only [bind_assoc, pure_bind, hpaths]

/-- An extraction that has worked its trees out writes them. -/
theorem extract_of_ok {c : Config} {s : Store} {output : Extraction.Output}
    (h : extractTrees c s = .ok output) :
    extract c s = (do
      runSteps (treeSteps c output.trees)
      return ExtractResult.mk output.stats (Path.sort ((treeFiles c output.trees).map (·.1))) :
        Run _) s := by
  have hrun :
      extract c s = (do return ExtractResult.mk output.stats (← writeTrees c output.trees)) s := by
    show (Run.ofExcept (extractTrees c s) >>= fun output => do
      return ExtractResult.mk output.stats (← writeTrees c output.trees)) s = _
    rw [h]
    rfl
  rw [hrun, writeTrees_eq_runSteps]
  simp only [bind_assoc, pure_bind]

/-- An extraction that cannot work its trees out does nothing. -/
theorem extract_of_error {c : Config} {s : Store} {e : Error} (h : extractTrees c s = .error e) :
    extract c s = (.error e, s) := by
  show (Run.ofExcept (extractTrees c s) >>= fun output => do
    return ExtractResult.mk output.stats (← writeTrees c output.trees)) s = _
  rw [h]
  rfl

/-- The files of chunks in every language, with their texts. -/
def chunkFiles (c : Config) (chunks : List Inlining.Rendition) : List (Path × Text) :=
  chunks.flatMap fun chunk => (targets c chunk).map fun p => (p, chunk.code)

/-- The steps that write chunks: first every directory, then every file. -/
def chunkSteps (c : Config) (chunks : List Inlining.Rendition) : List Step :=
  c.langs.map (fun lang => .directory (join c.chunkDir lang)) ++ fileSteps (chunkFiles c chunks)

def logHeader (c : Config) : Text := "tolk inline: " ++ c.chunkDir

def logFooter (c : Config) (count : Nat) : Text :=
  "tolk inline: done (" ++ Text.ofNat count ++ " chunks, " ++
    Text.ofNat c.langs.length ++ " locales)"

/-- Inlining that has worked the chunks out writes them and then the log. -/
theorem inlined_of_ok {c : Config} {s : Store} {count : Nat} {output : Inlining.Output}
    (h : inlineOutput c s = .ok (count, output)) :
    inlined c s = (do
      runSteps (chunkSteps c output.chunks)
      logFindings c.logFilePath (logHeader c) (logFooter c count) output.findings
      return InlineResult.mk count c.langs.length
        (Path.sort ((chunkFiles c output.chunks).map (·.1)))
        output.findings : Run _) s := by
  rw [chunkSteps, runSteps_append, ← forIn_eq_runSteps, fileSteps, ← forIn_eq_runSteps]
  simp only [bind_assoc]
  show (Run.ofExcept (inlineOutput c s) >>= _) s = _
  rw [h]
  rfl

/-- Inlining that cannot work the chunks out does nothing. -/
theorem inlined_of_error {c : Config} {s : Store} {e : Error} (h : inlineOutput c s = .error e) :
    inlined c s = (.error e, s) := by
  show (Run.ofExcept (inlineOutput c s) >>= _) s = _
  rw [h]
  rfl

end Localization.Project
