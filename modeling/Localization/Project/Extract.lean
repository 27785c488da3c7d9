import Localization.Extraction.Trees
import Localization.Files.Discovery
import Localization.Project.Assets

/-! Extracting the keys of a project.

Everything is read and worked out before anything is written: the source files, the
assets of every language, and the trees. -/
namespace Localization.Project

/-- What an extraction leaves. -/
structure ExtractResult where
  stats : Extraction.Stats
  /-- The asset files written, in path order. -/
  written : List Path

/-- The trees of a project as its files stand. -/
def extractTrees (c : Config) (s : Store) : Except Error Extraction.Output := do
  let files ← Discovery.sources s c.basePath c.sourcePaths c.excludedPaths
  let sources ← files.mapM (readText s)
  let assets ← readLocales s c.format false c.assetsRoot c.langs
  Extraction.extract c sources assets

/-- Writes the trees of every language. -/
def writeTrees (c : Config) (trees : List (Text × Tree)) : Run (List Path) := do
  let written ← trees.mapM fun (lang, tree) =>
    writeLocale (Path.join c.assetsRoot lang) c.filename c.format tree
  return Path.sort written.flatten

/-- Extracts the keys of a project into its assets. -/
def extract (c : Config) : Run ExtractResult := do
  let output ← Run.ofExcept (extractTrees c (← get))
  return ⟨output.stats, ← writeTrees c output.trees⟩

end Localization.Project
