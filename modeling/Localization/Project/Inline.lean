import Localization.Inlining.Chunk
import Localization.Project.Assets

/-! Inlining the chunks of a project.

Every chunk is written once per language, into a directory named like the language; the
default language's also takes the place of the chunk itself. What was found goes to the
end of the log. -/
namespace Localization.Project

open Inlining (Chunk Rendition RunFindings)

/-- What inlining leaves. -/
structure InlineResult where
  chunks : Nat
  locales : Nat
  /-- The chunk files written, in path order. -/
  written : List Path
  findings : RunFindings

def chunkExtensions : List Text := ["js", "mjs", "cjs"]

/-- The chunks in a directory, in name order. -/
def chunksIn (s : Store) (dir : Path) : Except Error (List Chunk) :=
  match filesWith s dir chunkExtensions with
  | none => .error (.unreadableChunks dir)
  | some files => files.mapM fun p => do return ⟨(Path.fileName? p).getD [], ← readText s p⟩

/-- The chunks of a project in every language, as its files stand. -/
def inlineOutput (c : Config) (s : Store) : Except Error (Nat × Inlining.Output) := do
  let chunks ← chunksIn s c.chunkDir
  let trees ← readLocales s c.format true c.assetsRoot c.langs
  return (chunks.length, Inlining.Output.ofChunks ⟨c, trees⟩ chunks)

/-- The files that a chunk in one language is written to. -/
def targets (c : Config) (chunk : Rendition) : List Path :=
  let own := Path.join (Path.join c.chunkDir chunk.lang) chunk.name
  if chunk.lang == c.defaultLang then [own, Path.join c.chunkDir chunk.name] else [own]

/-- Puts a block behind the end of a log. -/
def logFindings (path : Path) (header footer : Text) (findings : RunFindings) : Run Unit :=
  .change (.unopenedLog path) fun s => s.append? path (RunFindings.log header footer findings)

/-- Inlines the chunks of a project. -/
def inlined (c : Config) : Run InlineResult := do
  let (count, output) ← Run.ofExcept (inlineOutput c (← get))
  for lang in c.langs do
    makeDirectories (Path.join c.chunkDir lang)
  let files := output.chunks.flatMap fun chunk => (targets c chunk).map fun p => (p, chunk.code)
  for (p, code) in files do
    writeText p code
  let locales := c.langs.length
  logFindings c.logFilePath ("tolk inline: " ++ c.chunkDir)
    ("tolk inline: done (" ++ Text.ofNat count ++ " chunks, " ++ Text.ofNat locales ++ " locales)")
    output.findings
  return ⟨count, locales, Path.sort (files.map (·.1)), output.findings⟩

end Localization.Project
