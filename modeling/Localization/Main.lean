import Localization.Command.Execute

/-! The program.

What a command may look at is loaded into a store, the command is executed there, and what
it changed is written back. -/
namespace Localization.Main

/-! ### Loading -/

/-- The directory at a path, as the system names it. -/
def directoryAt (p : Path) : IO.FS.DirEntry := ⟨String.ofList p, "."⟩

/-- Puts an entry at a path whose directory is there. -/
def put (s : Store) (p : Path) (e : Entry) : Store :=
  match s.locate p with
  | some l => s.insert l e
  | none => s

/-- Adds a file. One that cannot be read holds no text. -/
def addFile (s : Store) (p : Path) : IO Store := do
  try return put s p (.file (.ofBytes (← IO.FS.readBinFile (String.ofList p))))
  catch _ => return put s p (.file (.bytes []))

/-- Adds a directory with everything below it. Links to directories are not followed. -/
partial def addDirectory (s : Store) (p : Path) : IO Store := do
  let mut s := (s.makeDirectories p).1
  for entry in ← (directoryAt p).path.readDir do
    let child := Path.join p entry.fileName.toList
    match (← entry.path.symlinkMetadata).type with
    | .dir => s ← addDirectory s child
    | .file => s ← addFile s child
    | .symlink => if !(← entry.path.isDir) then s ← addFile s child
    | .other => pure ()
  return s

/-- Adds what is at a path. -/
def add (s : Store) (p : Path) : IO Store := do
  if ← (directoryAt p).path.isDir then addDirectory s p
  else
    let mut s := s
    if let some dir := Path.parent? p then
      if ← (directoryAt dir).path.isDir then s := (s.makeDirectories dir).1
    try
      let bytes ← IO.FS.readBinFile (String.ofList p)
      return put s p (.file (.ofBytes bytes))
    catch _ => return s

/-- Adds a directory and those above it, with the configurations in them and the marks of
repositories. -/
partial def addAbove (s : Store) (dir : Path) : IO Store := do
  let mut s := s
  if let some parent := Path.parent? dir then s ← addAbove s parent
  if ← (directoryAt dir).path.isDir then
    s := (s.makeDirectories dir).1
    for entry in ← (directoryAt dir).path.readDir do
      let name := entry.fileName.toList
      if name == Project.configName then s ← addFile s (Path.join dir name)
      if name == Project.repositoryName then s := put s (Path.join dir name) .directory
  return s

/-! ### Writing -/

def bytesOf : Content → ByteArray
  | .text t => (String.ofList t).toUTF8
  | .bytes b => ⟨b.toArray⟩

/-- Writes what is new or other than before, a directory before what is in it. -/
def writeChanges (before after : Store) : IO Unit := do
  let changed := after.entries.filter fun (l, e) => before.get? l != some e
  for (l, e) in changed.mergeSort fun a b => a.1.length ≤ b.1.length do
    let p := String.ofList (Store.pathOf l)
    match e with
    | .directory => IO.FS.createDirAll p
    | .file c => IO.FS.writeBinFile p (bytesOf c)

/-! ### Running -/

def usage : String := "Usage: tolk <extract|inline|init> [OPTIONS]\n"

/-- Tells why a command line is not run. -/
def reportUsage (e : Command.UsageError) : IO UInt32 := do
  match e with
  | .displayHelp => IO.print usage; return 0
  | .displayVersion => IO.println "tolk 0.1.0"; return 0
  | _ => IO.eprint usage; return 2

/-- Whether reports are colored: on a terminal, unless the user says otherwise. -/
def isColored : IO Bool := do
  if ((← IO.getEnv "CLICOLOR_FORCE").getD "0") != "0" then return true
  if (← IO.getEnv "NO_COLOR").isSome then return false
  (← IO.getStdout).isTty

def rootArgument : Command → Option Text
  | .extract o | .inlined o => o.root
  | .init => none

/-- Executes a command in the working directory. -/
def run (command : Command) : IO UInt32 := do
  let cwd := (← IO.currentDir).toString.toList
  let mut before ← addAbove .empty cwd
  before ← addAbove before (Path.join cwd ((rootArgument command).getD cwd))
  for p in command.places before cwd do
    before ← add before p
  let (report, failure, after) := Command.execute before cwd (← isColored) command
  writeChanges before after
  IO.print (String.ofList report.outText)
  IO.eprint (String.ofList report.errText)
  if let some e := failure then IO.eprintln ("Error: " ++ String.ofList e.message)
  return report.status.code.toUInt32

end Localization.Main

/-- Runs the command of a command line. -/
def main (args : List String) : IO UInt32 :=
  match Localization.Command.readCommand? (args.map String.toList) with
  | .error e => Localization.Main.reportUsage e
  | .ok none => do IO.print Localization.Main.usage; return 0
  | .ok (some command) => Localization.Main.run command
