import Localization.Text.Basic

/-! The command line.

A command is `extract`, `inline` or `init`, followed by its options. An option takes its
value from behind a `=` or from the next argument; a switch takes none. Apart from
languages, which add up, nothing may be given twice. -/
namespace Localization

namespace Command

/-- Why a command line is not run. -/
inductive UsageError where
  | invalidSubcommand
  | unknownArgument
  | invalidValue
  | tooManyValues
  | argumentConflict
  | displayHelp
  | displayVersion
  deriving DecidableEq, Repr

/-- The options of `extract` and `inline`. -/
structure Options where
  root : Option Text
  locales : List Text
  defaultLocale : Option Text
  assetsPath : Option Text
  verbose : Bool
  outDir : Option Text
  denyMissing : Bool
  deriving DecidableEq, Repr

def Options.none : Options := ⟨.none, [], .none, .none, false, .none, false⟩

end Command

/-- A command with its options. -/
inductive Command where
  | extract (options : Command.Options)
  | inlined (options : Command.Options)
  | init
  deriving DecidableEq, Repr

namespace Command

/-- An option that takes a value. -/
inductive ValueOption where
  | root
  | locale
  | defaultLocale
  | assetsPath
  | outDir
  deriving DecidableEq, Repr

/-- An option that takes no value. -/
inductive Switch where
  | verbose
  | denyMissing
  | help
  deriving DecidableEq, Repr

/-- The commands that take arguments of their own. -/
inductive Subcommand where
  | extract
  | inlined
  | init
  deriving DecidableEq, Repr

/-- The option that takes a value and goes by a long name. -/
def valueOption? (sub : Subcommand) (name : Text) : Option ValueOption :=
  if sub == .init then none
  else if name == "root" then some .root
  else if name == "locale" then some .locale
  else if name == "default-locale" then some .defaultLocale
  else if name == "assets-path" then some .assetsPath
  else if name == "out-dir" && sub == .inlined then some .outDir
  else none

/-- The switch of a long name. -/
def switch? (sub : Subcommand) (name : Text) : Option Switch :=
  if name == "help" then some .help
  else if sub == .init then none
  else if name == "verbose" then some .verbose
  else if name == "deny-missing" && sub == .inlined then some .denyMissing
  else none

/-- The switch of a letter. -/
def letterSwitch? (sub : Subcommand) (c : Char) : Option Switch :=
  if c == 'h' then some .help
  else if c == 'v' && sub != .init then some .verbose
  else none

/-! ### Setting -/

/-- Sets something that may be given once. -/
def setOnce (old : Option Text) (value : Text) : Except UsageError (Option Text) :=
  match old with
  | none => .ok (some value)
  | some _ => .error .argumentConflict

/-- Gives an option its value. The root must not be empty. -/
def Options.set (o : Options) (option : ValueOption) (value : Text) : Except UsageError Options :=
  match option with
  | .root => do
    let root ← setOnce o.root value
    if value.isEmpty then .error .invalidValue else return { o with root }
  | .locale => .ok { o with locales := o.locales ++ Text.splitOn "," value }
  | .defaultLocale => do return { o with defaultLocale := ← setOnce o.defaultLocale value }
  | .assetsPath => do return { o with assetsPath := ← setOnce o.assetsPath value }
  | .outDir => do return { o with outDir := ← setOnce o.outDir value }

def Options.turnOn (o : Options) (s : Switch) : Except UsageError Options :=
  match s with
  | .help => .error .displayHelp
  | .verbose => if o.verbose then .error .argumentConflict else .ok { o with verbose := true }
  | .denyMissing =>
    if o.denyMissing then .error .argumentConflict else .ok { o with denyMissing := true }

/-! ### Reading -/

/-- The option read last, which counts only when the argument behind it is known. -/
inductive Waiting where
  | nothing
  /-- An option that still needs its value. -/
  | forValue (option : ValueOption)
  /-- An option with its value. -/
  | toSet (option : ValueOption) (value : Text)

/-- Settles the option read last. -/
def settle (o : Options) : Waiting → Except UsageError Options
  | .nothing => .ok o
  | .forValue _ => .error .invalidValue
  | .toSet option value => o.set option value

/-- Turns on the switches of a group of letters. -/
def turnOnLetters (sub : Subcommand) (o : Options) (waiting : Waiting) :
    Text → Except UsageError Options
  | [] => settle o waiting
  | c :: rest =>
    match letterSwitch? sub c with
    | none => .error .unknownArgument
    | some s => do
      let o ← (← settle o waiting).turnOn s
      turnOnLetters sub o .nothing rest

/-- The options of a command. -/
def readOptions (sub : Subcommand) (o : Options) (waiting : Waiting) :
    List Text → Except UsageError Options
  | [] => settle o waiting
  | argument :: rest =>
    match argument with
    | '-' :: '-' :: [] =>
      -- Nothing takes the arguments behind a lone `--`.
      if rest.isEmpty then settle o waiting else .error .unknownArgument
    | '-' :: '-' :: long =>
      let name := long.takeWhile (· != '=')
      let attached := (long.drop name.length).head?.map fun _ => long.drop (name.length + 1)
      match valueOption? sub name, switch? sub name, attached with
      | some option, _, some value => do
        let o ← (← settle o waiting).set option value
        readOptions sub o .nothing rest
      | some option, _, none => do
        let o ← settle o waiting
        readOptions sub o (.forValue option) rest
      | none, some _, some _ => .error .tooManyValues
      | none, some s, none => do
        let o ← (← settle o waiting).turnOn s
        readOptions sub o .nothing rest
      | none, none, _ => .error .unknownArgument
    | '-' :: c :: letters => do
      let o ← turnOnLetters sub o waiting (c :: letters)
      readOptions sub o .nothing rest
    | value =>
      match waiting with
      | .forValue option => readOptions sub o (.toSet option value) rest
      | _ => .error .unknownArgument

def subcommand? (name : Text) : Option Subcommand :=
  if name == "extract" then some .extract
  else if name == "inline" then some .inlined
  else if name == "init" then some .init
  else none

/-- The command of a command line, none if there are no arguments. -/
def readCommand? : List Text → Except UsageError (Option Command)
  | [] => .ok none
  | first :: rest =>
    match subcommand? first with
    | some sub => do
      let o ← readOptions sub .none .nothing rest
      return some (match sub with
        | .extract => .extract o
        | .inlined => .inlined o
        | .init => .init)
    | none =>
      if first == "help" then
        .error (match rest with
          | [] => .displayHelp
          | name :: more =>
            if (subcommand? name).isSome && more.isEmpty || name == "help" then .displayHelp
            else .invalidSubcommand)
      else match first with
        | ['-', '-'] =>
          match rest with
          | [] => .ok none
          | next :: _ =>
            .error (if (subcommand? next).isSome || next == "help" then .unknownArgument
              else .invalidSubcommand)
        | '-' :: '-' :: long =>
          let name := long.takeWhile (· != '=')
          let bare := name.length == long.length
          .error (
            if name == "help" then (if bare then .displayHelp else .tooManyValues)
            else if name == "version" then (if bare then .displayVersion else .tooManyValues)
            else .unknownArgument)
        | '-' :: 'h' :: _ => .error .displayHelp
        | '-' :: 'V' :: _ => .error .displayVersion
        | '-' :: _ :: _ => .error .unknownArgument
        | _ => .error .invalidSubcommand

end Command

end Localization
