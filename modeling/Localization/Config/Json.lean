import Localization.Config.Basic
import Localization.Json.Reader
import Localization.Json.Writer

/-! Configuration as JSON.

`Config.toJson` writes every field, a language that is only a tag as that tag, and no
default language where none is named. `Config.ofText?` reads fields in any order, gives
those that are missing their defaults, and accepts the values of a record in the order
of its fields in place of an object. A field that is given twice, or of the wrong type,
is refused; the values of unknown fields need only be JSON. -/
namespace Localization

open Json (Raw Value Glyph)

/-! ### Writing -/

def Locale.toJson (l : Locale) : Value :=
  let field (name : String) (v : Option Text) : List (Text × Value) :=
    v.toList.map fun t => (name.toList, .string t)
  if l.isTagOnly then .string l.lang
  else .object ([("lang".toList, .string l.lang)] ++ field "extension" l.extension ++
    field "currency" l.currency ++ field "timeZone" l.timeZone ++
    l.units.toList.map fun units =>
      ("units".toList, .object (units.entries.map fun (unit, name) => (unit, .string name))))

def Markers.toJson (m : Markers) : Value := .object [
  ("translate".toList, .string m.translate),
  ("inlineTranslate".toList, .string m.inlineTranslate),
  ("plural".toList, .string m.plural),
  ("useTranslate".toList, .string m.useTranslate)]

/-- The fields of a configuration. -/
def Config.toObject (c : Config) : Json.Object :=
  [("basePath".toList, .string c.basePath),
    ("sourceFilesPaths".toList, .array (c.sourcePaths.map .string)),
    ("excludedPaths".toList, .array (c.excludedPaths.map .string)),
    ("assetsPath".toList, .string c.assetsPath),
    ("format".toList, .string c.format),
    ("filename".toList, .string c.filename),
    ("keySeparator".toList, .string c.keySeparator),
    ("keyValueSeparator".toList, .string c.valueSeparator),
    ("supportedLocales".toList, .array (c.locales.map Locale.toJson))] ++
  c.defaultLocale.toList.map (fun lang => ("defaultLocale".toList, .string lang)) ++
  [("outDir".toList, .string c.outDir),
    ("chunksDir".toList, .string c.chunksDir),
    ("logFile".toList, .string c.logFile),
    ("markers".toList, c.markers.toJson)]

def Config.toJson (c : Config) : Value := .object c.toObject

/-- The text of a configuration file, without a line end behind it. -/
def Config.toText (c : Config) : Text := c.toJson.pretty

/-! ### Records -/

/-- The fields of a record that are given, by name. -/
abbrev Fields := List (Text × Raw)

/-- The entries of an object under the names of a record; none if one of those is given
twice or any key is no text. -/
def namedFields? (names : List Text) : List (List Glyph × Raw) → Option Fields
  | [] => some []
  | (glyphs, v) :: rest => do
    let key ← Json.decode? glyphs
    let fields ← namedFields? names rest
    if !names.contains key then return fields
    else if (fields.lookup key).isSome then none
    else return (key, v) :: fields

/-- The fields of a record that is written as an object, or as the list of its values in
order. -/
def fields? (names : List Text) : Raw → Option Fields
  | .object entries => namedFields? names entries
  | .array items => if items.length ≤ names.length then some (names.zip items) else none
  | _ => none

/-- A field, or its default if it is missing. -/
def field? {α : Type} (fields : Fields) (name : String) (default : α) (read : Raw → Option α) :
    Option α :=
  match fields.lookup name.toList with
  | some v => read v
  | none => some default

def readText? : Raw → Option Text
  | .string glyphs => Json.decode? glyphs
  | _ => none

/-- A text, or null for none. -/
def readTextOrNull? : Raw → Option (Option Text)
  | .null => some none
  | v => (readText? v).map some

def readList? {α : Type} (read : Raw → Option α) : Raw → Option (List α)
  | .array items => items.mapM read
  | _ => none

/-! ### Reading -/

/-- Names of units by unit. -/
def readUnits? : Raw → Option (Option Units)
  | .null => some none
  | .object entries => do
    let units ← entries.mapM fun (unit, name) => do return (← Json.decode? unit, ← readText? name)
    return some (Units.ofList units)
  | _ => none

def Locale.fieldNames : List Text := ["lang", "extension", "currency", "timeZone", "units"]

/-- How deep the containers of a language entry may nest, which stands inside two. -/
def Locale.maxDepth : Nat := Json.maxDepth - 2

/-- A language: its tag, or a record with at least the tag. All of it must be a value. -/
def Locale.ofRaw? (v : Raw) : Option Locale := do
  let _ ← v.toValue? Locale.maxDepth
  match v with
  | .string glyphs => (Json.decode? glyphs).map Locale.ofTag
  | v =>
    let fields ← fields? Locale.fieldNames v
    let lang ← readText? (← fields.lookup "lang".toList)
    return {
      lang
      extension := ← field? fields "extension" none readTextOrNull?
      currency := ← field? fields "currency" none readTextOrNull?
      timeZone := ← field? fields "timeZone" none readTextOrNull?
      units := ← field? fields "units" none readUnits? }

def Markers.fieldNames : List Text := ["translate", "inlineTranslate", "plural", "useTranslate"]

def Markers.ofRaw? (v : Raw) : Option Markers := do
  let fields ← fields? Markers.fieldNames v
  let std := Markers.standard
  return {
    translate := ← field? fields "translate" std.translate readText?
    inlineTranslate := ← field? fields "inlineTranslate" std.inlineTranslate readText?
    plural := ← field? fields "plural" std.plural readText?
    useTranslate := ← field? fields "useTranslate" std.useTranslate readText? }

def Config.fieldNames : List Text := [
  "basePath", "sourceFilesPaths", "excludedPaths", "assetsPath", "format", "filename",
  "keySeparator", "keyValueSeparator", "supportedLocales", "defaultLocale", "outDir",
  "chunksDir", "logFile", "markers"]

def Config.ofRaw? (v : Raw) : Option Config := do
  let fields ← fields? Config.fieldNames v
  let std := Config.standard
  return {
    basePath := ← field? fields "basePath" std.basePath readText?
    sourcePaths := ← field? fields "sourceFilesPaths" std.sourcePaths (readList? readText?)
    excludedPaths := ← field? fields "excludedPaths" std.excludedPaths (readList? readText?)
    assetsPath := ← field? fields "assetsPath" std.assetsPath readText?
    format := ← field? fields "format" std.format readText?
    filename := ← field? fields "filename" std.filename readText?
    keySeparator := ← field? fields "keySeparator" std.keySeparator readText?
    valueSeparator := ← field? fields "keyValueSeparator" std.valueSeparator readText?
    locales := ← field? fields "supportedLocales" std.locales (readList? Locale.ofRaw?)
    defaultLocale := ← field? fields "defaultLocale" std.defaultLocale readTextOrNull?
    outDir := ← field? fields "outDir" std.outDir readText?
    chunksDir := ← field? fields "chunksDir" std.chunksDir readText?
    logFile := ← field? fields "logFile" std.logFile readText?
    markers := ← field? fields "markers" std.markers Markers.ofRaw? }

/-- The configuration that a text spells. -/
def Config.ofText? (t : Text) : Option Config := (Raw.ofText? t).bind Config.ofRaw?

end Localization
