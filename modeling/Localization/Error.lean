import Localization.Text.Basic

/-! Why a run fails, and the wording of each cause. -/
namespace Localization

/-- What is wrong with a configuration. -/
inductive ConfigFault where
  | noLocales
  | invalidLocale (lang : Text)
  | foreignDefault (lang : Text)
  | emptyKeySeparator
  | emptyValueSeparator
  | sameSeparators (separator : Text)
  | unknownFormat (format : Text)
  | invalidExclusion (pattern : Text)
  deriving DecidableEq, Repr

def ConfigFault.message : ConfigFault → Text
  | noLocales => "'supportedLocales' must contain at least one locale"
  | invalidLocale lang => "Invalid locale in 'supportedLocales': \"" ++ lang ++ "\""
  | foreignDefault lang => "'defaultLocale' \"" ++ lang ++ "\" is not one of 'supportedLocales'"
  | emptyKeySeparator => "'keySeparator' must not be empty"
  | emptyValueSeparator => "'keyValueSeparator' must not be empty"
  | sameSeparators separator =>
    "'keySeparator' and 'keyValueSeparator' must differ (both \"" ++ separator ++ "\")"
  | unknownFormat format =>
    "Unsupported 'format': \"" ++ format ++ "\" (only \"json\" is supported)"
  | invalidExclusion pattern => "Invalid glob pattern in 'excludedPaths': \"" ++ pattern ++ "\""

/-- Why a run fails. -/
inductive Error where
  | config (fault : ConfigFault)
  | invalidDefault (key raw : Text)
  | malformedJson (path : Text)
  | notAnObject (path : Text)
  | unreadableFile (path : Text)
  | unreadableDirectory (path : Text)
  | unreadableChunks (path : Text)
  | missingAssets (path : Text)
  | missingSource (path : Text)
  | invalidSource (pattern : Text)
  | invalidExclusion (pattern : Text)
  | uncreatedDirectory (path : Text)
  | unwrittenFile (path : Text)
  | unopenedLog (path : Text)
  | invalidRoot (path : Text)
  | unreadableConfig (path : Text)
  | malformedConfig (path : Text)
  | configExists (name : Text)
  deriving DecidableEq, Repr

def Error.message : Error → Text
  | config fault => fault.message
  | invalidDefault key raw => "Invalid default value for key '" ++ key ++ "': " ++ raw
  | malformedJson path => "Failed to parse JSON: " ++ path
  | notAnObject path => "Root of JSON file must be an object: " ++ path
  | unreadableFile path => "Failed to read file: " ++ path
  | unreadableDirectory path => "Failed to read directory: " ++ path
  | unreadableChunks path => "Failed to read chunks directory: " ++ path
  | missingAssets path => "Assets directory does not exist: " ++ path
  | missingSource path => "Source path does not exist: " ++ path
  | invalidSource pattern => "Invalid source pattern '" ++ pattern ++ "'"
  | invalidExclusion pattern => "Invalid excluded pattern '" ++ pattern ++ "'"
  | uncreatedDirectory path => "Failed to create directory: " ++ path
  | unwrittenFile path => "Failed to write file: " ++ path
  | unopenedLog path => "Failed to open log file: " ++ path
  | invalidRoot path => "Invalid root directory: " ++ path
  | unreadableConfig path => "Failed to read config file: " ++ path
  | malformedConfig path => "Failed to parse config file: " ++ path
  | configExists name => name ++ " already exists"

end Localization
