import Localization.Config.Basic
import Localization.Key
import Localization.Marker.Call
import Localization.Plural.Selection

/-! The keys of one source.

A call whose key, parameters or language are only known at run time gives no key and is
counted. Of an array of keys each element is judged alone. A plural call gives a key for
every category that some supported language can select. -/
namespace Localization.Extraction

open Marker (Call Family)

/-- What a source holds: its raw keys in order, and how many translate and plural calls
were passed over. -/
structure SourceKeys where
  keys : List Text
  dynamicKeys : Nat
  dynamicPlurals : Nat
  deriving DecidableEq, Repr

namespace SourceKeys

def empty : SourceKeys := ⟨[], 0, 0⟩

/-- What two sources hold together. -/
def append (a b : SourceKeys) : SourceKeys :=
  ⟨a.keys ++ b.keys, a.dynamicKeys + b.dynamicKeys, a.dynamicPlurals + b.dynamicPlurals⟩

instance : Append SourceKeys := ⟨append⟩

def concat (parts : List SourceKeys) : SourceKeys := parts.foldl append empty

def ofKeys (keys : List Text) : SourceKeys := ⟨keys, 0, 0⟩

def dynamicKey : SourceKeys := ⟨[], 1, 0⟩

def dynamicPlural : SourceKeys := ⟨[], 0, 1⟩

end SourceKeys

/-- Whether an argument is there and only known at run time. -/
def isDynamic (a : Option Argument) : Bool := (a.map Argument.isDynamic).getD false

/-- Whether an argument, as a key, is only known at run time. -/
def isDynamicKey (a : Argument) : Bool := a.isDynamic || a.hasSubstitution

/-- The key of one element of an array of keys. -/
def elementKeys (a : Argument) : SourceKeys :=
  if isDynamicKey a then .dynamicKey
  else match a.string? with
    | some raw => .ofKeys [raw]
    | none => .empty

/-- The keys of a call that takes a key first. -/
def translateKeys (call : Call) : SourceKeys :=
  match call.key? with
  | none => .empty
  | some key =>
    let dynamic := isDynamic call.params? || isDynamic call.lang?
    match key with
    | .array elements => if dynamic then .dynamicKey else .concat (elements.map elementKeys)
    | key => if isDynamicKey key || dynamic then .dynamicKey else elementKeys key

/-- The options of a plural call. -/
def pluralOptions (call : Call) : Plural.Options :=
  Plural.Options.ofProperties ((call.options?.bind Argument.properties?).getD [])

/-- The base key of a plural call, without a default value. -/
def pluralBase (config : Config) (call : Call) : Option Text :=
  (call.key?.bind Argument.string?).map fun raw => (Key.cut config.valueSeparator raw).1

/-- Whether a plural call is only known at run time. -/
def isDynamicPlural (call : Call) : Bool :=
  (call.key?.map isDynamicKey).getD false || isDynamic call.params? ||
    isDynamic call.options? || isDynamic call.lang?

/-- The categories that some of the languages can select, in their fixed order. -/
def allCategories (langs : List Text) (o : Plural.Options) : List Plural.Category :=
  let selected := langs.flatMap fun lang => Plural.categories lang o
  Plural.Category.all.filter selected.contains

/-- The keys of a plural call. -/
def pluralKeys (config : Config) (call : Call) : SourceKeys :=
  if call.arguments.isEmpty then .empty
  else if isDynamicPlural call then .dynamicPlural
  else .ofKeys ((allCategories config.langs (pluralOptions call)).map fun category =>
    Key.ofCategory (pluralBase config call) category config.keySeparator)

/-- The keys of a source: those of the translate families, family by family, and then
those of its plural calls. -/
def collect (config : Config) (code : Text) : SourceKeys :=
  let calls (f : Family) : List Call := Marker.scan f (config.markers.name f) code
  .concat ((Family.keyed.flatMap fun f => (calls f).map translateKeys) ++
    (calls .plural).map (pluralKeys config))

end Localization.Extraction
