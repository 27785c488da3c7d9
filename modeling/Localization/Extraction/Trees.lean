import Localization.Assets
import Localization.Extraction.Keys

/-! Trees out of keys.

The keys of all sources, each once, seed a tree per language with their default values;
what the language's assets hold goes over it, and the tree is sorted. -/
namespace Localization.Extraction

open Json (Value)

/-- Counts of an extraction. -/
structure Stats where
  files : Nat
  uniqueKeys : Nat
  dynamicKeys : Nat
  dynamicPlurals : Nat
  deriving DecidableEq, Repr

def Stats.summary (s : Stats) : List Text := [
  "extracted keys: " ++ Text.ofNat s.uniqueKeys,
  "translations skipped due to dynamic keys: " ++ Text.ofNat s.dynamicKeys,
  "plurals skipped due to dynamic keys/options: " ++ Text.ofNat s.dynamicPlurals]

/-- A sorted tree for every supported language, in order. -/
structure Output where
  trees : List (Text × Tree)
  stats : Stats

/-- The path of a raw key and its default value. -/
def seed (config : Config) (raw : Text) : Except Error (List Text × Value) := do
  let (key, default) := Key.cut config.valueSeparator raw
  return (Key.path config.keySeparator key, ← Key.initialValue key default)

/-- A tree with the default values set one after the other. -/
def seeded (seeds : List (List Text × Value)) : Tree :=
  seeds.foldl (fun tree (path, value) => tree.setAt path value) []

/-- The tree of one language. -/
def treeOf (seeds : List (List Text × Value)) (asset : Option Tree) : Tree :=
  (Tree.merge (seeded seeds) (asset.getD [])).sort

/-- The trees and counts for some sources. -/
def extract (config : Config) (sources : List Text) (assets : List (Text × Tree)) :
    Except Error Output := do
  let found := SourceKeys.concat (sources.map (collect config))
  let unique := found.keys.eraseDups
  let seeds ← unique.mapM (seed config)
  return {
    trees := config.langs.map fun lang => (lang, treeOf seeds (assets.lookup lang))
    stats := ⟨sources.length, unique.length, found.dynamicKeys, found.dynamicPlurals⟩ }

end Localization.Extraction
