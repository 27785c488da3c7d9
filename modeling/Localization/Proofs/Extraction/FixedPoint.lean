import Mathlib
import Localization.Proofs.Assets.Layers
import Localization.Proofs.Results
import Localization.Proofs.Tree.Content

/-! Extracting again.

The trees of an extraction are written to files and read back in the order of the files'
names. What comes back has the keys of the trees in another order at the top, and that is
all an extraction over it could tell from the first one: the default values are already
there, and the assets win over them as they did before.

`extract_fedBack` says that the second extraction gives the trees and the counts of the
first. Its assets have no key twice, as all that are read from files. -/
namespace Localization.Extraction

open Json (Value hasDistinctKeys_object)
open Assets (combined written)

/-- The trees as they come back from their files: those of a language merged one over the other
in the order of their names. -/
def Output.fedBack (config : Config) (output : Output) : List (Text × Tree) :=
  output.trees.map fun (lang, tree) => (lang, combined (written config.filename config.format tree))

/-- The raw keys of some sources, each once. -/
def uniqueKeys (config : Config) (sources : List Text) : List Text :=
  (SourceKeys.concat (sources.map (collect config))).keys.eraseDups

/-- What an extraction gives for some seeds. -/
def outputOf (config : Config) (sources : List Text) (seeds : List (List Text × Value))
    (assets : List (Text × Tree)) : Output where
  trees := config.langs.map fun lang => (lang, treeOf seeds (assets.lookup lang))
  stats :=
    let found := SourceKeys.concat (sources.map (collect config))
    ⟨sources.length, (uniqueKeys config sources).length, found.dynamicKeys, found.dynamicPlurals⟩

/-- The assets have no part in the seeds. -/
theorem extract_eq (config : Config) (sources : List Text) (assets : List (Text × Tree)) :
    extract config sources assets =
      ((uniqueKeys config sources).mapM (seed config)).map fun seeds =>
        outputOf config sources seeds assets := by
  rw [extract, uniqueKeys]
  cases (SourceKeys.concat (sources.map (collect config))).keys.eraseDups.mapM (seed config) <;> rfl

theorem extract_eq_ok_iff {config : Config} {sources : List Text} {assets : List (Text × Tree)}
    {output : Output} :
    extract config sources assets = .ok output ↔
      ∃ seeds, (uniqueKeys config sources).mapM (seed config) = .ok seeds ∧
        outputOf config sources seeds assets = output := by
  rw [extract_eq]
  cases (uniqueKeys config sources).mapM (seed config) with
  | error e => simp [Except.map]
  | ok seeds => simp [Except.map]

theorem hasDistinctKeys_seed {config : Config} {raw : Text} {s : List Text × Value}
    (h : seed config raw = .ok s) : s.2.hasDistinctKeys := by
  obtain ⟨v, hv, he⟩ := Except.bind_eq_ok_iff.mp h
  cases he
  exact hasDistinctKeys_initialValue hv

/-- The files of a sorted tree make that tree, up to the order of keys. -/
theorem sort_combined_written {tree : Tree} (hk : (Value.object tree).hasDistinctKeys)
    (hs : Tree.sort tree = tree) (filename format : Text) :
    Tree.sort (combined (written filename format tree)) = tree := by
  have hno : (Assets.layered [] (written filename format tree)) = written filename format tree :=
    rfl
  rw [← hno]
  refine (Assets.sort_combined_layered_iff hk (fun f hf => absurd hf List.not_mem_nil) (by simp) hs
    fun f hf => absurd hf List.not_mem_nil).mpr fun e _ => ?_
  rintro ⟨f, v, hf, -⟩
  exact absurd hf.mem List.not_mem_nil

/-- The tree of a language, over what its own files make, stays as it is. -/
theorem treeOf_combined_written {seeds : List (List Text × Value)}
    (hs : ∀ s ∈ seeds, s.2.hasDistinctKeys) {asset : Option Tree}
    (ha : ∀ tree ∈ asset, (Value.object tree).hasDistinctKeys) (filename format : Text) :
    treeOf seeds (some (combined (written filename format (treeOf seeds asset)))) =
      treeOf seeds asset := by
  have hseeded := hasDistinctKeys_seeded hs
  have hasset : (Value.object (asset.getD [])).hasDistinctKeys := by
    cases asset with
    | none => exact Json.Object.hasDistinctKeys_nil
    | some tree => exact ha tree rfl
  have htree := hasDistinctKeys_treeOf hs ha
  have hback :
      (Value.object (combined (written filename format (treeOf seeds asset)))).hasDistinctKeys :=
    Assets.hasDistinctKeys_combined (Assets.areProper_written htree)
  exact Tree.sort_merge_again hseeded hasset hback
    (sort_combined_written htree (Tree.sort_sort _) filename format)

/-- **Extracting over the files of an extraction gives that extraction once more**: the same trees,
with their keys in the same order at every level, and the same counts. -/
theorem extract_fedBack {config : Config} {sources : List Text} {assets : List (Text × Tree)}
    {output : Output} (ha : ∀ a ∈ assets, (Value.object a.2).hasDistinctKeys)
    (h : extract config sources assets = .ok output) :
    extract config sources (output.fedBack config) = .ok output := by
  rw [extract_eq] at h ⊢
  cases hseeds : (uniqueKeys config sources).mapM (seed config) with
  | error e => rw [hseeds] at h; cases h
  | ok seeds =>
    rw [hseeds] at h
    have hproper : ∀ s ∈ seeds, s.2.hasDistinctKeys :=
      forall_of_mapM hseeds fun _ _ => hasDistinctKeys_seed
    obtain rfl : outputOf config sources seeds assets = output := Except.ok.inj h
    show Except.ok (outputOf config sources seeds _) = _
    congr 1
    have htrees : config.langs.map (fun lang => (lang, treeOf seeds
          (((outputOf config sources seeds assets).fedBack config).lookup lang))) =
        config.langs.map fun lang => (lang, treeOf seeds (assets.lookup lang)) := by
      refine List.map_congr_left fun lang hlang => ?_
      have hfed : (outputOf config sources seeds assets).fedBack config = config.langs.map fun l =>
          (l,
            combined (written config.filename config.format (treeOf seeds (assets.lookup l)))) := by
        rw [Output.fedBack, outputOf, List.map_map]
        rfl
      rw [hfed, lookup_map_of_mem hlang, treeOf_combined_written hproper]
      exact fun tree htree => ha _ (mem_of_lookup htree)
    rw [outputOf, htrees]
    rfl

/-- A default value that the assets have already changed, and a key `z` whose file, `app`, is read
before that of `home`. -/
theorem extract_fedBack_home :
    (∀ a ∈ [("en-US".toList, [("home".toList, Value.object [("title", .string "Hello")])])],
      (Value.object a.2).hasDistinctKeys) ∧
    ∃ output, output.trees = [("en-US".toList,
        [("home".toList, .object [("new", .string "x"), ("title", .string "Hello")]), ("z",
          .string [])])] ∧
      extract Config.standard ["$translate('home.title@@Hi')", "$translate(['home.new@@x', 'z'])"]
        [("en-US", [("home", .object [("title", .string "Hello")])])] = .ok output ∧
      extract Config.standard ["$translate('home.title@@Hi')", "$translate(['home.new@@x', 'z'])"]
        (output.fedBack Config.standard) = .ok output := by
  have ha : ∀ a ∈ [("en-US".toList, [("home".toList, Value.object [("title", .string "Hello")])])],
      (Value.object a.2).hasDistinctKeys := by
    simp [Value.hasDistinctKeys, Json.entriesHaveDistinctKeys]
  have h :
      extract Config.standard ["$translate('home.title@@Hi')", "$translate(['home.new@@x', 'z'])"]
      [("en-US", [("home", .object [("title", .string "Hello")])])] =
      .ok ⟨[("en-US", [("home", .object [("new", .string "x"), ("title", .string "Hello")]), ("z",
        .string [])])],
        ⟨2, 3, 0, 0⟩⟩ := by cbv
  exact ⟨ha, _, rfl, h, extract_fedBack ha h⟩
end Localization.Extraction
