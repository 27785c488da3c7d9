import Mathlib
import Localization.Proofs.Extraction.FixedPoint
import Localization.Proofs.Tree.Lookup

/-! Translations that are kept.

The default values of an extraction may collide with the assets in every way: one of them may
hold an object where the other holds a text or a list, at the end of a path or on the way
there. The assets go over the default values, so every value of theirs that is no object is
found again at its path. `at?_extract_of_asset` says so of the trees of an extraction. -/
namespace Localization.Extraction

open Json (Value)

/-- The tree of a language has what its assets have, in order. -/
theorem at?_treeOf_of_asset {seeds : List (List Text × Value)}
    (hs : ∀ seed ∈ seeds, seed.2.hasDistinctKeys) {asset : Tree}
    (ha : (Value.object asset).hasDistinctKeys) {path : List Text} {v : Value}
    (hv : asset.at? path = some v) (hleaf : v.IsLeaf) :
    (treeOf seeds (some asset)).at? path = some (Tree.ordered v) := by
  have hmerged : (Value.object (Tree.merge (seeded seeds) asset)).hasDistinctKeys :=
    Tree.hasDistinctKeys_mergeEntries (hasDistinctKeys_seeded hs) asset
      (Json.hasDistinctKeys_object.mp ha).2
  show (Tree.merge (seeded seeds) asset).sort.at? path = _
  rw [Tree.at?_sort hmerged, Tree.at?_merge_of_leaf ha hv hleaf]
  rfl

/-- **No translation is lost or changed by an extraction**: every value of the assets that is no
object is found at its path in the tree of its language, with the keys of objects inside of it in
order. -/
theorem at?_extract_of_asset {config : Config} {sources : List Text} {assets : List (Text × Tree)}
    {output : Output} (ha : ∀ a ∈ assets, (Value.object a.2).hasDistinctKeys)
    (h : extract config sources assets = .ok output) {lang : Text} (hlang : lang ∈ config.langs)
    {asset : Tree} (hasset : assets.lookup lang = some asset) {path : List Text} {v : Value}
    (hv : asset.at? path = some v) (hleaf : v.IsLeaf) :
    lang ∈ output.trees.map (·.1) ∧
      ∀ tree, (lang, tree) ∈ output.trees → tree.at? path = some (Tree.ordered v) := by
  rw [extract_eq] at h
  cases hseeds : (uniqueKeys config sources).mapM (seed config) with
  | error e => rw [hseeds] at h; cases h
  | ok seeds =>
    rw [hseeds] at h
    obtain rfl : outputOf config sources seeds assets = output := Except.ok.inj h
    have hproper : ∀ s ∈ seeds, s.2.hasDistinctKeys :=
      forall_of_mapM hseeds fun _ _ => hasDistinctKeys_seed
    constructor
    · rw [outputOf, List.map_map]
      exact List.mem_map_of_mem hlang
    · intro tree htree
      obtain ⟨own, -, he⟩ := List.mem_map.mp htree
      obtain ⟨rfl, rfl⟩ : own = lang ∧ treeOf seeds (assets.lookup own) = tree := by
        simpa only [Prod.mk.injEq] using he
      rw [hasset]
      exact at?_treeOf_of_asset hproper (ha _ (mem_of_lookup hasset)) hv hleaf

/-- A list of the assets stands where a default value asks for an object. -/
theorem at?_extract_of_asset_list :
    ∃ output, extract Config.standard ["$translate('a.b.c@@x')", "$translate('a@@y')"]
        [("en-US",
          [("a", .object [("b", .array [.object [("z", .string "1"), ("y", .string "2")]])])])] =
            .ok output ∧
      "en-US".toList ∈ output.trees.map (·.1) ∧ ∀ tree, ("en-US".toList, tree) ∈ output.trees →
        tree.at? ["a", "b"] = some (.array [.object [("y", .string "2"), ("z", .string "1")]]) := by
  have ha : ∀ a ∈ [("en-US".toList, [("a".toList, Value.object
      [("b", .array [.object [("z", .string "1"), ("y", .string "2")]])])])],
        (Value.object a.2).hasDistinctKeys := by
    simp [Value.hasDistinctKeys, Json.entriesHaveDistinctKeys, Json.haveDistinctKeys]
  have h : extract Config.standard ["$translate('a.b.c@@x')", "$translate('a@@y')"]
      [("en-US",
        [("a", .object [("b", .array [.object [("z", .string "1"), ("y", .string "2")]])])])] =
      .ok
        ⟨[("en-US",
          [("a", .object [("b", .array [.object [("y", .string "2"), ("z", .string "1")]])])])],
        ⟨2, 2, 0, 0⟩⟩ := by cbv
  have hv :
      Tree.at? [("a", .object [("b", .array [.object [("z", .string "1"), ("y", .string "2")]])])]
        ["a", "b"] =
      some (.array [.object [("z", .string "1"), ("y", .string "2")]]) := by cbv
  have hordered : Tree.ordered (.array [.object [("z", .string "1"), ("y", .string "2")]]) =
      .array [.object [("y", .string "2"), ("z", .string "1")]] := by cbv
  have hlang : "en-US".toList ∈ Config.standard.langs := by decide
  obtain ⟨hlisted, hkept⟩ := at?_extract_of_asset ha h hlang rfl hv (by intro entries he; cases he)
  rw [hordered] at hkept
  exact ⟨_, h, hlisted, hkept⟩

end Localization.Extraction
