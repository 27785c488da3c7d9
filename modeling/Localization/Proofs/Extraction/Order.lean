import Mathlib
import Localization.Proofs.Extraction.Collected
import Localization.Proofs.Extraction.FixedPoint
import Localization.Proofs.Tree.Commute

/-! Sources in any order.

The sources of an extraction may come in any order: what they give is the same up to the order of
the keys (`uniqueKeys_perm`), so the default values can be worked out for one order exactly if they
can for another (`exists_seeds_perm`). `extract_perm` draws the conclusion for the counts, which are
equal, and for the trees, which are the same if no key's path leads on to that of another. -/
namespace Localization.Extraction

open Json (Value)

/-! ### What is found -/

theorem SourceKeys.counts_concat (parts : List SourceKeys) :
    (SourceKeys.concat parts).dynamicKeys = (parts.map (·.dynamicKeys)).sum ∧
      (SourceKeys.concat parts).dynamicPlurals = (parts.map (·.dynamicPlurals)).sum := by
  suffices h : ∀ start : SourceKeys,
      (parts.foldl SourceKeys.append start).dynamicKeys =
        start.dynamicKeys + (parts.map (·.dynamicKeys)).sum ∧
        (parts.foldl SourceKeys.append start).dynamicPlurals =
          start.dynamicPlurals + (parts.map (·.dynamicPlurals)).sum by
    have := h SourceKeys.empty
    simpa [SourceKeys.concat, SourceKeys.empty] using this
  induction parts with
  | nil => simp
  | cons part rest ih =>
    intro start
    rw [List.foldl_cons, (ih _).1, (ih _).2]
    simp [SourceKeys.append, Nat.add_assoc]

theorem nodup_uniqueKeys (config : Config) (sources : List Text) :
    (uniqueKeys config sources).Nodup :=
  nodup_eraseDups _

section

variable {config : Config} {sources sources' : List Text} (hperm : sources.Perm sources')

include hperm

/-- The same keys are found, in some order. -/
theorem uniqueKeys_perm : (uniqueKeys config sources).Perm (uniqueKeys config sources') := by
  refine (List.perm_ext_iff_of_nodup (nodup_uniqueKeys _ _) (nodup_uniqueKeys _ _)).mpr fun raw =>
    ?_
  rw [uniqueKeys, uniqueKeys, List.mem_eraseDups, List.mem_eraseDups, SourceKeys.keys_concat,
    SourceKeys.keys_concat]
  exact ((hperm.map (collect config)).flatMap_right _).mem_iff

theorem stats_outputOf_perm (seeds seeds' : List (List Text × Value))
    (assets : List (Text × Tree)) :
    (outputOf config sources seeds assets).stats =
      (outputOf config sources' seeds' assets).stats := by
  have hfound := hperm.map (collect config)
  rw [outputOf, outputOf, Stats.mk.injEq]
  refine ⟨hperm.length_eq, (uniqueKeys_perm hperm).length_eq, ?_, ?_⟩
  · rw [(SourceKeys.counts_concat _).1, (SourceKeys.counts_concat _).1]
    exact (hfound.map _).sum_nat
  · rw [(SourceKeys.counts_concat _).2, (SourceKeys.counts_concat _).2]
    exact (hfound.map _).sum_nat

end

/-! ### Default values -/

/-- The path of a raw key. -/
def keyPath (config : Config) (raw : Text) : List Text :=
  Key.path config.keySeparator (Key.cut config.valueSeparator raw).1

theorem path_of_seed {config : Config} {raw : Text} {s : List Text × Value}
    (h : seed config raw = .ok s) :
    s.1 = keyPath config raw := by
  obtain ⟨v, -, he⟩ := Except.bind_eq_ok_iff.mp h
  cases he
  rfl

theorem paths_of_seeds {config : Config} {keys : List Text} {seeds : List (List Text × Value)}
    (h : keys.mapM (seed config) = .ok seeds) : seeds.map (·.1) = keys.map (keyPath config) := by
  rw [mapM_eq_ok_iff] at h
  induction h with
  | nil => rfl
  | cons hseed _ ih => rw [List.map_cons, List.map_cons, ih, path_of_seed hseed]

/-- Keys in another order have their default values in another order. -/
theorem exists_seeds_perm {config : Config} {keys keys' : List Text} (h : keys.Perm keys')
    {seeds : List (List Text × Value)} (hs : keys.mapM (seed config) = .ok seeds) :
    ∃ seeds', keys'.mapM (seed config) = .ok seeds' ∧ seeds.Perm seeds' := by
  rw [mapM_eq_ok_iff] at hs
  obtain ⟨seeds', hs', hperm⟩ := List.perm_comp_forall₂ h.symm hs
  exact ⟨seeds', mapM_eq_ok_iff.mpr hs', hperm.symm⟩

/-- Whether the paths of any two keys that are found lie apart. -/
def HasApartPaths (config : Config) (sources : List Text) : Prop :=
  ∀ raw ∈ uniqueKeys config sources, ∀ raw' ∈ uniqueKeys config sources, raw ≠ raw' →
    Tree.AreApart (keyPath config raw) (keyPath config raw')

theorem pairwise_seeds {config : Config} {sources : List Text} (h : HasApartPaths config sources)
    {seeds : List (List Text × Value)}
    (hs : (uniqueKeys config sources).mapM (seed config) = .ok seeds) :
    seeds.Pairwise fun s s' => Tree.AreApart s.1 s'.1 := by
  have hpairwise : (seeds.map (·.1)).Pairwise Tree.AreApart := by
    rw [paths_of_seeds hs, List.pairwise_map]
    exact (nodup_uniqueKeys config sources).pairwise_of_forall_ne h
  exact List.pairwise_map.mp hpairwise

/-- The tree of a language for default values in another order. -/
theorem treeOf_perm {seeds seeds' : List (List Text × Value)} (hperm : seeds.Perm seeds')
    (hs : ∀ s ∈ seeds, s.2.hasDistinctKeys)
    (hapart : seeds.Pairwise fun s s' => Tree.AreApart s.1 s'.1) {asset : Option Tree}
    (ha : ∀ tree ∈ asset, (Value.object tree).hasDistinctKeys) :
    treeOf seeds asset = treeOf seeds' asset := by
  have hs' : ∀ s ∈ seeds', s.2.hasDistinctKeys := fun s h => hs s (hperm.mem_iff.mpr h)
  have hseeded : Tree.sort (seeded seeds) = Tree.sort (seeded seeds') :=
    Tree.sort_setAll_perm hperm hs hapart Json.Object.hasDistinctKeys_nil
  have hasset : (Value.object (asset.getD [])).hasDistinctKeys := by
    cases asset with
    | none => exact Json.Object.hasDistinctKeys_nil
    | some tree => exact ha tree rfl
  exact Tree.sort_mergeEntries_congr (hasDistinctKeys_seeded hs) (hasDistinctKeys_seeded hs')
    hseeded hasset

/-! ### The extraction -/

/-- **The order of the sources does not matter**: an extraction succeeds for one order if it
does for another, with the same counts, and makes the same trees, with their keys in the same
order, if the paths of any two keys lie apart. -/
theorem extract_perm {config : Config} {sources sources' : List Text}
    (hperm : sources.Perm sources') {assets : List (Text × Tree)}
    (ha : ∀ a ∈ assets, (Value.object a.2).hasDistinctKeys) :
    ((∃ output, extract config sources assets = .ok output) ↔
        ∃ output, extract config sources' assets = .ok output) ∧
      ∀ output output', extract config sources assets = .ok output →
        extract config sources' assets = .ok output' →
        output.stats = output'.stats ∧ (HasApartPaths config sources →
          output.trees = output'.trees) := by
  have hkeys : (uniqueKeys config sources).Perm (uniqueKeys config sources') :=
    uniqueKeys_perm hperm
  refine ⟨⟨?_, ?_⟩, ?_⟩
  · intro hsuccess
    obtain ⟨output, h⟩ := hsuccess
    obtain ⟨seeds, hseeds, -⟩ := extract_eq_ok_iff.mp h
    obtain ⟨seeds', hseeds', -⟩ := exists_seeds_perm hkeys hseeds
    exact ⟨_, extract_eq_ok_iff.mpr ⟨seeds', hseeds', rfl⟩⟩
  · intro hsuccess
    obtain ⟨output, h⟩ := hsuccess
    obtain ⟨seeds, hseeds, -⟩ := extract_eq_ok_iff.mp h
    obtain ⟨seeds', hseeds', -⟩ := exists_seeds_perm hkeys.symm hseeds
    exact ⟨_, extract_eq_ok_iff.mpr ⟨seeds', hseeds', rfl⟩⟩
  · intro output output' h h'
    obtain ⟨seeds, hseeds, rfl⟩ := extract_eq_ok_iff.mp h
    obtain ⟨seeds', hseeds', rfl⟩ := extract_eq_ok_iff.mp h'
    refine ⟨stats_outputOf_perm hperm seeds seeds' assets, fun hapart => ?_⟩
    obtain ⟨seeds'', hagain, hpermuted⟩ := exists_seeds_perm hkeys hseeds
    obtain rfl : seeds' = seeds'' := Except.ok.inj (hseeds'.symm.trans hagain)
    have hproper : ∀ s ∈ seeds, s.2.hasDistinctKeys :=
      forall_of_mapM hseeds fun _ _ => hasDistinctKeys_seed
    refine List.map_congr_left fun lang _ => ?_
    rw [treeOf_perm hpermuted hproper (pairwise_seeds hapart hseeds)]
    exact fun tree htree => ha _ (mem_of_lookup htree)

/-- Two keys under `home`, of which the assets have one. -/
theorem extract_perm_home :
    ["$translate('home.title@@Hi')".toList, "$translate('home.new@@x')".toList].Perm
        ["$translate('home.new@@x')".toList, "$translate('home.title@@Hi')".toList] ∧
      (∀ a ∈ [("en-US".toList, [("home".toList, Value.object [("title", .string "Hello")])])],
        (Value.object a.2).hasDistinctKeys) ∧
      HasApartPaths Config.standard ["$translate('home.title@@Hi')", "$translate('home.new@@x')"] ∧
      ∃ output output',
        extract Config.standard ["$translate('home.title@@Hi')", "$translate('home.new@@x')"]
          [("en-US", [("home", .object [("title", .string "Hello")])])] = .ok output ∧
        extract Config.standard ["$translate('home.new@@x')", "$translate('home.title@@Hi')"]
          [("en-US", [("home", .object [("title", .string "Hello")])])] = .ok output' ∧
        output.stats = output'.stats ∧ output.trees = output'.trees := by
  have hperm : ["$translate('home.title@@Hi')".toList, "$translate('home.new@@x')".toList].Perm
      ["$translate('home.new@@x')".toList, "$translate('home.title@@Hi')".toList] := .swap _ _ _
  have ha : ∀ a ∈ [("en-US".toList, [("home".toList, Value.object [("title", .string "Hello")])])],
      (Value.object a.2).hasDistinctKeys := by
    simp [Value.hasDistinctKeys, Json.entriesHaveDistinctKeys]
  have hkeys :
      uniqueKeys Config.standard ["$translate('home.title@@Hi')", "$translate('home.new@@x')"] =
      ["home.title@@Hi".toList, "home.new@@x".toList] := by cbv
  have hapart :
      HasApartPaths Config.standard ["$translate('home.title@@Hi')",
        "$translate('home.new@@x')"] := by
    rw [HasApartPaths, hkeys]
    decide
  have h : extract Config.standard ["$translate('home.title@@Hi')", "$translate('home.new@@x')"]
      [("en-US", [("home", .object [("title", .string "Hello")])])] =
      .ok ⟨[("en-US", [("home", .object [("new", .string "x"), ("title", .string "Hello")])])],
        ⟨2, 2, 0, 0⟩⟩ := by cbv
  obtain ⟨hsuccess, hsame⟩ := @extract_perm Config.standard _ _ hperm _ ha
  obtain ⟨output', h'⟩ := hsuccess.mp ⟨_, h⟩
  obtain ⟨hstats, htrees⟩ := hsame _ output' h h'
  exact ⟨hperm, ha, hapart, _, output', h, h', hstats, htrees hapart⟩

end Localization.Extraction
