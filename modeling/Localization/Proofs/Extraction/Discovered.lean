import Mathlib
import Localization.Proofs.Extraction.Order
import Localization.Proofs.Tree.Objects

/-! Keys that become discoverable.

The default value of a key is set in the tree of every language. Keys whose paths lie apart from its
own do not touch it, whichever of them are set before and after, and the assets go over it as they
go over any value: `at?_extract_of_key`. -/
namespace Localization.Extraction

open Json (Value)

theorem keyPath_ne_nil (config : Config) (raw : Text) : keyPath config raw ≠ [] := by
  rw [keyPath, Key.path, Text.splitOn]
  split
  · exact List.cons_ne_nil _ _
  · exact Text.splitFrom_ne_nil _ _ _

/-- The seed of a key stands among the seeds of some keys, in front of those of other keys. -/
theorem exists_seeds_around {config : Config} {keys : List Text} (hkeys : keys.Nodup)
    {seeds : List (List Text × Value)} (hs : keys.mapM (seed config) = .ok seeds) {raw : Text}
    (hraw : raw ∈ keys) :
    ∃ before after s, seeds = before ++ s :: after ∧ seed config raw = .ok s ∧
      ∀ s' ∈ after, ∃ other ∈ keys, other ≠ raw ∧ s'.1 = keyPath config other := by
  obtain ⟨former, latter, rfl⟩ := List.append_of_mem hraw
  rw [List.mapM_append] at hs
  obtain ⟨before, -, hs⟩ := Except.bind_eq_ok_iff.mp hs
  obtain ⟨others, hlatter, hs⟩ := Except.bind_eq_ok_iff.mp hs
  rw [mapM_eq_ok_iff] at hlatter
  obtain ⟨s, after, hseed, hafter, rfl⟩ := List.forall₂_cons_left_iff.mp hlatter
  refine ⟨before, after, s, (Except.ok.inj hs).symm, hseed, fun s' hs' => ?_⟩
  have hpaths := paths_of_seeds (mapM_eq_ok_iff.mpr hafter)
  have hpath : s'.1 ∈ latter.map (keyPath config) := hpaths ▸ List.mem_map_of_mem hs'
  obtain ⟨other, hother, he⟩ := List.mem_map.mp hpath
  have hne : other ≠ raw := by
    rintro rfl
    exact (List.nodup_cons.mp (List.nodup_append.mp hkeys).2.1).1 hother
  exact ⟨other, List.mem_append_right _ (List.mem_cons_of_mem _ hother), hne, he.symm⟩

theorem exists_initialValue_of_seed {config : Config} {raw : Text} {s : List Text × Value}
    (h : seed config raw = .ok s) :
    ∃ default, Key.initialValue (Key.cut config.valueSeparator raw).1
      (Key.cut config.valueSeparator raw).2 =
        .ok default ∧ s = (keyPath config raw, default) := by
  obtain ⟨default, hdefault, he⟩ := Except.bind_eq_ok_iff.mp h
  exact ⟨default, hdefault, (Except.ok.inj he).symm⟩

/-- A seed that lies apart from all later ones is found in the tree of the seeds. -/
theorem keyAt?_seeded {before after : List (List Text × Value)} {s : List Text × Value}
    (hs : s.1 ≠ []) (hafter : ∀ s' ∈ after, Tree.AreApart s'.1 s.1) :
    keyAt? (.object (seeded (before ++ s :: after))) s.1 = some s.2 := by
  have hsplit : seeded (before ++ s :: after) = ((seeded before).setAt s.1 s.2).setAll after := by
    rw [seeded, List.foldl_append, List.foldl_cons]
    rfl
  rw [hsplit, Tree.keyAt?_setAll_of_areApart hafter]
  exact Tree.keyAt?_setAt_self _ hs _

/-- What the assets make of a default value that later ones do not touch. -/
theorem at?_treeOf_of_keyAt? {seeds : List (List Text × Value)}
    (hs : ∀ s ∈ seeds, s.2.hasDistinctKeys) {asset : Tree}
    (ha : (Value.object asset).hasDistinctKeys) {path : List Text} (hpath : path ≠ []) {d : Value}
    (hd : keyAt? (.object (seeded seeds)) path = some d) (hopen : asset.IsOpenTo path) :
    (Tree.merge (seeded seeds) asset).sort.at? path =
      some (Tree.ordered (Tree.overlaid d (asset.at? path))) := by
  have hmerged : (Value.object (Tree.merge (seeded seeds) asset)).hasDistinctKeys :=
    Tree.hasDistinctKeys_mergeEntries (hasDistinctKeys_seeded hs) asset
      (Json.hasDistinctKeys_object.mp ha).2
  rw [Tree.at?_sort hmerged, Tree.at?_merge_of_keyAt? ha hpath hd hopen, Option.map_some]

/-- In the tree of a language a key has what the assets make of its default value. -/
theorem at?_treeOf_of_mem {config : Config} {keys : List Text} (hkeys : keys.Nodup)
    {seeds : List (List Text × Value)} (hseeds : keys.mapM (seed config) = .ok seeds) {raw : Text}
    (hraw : raw ∈ keys)
    (hapart : ∀ other ∈ keys, other ≠ raw →
      Tree.AreApart (keyPath config other) (keyPath config raw))
    {asset : Option Tree} (ha : (Value.object (asset.getD [])).hasDistinctKeys)
    (hopen : (asset.getD []).IsOpenTo (keyPath config raw)) :
    ∃ default,
      Key.initialValue (Key.cut config.valueSeparator raw).1 (Key.cut config.valueSeparator raw).2 =
        .ok default ∧
      (treeOf seeds asset).at? (keyPath config raw) =
        some (Tree.ordered (Tree.overlaid default ((asset.getD []).at? (keyPath config raw)))) := by
  obtain ⟨before, after, s, rfl, hseed, hafter⟩ := exists_seeds_around hkeys hseeds hraw
  have hproper : ∀ s' ∈ before ++ s :: after, s'.2.hasDistinctKeys :=
    forall_of_mapM hseeds fun _ _ => hasDistinctKeys_seed
  obtain ⟨default, hdefault, rfl⟩ := exists_initialValue_of_seed hseed
  have hseeded :
      keyAt? (.object (seeded (before ++ (keyPath config raw, default) :: after)))
        (keyPath config raw) =
      some default := by
    refine keyAt?_seeded (keyPath_ne_nil config raw) fun s' hs' => ?_
    obtain ⟨other, hother, hne, he⟩ := hafter s' hs'
    exact he ▸ hapart other hother hne
  exact ⟨default, hdefault, at?_treeOf_of_keyAt? hproper ha (keyPath_ne_nil config raw)
    hseeded hopen⟩

/-- **Every static key becomes discoverable**: if the paths of all other keys lie apart from
that of a key, and the assets of a language have nothing but objects on the way there, the tree
of the language has at the path what the assets make of the default value of the key. -/
theorem at?_extract_of_key {config : Config} {sources : List Text} {assets : List (Text × Tree)}
    {output : Output} (ha : ∀ a ∈ assets, (Value.object a.2).hasDistinctKeys)
    (h : extract config sources assets = .ok output) {lang : Text} (hlang : lang ∈ config.langs)
    {raw : Text} (hraw : raw ∈ uniqueKeys config sources)
    (hapart : ∀ other ∈ uniqueKeys config sources, other ≠ raw →
      Tree.AreApart (keyPath config other) (keyPath config raw))
    (hopen : ((assets.lookup lang).getD []).IsOpenTo (keyPath config raw)) :
    ∃ default,
      Key.initialValue (Key.cut config.valueSeparator raw).1 (Key.cut config.valueSeparator raw).2 =
        .ok default ∧
      lang ∈ output.trees.map (·.1) ∧ ∀ tree, (lang, tree) ∈ output.trees →
        tree.at? (keyPath config raw) =
          some (Tree.ordered (Tree.overlaid default
            (((assets.lookup lang).getD []).at? (keyPath config raw)))) := by
  obtain ⟨seeds, hseeds, rfl⟩ := extract_eq_ok_iff.mp h
  have hasset : (Value.object ((assets.lookup lang).getD [])).hasDistinctKeys := by
    cases hown : assets.lookup lang with
    | none => exact Json.Object.hasDistinctKeys_nil
    | some asset => exact ha _ (mem_of_lookup hown)
  obtain ⟨default, hdefault, hfound⟩ :=
    at?_treeOf_of_mem (nodup_uniqueKeys config sources) hseeds hraw hapart hasset hopen
  refine ⟨default, hdefault, ?_, fun tree htree => ?_⟩
  · rw [outputOf, List.map_map]
    exact List.mem_map_of_mem hlang
  · obtain ⟨own, -, he⟩ := List.mem_map.mp htree
    obtain ⟨rfl, rfl⟩ : own = lang ∧ treeOf seeds (assets.lookup own) = tree := by
      simpa only [Prod.mk.injEq] using he
    exact hfound

/-- A default value that is an object, and an object of the assets in its place. -/
theorem at?_extract_of_key_merged :
    ∃ output, extract Config.standard ["$translate('home.menu@@\x7b\"b\":\"x\"\x7d')",
      "$translate('home.title@@Hi')"]
        [("en-US",
          [("home", .object [("menu", .object [("c", .string "C"), ("a", .string "A")])])])] =
            .ok output ∧
      "en-US".toList ∈ output.trees.map (·.1) ∧ ∀ tree, ("en-US".toList, tree) ∈ output.trees →
        tree.at? ["home", "menu"] =
          some (.object [("a", .string "A"), ("b", .string "x"), ("c", .string "C")]) := by
  have ha : ∀ a ∈ [("en-US".toList, [("home".toList, Value.object
      [("menu", .object [("c", .string "C"), ("a", .string "A")])])])],
        (Value.object a.2).hasDistinctKeys := by
    simp [Value.hasDistinctKeys, Json.entriesHaveDistinctKeys]
  have h :
      extract Config.standard ["$translate('home.menu@@\x7b\"b\":\"x\"\x7d')",
        "$translate('home.title@@Hi')"]
      [("en-US",
        [("home", .object [("menu", .object [("c", .string "C"), ("a", .string "A")])])])] =
      .ok ⟨[("en-US", [("home", .object
        [("menu", .object [("a", .string "A"), ("b", .string "x"), ("c", .string "C")]), ("title",
          .string "Hi")])])],
        ⟨2, 2, 0, 0⟩⟩ := by cbv
  have hkeys : uniqueKeys Config.standard
      ["$translate('home.menu@@\x7b\"b\":\"x\"\x7d')", "$translate('home.title@@Hi')"] =
        ["home.menu@@\x7b\"b\":\"x\"\x7d".toList, "home.title@@Hi".toList] := by cbv
  have hpath : keyPath Config.standard "home.menu@@\x7b\"b\":\"x\"\x7d" =
      ["home".toList, "menu".toList] := by cbv
  have hdefault : Key.initialValue (Key.cut "@@" "home.menu@@\x7b\"b\":\"x\"\x7d").1
      (Key.cut "@@" "home.menu@@\x7b\"b\":\"x\"\x7d").2 =
        .ok (.object [("b", .string "x")]) := by cbv
  have hraw : "home.menu@@\x7b\"b\":\"x\"\x7d".toList ∈ uniqueKeys Config.standard
      ["$translate('home.menu@@\x7b\"b\":\"x\"\x7d')", "$translate('home.title@@Hi')"] :=
    hkeys ▸ List.mem_cons_self
  have hapart : ∀ other ∈ uniqueKeys Config.standard
      ["$translate('home.menu@@\x7b\"b\":\"x\"\x7d')", "$translate('home.title@@Hi')"],
      other ≠ "home.menu@@\x7b\"b\":\"x\"\x7d".toList →
        Tree.AreApart (keyPath Config.standard other)
        (keyPath Config.standard "home.menu@@\x7b\"b\":\"x\"\x7d") := by
    rw [hkeys]
    decide
  have hopen :
      Tree.IsOpenTo [("home", .object [("menu", .object [("c", .string "C"), ("a", .string "A")])])]
      (keyPath Config.standard "home.menu@@\x7b\"b\":\"x\"\x7d") := by
    rw [hpath]
    intro q v hq hne hv
    obtain rfl | ⟨inner, rfl, hinner⟩ := List.prefix_cons_iff.mp hq
    · cases hv
    obtain rfl | ⟨rest, rfl, hrest⟩ := List.prefix_cons_iff.mp hinner
    · exact ⟨_, (Option.some.inj hv).symm⟩
    · rw [List.prefix_nil.mp hrest] at hne
      exact absurd rfl hne
  have hlang : "en-US".toList ∈ Config.standard.langs := by decide
  obtain ⟨default, hinitial, hlisted, hfound⟩ := at?_extract_of_key ha h hlang hraw hapart hopen
  obtain rfl := Except.ok.inj (hdefault.symm.trans hinitial)
  have hoverlaid : Tree.ordered (Tree.overlaid (.object [("b", .string "x")])
      (Tree.at? [("home", .object [("menu", .object [("c", .string "C"), ("a", .string "A")])])]
        ["home", "menu"])) =
        .object [("a", .string "A"), ("b", .string "x"), ("c", .string "C")] := by cbv
  rw [hpath] at hfound
  exact ⟨_, h, hlisted, fun tree htree => (hfound tree htree).trans (congrArg some hoverlaid)⟩

end Localization.Extraction
