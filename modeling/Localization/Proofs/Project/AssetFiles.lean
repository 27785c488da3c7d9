import Mathlib
import Localization.Project.Assets
import Localization.Proofs.Assets.Layers
import Localization.Proofs.Files.Changes
import Localization.Proofs.Files.Names

/-! The asset files of a language as they stand.

`assetFiles` lists the files of a directory by name with the trees in them. Reading the
assets of a language is combining these files (`readLocale_eq_iff`), and they are told
place by place from the store (`mem_assetFiles_iff`). Whatever the files are, the tree that
comes of them has no key twice (`hasDistinctKeys_readLocale`). -/
namespace Localization.Project

open Json (Value)
open Localization.Path (IsEntryName join)
open Store (isDirectory_iff isEntryName_of_mem_namesIn isFile_join_iff mem_namesIn_iff names?_eq
  nodup_namesIn pairwise_namesIn readText?_join_iff)

/-- The tree in a file, if its text is that of an object. -/
def treeIn (s : Store) (p : Path) : Option Tree :=
  (s.readText? p).bind fun text =>
    match Value.ofText? text with
    | some (.object tree) => some tree
    | _ => none

/-- Whether a name in a directory is that of an asset file. -/
def isAssetFile (s : Store) (format : Text) (dir : Path) (n : Text) : Bool :=
  s.isFile (join dir n) && Path.extensionOf? n == some format

/-- The asset files in a directory with their trees. -/
def assetFiles (s : Store) (format : Text) (dir : Path) : List (Text × Tree) :=
  (((s.names? dir).getD []).filter (isAssetFile s format dir)).filterMap fun n =>
    (treeIn s (join dir n)).map fun tree => (n, tree)

/-! ### Asset files, place by place -/

theorem assetFiles_of_not_isDirectory {s : Store} {format : Text} {dir : Path}
    (h : ¬ s.isDirectory dir = true) : assetFiles s format dir = [] := by
  rw [assetFiles, Store.names?, if_neg h]
  rfl

theorem assetFiles_eq {s : Store} {format : Text} {dir : Path} {d : Location}
    (hd : s.locate dir = some d) (hdir : s.get? d = some .directory) :
    assetFiles s format dir = ((s.namesIn d).filter (isAssetFile s format dir)).filterMap fun n =>
      (treeIn s (join dir n)).map fun tree => (n, tree) := by
  rw [assetFiles, names?_eq hd hdir]
  rfl

theorem treeIn_join_iff {s : Store} {dir : Path} {d : Location} (hd : s.locate dir = some d)
    (hdir : s.get? d = some .directory) {n : Text} (hn : IsEntryName n) {tree : Tree} :
    treeIn s (join dir n) = some tree ↔
      Store.isPath (join dir n) = true ∧
        ∃ text, s.get? (d ++ [n]) = some (.file (.text text)) ∧
          Value.ofText? text = some (.object tree) := by
  rw [treeIn, Option.bind_eq_some_iff]
  have htree (text : Text) : (match Value.ofText? text with
      | some (.object tree) => some tree
      | _ => none) = some tree ↔ Value.ofText? text = some (.object tree) := by
    split
    · next t ht => simp [ht]
    · next hne => exact ⟨fun h => (by cases h), fun h => absurd h (hne tree)⟩
  constructor
  · rintro ⟨text, htext, h⟩
    obtain ⟨hpath, hget⟩ := (readText?_join_iff hd hdir hn).mp htext
    exact ⟨hpath, text, hget, (htree text).mp h⟩
  · rintro ⟨hpath, text, hget, h⟩
    exact ⟨text, (readText?_join_iff hd hdir hn).mpr ⟨hpath, hget⟩, (htree text).mpr h⟩

/-- An asset file, told from the store. -/
structure HasAssetFile (s : Store) (format : Text) (dir : Path) (d : Location) (f : Text × Tree) :
    Prop where
  name : IsEntryName f.1
  path : Store.isPath (join dir f.1) = true
  extension : Path.extensionOf? f.1 = some format
  content : ∃ text, s.get? (d ++ [f.1]) = some (.file (.text text)) ∧
    Value.ofText? text = some (.object f.2)

theorem mem_assetFiles_iff {s : Store} {format : Text} {dir : Path} {d : Location}
    (hd : s.locate dir = some d) (hdir : s.get? d = some .directory) {f : Text × Tree} :
    f ∈ assetFiles s format dir ↔ HasAssetFile s format dir d f := by
  rw [assetFiles_eq hd hdir, List.mem_filterMap]
  constructor
  · rintro ⟨n, hmem, h⟩
    obtain ⟨hn, hasset⟩ := List.mem_filter.mp hmem
    have hname := isEntryName_of_mem_namesIn hn
    obtain ⟨tree, htree, rfl⟩ := Option.map_eq_some_iff.mp h
    obtain ⟨hpath, hcontent⟩ := (treeIn_join_iff hd hdir hname).mp htree
    rw [isAssetFile, Bool.and_eq_true, beq_iff_eq] at hasset
    exact ⟨hname, hpath, hasset.2, hcontent⟩
  · rintro ⟨hname, hpath, hext, text, hget, htext⟩
    have htree : treeIn s (join dir f.1) = some f.2 :=
      (treeIn_join_iff hd hdir hname).mpr ⟨hpath, text, hget, htext⟩
    refine ⟨f.1, List.mem_filter.mpr ⟨?_, ?_⟩, by rw [htree]; rfl⟩
    · rw [mem_namesIn_iff, hget]
      rfl
    · rw [isAssetFile, (isFile_join_iff hd hdir hname).mpr ⟨hpath, _, hget⟩, hext, beq_self_eq_true,
        Bool.and_self]

theorem map_assetFiles_sublist {s : Store} {format : Text} {dir : Path} {d : Location}
    (hd : s.locate dir = some d) (hdir : s.get? d = some .directory) :
    ((assetFiles s format dir).map (·.1)).Sublist (s.namesIn d) := by
  rw [assetFiles_eq hd hdir]
  generalize s.namesIn d = names
  induction names with
  | nil => exact .slnil
  | cons n names ih =>
    rw [List.filter_cons]
    split
    · rw [List.filterMap_cons]
      split
      · exact ih.cons n
      · next f hf =>
        obtain ⟨tree, -, rfl⟩ := Option.map_eq_some_iff.mp hf
        exact ih.cons_cons n
    · exact ih.cons n

theorem nodup_assetFiles (s : Store) (format : Text) (dir : Path) :
    ((assetFiles s format dir).map (·.1)).Nodup := by
  by_cases hdir : s.isDirectory dir = true
  · obtain ⟨d, hd, hget⟩ := isDirectory_iff.mp hdir
    exact (nodup_namesIn s d).sublist (map_assetFiles_sublist hd hget)
  · rw [assetFiles_of_not_isDirectory hdir]
    exact List.nodup_nil

theorem areProper_assetFiles (s : Store) (format : Text) (dir : Path) :
    Assets.AreProper (assetFiles s format dir) := by
  intro f hf
  obtain ⟨n, -, h⟩ := List.mem_filterMap.mp hf
  obtain ⟨tree, htree, rfl⟩ := Option.map_eq_some_iff.mp h
  obtain ⟨text, -, h⟩ := Option.bind_eq_some_iff.mp htree
  split at h
  · next t ht =>
    cases h
    exact Json.hasDistinctKeys_ofText? ht
  · cases h

/-! ### Reading them -/

theorem parse_eq_ok_iff {p : Path} {text : Text} {tree : Tree} :
    Assets.parse p text = .ok tree ↔ Value.ofText? text = some (.object tree) := by
  unfold Assets.parse
  split
  · next entries h => simp [h]
  · next v hne h =>
    rw [h]
    refine ⟨fun h => (by cases h), fun h => ?_⟩
    cases h
    exact absurd rfl (hne tree)
  · next h => simp [h]

theorem readFile_eq_ok_iff {s : Store} {p : Path} {tree : Tree} :
    (do Assets.parse p (← readText s p) : Except Error Tree) = .ok tree ↔
      treeIn s p = some tree := by
  rw [treeIn, readText]
  cases s.readText? p with
  | none => exact ⟨fun h => (by cases h), fun h => (by cases h)⟩
  | some text =>
    refine Iff.trans (show _ ↔ Assets.parse p text = .ok tree from Iff.rfl) ?_
    rw [parse_eq_ok_iff, Option.bind_some]
    split
    · next t ht => simp [ht]
    · next hne => exact ⟨fun h => absurd h (hne tree), fun h => (by cases h)⟩

/-- The files of a directory that have one of some extensions, by their names. -/
theorem filesWith_eq_map {s : Store} (extensions : List Text) {dir : Path}
    {d : Location} (hd : s.locate dir = some d) (hdir : s.get? d = some .directory) :
    filesWith s dir extensions = some (((s.namesIn d).filter fun n => s.isFile (join dir n) &&
      ((Path.extensionOf? n).map extensions.contains).getD false).map (join dir)) := by
  have hnames : ∀ n ∈ s.namesIn d, IsEntryName n := fun n hn => isEntryName_of_mem_namesIn hn
  rw [filesWith, names?_eq hd hdir, Option.map_some, List.filter_map]
  have hfilter : (s.namesIn d).filter ((fun p => s.isFile p &&
        ((Path.extension? p).map extensions.contains).getD false) ∘ join dir) =
      (s.namesIn d).filter fun n => s.isFile (join dir n) &&
        ((Path.extensionOf? n).map extensions.contains).getD false := by
    refine List.filter_congr fun n hn => ?_
    rw [Function.comp_apply, Path.extension?_join (hnames n hn)]
  rw [hfilter, Path.sort, List.mergeSort_of_pairwise]
  refine List.pairwise_map.mpr ?_
  refine ((pairwise_namesIn s d).sublist List.filter_sublist).imp_of_mem fun ha hb hle => ?_
  rw [Path.le_join (hnames _ (List.mem_filter.mp ha).1) (hnames _ (List.mem_filter.mp hb).1)]
  exact hle

theorem filesWith_eq {s : Store} {format : Text} {dir : Path} {d : Location}
    (hd : s.locate dir = some d) (hdir : s.get? d = some .directory) :
    filesWith s dir [format] = some (((s.namesIn d).filter (isAssetFile s format dir)).map
      (join dir)) := by
  rw [filesWith_eq_map [format] hd hdir]
  congr 3
  funext n
  rw [isAssetFile]
  cases Path.extensionOf? n with
  | none => rfl
  | some e =>
    rw [Option.some_beq_some]
    simp only [Option.map_some, Option.getD_some, List.contains_cons, List.contains_nil,
      Bool.or_false]

/-- Whether every asset file in a directory can be read. -/
def AreReadable (s : Store) (format : Text) (dir : Path) : Prop :=
  ∀ n, s.isDirectory dir = true → IsEntryName n → isAssetFile s format dir n = true →
    (treeIn s (join dir n)).isSome = true

/-- Reading some files is finding the trees in them. -/
theorem mapM_readFile_eq_ok_iff {s : Store} {dir : Path} {names : List Text} {trees : List Tree} :
    ((names.map (join dir)).mapM fun p => do Assets.parse p (← readText s p)) = .ok trees ↔
      (∀ n ∈ names, (treeIn s (join dir n)).isSome = true) ∧
        trees = (names.filterMap fun n => (treeIn s (join dir n)).map fun tree =>
          (n, tree)).map (·.2) := by
  rw [mapM_eq_ok_iff]
  induction names generalizing trees with
  | nil =>
    refine ⟨fun h => ?_, fun h => ?_⟩
    · cases h
      exact ⟨nofun, rfl⟩
    · rw [h.2]
      exact .nil
  | cons n names ih =>
    rw [List.map_cons]
    constructor
    · intro h
      cases h with
      | cons ha hl =>
        have htree := readFile_eq_ok_iff.mp ha
        obtain ⟨hall, rfl⟩ := ih.mp hl
        refine ⟨List.forall_mem_cons.mpr ⟨by rw [htree]; rfl, hall⟩, ?_⟩
        rw [List.filterMap_cons, htree]
        rfl
    · rintro ⟨hall, rfl⟩
      obtain ⟨tree, htree⟩ := Option.isSome_iff_exists.mp (hall n List.mem_cons_self)
      rw [List.filterMap_cons, htree]
      exact .cons (readFile_eq_ok_iff.mpr htree)
        (ih.mpr ⟨fun m hm => hall m (List.mem_cons_of_mem _ hm), rfl⟩)

theorem areReadable_iff {s : Store} {format : Text} {dir : Path} {d : Location}
    (hd : s.locate dir = some d) (hdir : s.get? d = some .directory) :
    AreReadable s format dir ↔ ∀ n ∈ (s.namesIn d).filter (isAssetFile s format dir),
      (treeIn s (join dir n)).isSome = true := by
  constructor
  · intro h n hn
    obtain ⟨hmem, hasset⟩ := List.mem_filter.mp hn
    exact h n (isDirectory_iff.mpr ⟨d, hd, hdir⟩) (isEntryName_of_mem_namesIn hmem) hasset
  · intro h n _ hn hasset
    refine h n (List.mem_filter.mpr ⟨?_, hasset⟩)
    rw [isAssetFile, Bool.and_eq_true] at hasset
    obtain ⟨-, c, hc⟩ := (isFile_join_iff hd hdir hn).mp hasset.1
    rw [mem_namesIn_iff, hc]
    rfl

/-- The asset files of a directory are in order already. -/
theorem mergeSort_assetFiles {s : Store} {format : Text} {dir : Path} {d : Location}
    (hd : s.locate dir = some d) (hdir : s.get? d = some .directory) :
    (assetFiles s format dir).mergeSort Assets.nameLe = assetFiles s format dir :=
  List.mergeSort_of_pairwise <| List.pairwise_map.mp <|
    (pairwise_namesIn s d).sublist (map_assetFiles_sublist hd hdir)

/-- **Reading the assets of a language is combining the asset files of its directory.** -/
theorem readLocale_eq_iff {s : Store} {format : Text} {dir : Path} {tree : Tree} :
    readLocale s format false dir = .ok tree ↔
      AreReadable s format dir ∧ tree = Assets.combined (assetFiles s format dir) := by
  by_cases hisdir : s.isDirectory dir = true
  · obtain ⟨d, hd, hdir⟩ := isDirectory_iff.mp hisdir
    rw [readLocale, if_pos hisdir, filesWith_eq hd hdir, areReadable_iff hd hdir, Assets.combined,
      mergeSort_assetFiles hd hdir, assetFiles_eq hd hdir]
    refine Iff.trans Except.bind_eq_ok_iff ⟨?_, ?_⟩
    · rintro ⟨trees, htrees, h⟩
      cases h
      obtain ⟨hall, rfl⟩ := mapM_readFile_eq_ok_iff.mp htrees
      exact ⟨hall, rfl⟩
    · rintro ⟨hall, rfl⟩
      exact ⟨_, mapM_readFile_eq_ok_iff.mpr ⟨hall, rfl⟩, rfl⟩
  · have hempty : Assets.combined [] = [] := by simp [Assets.combined, Assets.combine]
    rw [readLocale, if_neg hisdir, if_neg (by simp), assetFiles_of_not_isDirectory hisdir, hempty]
    refine ⟨fun h => ?_, fun h => ?_⟩
    · cases h
      exact ⟨fun _ h => absurd h hisdir, rfl⟩
    · rw [h.2]

/-- No object in a tree that is read has a key twice. -/
theorem hasDistinctKeys_readLocale {s : Store} {format : Text} {dir : Path} {tree : Tree}
    (h : readLocale s format false dir = .ok tree) : (Value.object tree).hasDistinctKeys := by
  rw [(readLocale_eq_iff.mp h).2]
  exact Assets.hasDistinctKeys_combined (areProper_assetFiles s format dir)

end Localization.Project
