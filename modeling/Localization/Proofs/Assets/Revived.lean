import Mathlib
import Localization.Proofs.Assets.Layers
import Localization.Proofs.Tree.Content

/-! Older files that show again.

A tree is made of default values and older files over them, and is written over these files.
What was read from a file that is replaced may be in another file of the tree now, and an older
file that is left over behind that one shows again (`IsRevived`). Making the tree once more
gives the same tree exactly if none does (`sort_merge_layered_iff`). -/
namespace Localization.Assets

open Json (Value hasDistinctKeys_object)
open Json.Object (get? get?_iff get?_eq_none_iff)
open Localization.Tree (merge mergeValue ordered)

/-- An older file shows again for an entry of a tree: the file that decided the key is replaced,
and of the files left over the last one that holds the key stands behind the one the entry is
written to and makes another value of the default value. -/
def IsRevived (older : List (Text × Tree)) (filename format : Text) (defaults tree : Tree)
    (e : Text × Value) : Prop :=
  ∃ g f v, IsLast older e.1 g ∧ g.1 ∈ (written filename format tree).map (·.1) ∧
    IsLast (leftOver older (written filename format tree)) e.1 f ∧
    Text.le (home filename format e) f.1 = true ∧
    get? f.2 e.1 = some v ∧ ordered (mergeValue (get? defaults e.1) v) ≠ e.2

/-- No two files are the last that hold a key. -/
theorem IsLast.eq {files : List (Text × Tree)} (hn : (files.map (·.1)).Nodup) {key : Text}
    {f g : Text × Tree} (hf : IsLast files key f) (hg : IsLast files key g) : f = g :=
  List.inj_on_of_nodup_map hn hf.mem hg.mem
    (Text.le_antisymm (hg.last f hf.mem hf.holds) (hf.last g hg.mem hg.holds))

section

variable {older : List (Text × Tree)} {defaults : Tree} {filename format : Text}

theorem hasDistinctKeys_merge_combined (ho : AreProper older)
    (hd : (Value.object defaults).hasDistinctKeys) :
    (Value.object (merge defaults (combined older))).hasDistinctKeys :=
  Tree.hasDistinctKeys_mergeEntries hd _ (hasDistinctKeys_object.mp (hasDistinctKeys_combined ho)).2

/-- What a key holds in default values with files over them. -/
theorem get?_sort_merge_combined (ho : AreProper older)
    (hd : (Value.object defaults).hasDistinctKeys) (key : Text) :
    get? (Tree.sort (merge defaults (combined older))) key =
      (((get? (combined older) key).map (mergeValue (get? defaults key))).or
        (get? defaults key)).map ordered := by
  rw [Tree.get?_sort (hasDistinctKeys_object.mp (hasDistinctKeys_merge_combined ho hd)).1, merge,
    Tree.get?_mergeEntries _ (hasDistinctKeys_object.mp (hasDistinctKeys_combined ho)).1]

/-- A value of the tree makes itself of the default value. -/
theorem ordered_mergeValue_of_mem (ho : AreProper older)
    (hd : (Value.object defaults).hasDistinctKeys) {tree : Tree}
    (htree : tree = Tree.sort (merge defaults (combined older))) {e : Text × Value}
    (he : e ∈ tree) :
    ordered (mergeValue (get? defaults e.1) e.2) = e.2 := by
  have hk : (Value.object tree).hasDistinctKeys :=
    htree ▸ Tree.hasDistinctKeys_sort (hasDistinctKeys_merge_combined ho hd)
  have hagain : Tree.sort (merge defaults tree) = tree :=
    (Tree.sort_merge_again hd (hasDistinctKeys_combined ho) hk
      (by rw [htree, Tree.sort_sort])).trans htree.symm
  have hmerged := Tree.hasDistinctKeys_mergeEntries hd _ (hasDistinctKeys_object.mp hk).2
  have hget := Tree.get?_sort (hasDistinctKeys_object.mp hmerged).1 e.1
  rw [show Tree.sort (Tree.mergeEntries defaults tree) = tree from hagain,
    Tree.get?_mergeEntries _ (hasDistinctKeys_object.mp hk).1,
    (get?_iff (hasDistinctKeys_object.mp hk).1).mpr he] at hget
  exact (Option.some.inj hget).symm

variable (ho : AreProper older) (hn : (older.map (·.1)).Nodup)
    (hd : (Value.object defaults).hasDistinctKeys)

include ho hn hd

/-- The value of a key whose deciding file is not replaced comes back from that file. -/
theorem ordered_mergeValue_of_not_isRevived {tree : Tree}
    (htree : tree = Tree.sort (merge defaults (combined older))) {e : Text × Value}
    (he : get? tree e.1 = some e.2) (hnot : ¬ IsRevived older filename format defaults tree e)
    {f : Text × Tree} (hf : IsLast (leftOver older (written filename format tree)) e.1 f)
    (hle : Text.le (home filename format e) f.1 = true) {v : Value} (hv : get? f.2 e.1 = some v) :
    ordered (mergeValue (get? defaults e.1) v) = e.2 := by
  obtain ⟨u, hu⟩ := Option.isSome_iff_exists.mp
    (isSome_get?_combined ho (List.mem_filter.mp hf.mem).1 hf.holds)
  obtain ⟨g, hg, hgu⟩ := (get?_combined_iff ho hn).mp hu
  by_cases hreplaced : g.1 ∈ (written filename format tree).map (·.1)
  · by_contra hne
    exact hnot ⟨g, f, v, hg, hreplaced, hf, hle, hv, hne⟩
  · -- The deciding file is left over itself, so it is the last of those.
    have hleft : IsLast (leftOver older (written filename format tree)) e.1 g := by
      refine ⟨List.mem_filter.mpr ⟨hg.mem, ?_⟩, hg.holds,
        fun h hh => hg.last h (List.mem_filter.mp hh).1⟩
      rw [Bool.not_eq_true', ← Bool.not_eq_true, List.contains_iff_mem]
      exact hreplaced
    obtain rfl := hf.eq (hn.sublist (List.filter_sublist.map _)) hleft
    rw [hv] at hgu
    cases hgu
    rw [htree, get?_sort_merge_combined ho hd, hu, Option.map_some, Option.some_or,
      Option.map_some] at he
    exact Option.some.inj he

/-- **Making a tree once more over its own files gives the same tree exactly if no older file shows
again.** -/
theorem sort_merge_layered_iff {tree : Tree}
    (htree : tree = Tree.sort (merge defaults (combined older))) :
    Tree.sort (merge defaults (combined (layered older (written filename format tree)))) = tree ↔
      ∀ e ∈ tree, ¬ IsRevived older filename format defaults tree e := by
  have hk : (Value.object tree).hasDistinctKeys :=
    htree ▸ Tree.hasDistinctKeys_sort (hasDistinctKeys_merge_combined ho hd)
  have hlayered : AreProper (layered older (written filename format tree)) :=
    areProper_layered ho (areProper_written hk)
  have hnames : ((layered older (written filename format tree)).map (·.1)).Nodup :=
    nodup_layered hn (nodup_written hk)
  have hentry {e : Text × Value} : e ∈ tree ↔ get? tree e.1 = some e.2 :=
    (get?_iff (hasDistinctKeys_object.mp hk).1).symm
  constructor
  · rintro hsame e he ⟨g, f, v, -, -, hf, hle, hv, hne⟩
    have hget := get?_sort_merge_combined hlayered hd e.1
    rw [hsame, hentry.mp he, get?_combined_of_isLast hk ho hn hf hle he hv] at hget
    exact hne (Option.some.inj hget).symm
  · intro hnot
    have hkeys :
        ∀ key,
          get?
            (Tree.sort (merge defaults (combined (layered older (written filename format tree)))))
              key =
        get? tree key := by
      intro key
      rw [get?_sort_merge_combined hlayered hd]
      cases hget : get? tree key with
      | some w =>
        have he : (key, w) ∈ tree := hentry.mpr hget
        obtain ⟨h, hh, -, hhw⟩ := @exists_mem_written filename format tree hk _ he
        obtain ⟨v, hv⟩ := Option.isSome_iff_exists.mp
          (isSome_get?_combined hlayered (List.mem_append_right _ hh) (by rw [hhw]; rfl))
        rw [hv, Option.map_some, Option.some_or, Option.map_some]
        rcases eq_or_isLast_of_get?_combined hk ho hn he hv with rfl | ⟨f, hf, hle, hfv⟩
        · rw [ordered_mergeValue_of_mem ho hd htree he]
        · rw [ordered_mergeValue_of_not_isRevived ho hn hd htree hget (hnot _ he) hf hle hfv]
      | none =>
        rw [htree, get?_sort_merge_combined ho hd, Option.map_eq_none_iff, Option.or_eq_none_iff,
          Option.map_eq_none_iff] at hget
        have hnone : get? (combined (layered older (written filename format tree))) key = none := by
          rw [Option.eq_none_iff_forall_ne_some]
          intro v hv
          obtain ⟨f, hf, hfv⟩ := (get?_combined_iff hlayered hnames).mp hv
          rcases List.mem_append.mp hf.mem with hleft | hown
          · have := isSome_get?_combined ho (List.mem_filter.mp hleft).1 hf.holds
            rw [hget.1] at this
            cases this
          · have hmem := hentry.mp ((get?_written_iff hk hown).mp hfv).1
            rw [htree, get?_sort_merge_combined ho hd, hget.1, hget.2] at hmem
            cases hmem
        rw [hnone, hget.2]
        rfl
    have hagain := hasDistinctKeys_object.mp (hasDistinctKeys_merge_combined hlayered hd)
    have hfirst := hasDistinctKeys_object.mp (hasDistinctKeys_merge_combined ho hd)
    refine ((Tree.sort_eq_iff hagain.1 hfirst.1).mpr fun key => ?_).trans htree.symm
    rw [← Tree.get?_sort hagain.1, ← Tree.get?_sort hfirst.1, ← htree, hkeys]

end

end Localization.Assets
