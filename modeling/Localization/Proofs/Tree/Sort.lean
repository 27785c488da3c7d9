import Mathlib
import Localization.Text.Order
import Localization.Tree

/-! Sorted trees.

The order of texts is linear, so a tree whose keys are distinct has one sorted form: two trees
with the same entries in any order sort to the same tree (`sort_perm`), and sorting again
changes nothing (`sort_sort`). -/
namespace Localization

open Json (Value)

/-! ### Sorting -/

namespace Tree

/-- An entry with the keys of every object in its value in order. -/
def orderedEntry (e : Text × Value) : Text × Value := (e.1, ordered e.2)

theorem orderedEntries_eq_map (entries : List (Text × Value)) :
    orderedEntries entries = entries.map orderedEntry := by
  induction entries with
  | nil => rfl
  | cons e rest ih =>
    rw [orderedEntries, ih]
    rfl

theorem orderedItems_eq_map (items : List Value) : orderedItems items = items.map ordered := by
  induction items with
  | nil => rfl
  | cons v rest ih => rw [orderedItems, ih, List.map_cons]

/-- The order of entries by their keys. -/
def keyLe (a b : Text × Value) : Bool := Text.le a.1 b.1

theorem sort_eq (tree : Tree) : sort tree = (tree.map orderedEntry).mergeSort keyLe := by
  rw [sort, orderedEntries_eq_map]
  rfl

theorem pairwise_mergeSort (entries : Tree) :
    (entries.mergeSort keyLe).Pairwise fun a b => keyLe a b = true :=
  List.pairwise_mergeSort (fun a b c => Text.le_trans a.1 b.1 c.1) (fun a b =>
    Text.le_total a.1 b.1) entries

mutual

/-- Ordering what is in order changes nothing. -/
theorem ordered_ordered : ∀ v : Value, ordered (ordered v) = ordered v
  | .object entries => by
    have hmap : orderedEntries (orderedEntries entries) = orderedEntries entries :=
      orderedEntries_orderedEntries entries
    have hsorted := pairwise_mergeSort (orderedEntries entries)
    have hback : orderedEntries ((orderedEntries entries).mergeSort keyLe) =
        (orderedEntries entries).mergeSort keyLe := by
      rw [orderedEntries_eq_map, List.map_mergeSort (r := keyLe) (s := keyLe) (f := orderedEntry)
        (fun a _ b _ => rfl), ← orderedEntries_eq_map, hmap]
    rw [ordered, ordered]
    show Value.object ((orderedEntries ((orderedEntries entries).mergeSort keyLe)).mergeSort
      keyLe) =
      Value.object ((orderedEntries entries).mergeSort keyLe)
    rw [hback, List.mergeSort_of_pairwise hsorted]
  | .array items => by rw [ordered, ordered, orderedItems_orderedItems items]
  | .null => rfl
  | .bool _ => rfl
  | .number _ => rfl
  | .string _ => rfl

theorem orderedEntries_orderedEntries : ∀ entries : List (Text × Value),
    orderedEntries (orderedEntries entries) = orderedEntries entries
  | [] => rfl
  | (key, v) :: rest => by
    rw [orderedEntries, orderedEntries, ordered_ordered v, orderedEntries_orderedEntries rest]

theorem orderedItems_orderedItems : ∀ items : List Value,
    orderedItems (orderedItems items) = orderedItems items
  | [] => rfl
  | v :: rest =>
    by rw [orderedItems, orderedItems, ordered_ordered v, orderedItems_orderedItems rest]

end

/-- Values in a sorted tree are in order. -/
theorem ordered_of_mem_sort {tree : Tree} {e : Text × Value} (h : e ∈ sort tree) :
    ordered e.2 = e.2 := by
  rw [sort_eq, List.mem_mergeSort, List.mem_map] at h
  obtain ⟨e, -, rfl⟩ := h
  exact ordered_ordered e.2

/-- Sorting a sorted tree changes nothing. -/
theorem sort_sort (tree : Tree) : sort (sort tree) = sort tree := by
  have hmap : (sort tree).map orderedEntry = sort tree := by
    refine (List.map_congr_left fun e he => ?_).trans (List.map_id _)
    rw [orderedEntry, ordered_of_mem_sort he]
    rfl
  rw [sort_eq (sort tree), hmap, sort_eq tree, List.mergeSort_of_pairwise (pairwise_mergeSort _)]

theorem sort_map_orderedEntry (tree : Tree) : sort (tree.map orderedEntry) = sort tree := by
  rw [sort_eq, sort_eq, List.map_map]
  congr 1
  refine List.map_congr_left fun e _ => ?_
  rw [Function.comp_apply, orderedEntry, orderedEntry, ordered_ordered]

theorem keys_sort_perm (tree : Tree) : ((sort tree).map (·.1)).Perm (tree.map (·.1)) := by
  rw [sort_eq]
  refine ((List.mergeSort_perm _ _).map _).trans (.of_eq ?_)
  rw [List.map_map]
  rfl

/-- Trees with the same entries sort to the same tree. -/
theorem sort_perm {a b : Tree} (h : a.Perm b) (hk : (a.map (·.1)).Nodup) : sort a = sort b := by
  rw [sort_eq, sort_eq]
  refine List.Perm.eq_of_pairwise ?_ (pairwise_mergeSort _)
    (pairwise_mergeSort _) ?_
  · intro x y hx hy hxy hyx
    rw [List.mem_mergeSort] at hx hy
    have hkeys : ((a.map orderedEntry).map (·.1)).Nodup := by
      rw [List.map_map]
      exact hk
    have hy' : y ∈ a.map orderedEntry := ((h.map orderedEntry).mem_iff).mpr hy
    exact List.inj_on_of_nodup_map hkeys hx hy' (Text.le_antisymm hxy hyx)
  · exact (List.mergeSort_perm _ _).trans
      ((h.map orderedEntry).trans (List.mergeSort_perm _ _).symm)

end Tree

end Localization
