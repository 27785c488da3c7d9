import Mathlib
import Localization.Proofs.Tree.Content

/-! Paths in trees.

What a path leads to in a sorted tree is what it leads to in the tree, in order (`at?_sort`).
A merge keeps what the second tree has at the end of a path, unless that is an object, whatever
the first tree has on the way (`at?_merge_of_leaf`). -/
namespace Localization

open Json (Value hasDistinctKeys_object)
open Json.Object (get?)

/-- Whether a value ends the paths that merging follows: any value but an object. -/
def Json.Value.IsLeaf (v : Value) : Prop := ∀ entries, v ≠ .object entries

/-! ### Inside a value -/

/-- In a value in order, a path leads to what it led to before, in order. -/
theorem valueAt?_ordered {v : Value} (h : v.hasDistinctKeys) (path : List Text) :
    valueAt? (Tree.ordered v) path = (valueAt? v path).map Tree.ordered := by
  induction path generalizing v with
  | nil => cases v <;> rfl
  | cons segment rest ih =>
    cases v with
    | object entries =>
      rw [hasDistinctKeys_object] at h
      rw [Tree.ordered_object, valueAt?, valueAt?, Tree.get?_sort h.1]
      cases hv : get? entries segment with
      | none => rfl
      | some u => exact ih (h.2 _ (Json.Object.mem_of_get? hv))
    | array items =>
      have hitems : Tree.ordered (.array items) = .array (items.map Tree.ordered) := by
        rw [Tree.ordered, Tree.orderedItems_eq_map]
      rw [hitems, valueAt?, valueAt?]
      cases index? segment with
      | none => rfl
      | some i =>
        rw [Option.bind_some, Option.bind_some, List.getElem?_map]
        cases hv : items[i]? with
        | none => rfl
        | some u => exact ih (Json.haveDistinctKeys_iff.mp h u (List.mem_of_getElem? hv))
    | null | bool | number | string => rfl

/-- Merging into anything keeps what a path leads to, unless that is an object. The arrays on the
path are taken over whole, and so is an object that meets none. -/
theorem valueAt?_mergeValue_of_leaf {w v : Value} (h : w.hasDistinctKeys) {path : List Text}
    (hv : valueAt? w path = some v) (hleaf : v.IsLeaf) (existing : Option Value) :
    valueAt? (Tree.mergeValue existing w) path = some v := by
  induction path generalizing w existing with
  | nil =>
    rw [valueAt?, Option.some.injEq] at hv
    subst hv
    cases w with
    | object entries => exact absurd rfl (hleaf entries)
    | _ => rfl
  | cons segment rest ih =>
    cases w with
    | object incoming =>
      by_cases hexisting : ∃ entries, existing = some (.object entries)
      · obtain ⟨entries, rfl⟩ := hexisting
        rw [hasDistinctKeys_object] at h
        rw [Tree.mergeValue_object, valueAt?, Tree.get?_mergeEntries entries h.1]
        rw [valueAt?] at hv
        obtain ⟨u, hu, hv⟩ := Option.bind_eq_some_iff.mp hv
        rw [hu, Option.map_some, Option.some_or, Option.bind_some]
        exact ih (h.2 _ (Json.Object.mem_of_get? hu)) hv _
      · rw [Tree.mergeValue_of_not_object fun entries he => hexisting ⟨entries, he⟩]
        exact hv
    | _ => exact hv

namespace Tree

/-! ### Inside a tree -/

theorem at?_eq_valueAt? {tree : Tree} {path : List Text} (h : path ≠ []) :
    tree.at? path = valueAt? (.object tree) path := by
  cases path with
  | nil => exact absurd rfl h
  | cons key rest => rw [at?, valueAt?]

/-- **In a sorted tree a path leads to what it led to before, in order.** -/
theorem at?_sort {tree : Tree} (h : (Value.object tree).hasDistinctKeys) (path : List Text) :
    tree.sort.at? path = (tree.at? path).map ordered := by
  cases path with
  | nil => rfl
  | cons key rest =>
    have hne := List.cons_ne_nil key rest
    rw [at?_eq_valueAt? hne, at?_eq_valueAt? hne, ← ordered_object, valueAt?_ordered h]

/-- **A merge keeps every value of the second tree that is no object**, whatever the first one has
at its path or on the way there. -/
theorem at?_merge_of_leaf {target source : Tree} (h : (Value.object source).hasDistinctKeys)
    {path : List Text} {v : Value} (hv : source.at? path = some v) (hleaf : v.IsLeaf) :
    (merge target source).at? path = some v := by
  cases path with
  | nil => cases hv
  | cons key rest =>
    have hne := List.cons_ne_nil key rest
    rw [at?_eq_valueAt? hne] at hv ⊢
    have := valueAt?_mergeValue_of_leaf h hv hleaf (some (.object target))
    rwa [mergeValue_object] at this

end Tree

end Localization
