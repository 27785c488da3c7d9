import Mathlib
import Localization.Extraction.Trees
import Localization.Proofs.Json.Distinct
import Localization.Proofs.Tree.Sort

/-! Trees without repeated keys.

Setting values, merging and sorting keep the keys of every object distinct, so no tree that
is worked out from keys and assets has a key twice (`hasDistinctKeys_treeOf`). -/
namespace Localization

open Json (Value hasDistinctKeys_object)

namespace Tree

/-! ### Setting and merging -/

theorem hasDistinctKeys_entriesOf {v : Option Value} (h : ∀ x ∈ v, x.hasDistinctKeys) :
    (Value.object (entriesOf v)).hasDistinctKeys := by
  unfold entriesOf
  split
  · exact h _ rfl
  · exact Json.Object.hasDistinctKeys_nil

theorem hasDistinctKeys_get? {tree : Tree} (h : (Value.object tree).hasDistinctKeys) (key : Text) :
    ∀ x ∈ Json.Object.get? tree key, x.hasDistinctKeys := by
  intro x hx
  exact (hasDistinctKeys_object.mp h).2 _ (Json.Object.mem_of_get? hx)

theorem hasDistinctKeys_setAt {tree : Tree} (h : (Value.object tree).hasDistinctKeys)
    (path : List Text) {v : Value} (hv : v.hasDistinctKeys) :
    (Value.object (tree.setAt path v)).hasDistinctKeys := by
  fun_induction setAt tree path v with
  | case1 => exact h
  | case2 tree key v => exact Json.Object.hasDistinctKeys_insert h key hv
  | case3 tree key next rest v ih =>
    refine Json.Object.hasDistinctKeys_insert h key (ih ?_ hv)
    exact hasDistinctKeys_entriesOf (hasDistinctKeys_get? h key)

mutual

theorem hasDistinctKeys_mergeValue {existing : Option Value}
    (he : ∀ x ∈ existing, x.hasDistinctKeys) :
    ∀ v : Value, v.hasDistinctKeys → (mergeValue existing v).hasDistinctKeys
  | .object incoming, h => by
    cases existing with
    | none => exact h
    | some w =>
      cases w with
      | object entries =>
        exact hasDistinctKeys_mergeEntries (he _ rfl) incoming (hasDistinctKeys_object.mp h).2
      | _ => exact h
  | .array items, h => h
  | .null, h => h
  | .bool _, h => h
  | .number _, h => h
  | .string _, h => h

theorem hasDistinctKeys_mergeEntries {tree : Tree} (h : (Value.object tree).hasDistinctKeys) :
    ∀ entries : List (Text × Value), (∀ e ∈ entries, e.2.hasDistinctKeys) →
      (Value.object (mergeEntries tree entries)).hasDistinctKeys
  | [], _ => h
  | (key, v) :: rest, hv => by
    rw [mergeEntries]
    have hmerged :=
      hasDistinctKeys_mergeValue (hasDistinctKeys_get? h key) v (hv _ List.mem_cons_self)
    exact hasDistinctKeys_mergeEntries (Json.Object.hasDistinctKeys_insert h key hmerged) rest
      fun e he => hv e (List.mem_cons_of_mem _ he)

end

/-- No key is lost in a merge. -/
theorem mem_keys_mergeEntries {tree : Tree} {entries : List (Text × Value)} {key : Text}
    (h : key ∈ tree.map (·.1) ∨ key ∈ entries.map (·.1)) :
    key ∈ (mergeEntries tree entries).map (·.1) := by
  induction entries generalizing tree with
  | nil => exact h.resolve_right List.not_mem_nil
  | cons e rest ih =>
    obtain ⟨k, v⟩ := e
    rw [mergeEntries]
    refine ih ?_
    rw [Json.Object.keys_insert]
    rcases h with h | h
    · split
      · exact .inl h
      · exact .inl (List.mem_append_left _ h)
    · rcases List.mem_cons.mp h with rfl | h
      · split
        · next hk => exact .inl hk
        · exact .inl (List.mem_append_right _ (List.mem_singleton_self _))
      · exact .inr h

/-! ### Sorting -/

mutual

theorem hasDistinctKeys_ordered : ∀ v : Value, v.hasDistinctKeys → (ordered v).hasDistinctKeys
  | .object entries, h => by
    rw [hasDistinctKeys_object] at h
    refine hasDistinctKeys_object.mpr ⟨?_, fun e he => ?_⟩
    · exact ((keys_sort_perm entries).nodup_iff).mpr h.1
    · exact hasDistinctKeys_orderedEntries entries h.2 e (List.mem_mergeSort.mp he)
  | .array items, h =>
    Json.haveDistinctKeys_iff.mpr (hasDistinctKeys_orderedItems items
      (Json.haveDistinctKeys_iff.mp h))
  | .null, h => h
  | .bool _, h => h
  | .number _, h => h
  | .string _, h => h

theorem hasDistinctKeys_orderedEntries : ∀ entries : List (Text × Value),
    (∀ e ∈ entries, e.2.hasDistinctKeys) → ∀ e ∈ orderedEntries entries, e.2.hasDistinctKeys
  | [], _ => fun _ he => by cases he
  | (key, v) :: rest, h => by
    intro e he
    rw [orderedEntries] at he
    rcases List.mem_cons.mp he with rfl | he
    · exact hasDistinctKeys_ordered v (h _ List.mem_cons_self)
    · exact hasDistinctKeys_orderedEntries rest (fun e he => h e (List.mem_cons_of_mem _ he)) e he

theorem hasDistinctKeys_orderedItems : ∀ items : List Value,
    (∀ v ∈ items, v.hasDistinctKeys) → ∀ v ∈ orderedItems items, v.hasDistinctKeys
  | [], _ => fun _ hv => by cases hv
  | w :: rest, h => by
    intro v hv
    rw [orderedItems] at hv
    rcases List.mem_cons.mp hv with rfl | hv
    · exact hasDistinctKeys_ordered w (h _ List.mem_cons_self)
    · exact hasDistinctKeys_orderedItems rest (fun v hv => h v (List.mem_cons_of_mem _ hv)) v hv

end

theorem hasDistinctKeys_sort {tree : Tree} (h : (Value.object tree).hasDistinctKeys) :
    (Value.object (sort tree)).hasDistinctKeys := by
  have := hasDistinctKeys_ordered (.object tree) h
  rwa [ordered] at this

end Tree

/-! ### Trees of an extraction -/

namespace Extraction

theorem hasDistinctKeys_initialValue {key : Text} {raw : Option Text} {v : Value}
    (h : Key.initialValue key raw = .ok v) : v.hasDistinctKeys := by
  unfold Key.initialValue at h
  split at h
  · cases h
    trivial
  · split at h
    · split at h
      · next w hw =>
        cases h
        exact Json.hasDistinctKeys_ofText? hw
      · cases h
    · cases h
      trivial

theorem hasDistinctKeys_seeded {seeds : List (List Text × Value)}
    (h : ∀ seed ∈ seeds, seed.2.hasDistinctKeys) :
    (Value.object (seeded seeds)).hasDistinctKeys := by
  suffices hfold : ∀ tree : Tree, (Value.object tree).hasDistinctKeys →
      (Value.object (seeds.foldl (fun tree seed =>
        Tree.setAt tree seed.1 seed.2) tree)).hasDistinctKeys from
    hfold [] Json.Object.hasDistinctKeys_nil
  induction seeds with
  | nil => exact fun tree ht => ht
  | cons seed rest ih =>
    intro tree ht
    exact ih (fun s hs => h s (List.mem_cons_of_mem _ hs)) _
      (Tree.hasDistinctKeys_setAt ht seed.1 (h seed List.mem_cons_self))

/-- **The tree of a language has no key twice.** -/
theorem hasDistinctKeys_treeOf {seeds : List (List Text × Value)}
    (h : ∀ seed ∈ seeds, seed.2.hasDistinctKeys) {asset : Option Tree}
    (ha : ∀ tree ∈ asset, (Value.object tree).hasDistinctKeys) :
    (Value.object (treeOf seeds asset)).hasDistinctKeys := by
  refine Tree.hasDistinctKeys_sort (Tree.hasDistinctKeys_mergeEntries
    (hasDistinctKeys_seeded h) _ ?_)
  cases asset with
  | none => exact fun _ he => by cases he
  | some tree => exact (hasDistinctKeys_object.mp (ha tree rfl)).2

end Extraction

end Localization
