import Mathlib
import Localization.Proofs.Tree.Distinct

/-! What trees hold, whatever the order of their keys.

Two trees without repeated keys sort to the same tree exactly if every key has the same
value in both, up to the order of keys in it (`sort_eq_iff`). What a merge holds is said key
by key as well (`get?_mergeEntries`), so merging into a tree what a merge into it made before
changes nothing: `sort_merge_again`. -/
namespace Localization.Tree

open Json (Value hasDistinctKeys_object)
open Json.Object (get? get?_iff get?_eq_none_iff get?_insert)

/-! ### Sorted trees, key by key -/

theorem map_keys_orderedEntry (tree : Tree) :
    (tree.map orderedEntry).map (·.1) = tree.map (·.1) := by
  rw [List.map_map]
  rfl

theorem get?_map_orderedEntry (tree : Tree) (key : Text) :
    get? (tree.map orderedEntry) key = (get? tree key).map ordered := by
  induction tree with
  | nil => rfl
  | cons e rest ih =>
    obtain ⟨k, v⟩ := e
    rw [get?] at ih ⊢
    rw [List.map_cons, orderedEntry, List.lookup, get?, List.lookup]
    cases key == k
    · exact ih
    · rfl

/-- A sorted tree holds the values of the tree with their keys in order. -/
theorem get?_sort {tree : Tree} (h : (tree.map (·.1)).Nodup) (key : Text) :
    get? (sort tree) key = (get? tree key).map ordered := by
  have hsorted : ((sort tree).map (·.1)).Nodup := (keys_sort_perm tree).nodup_iff.mpr h
  rw [← get?_map_orderedEntry]
  refine Option.ext fun v => ?_
  rw [get?_iff hsorted, get?_iff (by rwa [map_keys_orderedEntry]), sort_eq, List.mem_mergeSort]

/-- **Two trees sort to the same tree exactly if every key has the same value in both, up to the
order of keys in it.** -/
theorem sort_eq_iff {a b : Tree} (ha : (a.map (·.1)).Nodup) (hb : (b.map (·.1)).Nodup) :
    sort a = sort b ↔ ∀ key, (get? a key).map ordered = (get? b key).map ordered := by
  constructor
  · intro h key
    rw [← get?_sort ha, ← get?_sort hb, h]
  · intro h
    have hmem : ∀ e, e ∈ a.map orderedEntry ↔ e ∈ b.map orderedEntry := by
      rintro ⟨key, v⟩
      rw [← get?_iff (by rwa [map_keys_orderedEntry]), ← get?_iff (by rwa [map_keys_orderedEntry]),
        get?_map_orderedEntry, get?_map_orderedEntry, h]
    have hnodup : ∀ {t : Tree}, (t.map (·.1)).Nodup → ((t.map orderedEntry).map (·.1)).Nodup := by
      intro t ht
      rwa [map_keys_orderedEntry]
    have hperm : (a.map orderedEntry).Perm (b.map orderedEntry) :=
      (List.perm_ext_iff_of_nodup (.of_map _ (hnodup ha)) (.of_map _ (hnodup hb))).mpr hmem
    rw [← sort_map_orderedEntry a, ← sort_map_orderedEntry b, sort_perm hperm (hnodup ha)]

/-! ### Merges, key by key -/

theorem get?_mergeEntries (tree : Tree) {entries : List (Text × Value)}
    (h : (entries.map (·.1)).Nodup) (key : Text) :
    get? (mergeEntries tree entries) key =
      ((get? entries key).map (mergeValue (get? tree key))).or (get? tree key) := by
  induction entries generalizing tree with
  | nil => rfl
  | cons e rest ih =>
    obtain ⟨k, v⟩ := e
    rw [List.map_cons, List.nodup_cons] at h
    rw [mergeEntries, ih _ h.2, get?_insert]
    by_cases hk : key = k
    · subst hk
      have hnone : get? rest key = none := get?_eq_none_iff.mpr h.1
      rw [hnone]
      simp [get?, List.lookup]
    · have hb : (key == k) = false := beq_eq_false_iff_ne.mpr hk
      simp [get?, List.lookup, hb]

theorem mergeValue_of_not_object {existing : Option Value}
    (h : ∀ entries, existing ≠ some (.object entries)) (v : Value) : mergeValue existing v = v := by
  cases v with
  | object incoming => exact mergeValue.eq_2 existing incoming fun entries he => h entries he
  | _ => rfl

theorem mergeValue_object (entries incoming : List (Text × Value)) :
    mergeValue (some (.object entries)) (.object incoming) =
      .object (mergeEntries entries incoming) := by
  rw [mergeValue]

theorem ordered_object (entries : List (Text × Value)) :
    ordered (.object entries) = .object (sort entries) := by
  rw [ordered]
  rfl

/-- Only an object has the ordered form of an object. -/
theorem exists_object_of_ordered {v : Value} {entries : List (Text × Value)}
    (h : ordered v = .object entries) : ∃ own, v = .object own ∧ sort own = entries := by
  cases v with
  | object own =>
    rw [ordered_object] at h
    cases h
    exact ⟨own, rfl, rfl⟩
  | array items => rw [ordered] at h; cases h
  | null | bool | number | string => cases h

/-! ### Merging again -/

/-- Merging into a value what a merge into it made gives the same once more, up to the order
of keys. -/
def MergesOnce (e : Value) : Prop :=
  ∀ v w : Value, v.hasDistinctKeys → w.hasDistinctKeys →
    ordered w = ordered (mergeValue (some e) v) →
    ordered (mergeValue (some e) w) = ordered w

theorem mergesOnce_of_not_object {e : Value} (h : ∀ entries, e ≠ .object entries) :
    MergesOnce e := by
  intro v w _ _ _
  rw [mergeValue_of_not_object]
  rintro entries ⟨⟩
  exact h entries rfl

section

variable {entries first second : Tree} (hk : (Value.object entries).hasDistinctKeys)
  (hf : (Value.object first).hasDistinctKeys) (hs : (Value.object second).hasDistinctKeys)
  (hsame : sort second = sort (mergeEntries entries first))

include hk hf hs hsame

/-- A key that the second merge brings has the value that the first one gave it. -/
theorem ordered_of_get?_again {key : Text} {w : Value} (hw : get? second key = some w) :
    ∃ m, ordered w = ordered m ∧
      ((get? first key).map (mergeValue (get? entries key))).or (get? entries key) = some m := by
  have hmerged := hasDistinctKeys_mergeEntries hk first (hasDistinctKeys_object.mp hf).2
  have hkeys :=
    (sort_eq_iff (hasDistinctKeys_object.mp hs).1 (hasDistinctKeys_object.mp hmerged).1).mp hsame
      key
  rw [get?_mergeEntries entries (hasDistinctKeys_object.mp hf).1, hw, Option.map_some] at hkeys
  obtain ⟨m, hm, hwm⟩ := Option.map_eq_some_iff.mp hkeys.symm
  exact ⟨m, hwm.symm, hm⟩

/-- The second merge leaves no key of the object out. -/
theorem get?_eq_none_of_again {key : Text} (hw : get? second key = none) :
    get? entries key = none := by
  have hmerged := hasDistinctKeys_mergeEntries hk first (hasDistinctKeys_object.mp hf).2
  have hkeys :=
    (sort_eq_iff (hasDistinctKeys_object.mp hs).1 (hasDistinctKeys_object.mp hmerged).1).mp hsame
      key
  rw [get?_mergeEntries entries (hasDistinctKeys_object.mp hf).1, hw, Option.map_none] at hkeys
  exact (Option.or_eq_none_iff.mp (Option.map_eq_none_iff.mp hkeys.symm)).2

theorem sort_mergeEntries_again (h : ∀ e ∈ entries, MergesOnce e.2) :
    sort (mergeEntries entries second) = sort second := by
  have hmerged := hasDistinctKeys_mergeEntries hk second (hasDistinctKeys_object.mp hs).2
  refine (sort_eq_iff (hasDistinctKeys_object.mp hmerged).1 (hasDistinctKeys_object.mp hs).1).mpr
    fun key => ?_
  rw [get?_mergeEntries entries (hasDistinctKeys_object.mp hs).1]
  cases hw : get? second key with
  | none => rw [get?_eq_none_of_again hk hf hs hsame hw]; rfl
  | some w =>
    obtain ⟨m, hwm, hm⟩ := ordered_of_get?_again hk hf hs hsame hw
    have hwk := hasDistinctKeys_get? hs key w hw
    rw [Option.map_some, Option.some_or, Option.map_some, Option.map_some]
    congr 1
    cases he : get? entries key with
    | none => rw [mergeValue_of_not_object (by rintro own ⟨⟩)]
    | some e =>
      have hone : MergesOnce e := h _ (Json.Object.mem_of_get? he)
      rw [he] at hm
      cases hv : get? first key with
      | some v =>
        rw [hv, Option.map_some, Option.some_or, Option.some.injEq] at hm
        exact hone v w (hasDistinctKeys_get? hf key v hv) hwk (hm ▸ hwm)
      | none =>
        -- Only the object has the key: its value is what a merge of nothing into it makes.
        rw [hv, Option.map_none, Option.none_or, Option.some.injEq] at hm
        subst hm
        cases e with
        | object own =>
          exact hone (.object []) w Json.Object.hasDistinctKeys_nil hwk (by rw [mergeValue_object,
            mergeEntries, hwm])
        | _ => rw [mergeValue_of_not_object (by rintro own ⟨⟩)]

end

theorem mergesOnce_object {entries : Tree} (hk : (Value.object entries).hasDistinctKeys)
    (h : ∀ e ∈ entries, MergesOnce e.2) : MergesOnce (.object entries) := by
  intro v w hv hw hsame
  have hplain : ∀ u, (∀ own, u ≠ .object own) → mergeValue (some (.object entries)) u = u := by
    intro u hu
    cases u with
    | object own => exact absurd rfl (hu own)
    | _ => rfl
  cases w with
  | object second =>
    cases v with
    | object first =>
      rw [mergeValue_object, ordered_object, ordered_object] at hsame
      rw [mergeValue_object, ordered_object, ordered_object,
        sort_mergeEntries_again hk hv hw (Value.object.inj hsame) h]
    | _ =>
      rw [hplain _ (by rintro own ⟨⟩), ordered_object] at hsame
      obtain ⟨own, hown, -⟩ := exists_object_of_ordered hsame.symm
      cases hown
  | _ => rw [hplain _ (by rintro own ⟨⟩)]

mutual

theorem mergesOnce : ∀ v : Value, v.hasDistinctKeys → MergesOnce v
  | .object entries, h =>
    mergesOnce_object h (mergesOnce_entries entries (hasDistinctKeys_object.mp h).2)
  | .array _, _ | .null, _ | .bool _, _ | .number _, _ | .string _, _ =>
    mergesOnce_of_not_object (by rintro entries ⟨⟩)

theorem mergesOnce_entries : ∀ entries : List (Text × Value),
    (∀ e ∈ entries, e.2.hasDistinctKeys) → ∀ e ∈ entries, MergesOnce e.2
  | [], _ => fun _ he => by cases he
  | (key, v) :: rest, h => by
    intro e he
    rcases List.mem_cons.mp he with rfl | he
    · exact mergesOnce v (h _ List.mem_cons_self)
    · exact mergesOnce_entries rest (fun e he => h e (List.mem_cons_of_mem _ he)) e he

end

/-- **Merging into a tree what a merge into it made changes nothing**, in whatever order the keys
come back. -/
theorem sort_merge_again {tree asset back : Tree} (ht : (Value.object tree).hasDistinctKeys)
    (ha : (Value.object asset).hasDistinctKeys) (hb : (Value.object back).hasDistinctKeys)
    (h : sort back = sort (merge tree asset)) :
    sort (merge tree back) = sort (merge tree asset) := by
  rw [← h]
  exact sort_mergeEntries_again ht ha hb h
    (mergesOnce_entries tree (hasDistinctKeys_object.mp ht).2)

end Localization.Tree
