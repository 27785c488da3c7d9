import Mathlib
import Localization.Proofs.Text.Bytes
import Localization.Proofs.Tree.Lookup

/-! The sorted form of a tree.

`SameContent` says that two values differ in nothing but the order of keys, in the objects of every
level, also in those within arrays, whose items keep their places. A tree without repeated keys and
another one sort to the same tree exactly if their contents are the same (`sort_eq_sort_iff`): the
sorted tree is one form for all of them. Its keys increase in every object (`increases_ordered`). -/
namespace Localization.Tree

open Json (Value hasDistinctKeys_object)

/-! ### The same content -/

mutual

/-- Values that differ in nothing but the order of keys. -/
inductive SameContent : Value → Value → Prop
  | null : SameContent .null .null
  | bool (b : Bool) : SameContent (.bool b) (.bool b)
  | number (n : Json.Number) : SameContent (.number n) (.number n)
  | string (t : Text) : SameContent (.string t) (.string t)
  | array {xs ys : List Value} : SameItems xs ys → SameContent (.array xs) (.array ys)
  /-- The entries of the one, with values of the same content, are the other's in some order. -/
  | object {xs zs ys : List (Text × Value)} : SameEntries xs zs → zs.Perm ys →
      SameContent (.object xs) (.object ys)

/-- Items with the same contents, place by place. -/
inductive SameItems : List Value → List Value → Prop
  | nil : SameItems [] []
  | cons {v w : Value} {xs ys : List Value} : SameContent v w → SameItems xs ys →
      SameItems (v :: xs) (w :: ys)

/-- Entries with the same keys and with values of the same contents, place by place. -/
inductive SameEntries : List (Text × Value) → List (Text × Value) → Prop
  | nil : SameEntries [] []
  | cons {key : Text} {v w : Value} {xs ys : List (Text × Value)} :
    SameContent v w → SameEntries xs ys → SameEntries ((key, v) :: xs) ((key, w) :: ys)

end

theorem SameEntries.map_keys {xs ys : List (Text × Value)} (h : SameEntries xs ys) :
    xs.map (·.1) = ys.map (·.1) := by
  induction xs generalizing ys with
  | nil => cases h; rfl
  | cons e xs ih =>
    cases h with
    | cons _ hrest => rw [List.map_cons, List.map_cons, ih hrest]

theorem ordered_array (items : List Value) :
    ordered (.array items) = .array (items.map ordered) := by
  rw [ordered, orderedItems_eq_map]

/-- Only an array has the ordered form of an array. -/
theorem exists_array_of_ordered {v : Value} {items : List Value} (h : ordered v = .array items) :
    ∃ own, v = .array own ∧ own.map ordered = items := by
  cases v with
  | array own =>
    rw [ordered_array] at h
    cases h
    exact ⟨own, rfl, rfl⟩
  | object entries => rw [ordered_object] at h; cases h
  | null | bool | number | string => cases h

/-- Entries that are a permutation of others when their values are in order. -/
theorem exists_perm_of_sort_eq {xs ys : Tree} (h : sort xs = sort ys) :
    ∃ zs : Tree, xs.map orderedEntry = zs.map orderedEntry ∧ zs.Perm ys := by
  have hperm : (xs.map orderedEntry).Perm (ys.map orderedEntry) := by
    have hsorted : ∀ tree : Tree, (sort tree).Perm (tree.map orderedEntry) := by
      intro tree
      rw [sort_eq]
      exact List.mergeSort_perm _ _
    exact (hsorted xs).symm.trans (h ▸ hsorted ys)
  have hcomp := List.eq_map_comp_perm orderedEntry
  have :
      Relation.Comp (fun l zs => l = List.map orderedEntry zs) List.Perm
        (xs.map orderedEntry) ys := by
    rw [hcomp]
    exact hperm
  obtain ⟨zs, hzs, hperm⟩ := this
  exact ⟨zs, hzs, hperm⟩

/-! ### One sorted form -/

mutual

/-- Values of one ordered form have the same content. -/
theorem sameContent_of_ordered_eq : ∀ v w : Value, ordered v = ordered w → SameContent v w
  | .object xs, w, h => by
    obtain ⟨ys, rfl, hsort⟩ := exists_object_of_ordered (h.symm.trans (ordered_object xs))
    obtain ⟨zs, hzs, hperm⟩ := exists_perm_of_sort_eq hsort.symm
    exact .object (sameEntries_of_map_eq xs zs hzs) hperm
  | .array xs, w, h => by
    obtain ⟨ys, rfl, hitems⟩ := exists_array_of_ordered (h.symm.trans (ordered_array xs))
    exact .array (sameItems_of_map_eq xs ys hitems.symm)
  | .null, w, h => by cases w <;> first | exact .null | simp [ordered] at h
  | .bool b, w, h => by cases w <;> simp [ordered] at h; exact h ▸ .bool _
  | .number n, w, h => by cases w <;> simp [ordered] at h; exact h ▸ .number _
  | .string t, w, h => by cases w <;> simp [ordered] at h; exact h ▸ .string _

theorem sameItems_of_map_eq :
    ∀ xs ys : List Value, xs.map ordered = ys.map ordered → SameItems xs ys
  | [], ys, h => by
    obtain rfl := List.map_eq_nil_iff.mp h.symm
    exact .nil
  | v :: xs, ys, h => by
    obtain ⟨w, ys, rfl, hw, hys⟩ := List.map_eq_cons_iff.mp h.symm
    exact .cons (sameContent_of_ordered_eq v w hw.symm) (sameItems_of_map_eq xs ys hys.symm)

theorem sameEntries_of_map_eq : ∀ xs ys : List (Text × Value),
    xs.map orderedEntry = ys.map orderedEntry → SameEntries xs ys
  | [], ys, h => by
    obtain rfl := List.map_eq_nil_iff.mp h.symm
    exact .nil
  | (key, v) :: xs, ys, h => by
    obtain ⟨⟨key', w⟩, ys, rfl, hw, hys⟩ := List.map_eq_cons_iff.mp h.symm
    obtain ⟨rfl, hw⟩ := Prod.mk.inj hw
    exact .cons (sameContent_of_ordered_eq v w hw.symm) (sameEntries_of_map_eq xs ys hys.symm)

end

mutual

/-- Values of the same content have one ordered form, if no key stands in them twice. -/
theorem ordered_eq_of_sameContent :
    ∀ {v w : Value}, SameContent v w → v.hasDistinctKeys → ordered v = ordered w
  | _, _, .null, _ => rfl
  | _, _, .bool _, _ => rfl
  | _, _, .number _, _ => rfl
  | _, _, .string _, _ => rfl
  | _, _, .array hitems, hk => by
    rw [ordered_array, ordered_array, map_ordered_eq_of_sameItems hitems
      (Json.haveDistinctKeys_iff.mp hk)]
  | _, _, .object hentries hperm, hk => by
    rw [hasDistinctKeys_object] at hk
    have hkeys := hentries.map_keys ▸ hk.1
    rw [ordered_object, ordered_object, ← sort_perm hperm hkeys, ← sort_map_orderedEntry,
      map_orderedEntry_eq_of_sameEntries hentries hk.2, sort_map_orderedEntry]

theorem map_ordered_eq_of_sameItems : ∀ {xs ys : List Value}, SameItems xs ys →
    (∀ v ∈ xs, v.hasDistinctKeys) → xs.map ordered = ys.map ordered
  | _, _, .nil, _ => rfl
  | _, _, .cons hv hrest, hk => by
    rw [List.map_cons, List.map_cons, ordered_eq_of_sameContent hv (hk _ List.mem_cons_self),
      map_ordered_eq_of_sameItems hrest fun v hv => hk v (List.mem_cons_of_mem _ hv)]

theorem map_orderedEntry_eq_of_sameEntries : ∀ {xs ys : List (Text × Value)}, SameEntries xs ys →
    (∀ e ∈ xs, e.2.hasDistinctKeys) → xs.map orderedEntry = ys.map orderedEntry
  | _, _, .nil, _ => rfl
  | _, _, .cons hv hrest, hk => by
    rw [List.map_cons, List.map_cons, orderedEntry, orderedEntry,
      ordered_eq_of_sameContent hv (hk _ List.mem_cons_self),
      map_orderedEntry_eq_of_sameEntries hrest fun e he => hk e (List.mem_cons_of_mem _ he)]

end

/-! ### Increasing keys -/

/-- The keys of every object in a value increase strictly, byte by byte. -/
inductive Increases : Value → Prop
  | null : Increases .null
  | bool (b : Bool) : Increases (.bool b)
  | number (n : Json.Number) : Increases (.number n)
  | string (t : Text) : Increases (.string t)
  | array {items : List Value} : (∀ v ∈ items, Increases v) → Increases (.array items)
  | object {entries : List (Text × Value)} :
    (entries.map (·.1)).Pairwise (fun a b => Text.bytes a < Text.bytes b) →
      (∀ e ∈ entries, Increases e.2) →
      Increases (.object entries)

/-- The keys of a sorted tree increase. -/
theorem pairwise_keys_sort {tree : Tree} (h : (tree.map (·.1)).Nodup) :
    ((sort tree).map (·.1)).Pairwise fun a b => Text.bytes a < Text.bytes b := by
  have hsorted : ((sort tree).map (·.1)).Pairwise fun a b => Text.le a b = true := by
    rw [List.pairwise_map, sort_eq]
    exact pairwise_mergeSort _
  have hdistinct : ((sort tree).map (·.1)).Nodup := (keys_sort_perm tree).nodup_iff.mpr h
  exact hsorted.imp₂ (fun _ _ hle hne => Text.bytes_lt_bytes hle hne) hdistinct

mutual

theorem increases_ordered : ∀ v : Value, v.hasDistinctKeys → Increases (ordered v)
  | .object entries, h => by
    rw [hasDistinctKeys_object] at h
    rw [ordered_object]
    refine .object (pairwise_keys_sort h.1) fun e he => ?_
    rw [sort_eq, List.mem_mergeSort, ← orderedEntries_eq_map] at he
    exact increases_orderedEntries entries h.2 e he
  | .array items, h => by
    rw [ordered]
    exact .array (increases_orderedItems items (Json.haveDistinctKeys_iff.mp h))
  | .null, _ => .null
  | .bool b, _ => .bool b
  | .number n, _ => .number n
  | .string t, _ => .string t

theorem increases_orderedEntries : ∀ entries : List (Text × Value),
    (∀ e ∈ entries, e.2.hasDistinctKeys) → ∀ e ∈ orderedEntries entries, Increases e.2
  | [], _ => fun _ he => by cases he
  | (key, v) :: rest, h => by
    rw [orderedEntries, List.forall_mem_cons]
    exact ⟨increases_ordered v (h _ List.mem_cons_self),
      increases_orderedEntries rest fun e he => h e (List.mem_cons_of_mem _ he)⟩

theorem increases_orderedItems : ∀ items : List Value,
    (∀ v ∈ items, v.hasDistinctKeys) → ∀ v ∈ orderedItems items, Increases v
  | [], _ => fun _ hv => by cases hv
  | w :: rest, h => by
    rw [orderedItems, List.forall_mem_cons]
    exact ⟨increases_ordered w (h _ List.mem_cons_self),
      increases_orderedItems rest fun v hv => h v (List.mem_cons_of_mem _ hv)⟩

end

/-- **The sorted tree is a canonical form.** Two trees sort to the same tree exactly if they
differ in nothing but the order of keys, at any level. The keys of the sorted tree increase in
every object, and a path leads in it to the ordered form of what it leads to in the tree. -/
theorem sort_eq_sort_iff {a : Tree} (ha : (Value.object a).hasDistinctKeys) (b : Tree) :
    (sort a = sort b ↔ SameContent (.object a) (.object b)) ∧ Increases (.object (sort a)) ∧
      ∀ path, (sort a).at? path = (a.at? path).map ordered := by
  refine ⟨⟨fun h => ?_, fun h => ?_⟩, ?_, at?_sort ha⟩
  · exact sameContent_of_ordered_eq _ _ (by rw [ordered_object, ordered_object, h])
  · have := ordered_eq_of_sameContent h ha
    rwa [ordered_object, ordered_object, Value.object.injEq] at this
  · rw [← ordered_object]
    exact increases_ordered _ ha

/-! ### Keys in another order -/

/-- A list with an object in it, and a text. -/
def nestedTree : Tree :=
  [("b", .array [.object [("y", .string "1"), ("x", .string "2")]]), ("a", .string "t")]

/-- The same with the keys in another order at both levels. -/
def shuffledTree : Tree :=
  [("a", .string "t"), ("b", .array [.object [("x", .string "2"), ("y", .string "1")]])]

theorem hasDistinctKeys_nestedTree : (Value.object nestedTree).hasDistinctKeys := by
  refine hasDistinctKeys_object.mpr ⟨by decide,
    List.forall_mem_cons.mpr ⟨?_, List.forall_mem_singleton.mpr trivial⟩⟩
  refine Json.haveDistinctKeys_iff.mpr
    (List.forall_mem_singleton.mpr (hasDistinctKeys_object.mpr ⟨by decide, ?_⟩))
  exact List.forall_mem_cons.mpr ⟨trivial, List.forall_mem_singleton.mpr trivial⟩

theorem sameContent_shuffledTree : SameContent (.object nestedTree) (.object shuffledTree) :=
  .object
    (.cons
      (.array (.cons (.object (.cons (.string _) (.cons (.string _) .nil)) (.swap _ _ _)) .nil))
      (.cons (.string _) .nil))
    (.swap _ _ _)

theorem sort_nestedTree :
    (Value.object nestedTree).hasDistinctKeys ∧ nestedTree ≠ shuffledTree ∧
      sort nestedTree = sort shuffledTree ∧
      (sort nestedTree).at? ["b", "0", "x"] = some (.string "2") := by
  obtain ⟨hsort, -, hat⟩ := sort_eq_sort_iff hasDistinctKeys_nestedTree shuffledTree
  refine ⟨hasDistinctKeys_nestedTree, fun h => ?_, hsort.mpr sameContent_shuffledTree,
    (hat _).trans rfl⟩
  have hkeys := congrArg (List.map Prod.fst) h
  revert hkeys
  decide

end Localization.Tree
