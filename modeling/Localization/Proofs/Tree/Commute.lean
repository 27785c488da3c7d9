import Mathlib
import Localization.Proofs.Tree.Content

/-! Trees that differ in the order of keys only.

Two trees without repeated keys sort to the same tree if they differ in nothing but the order of
their keys. Setting a value (`sort_setAt_congr`) and merging (`sort_mergeEntries_congr`) do not see
that order, and of two values at paths that lie apart either may be set first (`sort_setAt_comm`).
So default values at paths that lie apart make the same tree in any order: `sort_setAll_perm`. -/
namespace Localization.Tree

open Json (Value hasDistinctKeys_object)
open Json.Object (get? get?_insert)

/-- Whether neither of two paths leads on to the other, and they are not equal. -/
def AreApart (p q : List Text) : Prop := ¬ p <+: q ∧ ¬ q <+: p

instance (p q : List Text) : Decidable (AreApart p q) :=
  inferInstanceAs (Decidable (¬ p <+: q ∧ ¬ q <+: p))

theorem AreApart.symm {p q : List Text} (h : AreApart p q) : AreApart q p := ⟨h.2, h.1⟩

theorem AreApart.exists_eq_cons {p q : List Text} (h : AreApart p q) :
    ∃ key rest, p = key :: rest :=
  List.exists_cons_of_ne_nil fun hp => h.1 (hp ▸ List.nil_prefix)

/-- Paths that lie apart behind the same key lie apart from there. -/
theorem AreApart.of_cons {key : Text} {p q : List Text} (h : AreApart (key :: p) (key :: q)) :
    AreApart p q :=
  ⟨fun hp => h.1 (List.cons_prefix_cons.mpr ⟨rfl, hp⟩), fun hp =>
    h.2 (List.cons_prefix_cons.mpr ⟨rfl, hp⟩)⟩

/-! ### Setting, key by key -/

/-- The value of a key behind which a value is set: the value itself, or an object that has it
at the rest of the path. -/
def childAt (own : Option Value) (rest : List Text) (value : Value) : Value :=
  match rest with
  | [] => value
  | next :: rest => .object (setAt (entriesOf own) (next :: rest) value)

@[simp] theorem entriesOf_object (entries : Tree) : entriesOf (some (.object entries)) = entries :=
  rfl

theorem get?_setAt (tree : Tree) (key : Text) (rest : List Text) (value : Value) (k : Text) :
    get? (setAt tree (key :: rest) value) k = if k == key then
      some (childAt (get? tree key) rest value) else get? tree k := by
  cases rest with
  | nil => exact get?_insert tree key value k
  | cons next rest => exact get?_insert tree key _ k

/-- Values that differ in the order of keys only hold entries that do. -/
theorem sort_entriesOf_congr {v w : Option Value} (h : v.map ordered = w.map ordered) :
    sort (entriesOf v) = sort (entriesOf w) := by
  cases v with
  | none =>
    rw [Option.map_none, eq_comm, Option.map_eq_none_iff] at h
    rw [h]
  | some v =>
    cases w with
    | none => cases h
    | some w =>
      have h : ordered v = ordered w := Option.some.inj h
      cases v with
      | object own =>
        obtain ⟨other, rfl, hsort⟩ := exists_object_of_ordered (h.symm.trans (ordered_object own))
        exact hsort.symm
      | _ =>
        cases w with
        | object other =>
          obtain ⟨own, hown, -⟩ := exists_object_of_ordered (h.trans (ordered_object other))
          cases hown
        | _ => rfl

/-- **Setting a value does not see the order of keys.** -/
theorem sort_setAt_congr {a b : Tree} (ha : (Value.object a).hasDistinctKeys)
    (hb : (Value.object b).hasDistinctKeys) (h : sort a = sort b) (path : List Text) {v : Value}
    (hv : v.hasDistinctKeys) :
    sort (a.setAt path v) = sort (b.setAt path v) := by
  induction path generalizing a b with
  | nil => exact h
  | cons key rest ih =>
    have hkeys :=
      (sort_eq_iff (hasDistinctKeys_object.mp ha).1 (hasDistinctKeys_object.mp hb).1).mp h
    have hseta := hasDistinctKeys_setAt ha (key :: rest) hv
    have hsetb := hasDistinctKeys_setAt hb (key :: rest) hv
    refine (sort_eq_iff (hasDistinctKeys_object.mp hseta).1 (hasDistinctKeys_object.mp hsetb).1).mpr
      fun k => ?_
    rw [get?_setAt, get?_setAt]
    split
    · rw [Option.map_some, Option.map_some, Option.some.injEq]
      cases rest with
      | nil => rfl
      | cons next rest =>
        rw [childAt, childAt, ordered_object, ordered_object]
        congr 1
        exact ih (hasDistinctKeys_entriesOf (hasDistinctKeys_get? ha key))
          (hasDistinctKeys_entriesOf (hasDistinctKeys_get? hb key))
            (sort_entriesOf_congr (hkeys key))
    · exact hkeys k

/-- **Of two values at paths that lie apart, either may be set first.** -/
theorem sort_setAt_comm {tree : Tree} (ht : (Value.object tree).hasDistinctKeys) {p q : List Text}
    (hapart : AreApart p q) {v w : Value} (hv : v.hasDistinctKeys) (hw : w.hasDistinctKeys) :
    sort ((tree.setAt p v).setAt q w) = sort ((tree.setAt q w).setAt p v) := by
  induction p generalizing tree q with
  | nil => exact absurd List.nil_prefix hapart.1
  | cons k p ih =>
    obtain ⟨l, q, rfl⟩ := hapart.symm.exists_eq_cons
    have hfirst := hasDistinctKeys_setAt (hasDistinctKeys_setAt ht (k :: p) hv) (l :: q) hw
    have hsecond := hasDistinctKeys_setAt (hasDistinctKeys_setAt ht (l :: q) hw) (k :: p) hv
    refine (sort_eq_iff (hasDistinctKeys_object.mp hfirst).1
      (hasDistinctKeys_object.mp hsecond).1).mpr fun key => ?_
    by_cases hkl : k = l
    · -- Both paths lead into the same entry, in which they lie apart as well.
      subst hkl
      have hrest := hapart.of_cons
      simp only [get?_setAt]
      by_cases hkey : key = k
      · subst hkey
        obtain ⟨_, p', rfl⟩ := hrest.exists_eq_cons
        obtain ⟨_, q', rfl⟩ := hrest.symm.exists_eq_cons
        simp only [beq_self_eq_true, if_true, Option.map_some, childAt, entriesOf_object,
          ordered_object]
        rw [ih (hasDistinctKeys_entriesOf (hasDistinctKeys_get? ht key)) hrest]
      · simp only [beq_eq_false_iff_ne.mpr hkey, Bool.false_eq_true, if_false]
    · have hlk : l ≠ k := Ne.symm hkl
      simp only [get?_setAt]
      by_cases hkey : key = k
      · subst hkey
        simp [hkl]
      · by_cases hkey' : key = l
        · subst hkey'
          simp [hlk]
        · simp [hkey, hkey']

/-! ### Merging -/

/-- Whether merging a value into another does not see the order of keys there. -/
def MergesAlike (v : Value) : Prop :=
  ∀ x y : Option Value, (∀ u ∈ x, u.hasDistinctKeys) → (∀ u ∈ y, u.hasDistinctKeys) →
    x.map ordered = y.map ordered →
    ordered (mergeValue x v) = ordered (mergeValue y v)

theorem sort_mergeEntries_congr_of {a b : Tree} (ha : (Value.object a).hasDistinctKeys)
    (hb : (Value.object b).hasDistinctKeys) (h : sort a = sort b) {entries : Tree}
    (he : (Value.object entries).hasDistinctKeys) (halike : ∀ e ∈ entries, MergesAlike e.2) :
    sort (mergeEntries a entries) = sort (mergeEntries b entries) := by
  have hkeys := (sort_eq_iff (hasDistinctKeys_object.mp ha).1 (hasDistinctKeys_object.mp hb).1).mp h
  have hma := hasDistinctKeys_mergeEntries ha entries (hasDistinctKeys_object.mp he).2
  have hmb := hasDistinctKeys_mergeEntries hb entries (hasDistinctKeys_object.mp he).2
  refine (sort_eq_iff (hasDistinctKeys_object.mp hma).1 (hasDistinctKeys_object.mp hmb).1).mpr
    fun key => ?_
  rw [get?_mergeEntries a (hasDistinctKeys_object.mp he).1,
    get?_mergeEntries b (hasDistinctKeys_object.mp he).1]
  cases hv : get? entries key with
  | none =>
    rw [Option.map_none, Option.map_none, Option.none_or, Option.none_or]
    exact hkeys key
  | some v =>
    rw [Option.map_some, Option.map_some, Option.some_or, Option.some_or, Option.map_some,
      Option.map_some]
    congr 1
    exact halike _ (Json.Object.mem_of_get? hv) _ _ (hasDistinctKeys_get? ha key)
      (hasDistinctKeys_get? hb key) (hkeys key)

theorem mergesAlike_object {entries : Tree} (h : (Value.object entries).hasDistinctKeys)
    (halike : ∀ e ∈ entries, MergesAlike e.2) : MergesAlike (.object entries) := by
  intro x y hx hy hxy
  have hsort := sort_entriesOf_congr hxy
  have hplain : ∀ {z : Option Value}, (∀ own, z ≠ some (.object own)) →
      mergeValue z (.object entries) = .object entries := fun hz => mergeValue_of_not_object hz _
  by_cases hobject : ∃ own, x = some (.object own)
  · obtain ⟨own, rfl⟩ := hobject
    rw [Option.map_some, ordered_object, eq_comm, Option.map_eq_some_iff] at hxy
    obtain ⟨z, rfl, hz⟩ := hxy
    obtain ⟨other, rfl, hother⟩ := exists_object_of_ordered hz
    rw [mergeValue_object, mergeValue_object, ordered_object, ordered_object,
      sort_mergeEntries_congr_of (hx _ rfl) (hy _ rfl) hother.symm h halike]
  · have hnone : ∀ own, y ≠ some (.object own) := by
      intro own he
      subst he
      rw [Option.map_some, ordered_object, Option.map_eq_some_iff] at hxy
      obtain ⟨z, rfl, hz⟩ := hxy
      obtain ⟨other, rfl, -⟩ := exists_object_of_ordered hz
      exact hobject ⟨other, rfl⟩
    rw [hplain fun own he => hobject ⟨own, he⟩, hplain hnone]

mutual

theorem mergesAlike : ∀ v : Value, v.hasDistinctKeys → MergesAlike v
  | .object entries, h =>
    mergesAlike_object h (mergesAlike_entries entries (hasDistinctKeys_object.mp h).2)
  | .array _, _ | .null, _ | .bool _, _ | .number _, _ | .string _, _ => fun _ _ _ _ _ => rfl

theorem mergesAlike_entries : ∀ entries : List (Text × Value),
    (∀ e ∈ entries, e.2.hasDistinctKeys) → ∀ e ∈ entries, MergesAlike e.2
  | [], _ => fun _ he => by cases he
  | (key, v) :: rest, h => by
    intro e he
    rcases List.mem_cons.mp he with rfl | he
    · exact mergesAlike v (h _ List.mem_cons_self)
    · exact mergesAlike_entries rest (fun e he => h e (List.mem_cons_of_mem _ he)) e he

end

/-- **Merging into a tree does not see the order of its keys.** -/
theorem sort_mergeEntries_congr {a b : Tree} (ha : (Value.object a).hasDistinctKeys)
    (hb : (Value.object b).hasDistinctKeys) (h : sort a = sort b) {entries : Tree}
    (he : (Value.object entries).hasDistinctKeys) :
    sort (mergeEntries a entries) = sort (mergeEntries b entries) :=
  sort_mergeEntries_congr_of ha hb h he
    (mergesAlike_entries entries (hasDistinctKeys_object.mp he).2)

/-! ### Setting many values -/

/-- Sets values one after the other. -/
def setAll (tree : Tree) (seeds : List (List Text × Value)) : Tree :=
  seeds.foldl (fun tree seed => tree.setAt seed.1 seed.2) tree

theorem sort_setAll_congr {a b : Tree} (ha : (Value.object a).hasDistinctKeys)
    (hb : (Value.object b).hasDistinctKeys) (h : sort a = sort b) {seeds : List (List Text × Value)}
    (hs : ∀ s ∈ seeds, s.2.hasDistinctKeys) :
    sort (a.setAll seeds) = sort (b.setAll seeds) := by
  induction seeds generalizing a b with
  | nil => exact h
  | cons s rest ih =>
    have hown := hs s List.mem_cons_self
    exact ih (hasDistinctKeys_setAt ha s.1 hown) (hasDistinctKeys_setAt hb s.1 hown)
      (sort_setAt_congr ha hb h s.1 hown)
      fun s hs' => hs s (List.mem_cons_of_mem _ hs')

/-- **Values at paths that lie apart make the same tree in whatever order they are set.** -/
theorem sort_setAll_perm {seeds seeds' : List (List Text × Value)} (hperm : seeds.Perm seeds')
    (hs : ∀ s ∈ seeds, s.2.hasDistinctKeys) (hapart : seeds.Pairwise fun s s' => AreApart s.1 s'.1)
    {tree : Tree} (ht : (Value.object tree).hasDistinctKeys) :
    sort (tree.setAll seeds) = sort (tree.setAll seeds') := by
  induction hperm generalizing tree with
  | nil => rfl
  | cons s _ ih =>
    exact ih (fun s hs' => hs s (List.mem_cons_of_mem _ hs')) (List.pairwise_cons.mp hapart).2
      (hasDistinctKeys_setAt ht s.1 (hs s List.mem_cons_self))
  | swap s s' rest =>
    have hfirst := hs s' List.mem_cons_self
    have hsecond := hs s (List.mem_cons_of_mem _ List.mem_cons_self)
    have hrest : ∀ r ∈ rest, r.2.hasDistinctKeys :=
      fun r hr => hs r (List.mem_cons_of_mem _ (List.mem_cons_of_mem _ hr))
    have hpaths : AreApart s'.1 s.1 := (List.pairwise_cons.mp hapart).1 s List.mem_cons_self
    exact sort_setAll_congr (hasDistinctKeys_setAt (hasDistinctKeys_setAt ht _ hfirst) _ hsecond)
      (hasDistinctKeys_setAt (hasDistinctKeys_setAt ht _ hsecond) _ hfirst)
        (sort_setAt_comm ht hpaths hfirst hsecond) hrest
  | trans hfirst _ ih ih' =>
    exact (ih hs hapart ht).trans (ih' (fun s hs' => hs s (hfirst.mem_iff.mpr hs'))
      (hfirst.pairwise hapart fun h => h.symm) ht)

end Localization.Tree
