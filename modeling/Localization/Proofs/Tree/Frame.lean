import Mathlib
import Localization.Proofs.Tree.Commute
import Localization.Proofs.Tree.Lookup

/-! What setting a value changes.

A value that is set at a path is found there, and behind it is found what the value holds
(`valueAt?_setAt_append`). A path that lies apart keeps what it leads to, but for one case: setting
puts an object in the place of every array on its way, so a path that goes into such an array leads
nowhere afterwards (`at?_setAt`). A text or number on the way is replaced as well,
but nothing was found behind it before. -/
namespace Localization.Tree

open Json (Value)
open Json.Object (get?)

/-- Whether two paths go the same way to an array. -/
def MeetArray (tree : Tree) (p q : List Text) : Prop :=
  ∃ common items, common ≠ [] ∧ common <+: p ∧ common <+: q ∧ tree.at? common = some (.array items)

theorem at?_cons (tree : Tree) (key : Text) (rest : List Text) :
    tree.at? (key :: rest) = (get? tree key).bind (valueAt? · rest) := rfl

/-! ### At the path itself -/

/-- What is set at a path is found there with all that it holds. -/
theorem valueAt?_setAt_append (tree : Tree) {p : List Text} (hp : p ≠ []) (v : Value)
    (r : List Text) :
    (tree.setAt p v).at? (p ++ r) = valueAt? v r := by
  induction p generalizing tree with
  | nil => exact absurd rfl hp
  | cons key rest ih =>
    rw [List.cons_append, at?_cons, get?_setAt, beq_self_eq_true, if_pos rfl, Option.bind_some]
    cases rest with
    | nil => rfl
    | cons next rest =>
      have hrest := ih (entriesOf (get? tree key)) (List.cons_ne_nil next rest)
      rwa [List.cons_append, at?_eq_valueAt? (List.cons_ne_nil next _)] at hrest

/-! ### At paths that lie apart -/

section

variable {tree : Tree} {key : Text} {p q : List Text}

/-- Nothing is found behind a value that is neither an object nor an array. -/
theorem valueAt?_of_leaf {v : Value} (hobject : v.IsLeaf) (harray : ∀ items, v ≠ .array items)
    (hq : q ≠ []) :
    valueAt? v q = none := by
  obtain ⟨next, rest, rfl⟩ := List.exists_cons_of_ne_nil hq
  cases v with
  | object entries => exact absurd rfl (hobject entries)
  | array items => exact absurd rfl (harray items)
  | _ => rfl

/-- A look-up goes on in the entries of a key, unless that has an array. -/
theorem at?_cons_of_not_array (h : ∀ items, get? tree key ≠ some (.array items)) (hq : q ≠ []) :
    tree.at? (key :: q) = at? (entriesOf (get? tree key)) q := by
  have hempty : at? ([] : Tree) q = none := by
    obtain ⟨next, rest, rfl⟩ := List.exists_cons_of_ne_nil hq
    rfl
  rw [at?_cons]
  cases hv : get? tree key with
  | none => exact hempty.symm
  | some v =>
    rw [Option.bind_some]
    cases v with
    | object entries => exact (at?_eq_valueAt? hq).symm
    | array items => exact absurd hv (h items)
    | _ => exact (valueAt?_of_leaf (by rintro entries ⟨⟩) (by rintro items ⟨⟩) hq).trans hempty.symm

/-- Two paths that begin with one key meet an array at that key or in the entries of it. -/
theorem meetArray_cons_iff :
    MeetArray tree (key :: p) (key :: q) ↔
      (∃ items, get? tree key = some (.array items)) ∨
        MeetArray (entriesOf (get? tree key)) p q := by
  by_cases harray : ∃ items, get? tree key = some (.array items)
  · refine iff_of_true ?_ (.inl harray)
    obtain ⟨items, hitems⟩ := harray
    refine ⟨[key], items, List.cons_ne_nil _ _, ?_, ?_, ?_⟩
    · exact List.cons_prefix_cons.mpr ⟨rfl, List.nil_prefix⟩
    · exact List.cons_prefix_cons.mpr ⟨rfl, List.nil_prefix⟩
    · rw [at?_cons, hitems]
      rfl
  · have hnot : ∀ items, get? tree key ≠ some (.array items) := fun items h => harray ⟨items, h⟩
    rw [or_iff_right harray]
    constructor
    · rintro ⟨common, items, hne, hfirst, hsecond, hat⟩
      obtain ⟨first, rest, rfl⟩ := List.exists_cons_of_ne_nil hne
      obtain ⟨rfl, hp⟩ := List.cons_prefix_cons.mp hfirst
      by_cases hrest : rest = []
      · -- The key itself would have an array.
        subst hrest
        rw [at?_cons] at hat
        obtain ⟨v, hv, hat⟩ := Option.bind_eq_some_iff.mp hat
        obtain rfl : v = .array items := by cases v <;> exact Option.some.inj hat
        exact absurd hv (hnot items)
      · exact ⟨rest, items, hrest, hp,
          (List.cons_prefix_cons.mp hsecond).2, by rwa [← at?_cons_of_not_array hnot hrest]⟩
    · rintro ⟨common, items, hne, hp, hq, hat⟩
      exact ⟨key :: common, items, List.cons_ne_nil _ _, List.cons_prefix_cons.mpr ⟨rfl, hp⟩,
        List.cons_prefix_cons.mpr ⟨rfl, hq⟩, by rwa [at?_cons_of_not_array hnot hne]⟩

/-- Paths whose first keys differ meet nowhere. -/
theorem not_meetArray_of_ne {other : Text} (h : key ≠ other) :
    ¬ MeetArray tree (key :: p) (other :: q) := by
  rintro ⟨common, items, hne, hp, hq, -⟩
  obtain ⟨first, rest, rfl⟩ := List.exists_cons_of_ne_nil hne
  exact h ((List.cons_prefix_cons.mp hp).1.symm.trans (List.cons_prefix_cons.mp hq).1)

end

/-- What a path leads to after a value is set at a path that lies apart. -/
theorem at?_setAt_of_areApart (tree : Tree) {p q : List Text} (h : AreApart p q) (v : Value) :
    (MeetArray tree p q → (tree.setAt p v).at? q = none) ∧
      (¬ MeetArray tree p q → (tree.setAt p v).at? q = tree.at? q) := by
  induction p generalizing tree q with
  | nil => exact absurd List.nil_prefix h.1
  | cons k p ih =>
    obtain ⟨l, q, rfl⟩ := h.symm.exists_eq_cons
    rw [at?_cons, get?_setAt]
    by_cases hl : l = k
    · subst hl
      have hrest := h.of_cons
      obtain ⟨next, p, rfl⟩ := hrest.exists_eq_cons
      have hq : q ≠ [] := by
        obtain ⟨_, _, hq⟩ := hrest.symm.exists_eq_cons
        rw [hq]
        exact List.cons_ne_nil _ _
      -- Setting goes on in the entries of the key, which are none if it has an array.
      obtain ⟨hmeet, happart⟩ := ih (entriesOf (get? tree l)) hrest
      rw [beq_self_eq_true, if_pos rfl, Option.bind_some, childAt, ← at?_eq_valueAt? hq,
        meetArray_cons_iff]
      by_cases harray : ∃ items, get? tree l = some (.array items)
      · refine ⟨fun _ => ?_, fun hnot => absurd (.inl harray) hnot⟩
        by_cases hinner : MeetArray (entriesOf (get? tree l)) (next :: p) q
        · exact hmeet hinner
        · obtain ⟨items, hitems⟩ := harray
          rw [happart hinner, hitems]
          obtain ⟨_, _, rfl⟩ := List.exists_cons_of_ne_nil hq
          rfl
      · rw [or_iff_right harray]
        refine ⟨hmeet, fun hnot => (happart hnot).trans ?_⟩
        exact (at?_cons_of_not_array (fun items hitems => harray ⟨items, hitems⟩) hq).symm
    · rw [beq_eq_false_iff_ne.mpr hl, if_neg Bool.false_ne_true]
      exact ⟨fun hmeet => absurd hmeet (not_meetArray_of_ne (Ne.symm hl)), fun _ => rfl⟩

/-- **Setting a value changes one path.** At its path, and behind it, stands the value. A path that
lies apart leads to what it led to before, unless the two go the same way to an array: that is gone,
and the path leads nowhere. With the empty path nothing is set. -/
theorem at?_setAt (tree : Tree) (v : Value) :
    tree.setAt [] v = tree ∧
      ∀ p, p ≠ [] →
        (∀ r, (tree.setAt p v).at? (p ++ r) = valueAt? v r) ∧
          ∀ q, q ≠ [] → ¬ p <+: q → ¬ q <+: p →
            (MeetArray tree p q → (tree.setAt p v).at? q = none) ∧
              (¬ MeetArray tree p q → (tree.setAt p v).at? q = tree.at? q) :=
  ⟨rfl, fun _ hp => ⟨valueAt?_setAt_append tree hp v, fun _ _ hpq hqp =>
    at?_setAt_of_areApart tree ⟨hpq, hqp⟩ v⟩⟩

/-! ### A list in the way -/

/-- A list of one text, and an object with a text. -/
def listTree : Tree := [("a", .array [.string "x"]), ("b", .object [("c", .string "y")])]

theorem meetArray_listTree : MeetArray listTree ["a", "k"] ["a", "0"] :=
  ⟨["a"], [.string "x"], by decide, ⟨["k"], rfl⟩, ⟨["0"], rfl⟩, rfl⟩

theorem not_meetArray_listTree : ¬ MeetArray listTree ["a", "k"] ["b", "c"] :=
  not_meetArray_of_ne (by decide)

theorem at?_setAt_listTree :
    listTree.at? ["a", "0"] = some (.string "x") ∧ MeetArray listTree ["a", "k"] ["a", "0"] ∧
      (listTree.setAt ["a", "k"] (.object [("d", .string "z")])).at? ["a", "0"] = none ∧
      (listTree.setAt ["a", "k"] (.object [("d", .string "z")])).at? ["a", "k", "d"] =
        some (.string "z") ∧
      ¬ MeetArray listTree ["a", "k"] ["b", "c"] ∧
      (listTree.setAt ["a", "k"] (.object [("d", .string "z")])).at? ["b", "c"] =
        listTree.at? ["b", "c"] := by
  obtain ⟨hself, hother⟩ :=
    (at?_setAt listTree (.object [("d", .string "z")])).2 ["a", "k"] (by decide)
  have hgone := (hother ["a", "0"] (by decide) (by decide) (by decide)).1 meetArray_listTree
  have hkept := (hother ["b", "c"] (by decide) (by decide) (by decide)).2 not_meetArray_listTree
  exact ⟨rfl, meetArray_listTree, hgone, (hself ["d"]).trans rfl, not_meetArray_listTree, hkept⟩

end Localization.Tree
