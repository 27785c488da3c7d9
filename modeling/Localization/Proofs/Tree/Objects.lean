import Mathlib
import Localization.Proofs.Tree.Commute
import Localization.Proofs.Tree.Lookup

/-! Paths through objects.

Setting a value makes objects on its way and replaces an array there as it does a text, so a look-up
that is to follow it must not enter arrays: `keyAt?`. What is set at a path is found at it
(`keyAt?_setAt_self`) and stays there whatever is set at paths that lie apart
(`keyAt?_setAll_of_areApart`). A merge puts the second tree's value over the one that is found,
as long as nothing but objects stand on the way in the second tree (`keyAt?_mergeValue`). -/
namespace Localization

open Json (Value hasDistinctKeys_object)
open Json.Object (get?)

/-- What a path leads to through objects alone. -/
def keyAt? : Value → List Text → Option Value
  | v, [] => some v
  | .object entries, key :: rest => (get? entries key).bind (keyAt? · rest)
  | _, _ :: _ => none

theorem valueAt?_of_keyAt? {v w : Value} {path : List Text} (h : keyAt? v path = some w) :
    valueAt? v path = some w := by
  induction path generalizing v with
  | nil => cases v <;> exact h
  | cons key rest ih =>
    cases v with
    | object entries =>
      obtain ⟨u, hu, h⟩ := Option.bind_eq_some_iff.mp h
      rw [valueAt?, hu, Option.bind_some]
      exact ih h
    | _ => cases h

namespace Tree

/-! ### Setting -/

/-- Where no object stands a path leads no further, and setting a value starts from nothing. -/
theorem keyAt?_entriesOf (own : Option Value) {path : List Text} (h : path ≠ []) :
    keyAt? (.object (entriesOf own)) path = own.bind (keyAt? · path) := by
  obtain ⟨key, rest, rfl⟩ := List.exists_cons_of_ne_nil h
  cases own with
  | none => rfl
  | some v => cases v <;> rfl

/-- What is set at a path is found at it. -/
theorem keyAt?_setAt_self (tree : Tree) {path : List Text} (h : path ≠ []) (v : Value) :
    keyAt? (.object (tree.setAt path v)) path = some v := by
  induction path generalizing tree with
  | nil => exact absurd rfl h
  | cons key rest ih =>
    rw [keyAt?, get?_setAt, beq_self_eq_true, if_pos rfl, Option.bind_some]
    cases rest with
    | nil => cases v <;> rfl
    | cons next rest => exact ih _ (List.cons_ne_nil next rest)

/-- Setting a value does not touch what a path that lies apart leads to. -/
theorem keyAt?_setAt_of_areApart (tree : Tree) {p q : List Text} (h : AreApart p q) (v : Value) :
    keyAt? (.object (tree.setAt p v)) q = keyAt? (.object tree) q := by
  induction p generalizing tree q with
  | nil => exact absurd List.nil_prefix h.1
  | cons k p ih =>
    obtain ⟨l, q, rfl⟩ := h.symm.exists_eq_cons
    rw [keyAt?, keyAt?, get?_setAt]
    by_cases hl : l = k
    · subst hl
      have hrest := h.of_cons
      obtain ⟨next, p, rfl⟩ := hrest.exists_eq_cons
      obtain ⟨_, _, hq⟩ := hrest.symm.exists_eq_cons
      have hq : q ≠ [] := by
        rw [hq]
        exact List.cons_ne_nil _ _
      rw [beq_self_eq_true, if_pos rfl, Option.bind_some, childAt, ih _ hrest,
        keyAt?_entriesOf _ hq]
    · rw [beq_eq_false_iff_ne.mpr hl, if_neg Bool.false_ne_true]

theorem keyAt?_setAll_of_areApart {seeds : List (List Text × Value)} {path : List Text}
    (h : ∀ s ∈ seeds, AreApart s.1 path) (tree : Tree) :
    keyAt? (.object (tree.setAll seeds)) path = keyAt? (.object tree) path := by
  induction seeds generalizing tree with
  | nil => rfl
  | cons s rest ih =>
    exact (ih (fun s hs => h s (List.mem_cons_of_mem _ hs)) _).trans
      (keyAt?_setAt_of_areApart tree (h s List.mem_cons_self) s.2)

/-! ### Merging -/

/-- Whether nothing but objects stand on the way to the end of a path. -/
def IsOpenTo (tree : Tree) (path : List Text) : Prop :=
  ∀ q v, q <+: path → q ≠ path → tree.at? q = some v → ∃ entries, v = .object entries

/-- What one tree's value and what the other tree has in its place make together: two objects merge,
else the other tree's value stays. -/
def overlaid : Value → Option Value → Value
  | v, none => v
  | .object entries, some (.object own) => .object (merge entries own)
  | _, some own => own

/-- **A merge puts what the second value has at the end of a path over what the first one has
there**, if there is nothing but objects on the way in the second. -/
theorem keyAt?_mergeValue {v w d : Value} (hw : w.hasDistinctKeys) {path : List Text}
    (hv : keyAt? v path = some d)
    (hopen : ∀ q u, q <+: path → q ≠ path → valueAt? w q = some u →
      ∃ entries, u = .object entries) :
    keyAt? (mergeValue (some v) w) path = some (overlaid d (valueAt? w path)) := by
  induction path generalizing v w with
  | nil =>
    obtain rfl : v = d := by cases v <;> exact Option.some.inj hv
    cases v <;> cases w <;> rfl
  | cons key rest ih =>
    have hself : valueAt? w [] = some w := by cases w <;> rfl
    obtain ⟨incoming, rfl⟩ := hopen [] w List.nil_prefix (List.cons_ne_nil key rest).symm hself
    rw [hasDistinctKeys_object] at hw
    cases v with
    | object entries =>
      obtain ⟨v, hget, hv⟩ := Option.bind_eq_some_iff.mp hv
      rw [mergeValue_object, keyAt?, get?_mergeEntries entries hw.1, hget, valueAt?]
      cases hown : get? incoming key with
      | none => exact hv
      | some u =>
        refine ih (hw.2 _ (Json.Object.mem_of_get? hown)) hv fun q x hq hne hx => ?_
        refine hopen (key :: q) x (List.cons_prefix_cons.mpr ⟨rfl, hq⟩) (fun he =>
          hne (List.cons.inj he).2) ?_
        rw [valueAt?, hown]
        exact hx
    | _ => cases hv

/-- The same for trees. -/
theorem at?_merge_of_keyAt? {target source : Tree} (hs : (Value.object source).hasDistinctKeys)
    {path : List Text} (hpath : path ≠ []) {d : Value} (hd : keyAt? (.object target) path = some d)
    (hopen : source.IsOpenTo path) :
    (merge target source).at? path = some (overlaid d (source.at? path)) := by
  have hopen' : ∀ q u, q <+: path → q ≠ path → valueAt? (.object source) q = some u →
      ∃ entries, u = .object entries := by
    intro q u hq hne hu
    by_cases hnil : q = []
    · subst hnil
      exact ⟨source, (Option.some.inj hu).symm⟩
    · exact hopen q u hq hne ((at?_eq_valueAt? hnil).trans hu)
  have := keyAt?_mergeValue hs hd hopen'
  rw [mergeValue_object] at this
  rw [at?_eq_valueAt? hpath, at?_eq_valueAt? hpath]
  exact valueAt?_of_keyAt? this

end Tree

end Localization
