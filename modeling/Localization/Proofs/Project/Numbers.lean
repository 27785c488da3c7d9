import Mathlib
import Localization.Proofs.Inlining.Values
import Localization.Proofs.Json.Numbers
import Localization.Proofs.Project.AssetFiles

/-! Numbers in the texts of a project.

The trees of a project are read from files of JSON. Reading a file gives regular numbers only,
combining files and looking something up add none, so no text of a project is a number that JSON
cannot spell (`hasFiniteNumbers_of_readLocales`). -/
namespace Localization

open Json (Value entryNumbers mem_entryNumbers_iff mem_itemNumbers_iff)

/-! ### Looking up -/

theorem mem_numbers_of_valueAt? {v w : Value} {path : List Text} (h : valueAt? v path = some w)
    {n : Json.Number} (hn : n ∈ w.numbers) : n ∈ v.numbers := by
  induction path generalizing v with
  | nil =>
    rw [valueAt?] at h
    cases h
    exact hn
  | cons segment rest ih =>
    cases v with
    | object entries =>
      rw [valueAt?] at h
      obtain ⟨u, hu, h⟩ := Option.bind_eq_some_iff.mp h
      exact mem_entryNumbers_iff.mpr ⟨_, Json.Object.mem_of_get? hu, ih h⟩
    | array items =>
      rw [valueAt?] at h
      obtain ⟨u, hu, h⟩ := Option.bind_eq_some_iff.mp h
      obtain ⟨i, -, hu⟩ := Option.bind_eq_some_iff.mp hu
      exact mem_itemNumbers_iff.mpr ⟨u, List.mem_of_getElem? hu, ih h⟩
    | _ => cases h

theorem Tree.mem_entryNumbers_of_at? {tree : Tree} {path : List Text} {v : Value}
    (h : tree.at? path = some v) {n : Json.Number} (hn : n ∈ v.numbers) :
    n ∈ entryNumbers tree := by
  cases path with
  | nil => cases h
  | cons key rest =>
    obtain ⟨u, hu, h⟩ := Option.bind_eq_some_iff.mp h
    exact mem_entryNumbers_iff.mpr ⟨_, Json.Object.mem_of_get? hu, mem_numbers_of_valueAt? h hn⟩

namespace Inlining

/-- A regular number is one. -/
theorem isFinite_of_isRegular {n : Json.Number} (h : n.IsRegular) : isFinite n = true := by
  cases n with
  | integer => rfl
  | double x =>
    obtain ⟨s, m, e, rfl⟩ := Binary64.exists_finite h.1
    rfl

theorem hasFiniteNumbers_of_isRegular {x : Context}
    (h : ∀ entry ∈ x.trees, ∀ n ∈ entryNumbers entry.2, n.IsRegular) : x.HasFiniteNumbers := by
  intro lang raw n hvalue
  obtain ⟨tree, htree, hat⟩ := Option.bind_eq_some_iff.mp hvalue
  refine isFinite_of_isRegular (h _ (mem_of_lookup htree) n ?_)
  exact Tree.mem_entryNumbers_of_at? hat (List.mem_singleton_self n)

end Inlining

/-! ### Reading -/

namespace Assets

theorem isRegular_parse {p text : Text} {tree : Tree} (h : parse p text = .ok tree) :
    ∀ n ∈ entryNumbers tree, n.IsRegular :=
  Json.isRegular_ofText? (Project.parse_eq_ok_iff.mp h)

theorem isRegular_combine {trees : List Tree}
    (h : ∀ tree ∈ trees, ∀ n ∈ entryNumbers tree, n.IsRegular) :
    ∀ n ∈ entryNumbers (combine trees), n.IsRegular := by
  suffices hfold : ∀ start : Tree, (∀ n ∈ entryNumbers start, n.IsRegular) →
      ∀ n ∈ entryNumbers (trees.foldl Json.Object.insertAll start), n.IsRegular from
    hfold [] nofun
  induction trees with
  | nil => exact fun _ hstart => hstart
  | cons tree trees ih =>
    obtain ⟨htree, htrees⟩ := List.forall_mem_cons.mp h
    intro start hstart
    refine ih htrees _ fun n hn => ?_
    exact (Json.mem_entryNumbers_insertAll hn).elim (hstart n) (htree n)

end Assets

namespace Project

variable {s : Store} {format : Text} {required : Bool} {dir : Path}

/-- The numbers in the assets of a language are regular. -/
theorem isRegular_readLocale {tree : Tree} (h : readLocale s format required dir = .ok tree) :
    ∀ n ∈ entryNumbers tree, n.IsRegular := by
  unfold readLocale at h
  split at h
  · split at h
    · cases h
    · obtain ⟨trees, htrees, h⟩ := Except.bind_eq_ok_iff.mp h
      cases h
      refine Assets.isRegular_combine (forall_of_mapM htrees fun p tree htree => ?_)
      obtain ⟨text, -, hparse⟩ := Except.bind_eq_ok_iff.mp htree
      exact Assets.isRegular_parse hparse
  · split at h
    · cases h
    · cases h
      exact nofun

/-- **The texts of a project hold finite numbers only**, whatever its files are. -/
theorem hasFiniteNumbers_of_readLocales {c : Config} {langs : List Text}
    {trees : List (Text × Tree)} (h : readLocales s format required dir langs = .ok trees) :
    Inlining.Context.HasFiniteNumbers ⟨c, trees⟩ := by
  refine Inlining.hasFiniteNumbers_of_isRegular (forall_of_mapM h fun lang entry hentry => ?_)
  obtain ⟨tree, htree, h⟩ := Except.bind_eq_ok_iff.mp hentry
  cases h
  exact isRegular_readLocale htree

end Project

end Localization
