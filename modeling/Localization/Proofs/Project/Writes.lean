import Mathlib
import Localization.Project.Extract
import Localization.Proofs.Files.Changes

/-! What runs that write files leave.

`Writes files s s'` says that `s'` is `s` with some files written and directories made: no
other file has changed, and every file is there with one of the texts that were written
where its path leads. Every run that writes is such a change (`writes_writeTrees`). -/
namespace Localization.Project

open Localization.Path (join)
open Store (Changes)

/-! ### Runs -/

theorem Run.bind_of_ok {α β : Type} {x : Run α} {f : α → Run β} {s s₁ : Store} {a : α}
    (h : x s = (.ok a, s₁)) :
    (x >>= f) s = f a s₁ := by
  show (ExceptT.bindCont f (x s).1) (x s).2 = _
  rw [h]
  rfl

theorem Run.bind_of_error {α β : Type} {x : Run α} {f : α → Run β} {s s₁ : Store} {e : Error}
    (h : x s = (.error e, s₁)) : (x >>= f) s = (.error e, s₁) := by
  show (ExceptT.bindCont f (x s).1) (x s).2 = _
  rw [h]
  rfl

theorem Run.bind_eq_ok_iff {α β : Type} {x : Run α} {f : α → Run β} {s s' : Store} {b : β} :
    (x >>= f) s = (.ok b, s') ↔ ∃ a s₁, x s = (.ok a, s₁) ∧ f a s₁ = (.ok b, s') := by
  cases hx : x s with
  | mk r s₁ =>
    cases r with
    | ok a =>
      rw [Run.bind_of_ok hx]
      exact ⟨fun h => ⟨a, s₁, rfl, h⟩, fun ⟨_, _, he, h⟩ => (by cases he; exact h)⟩
    | error e =>
      rw [Run.bind_of_error hx]
      exact ⟨fun h => (by cases h), fun ⟨_, _, he, _⟩ => (by cases he)⟩

theorem Run.bind_eq_error_iff {α β : Type} {x : Run α} {f : α → Run β} {s s' : Store} {e : Error} :
    (x >>= f) s = (.error e, s') ↔
      x s = (.error e, s') ∨ ∃ a s₁, x s = (.ok a, s₁) ∧ f a s₁ = (.error e, s') := by
  cases hx : x s with
  | mk r s₁ =>
    cases r with
    | ok a =>
      rw [Run.bind_of_ok hx]
      exact ⟨fun h => .inr ⟨a, s₁, rfl, h⟩, fun h => (by
        rcases h with h | ⟨_, _, he, h⟩
        · cases h
        · cases he
          exact h)⟩
    | error e' =>
      rw [Run.bind_of_error hx]
      refine ⟨fun h => .inl (by cases h; rfl), fun h => ?_⟩
      rcases h with h | ⟨_, _, he, -⟩
      · cases h
        rfl
      · cases he

theorem Run.pure_eq_ok_iff {α : Type} {a b : α} {s s' : Store} :
    (pure a : Run α) s = (.ok b, s') ↔ a = b ∧ s = s' := by
  constructor
  · intro h
    cases h
    exact ⟨rfl, rfl⟩
  · rintro ⟨rfl, rfl⟩
    rfl

/-! ### Written files -/

/-- Whether a file at a location is one of those written, where their paths lead now. -/
def IsWritten (files : List (Path × Text)) (s : Store) (l : Location) (c : Content) : Prop :=
  ∃ f ∈ files, s.locate f.1 = some l ∧ c = .text f.2

/-- From `s` to `s'` some files are written, and nothing else happens to files. -/
structure Writes (files : List (Path × Text)) (s s' : Store) : Prop where
  changes : Changes (IsWritten files s') s s'
  written : ∀ f ∈ files, ∃ l c, s'.locate f.1 = some l ∧ s'.get? l = some (.file c) ∧
    IsWritten files s' l c

theorem IsWritten.mono {files more : List (Path × Text)} {may : Location → Content → Prop}
    {s s' : Store} (hs : Changes may s s') (hm : ∀ f ∈ files, f ∈ more) {l : Location} {c : Content}
    (h : IsWritten files s l c) : IsWritten more s' l c := by
  obtain ⟨f, hf, hl, hc⟩ := h
  exact ⟨f, hm f hf, hs.locate hl, hc⟩

theorem Writes.nil {s s' : Store} (h : Changes (fun _ _ => False) s s') : Writes [] s s' where
  changes := h.mono fun _ _ h => h.elim
  written := fun _ h => by cases h

/-- Files written after others. -/
theorem Writes.trans {a b : List (Path × Text)} {s s₁ s' : Store} (ha : Writes a s s₁)
    (hb : Writes b s₁ s') :
    Writes (a ++ b) s s' := by
  have hleft {l c} (h : IsWritten a s₁ l c) : IsWritten (a ++ b) s' l c :=
    h.mono hb.changes fun _ => List.mem_append_left _
  have hright {l c} (h : IsWritten b s' l c) : IsWritten (a ++ b) s' l c :=
    h.mono (@Changes.refl (fun _ _ => False) s') fun _ => List.mem_append_right _
  refine ⟨(ha.changes.mono fun _ _ => hleft).trans (hb.changes.mono fun _ _ => hright),
    fun f hf => ?_⟩
  rcases List.mem_append.mp hf with hf | hf
  · obtain ⟨l, c, hl, hget, hw⟩ := ha.written f hf
    obtain ⟨c', hget', hor⟩ := hb.changes.kept l c hget
    refine ⟨l, c', hb.changes.locate hl, hget', ?_⟩
    rcases hor with rfl | hw'
    · exact hleft hw
    · exact hright hw'
  · obtain ⟨l, c, hl, hget, hw⟩ := hb.written f hf
    exact ⟨l, c, hl, hget, hright hw⟩

theorem writes_write? {s s' : Store} {p : Path} {t : Text}
    (h : s.write? p (.text t) = some s') : Writes [(p, t)] s s' := by
  obtain ⟨l, hl, hget, hc⟩ := Store.changes_write? h
  have hl' := hc.locate hl
  have hwritten : IsWritten [(p, t)] s' l (.text t) := ⟨_, List.mem_singleton_self _, hl', rfl⟩
  refine ⟨hc.mono ?_, fun f hf => ?_⟩
  · rintro k c ⟨rfl, rfl⟩
    exact hwritten
  · rw [List.mem_singleton.mp hf]
    exact ⟨l, _, hl', hget, hwritten⟩

/-! ### Runs that write -/

theorem writes_writeText {s s' : Store} {p : Path} {t : Text} {u : Unit}
    (h : writeText p t s = (.ok u, s')) : Writes [(p, t)] s s' := by
  unfold writeText Run.change at h
  split at h
  · next next hw =>
    cases h
    exact writes_write? hw
  · cases h

theorem writes_makeDirectories {s s' : Store} {p : Path} {u : Unit}
    (h : makeDirectories p s = (.ok u, s')) : Writes [] s s' := by
  have hc := Store.changes_makeDirectories s p
  unfold makeDirectories at h
  split at h
  · next next hm =>
    cases h
    rw [hm] at hc
    exact .nil hc
  · cases h

/-- Runs one after the other write what each of them writes. -/
theorem writes_mapM {α β : Type} {f : α → Run β} (files : α → List (Path × Text))
    (hf : ∀ {s s' : Store} {a : α} {b : β}, f a s = (.ok b, s') → Writes (files a) s s')
    {l : List α} {bs : List β} {s s' : Store} (h : l.mapM f s = (.ok bs, s')) :
    Writes (l.flatMap files) s s' := by
  induction l generalizing s bs with
  | nil =>
    rw [List.mapM_nil, Run.pure_eq_ok_iff] at h
    rw [h.2]
    exact .nil (.refl s')
  | cons a l ih =>
    rw [List.mapM_cons, Run.bind_eq_ok_iff] at h
    obtain ⟨b, s₁, ha, h⟩ := h
    rw [Run.bind_eq_ok_iff] at h
    obtain ⟨bs', s₂, hl, h⟩ := h
    obtain ⟨-, rfl⟩ := Run.pure_eq_ok_iff.mp h
    have hfirst := hf ha
    rw [List.flatMap_cons]
    exact hfirst.trans (ih hl)

/-- The files of a tree in a directory, with their texts. -/
def localeFiles (dir : Path) (filename format : Text) (tree : Tree) : List (Path × Text) :=
  (Assets.split filename tree).map fun f => (join dir (f.1 ++ '.' :: format), Assets.render f.2)

theorem writes_writeLocale {s s' : Store} {dir : Path} {filename format : Text}
    {tree : Tree} {paths : List Path}
    (h : writeLocale dir filename format tree s = (.ok paths, s')) :
    Writes (localeFiles dir filename format tree) s s' := by
  unfold writeLocale at h
  rw [Run.bind_eq_ok_iff] at h
  obtain ⟨u, s₁, hmade, h⟩ := h
  have hfirst := writes_makeDirectories hmade
  have hrest := writes_mapM (fun f => [(join dir (f.1 ++ '.' :: format), Assets.render f.2)])
    (fun {s s' f b} h => by
      obtain ⟨name, part⟩ := f
      obtain ⟨u, s₂, hw, h⟩ := Run.bind_eq_ok_iff.mp h
      obtain ⟨-, rfl⟩ := Run.pure_eq_ok_iff.mp h
      exact writes_writeText hw) h
  have hfiles : (Assets.split filename tree).flatMap
      (fun f => [(join dir (f.1 ++ '.' :: format), Assets.render f.2)]) =
      localeFiles dir filename format tree := by
    rw [localeFiles, List.map_eq_flatMap]
  rw [← hfiles]
  exact hfirst.trans hrest

/-- The files of all languages. -/
def treeFiles (c : Config) (trees : List (Text × Tree)) : List (Path × Text) :=
  trees.flatMap fun t => localeFiles (join c.assetsRoot t.1) c.filename c.format t.2

theorem writes_writeTrees {s s' : Store} {c : Config} {trees : List (Text × Tree)}
    {paths : List Path} (h : writeTrees c trees s = (.ok paths, s')) :
    Writes (treeFiles c trees) s s' := by
  unfold writeTrees at h
  obtain ⟨written, s₁, hw, h⟩ := Run.bind_eq_ok_iff.mp h
  obtain ⟨-, rfl⟩ := Run.pure_eq_ok_iff.mp h
  exact writes_mapM (fun t => localeFiles (join c.assetsRoot t.1) c.filename c.format t.2)
    (fun {_ _ t _} h => by
      obtain ⟨lang, tree⟩ := t
      exact writes_writeLocale h) hw

/-- An extraction works its trees out from the files as they stand, and then writes them. -/
theorem writes_extract {s s' : Store} {c : Config} {result : ExtractResult}
    (h : extract c s = (.ok result, s')) :
    ∃ output, extractTrees c s = .ok output ∧ Writes (treeFiles c output.trees) s s' := by
  unfold extract at h
  obtain ⟨s₀, s₁, hget, h⟩ := Run.bind_eq_ok_iff.mp h
  cases hget
  obtain ⟨output, s₂, hout, h⟩ := Run.bind_eq_ok_iff.mp h
  have hpair : (extractTrees c s, s) = (.ok output, s₂) := hout
  obtain ⟨htrees, rfl⟩ := Prod.mk.inj hpair
  obtain ⟨paths, s₃, hw, h⟩ := Run.bind_eq_ok_iff.mp h
  obtain ⟨-, rfl⟩ := Run.pure_eq_ok_iff.mp h
  exact ⟨output, htrees, writes_writeTrees hw⟩

end Localization.Project
