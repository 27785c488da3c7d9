import Mathlib
import Localization.Proofs.Files.Along
import Localization.Proofs.Project.Steps

/-! What the steps of a run leave.

Behind some steps a place holds the last text that was written there, or else what was there
before; all that is new besides are directories on the way to those that were made
(`leaves_runSteps`). Where paths lead is told in the store that is left: a step may make the
directories that a later one goes through. From this it follows that taking the same steps once
more succeeds and changes nothing (`runSteps_again`). -/
namespace Localization.Project

open Store (Changes isDirectory_iff write?_eq_some_iff)

/-- The text that steps leave at a location, if they write there: the last one. -/
def textAt? (s : Store) (l : Location) : List Step → Option Text
  | [] => none
  | .directory _ :: rest => textAt? s l rest
  | .file p t :: rest => (textAt? s l rest).or (if s.locate p = some l then some t else none)

theorem textAt?_append (s : Store) (l : Location) (a b : List Step) :
    textAt? s l (a ++ b) = (textAt? s l b).or (textAt? s l a) := by
  induction a with
  | nil => rw [List.nil_append, textAt?, Option.or_none]
  | cons step a ih =>
    cases step with
    | directory p => exact ih
    | file p t =>
      show (textAt? s l (a ++ b)).or _ = (textAt? s l b).or ((textAt? s l a).or _)
      rw [ih, Option.or_assoc]

/-- Only where the paths of the files lead matters. -/
theorem textAt?_congr {s s' : Store} {l : Location} {steps : List Step}
    (h : ∀ p t, .file p t ∈ steps → s'.locate p = s.locate p) :
    textAt? s' l steps = textAt? s l steps := by
  induction steps with
  | nil => rfl
  | cons step rest ih =>
    have hrest := ih fun p t hmem => h p t (List.mem_cons_of_mem _ hmem)
    cases step with
    | directory p => exact hrest
    | file p t => rw [textAt?, textAt?, hrest, h p t List.mem_cons_self]

theorem exists_textAt? {s : Store} {l : Location} {steps : List Step} {p : Path} {t : Text}
    (hmem : .file p t ∈ steps) (hl : s.locate p = some l) : ∃ u, textAt? s l steps = some u := by
  induction steps with
  | nil => cases hmem
  | cons step rest ih =>
    rcases List.mem_cons.mp hmem with rfl | hmem
    · cases hrest : textAt? s l rest with
      | some u => exact ⟨u, by rw [textAt?, hrest, Option.some_or]⟩
      | none => exact ⟨t, by rw [textAt?, hrest, Option.none_or, if_pos hl]⟩
    · obtain ⟨u, hu⟩ := ih hmem
      cases step with
      | directory q => exact ⟨u, hu⟩
      | file q v => exact ⟨u, by rw [textAt?, hu, Option.some_or]⟩

theorem exists_of_textAt? {s : Store} {l : Location} {steps : List Step} {t : Text}
    (h : textAt? s l steps = some t) :
    ∃ p, .file p t ∈ steps ∧ s.locate p = some l := by
  induction steps with
  | nil => cases h
  | cons step rest ih =>
    have hrest (h : textAt? s l rest = some t) : ∃ p, .file p t ∈ step :: rest ∧
        s.locate p = some l := by
      obtain ⟨p, hmem, hl⟩ := ih h
      exact ⟨p, List.mem_cons_of_mem _ hmem, hl⟩
    cases step with
    | directory q => exact hrest h
    | file q u =>
      rw [textAt?] at h
      cases hlast : textAt? s l rest with
      | some v =>
        rw [hlast, Option.some_or] at h
        exact hrest (hlast.trans h)
      | none =>
        rw [hlast, Option.none_or] at h
        split at h
        · next hl =>
          cases h
          exact ⟨q, List.mem_cons_self, hl⟩
        · cases h

theorem textAt?_eq_none {s : Store} {l : Location} {steps : List Step}
    (h : ∀ p t, .file p t ∈ steps → s.locate p ≠ some l) : textAt? s l steps = none := by
  rw [Option.eq_none_iff_forall_ne_some]
  intro t ht
  obtain ⟨p, hmem, hl⟩ := exists_of_textAt? ht
  exact h p t hmem hl

/-- What some steps leave. -/
structure Leaves (steps : List Step) (s s' : Store) : Prop where
  changes : Changes (fun _ _ => True) s s'
  directory : ∀ p, .directory p ∈ steps → s'.isDirectory p = true
  file : ∀ p t, .file p t ∈ steps → ∃ l, s'.locate p = some l
  written : ∀ l t, textAt? s' l steps = some t → s'.get? l = some (.file (.text t))
  kept : ∀ l, textAt? s' l steps = none → s'.get? l = s.get? l ∨
    (s.get? l = none ∧ s'.get? l = some .directory ∧ ∃ p, .directory p ∈ steps ∧ s'.IsOnWay p l)

theorem Leaves.nil (s : Store) : Leaves [] s s where
  changes := .refl s
  directory := fun _ h => by cases h
  file := fun _ _ h => by cases h
  written := fun _ _ h => by cases h
  kept := fun _ _ => .inl rfl

/-- Steps after others. -/
theorem Leaves.trans {a b : List Step} {s s₁ s' : Store} (ha : Leaves a s s₁)
    (hb : Leaves b s₁ s') :
    Leaves (a ++ b) s s' := by
  have hsame (l : Location) : textAt? s' l a = textAt? s₁ l a := by
    refine textAt?_congr fun p t hmem => ?_
    obtain ⟨k, hk⟩ := ha.file p t hmem
    rw [hk, hb.changes.locate hk]
  refine ⟨ha.changes.trans hb.changes, fun p hp => ?_, fun p t hp => ?_, fun l t hl => ?_,
    fun l hl => ?_⟩
  · rcases List.mem_append.mp hp with hp | hp
    · obtain ⟨d, hd, hdir⟩ := isDirectory_iff.mp (ha.directory p hp)
      exact isDirectory_iff.mpr ⟨d, hb.changes.locate hd, hb.changes.directories d hdir⟩
    · exact hb.directory p hp
  · rcases List.mem_append.mp hp with hp | hp
    · obtain ⟨l, hl⟩ := ha.file p t hp
      exact ⟨l, hb.changes.locate hl⟩
    · exact hb.file p t hp
  · rw [textAt?_append] at hl
    cases hlast : textAt? s' l b with
    | some u =>
      rw [hlast, Option.some_or] at hl
      exact hb.written l t (hlast.trans hl)
    | none =>
      rw [hlast, Option.none_or, hsame] at hl
      have hfirst := ha.written l t hl
      rcases hb.kept l hlast with he | ⟨hnone, -⟩
      · rw [he, hfirst]
      · rw [hfirst] at hnone
        cases hnone
  · rw [textAt?_append, Option.or_eq_none_iff, hsame] at hl
    rcases hb.kept l hl.1 with he | ⟨hnone, hdir, p, hp, hway⟩
    · rw [he]
      rcases ha.kept l hl.2 with he | ⟨hnone, hdir, p, hp, hway⟩
      · exact .inl he
      · exact .inr ⟨hnone, hdir, p, List.mem_append_left _ hp, hb.changes.isPassed hway⟩
    · refine .inr ⟨?_, hdir, p, List.mem_append_right _ hp, hway⟩
      rcases ha.kept l hl.2 with he | ⟨-, hdir', -⟩
      · rw [← he]
        exact hnone
      · rw [hdir'] at hnone
        cases hnone

/-! ### One step -/

theorem makeDirectories_eq_ok_iff {p : Path} {s s' : Store} {u : Unit} :
    makeDirectories p s = (.ok u, s') ↔ s.makeDirectories p = (s', true) := by
  unfold makeDirectories
  split
  · next s₁ h =>
    rw [h]
    constructor <;>
    · rintro ⟨⟩
      rfl
  · next s₁ h =>
    rw [h]
    constructor <;>
    · rintro ⟨⟩

theorem Run.change_eq_ok_iff {e : Error} {f : Store → Option Store} {s s' : Store} {u : Unit} :
    Run.change e f s = (.ok u, s') ↔ f s = some s' := by
  unfold Run.change
  split
  · next s₁ h =>
    rw [h]
    constructor <;>
    · rintro ⟨⟩
      rfl
  · next h =>
    rw [h]
    constructor <;>
    · rintro ⟨⟩

theorem writeText_eq_ok_iff {p : Path} {t : Text} {s s' : Store} {u : Unit} :
    writeText p t s = (.ok u, s') ↔ s.write? p (.text t) = some s' := Run.change_eq_ok_iff

theorem Step.leaves {step : Step} {s s' : Store} {u : Unit}
    (h : step.run s = (.ok u, s')) :
    Leaves [step] s s' := by
  cases step with
  | directory p =>
    have hmade := makeDirectories_eq_ok_iff.mp h
    obtain ⟨hdir, hnew⟩ := Store.makeDirectories_spec hmade
    have hc := Store.changes_makeDirectories s p
    rw [hmade] at hc
    refine ⟨hc.mono fun _ _ _ => trivial, fun q hq => ?_, fun q t hq => ?_, fun l t hl =>
      (by cases hl), fun l _ => ?_⟩
    · cases List.mem_singleton.mp hq
      exact hdir
    · cases List.mem_singleton.mp hq
    · rcases hnew l with he | ⟨hnone, hdir, hway⟩
      · exact .inl he
      · exact .inr ⟨hnone, hdir, p, List.mem_cons_self, hway⟩
  | file p t =>
    have hwrite := writeText_eq_ok_iff.mp h
    obtain ⟨_, _, _, hc⟩ := Store.changes_write? hwrite
    obtain ⟨l, hl, hdir, rfl⟩ := write?_eq_some_iff.mp hwrite
    have hl' := hc.locate hl
    have htext (k : Location) : textAt? (s.insert l (.file (.text t))) k [.file p t] = if k = l then
        some t else none := by
      rw [textAt?, textAt?, Option.none_or, hl']
      simp only [Option.some.injEq, eq_comm]
    refine ⟨hc.mono fun _ _ _ => trivial, fun q hq => ?_, fun q u hq => ?_, fun k u hk => ?_,
      fun k hk => ?_⟩
    · cases List.mem_singleton.mp hq
    · cases List.mem_singleton.mp hq
      exact ⟨l, hl'⟩
    · rw [htext] at hk
      split at hk
      · next he =>
        cases hk
        rw [Store.get?_insert_file hl hdir, if_pos he]
      · cases hk
    · rw [htext] at hk
      split at hk
      · cases hk
      · next hne =>
        rw [Store.get?_insert_file hl hdir, if_neg hne]
        exact .inl rfl

/-! ### All steps -/

/-- **What steps leave**, if they succeed. -/
theorem leaves_runSteps {steps : List Step} {s s' : Store} {u : Unit}
    (h : runSteps steps s = (.ok u, s')) : Leaves steps s s' := by
  induction steps generalizing s with
  | nil =>
    rw [runSteps, Run.pure_eq_ok_iff] at h
    rw [← h.2]
    exact .nil s
  | cons step rest ih =>
    rw [runSteps, Run.bind_eq_ok_iff] at h
    obtain ⟨v, s₁, hstep, h⟩ := h
    have hfirst := Step.leaves hstep
    exact hfirst.trans (ih h)

/-- Whether a step can be taken: the directory is there, or the file has a place. -/
def Step.IsOpen (s : Store) : Step → Prop
  | directory p => s.isDirectory p = true
  | file p _ => ∃ l, s.locate p = some l ∧ s.get? l ≠ some .directory

/-- An open step succeeds and leaves the directories that were there. -/
theorem Step.IsOpen.exists_run {step : Step} {s : Store} (h : step.IsOpen s) :
    ∃ s', step.run s = (.ok (), s') ∧ s.HaveSameDirectories s' := by
  cases step with
  | directory p =>
    exact ⟨s, makeDirectories_eq_ok_iff.mpr (Store.makeDirectories_eq_self h), fun _ => Iff.rfl⟩
  | file p t =>
    obtain ⟨l, hl, hdir⟩ := h
    exact ⟨_, writeText_eq_ok_iff.mpr (write?_eq_some_iff.mpr ⟨l, hl, hdir, rfl⟩),
      Store.haveSameDirectories_insert_file hl hdir _⟩

theorem Step.IsOpen.congr {step : Step} {s s' : Store} (hs : s.HaveSameDirectories s')
    (h : step.IsOpen s) :
    step.IsOpen s' := by
  cases step with
  | directory p => exact (hs.isDirectory_eq p).trans h
  | file p t =>
    obtain ⟨l, hl, hdir⟩ := h
    exact ⟨l, (hs.locate_eq p).trans hl, fun h => hdir ((hs l).mp h)⟩

/-- Steps that are all open succeed, one after the other. -/
theorem exists_runSteps {steps : List Step} {s : Store} (h : ∀ step ∈ steps, step.IsOpen s) :
    ∃ s', runSteps steps s = (.ok (), s') ∧ s.HaveSameDirectories s' := by
  induction steps generalizing s with
  | nil => exact ⟨s, rfl, fun _ => Iff.rfl⟩
  | cons step rest ih =>
    obtain ⟨s₁, hstep, hfirst⟩ := (h step List.mem_cons_self).exists_run
    obtain ⟨s', hrest, hsame⟩ :=
      ih fun step' hmem => (h step' (List.mem_cons_of_mem _ hmem)).congr hfirst
    exact ⟨s', Run.bind_eq_ok_iff.mpr ⟨(), s₁, hstep, hrest⟩, fun l => (hsame l).trans (hfirst l)⟩

theorem Leaves.isOpen {steps : List Step} {s s' : Store} (h : Leaves steps s s') :
    ∀ step ∈ steps, step.IsOpen s' := by
  intro step hmem
  cases step with
  | directory p => exact h.directory p hmem
  | file p t =>
    obtain ⟨l, hl⟩ := h.file p t hmem
    obtain ⟨u, hu⟩ := exists_textAt? hmem hl
    refine ⟨l, hl, ?_⟩
    rw [h.written l u hu]
    simp

/-- **Taking the same steps once more succeeds and changes nothing.** -/
theorem runSteps_again {steps : List Step} {s s' : Store} (h : Leaves steps s s') :
    ∃ s'', runSteps steps s' = (.ok (), s'') ∧ ∀ l, s''.get? l = s'.get? l := by
  obtain ⟨s'', hrun, hsame⟩ := exists_runSteps h.isOpen
  have hagain := leaves_runSteps hrun
  refine ⟨s'', hrun, fun l => ?_⟩
  cases htext : textAt? s'' l steps with
  | some t =>
    have htext' : textAt? s' l steps = some t := by
      rw [← textAt?_congr fun p _ _ => hsame.locate_eq p]
      exact htext
    rw [hagain.written l t htext, h.written l t htext']
  | none =>
    rcases hagain.kept l htext with he | ⟨hnone, hdir, -⟩
    · exact he
    · rw [(hsame l).mp hdir] at hnone
      cases hnone

end Localization.Project
