import Mathlib
import Localization.Proofs.Files.Changes

/-! Directories along a path.

Making a directory makes every directory on the way to it. Behind that the path leads to a
directory, nothing is new but directories on the way (`makeDirectories_spec`), and making it
once more changes nothing (`makeDirectories_eq_self`). What a path leads to is told by the
directories of a store alone (`HaveSameDirectories.locate_eq`). -/
namespace Localization.Store

open Localization.Path (component? pieces)

variable {s s' : Store}

/-! ### Ways -/

/-- Whether a location is passed on the way of some pieces. -/
def IsPassed (s : Store) (start : Location) (ps : List Text) (l : Location) : Prop :=
  ∃ init, init <+: ps ∧ s.walk (some start) init = some l

/-- Whether a location is on the way of a path, or at its end. -/
def IsOnWay (s : Store) (p : Path) (l : Location) : Prop := s.IsPassed [] (pieces p) l

theorem walk_cons (s : Store) (start : Location) (piece : Text) (rest : List Text) :
    s.walk (some start) (piece :: rest) = s.walk (s.stepInto start piece) rest := rfl

theorem IsPassed.cons {start next : Location} {piece : Text} {rest : List Text} {l : Location}
    (h : s.IsPassed next rest l) (hstep : s.stepInto start piece = some next) :
    s.IsPassed start (piece :: rest) l := by
  obtain ⟨init, hinit, hwalk⟩ := h
  exact ⟨piece :: init, List.cons_prefix_cons.mpr ⟨rfl, hinit⟩, by rw [walk_cons, hstep, hwalk]⟩

theorem Changes.isPassed {may : Location → Content → Prop} (h : Changes may s s') {start : Location}
    {ps : List Text} {l : Location} (hl : s.IsPassed start ps l) : s'.IsPassed start ps l := by
  obtain ⟨init, hinit, hwalk⟩ := hl
  exact ⟨init, hinit, h.walk hwalk⟩

/-- Stores with the same directories. -/
def HaveSameDirectories (s s' : Store) : Prop :=
  ∀ l, s'.get? l = some .directory ↔ s.get? l = some .directory

theorem HaveSameDirectories.stepInto_eq (h : s.HaveSameDirectories s') (l : Location)
    (piece : Text) :
    s'.stepInto l piece = s.stepInto l piece := by
  have hb : (s'.get? l == some .directory) = (s.get? l == some .directory) := by
    rw [Bool.eq_iff_iff, beq_iff_eq, beq_iff_eq]
    exact h l
  rw [stepInto, stepInto, hb]

theorem HaveSameDirectories.walk_eq (h : s.HaveSameDirectories s') (start : Option Location)
    (ps : List Text) :
    s'.walk start ps = s.walk start ps := by
  induction ps generalizing start with
  | nil => rfl
  | cons piece rest ih =>
    have hstart : (start.bind fun l => s'.stepInto l piece) = start.bind fun l =>
        s.stepInto l piece := by
      simp only [h.stepInto_eq]
    show s'.walk (start.bind fun l => s'.stepInto l piece) rest =
      s.walk (start.bind fun l => s.stepInto l piece) rest
    rw [hstart, ih]

/-- A path leads to the same place in stores with the same directories. -/
theorem HaveSameDirectories.locate_eq (h : s.HaveSameDirectories s') (p : Path) :
    s'.locate p = s.locate p := by
  rw [locate, locate, follow_eq, follow_eq, h.walk_eq]

theorem HaveSameDirectories.isDirectory_eq (h : s.HaveSameDirectories s') (p : Path) :
    s'.isDirectory p = s.isDirectory p := by
  rw [Bool.eq_iff_iff, isDirectory_iff, isDirectory_iff]
  simp only [h.locate_eq, h _]

theorem HaveSameDirectories.isOnWay (h : s.HaveSameDirectories s') {p : Path} {l : Location}
    (hl : s.IsOnWay p l) :
    s'.IsOnWay p l := by
  obtain ⟨init, hinit, hwalk⟩ := hl
  exact ⟨init, hinit, (h.walk_eq _ _).trans hwalk⟩

/-- Writing a file leaves the directories that were there. -/
theorem haveSameDirectories_insert_file {p : Path} {l : Location} (hl : s.locate p = some l)
    (hdir : s.get? l ≠ some .directory) (c : Content) :
    s.HaveSameDirectories (s.insert l (.file c)) := by
  intro k
  rw [get?_insert_file hl hdir]
  split
  · next he =>
    rw [he]
    exact ⟨fun h => (by cases h), fun h => absurd h hdir⟩
  · exact Iff.rfl

/-! ### Making directories -/

theorem stepInto_parent {l : Location} (hl : s.get? l = some .directory) {piece : Text}
    (hp : component? piece = some .parent) : s.stepInto l piece = some l.dropLast := by
  have hpiece : piece = ['.', '.'] := by
    unfold component? at hp
    split at hp
    · cases hp
    · split at hp
      · next h => exact eq_of_beq h
      · cases hp
  have hfits : isName piece = true := by
    rw [hpiece]
    decide
  rw [stepInto, hl, hfits, beq_self_eq_true, Bool.and_self, if_pos rfl, hp]

theorem stepInto_name {l : Location} (hl : s.get? l = some .directory) {piece n : Text}
    (hp : component? piece = some (.name n)) (hfits : isName n = true) :
    s.stepInto l piece = some (l ++ [n]) := by
  obtain rfl := Path.component?_eq_name hp
  rw [stepInto, hl, hfits, beq_self_eq_true, Bool.and_self, if_pos rfl, hp]

/-- A piece that names nothing leads nowhere else. -/
theorem stepInto_blank {l : Location} (hl : s.get? l = some .directory) {piece : Text}
    (hparent : component? piece ≠ some .parent) (hname : ∀ n, component? piece ≠ some (.name n)) :
    s.stepInto l piece = some l := by
  have hpiece : piece = [] ∨ piece = ['.'] := by
    by_contra h
    rw [not_or] at h
    by_cases hp : piece = ['.', '.']
    · subst hp
      exact hparent rfl
    · exact hname _ (Path.component?_eq_some h.1 h.2 hp)
  have hfits : isName piece = true := by
    rcases hpiece with rfl | rfl <;> decide
  have hnone : component? piece = none := by
    rcases hpiece with rfl | rfl <;> decide
  rw [stepInto, hl, hfits, beq_self_eq_true, Bool.and_self, if_pos rfl, hnone]

/-- What making directories along some pieces leaves. -/
structure MadeAlong (s s' : Store) (l : Location) (ps : List Text) : Prop where
  leads : ∃ d, s'.walk (some l) ps = some d ∧ s'.get? d = some .directory
  new : ∀ k, s'.get? k = s.get? k ∨ (s.get? k = none ∧ s'.get? k = some .directory ∧
    s'.IsPassed l ps k)

theorem get?_insert_directory {l : Location} (hl : s.get? l = none) (k : Location) :
    (s.insert l .directory).get? k = s.get? k ∨
      (k = l ∧ s.get? k = none ∧ (s.insert l .directory).get? k = some .directory) := by
  by_cases htakes : s.takes l .directory = true
  case neg =>
    rw [insert_of_not_takes htakes]
    exact .inl rfl
  by_cases hnil : k = []
  · subst hnil
    exact .inl rfl
  · rw [get?_insert htakes hnil]
    split
    · next hk => exact .inr ⟨hk, hk ▸ hl, rfl⟩
    · exact .inl rfl

/-- The step of `makeAlong`: one more directory, and those behind it. -/
theorem MadeAlong.cons {s₁ : Store} {l next : Location} {piece : Text} {rest : List Text}
    (hstep : s'.stepInto l piece = some next)
    (hfirst : ∀ k, s₁.get? k = s.get? k ∨
      (k = next ∧ s.get? k = none ∧ s₁.get? k = some .directory))
    (h : MadeAlong s₁ s' next rest) : MadeAlong s s' l (piece :: rest) := by
  refine ⟨?_, fun k => ?_⟩
  · rw [walk_cons, hstep]
    exact h.leads
  · rcases h.new k with hsame | ⟨hnone, hdir, hpassed⟩
    · rw [hsame]
      rcases hfirst k with he | ⟨rfl, hnone, hdir⟩
      · exact .inl he
      · refine .inr ⟨hnone, hdir, [piece], ?_, ?_⟩
        · exact List.cons_prefix_cons.mpr ⟨rfl, List.nil_prefix⟩
        · rw [walk_cons, hstep]
          rfl
    · refine .inr ⟨?_, hdir, hpassed.cons hstep⟩
      rcases hfirst k with he | ⟨-, hnone', -⟩
      · rw [← he]
        exact hnone
      · exact hnone'

/-- Making directories along some pieces makes those that are passed and no others. -/
theorem madeAlong_of_makeAlong {l : Location} (hl : s.get? l = some .directory)
    {ps : List Text} (hps : ∀ piece ∈ ps, '/' ∉ piece) (h : s.makeAlong l ps = (s', true)) :
    MadeAlong s s' l ps := by
  induction ps generalizing s l with
  | nil =>
    cases h
    exact ⟨⟨l, rfl, hl⟩, fun _ => .inl rfl⟩
  | cons piece rest ih =>
    have hrest : ∀ piece ∈ rest, '/' ∉ piece := fun p hp => hps p (List.mem_cons_of_mem _ hp)
    -- Directories stay, so what is passed now is passed in the store that is left.
    have hkept {s : Store} {l : Location} (h : s.makeAlong l rest = (s', true)) :
        Changes (fun _ _ => False) s s' := by
      have := changes_makeAlong s l rest
      rwa [h] at this
    unfold makeAlong at h
    split at h
    · next hp =>
      exact (ih (get?_dropLast hl) hrest h).cons
        (stepInto_parent ((hkept h).directories _ hl) hp) (fun _ => .inl rfl)
    · next n hp =>
      split at h
      · next hfits =>
        split at h
        · next s₁ hmade =>
          obtain ⟨hdir, hfirst, hstays⟩ :
            s₁.get? (l ++ [n]) = some .directory ∧
              (∀ k, s₁.get? k = s.get? k ∨ (k = l ++ [n] ∧ s.get? k = none ∧
                s₁.get? k = some .directory)) ∧
              ∀ k, s.get? k = some .directory → s₁.get? k = some .directory := by
            unfold makeDirectory? at hmade
            split at hmade
            · next hdir =>
              cases hmade
              exact ⟨hdir, fun _ => .inl rfl, fun _ h => h⟩
            · cases hmade
            · next hnone =>
              cases hmade
              have hplace : s.IsPlace (l ++ [n]) :=
                .concat hl (isEntryName_of_component? hp (hps piece List.mem_cons_self)
                  (Path.component?_eq_name hp ▸ hfits))
              have htakes := (takes_iff_of_isPlace hplace (by simp)).mpr fun _ =>
                (rfl : Entry.directory = .directory)
              exact ⟨by rw [get?_insert htakes (by simp), if_pos rfl],
                get?_insert_directory hnone,
                (changes_insert (by rw [hnone]; simp) fun _ => hnone).directories⟩
          exact (ih hdir hrest h).cons
            (stepInto_name ((hkept h).directories _ (hstays _ hl)) hp hfits) hfirst
        · cases h
      · cases h
    · next hparent hname =>
      exact (ih hl hrest h).cons (stepInto_blank ((hkept h).directories _ hl) hparent hname)
        (fun _ => .inl rfl)

/-- Where a way leads along directories, none has to be made. -/
theorem makeAlong_eq_self {l d : Location} {ps : List Text} (hwalk : s.walk (some l) ps = some d)
    (hl : s.get? l = some .directory) (hd : s.get? d = some .directory) :
    s.makeAlong l ps = (s, true) := by
  induction ps generalizing l with
  | nil => rfl
  | cons piece rest ih =>
    rw [walk_cons] at hwalk
    cases hstep : s.stepInto l piece with
    | none =>
      rw [hstep, walk_none] at hwalk
      cases hwalk
    | some next =>
      rw [hstep] at hwalk
      -- What is passed is a directory, or nothing could follow it.
      have hnext : s.get? next = some .directory := by
        cases rest with
        | nil =>
          cases hwalk
          exact hd
        | cons piece' rest =>
          rw [walk_cons] at hwalk
          unfold stepInto at hwalk
          split at hwalk
          · next h =>
            rw [Bool.and_eq_true, beq_iff_eq] at h
            exact h.1
          · rw [walk_none] at hwalk
            cases hwalk
      have hmore := ih hwalk hnext
      unfold stepInto at hstep
      split at hstep
      · next hc =>
        rw [Bool.and_eq_true] at hc
        unfold makeAlong
        cases hp : component? piece with
        | none =>
          rw [hp] at hstep
          cases hstep
          exact hmore
        | some component =>
          rw [hp] at hstep
          cases component with
          | root | current | parent =>
            cases hstep
            exact hmore
          | name n =>
            cases hstep
            obtain rfl := Path.component?_eq_name hp
            simp only [hc.2, if_true, makeDirectory?, hnext]
            exact hmore
      · cases hstep

/-! ### A directory with those that lead to it -/

theorem makeDirectories_eq_self {p : Path} (h : s.isDirectory p = true) :
    s.makeDirectories p = (s, true) := by
  obtain ⟨d, hlocate, hd⟩ := isDirectory_iff.mp h
  obtain ⟨hpath, hfollow⟩ := locate_iff.mp hlocate
  rw [makeDirectories, hpath, h, Bool.not_true, Bool.and_false, if_neg (by simp), if_neg (by simp)]
  exact makeAlong_eq_self hfollow rfl hd

/-- What making a directory leaves: the path leads to a directory, and nothing is new but
directories on the way. -/
theorem makeDirectories_spec {p : Path} (h : s.makeDirectories p = (s', true)) :
    s'.isDirectory p = true ∧
      ∀ k, s'.get? k = s.get? k ∨ (s.get? k = none ∧ s'.get? k = some .directory ∧
        s'.IsOnWay p k) := by
  unfold makeDirectories at h
  split at h
  · cases h
  · next hpath =>
    split at h
    · cases h
    · have hmade := madeAlong_of_makeAlong rfl (fun _ => not_mem_pieces) h
      refine ⟨isDirectory_iff.mpr ?_, hmade.new⟩
      obtain ⟨d, hd, hdir⟩ := hmade.leads
      exact ⟨d, locate_iff.mpr ⟨by simpa using hpath, hd⟩, hdir⟩

end Localization.Store
