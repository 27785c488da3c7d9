import Mathlib
import Localization.Proofs.Files.Sound

/-! What changes of a store may do.

`Changes may s s'` says that from `s` to `s'` directories stay, and that files appear or
get other contents only where `may` allows it. It holds for one written file
(`changes_write?`) and for making directories (`changes_makeDirectories`), and changes
one after the other are one change (`Changes.trans`). Paths lead on to where they led
before (`Changes.locate`). -/
namespace Localization.Store

open Localization.Path (IsEntryName component? pieces join)

/-- A change of a store that keeps directories, and touches files only as allowed. -/
structure Changes (may : Location → Content → Prop) (s s' : Store) : Prop where
  directories : ∀ l, s.get? l = some .directory → s'.get? l = some .directory
  kept : ∀ l c, s.get? l = some (.file c) → ∃ c', s'.get? l = some (.file c') ∧ (c' = c ∨ may l c')
  made : ∀ l c, s'.get? l = some (.file c) → s.get? l = some (.file c) ∨ may l c

namespace Changes

variable {may : Location → Content → Prop} {s s' s'' : Store}

theorem refl (s : Store) : Changes may s s where
  directories := fun _ h => h
  kept := fun _ c h => ⟨c, h, .inl rfl⟩
  made := fun _ _ h => .inl h

theorem mono {more : Location → Content → Prop} (h : Changes may s s')
    (hm : ∀ l c, may l c → more l c) :
    Changes more s s' where
  directories := h.directories
  kept := fun l c hc => by
    obtain ⟨c', hc', hor⟩ := h.kept l c hc
    exact ⟨c', hc', hor.imp_right (hm l c')⟩
  made := fun l c hc => (h.made l c hc).imp_right (hm l c)

/-- Changes one after the other are one change. -/
theorem trans (h : Changes may s s') (h' : Changes may s' s'') : Changes may s s'' where
  directories := fun l hl => h'.directories l (h.directories l hl)
  kept := fun l c hc => by
    obtain ⟨c', hc', hor⟩ := h.kept l c hc
    obtain ⟨c'', hc'', hor'⟩ := h'.kept l c' hc'
    refine ⟨c'', hc'', ?_⟩
    rcases hor' with rfl | hmay
    · exact hor
    · exact .inr hmay
  made := fun l c hc => by
    rcases h'.made l c hc with hc | hmay
    · exact h.made l c hc
    · exact .inr hmay

theorem stepInto (h : Changes may s s') {l next : Location} {piece : Text}
    (hstep : s.stepInto l piece = some next) : s'.stepInto l piece = some next := by
  unfold Store.stepInto at hstep ⊢
  split at hstep
  · next hc =>
    rw [Bool.and_eq_true, beq_iff_eq] at hc
    have hdir : s'.get? l = some .directory := h.directories l hc.1
    rw [hdir, hc.2, beq_self_eq_true, Bool.and_self, if_pos rfl]
    exact hstep
  · cases hstep

theorem walk (h : Changes may s s') {ps : List Text} {start l : Location}
    (hwalk : s.walk (some start) ps = some l) : s'.walk (some start) ps = some l := by
  induction ps generalizing start with
  | nil => exact hwalk
  | cons piece rest ih =>
    have hcons (s : Store) : s.walk (some start) (piece :: rest) =
        s.walk (s.stepInto start piece) rest := rfl
    rw [hcons] at hwalk ⊢
    cases hnext : s.stepInto start piece with
    | none =>
      rw [hnext, walk_none] at hwalk
      cases hwalk
    | some next =>
      rw [hnext] at hwalk
      rw [h.stepInto hnext]
      exact ih hwalk

/-- A path leads where it led before. -/
theorem locate (h : Changes may s s') {p : Path} {l : Location} (hl : s.locate p = some l) :
    s'.locate p = some l := by
  unfold Store.locate at hl ⊢
  split at hl
  · next hp =>
    rw [if_pos hp]
    exact h.walk hl
  · cases hl

end Changes

/-- Where a path leads to a directory that was there before, it led there before. This fails only
for a path that goes through a new directory and back out of it. -/
def LeadsBack (s s' : Store) (p : Path) : Prop :=
  ∀ d, s'.locate p = some d → s.get? d = some .directory → s.locate p = some d

/-- A path that led to a directory leads there. -/
theorem Changes.leadsBack {may : Location → Content → Prop} {s s' : Store} (h : Changes may s s')
    {p : Path} (hp : s.isDirectory p = true) : LeadsBack s s' p := by
  intro d hd _
  obtain ⟨l, hl, -⟩ := isDirectory_iff.mp hp
  rw [h.locate hl] at hd
  cases hd
  exact hl

/-! ### Single changes -/

variable {s : Store}

theorem changes_insert {l : Location} {e : Entry} (hdir : s.get? l ≠ some .directory)
    (hfile : e = .directory → s.get? l = none) :
    Changes (fun k c => k = l ∧ e = .file c) s (s.insert l e) := by
  by_cases htakes : s.takes l e = true
  case neg =>
    rw [insert_of_not_takes htakes]
    exact .refl s
  have hget (k : Location) (hk : k ≠ []) := get?_insert htakes hk
  refine ⟨fun k h => ?_, fun k c h => ?_, fun k c h => ?_⟩
  · by_cases hk : k = []
    · subst hk
      rfl
    · by_cases hkl : k = l
      · subst hkl
        exact absurd h hdir
      · rw [hget k hk, if_neg hkl]
        exact h
  · have hk : k ≠ [] := by
      rintro rfl
      cases h
    rw [hget k hk]
    by_cases hkl : k = l
    · subst hkl
      cases e with
      | file content => exact ⟨content, if_pos rfl, .inr ⟨rfl, rfl⟩⟩
      | directory =>
        rw [hfile rfl] at h
        cases h
    · rw [if_neg hkl]
      exact ⟨c, h, .inl rfl⟩
  · have hk : k ≠ [] := by
      rintro rfl
      cases h
    rw [hget k hk] at h
    by_cases hkl : k = l
    · rw [if_pos hkl] at h
      exact .inr ⟨hkl, Option.some.inj h⟩
    · rw [if_neg hkl] at h
      exact .inl h

/-- A file can be written where a path leads, unless a directory is there. -/
theorem writable?_eq_some_iff {p : Path} {l : Location} :
    s.writable? p = some l ↔ s.locate p = some l ∧ s.get? l ≠ some .directory := by
  unfold writable?
  split
  · next k hk =>
    rw [hk]
    split
    · next hdir =>
      refine ⟨fun h => (by cases h), fun ⟨hkl, hnot⟩ => ?_⟩
      cases hkl
      exact absurd (eq_of_beq hdir) hnot
    · next hdir =>
      constructor
      · rintro ⟨⟩
        exact ⟨rfl, fun h => hdir (beq_iff_eq.mpr h)⟩
      · exact fun h => h.1
  · next hnone => exact ⟨fun h => (by cases h), fun h => absurd h.1 (by rw [hnone]; simp)⟩

theorem write?_eq_some_iff {s' : Store} {p : Path} {c : Content} :
    s.write? p c = some s' ↔
      ∃ l, s.locate p = some l ∧ s.get? l ≠ some .directory ∧ s' = s.insert l (.file c) := by
  rw [write?, Option.map_eq_some_iff]
  simp only [writable?_eq_some_iff, and_assoc, eq_comm (b := s')]

/-- What a place holds with a text put at its end. -/
def appendedTo (old : Option Entry) (t : Text) : Content :=
  match old with
  | some (.file c) => c.append t
  | _ => .text t

theorem append?_eq_some_iff {s' : Store} {p : Path} {t : Text} :
    s.append? p t = some s' ↔
      ∃ l, s.locate p = some l ∧ s.get? l ≠ some .directory ∧
        s' = s.insert l (.file (appendedTo (s.get? l) t)) := by
  rw [append?, Option.map_eq_some_iff]
  refine exists_congr fun l => ?_
  rw [writable?_eq_some_iff, and_assoc, eq_comm (b := s')]
  refine and_congr_right fun _ => and_congr_right fun _ => ?_
  unfold appendedTo
  cases s.get? l with
  | none => rfl
  | some e => cases e <;> rfl

/-- What is at the other locations stays when a file is written. -/
theorem get?_insert_file {p : Path} {l : Location} (hl : s.locate p = some l)
    (hdir : s.get? l ≠ some .directory) (c : Content) (k : Location) :
    (s.insert l (.file c)).get? k = if k = l then some (.file c) else s.get? k := by
  by_cases hk : k = []
  · subst hk
    rw [if_neg]
    · rfl
    · rintro rfl
      exact hdir rfl
  · exact get?_insert (takes_file hl hdir c) hk

/-- Writing a file changes that file. -/
theorem changes_write? {s' : Store} {p : Path} {c : Content} (h : s.write? p c = some s') :
    ∃ l, s.locate p = some l ∧ s'.get? l = some (.file c) ∧
      Changes (fun k c' => k = l ∧ c' = c) s s' := by
  obtain ⟨l, hl, hdir, rfl⟩ := write?_eq_some_iff.mp h
  refine ⟨l, hl, by rw [get?_insert_file hl hdir, if_pos rfl], ?_⟩
  refine (changes_insert hdir fun h => by cases h).mono ?_
  rintro k c' ⟨rfl, he⟩
  cases he
  exact ⟨rfl, rfl⟩

/-- Making directories along a path changes no file. -/
theorem changes_makeAlong (s : Store) (l : Location) (ps : List Text) :
    Changes (fun _ _ => False) s (s.makeAlong l ps).1 := by
  induction ps generalizing s l with
  | nil => exact .refl s
  | cons piece rest ih =>
    unfold makeAlong
    split
    · exact ih s l.dropLast
    · next n _ =>
      split
      · unfold makeDirectory?
        cases hget : s.get? (l ++ [n]) with
        | some e =>
          cases e with
          | directory => exact ih s (l ++ [n])
          | file c => exact .refl s
        | none =>
          have hfirst : Changes (fun _ _ => False) s (s.insert (l ++ [n]) .directory) := by
            refine (changes_insert (by rw [hget]; simp) fun _ => hget).mono ?_
            rintro k c ⟨-, he⟩
            cases he
          exact hfirst.trans (ih _ (l ++ [n]))
      · exact .refl s
    · exact ih s l

theorem changes_makeDirectories (s : Store) (p : Path) :
    Changes (fun _ _ => False) s (s.makeDirectories p).1 := by
  unfold makeDirectories
  split
  · exact .refl s
  · split
    · exact changes_makeAlong s [] _
    · exact changes_makeAlong s [] _

/-! ### Taking away -/

/-- A store has more than what is left of it only where something was taken away. -/
theorem changes_erase (s : Store) (l : Location) :
    Changes (fun k _ => l <+: k) (s.erase l) s := by
  have hget {k : Location} {e : Entry} (h : (s.erase l).get? k = some e) : s.get? k = some e := by
    by_cases hk : l <+: k
    · by_cases hnil : k = []
      · subst hnil
        exact h
      · rw [get?_erase_below s hk hnil] at h
        cases h
    · rwa [get?_erase s hk] at h
  refine ⟨fun k h => hget h, fun k c h => ⟨c, hget h, .inl rfl⟩, fun k c h => ?_⟩
  by_cases hk : l <+: k
  · exact .inr hk
  · exact .inl (by rwa [get?_erase s hk])

/-- A path leads to nothing where what it led to is taken away. -/
theorem not_isDirectory_erase {p : Path} {l : Location} (hl : s.locate p = some l) (hne : l ≠ []) :
    ¬ (s.erase l).isDirectory p = true := by
  rw [isDirectory_iff]
  rintro ⟨k, hk, hdir⟩
  rw [(changes_erase s l).locate hk] at hl
  obtain rfl := Option.some.inj hl
  rw [get?_erase_below s List.prefix_rfl hne] at hdir
  cases hdir

end Localization.Store
