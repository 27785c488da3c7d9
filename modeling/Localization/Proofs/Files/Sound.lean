import Mathlib
import Localization.Proofs.Files.Join
import Localization.Proofs.Results

/-! Following paths in a store.

Whatever a path leads to is a place under names in a directory (`follow_isPlace`), so a file
that is written there and a directory that is made there are taken (`takes_iff_of_isPlace`,
`takes_file`).
The path of an entry leads one step further than that of its directory (`follow_join_iff`). -/
namespace Localization.Store

open Localization.Path (IsEntryName component? pieces join)

/-! ### Places -/

/-- A place under names in a directory, or the root. -/
structure IsPlace (s : Store) (l : Location) : Prop where
  names : ∀ n ∈ l, IsEntryName n
  parent : l ≠ [] → s.get? l.dropLast = some .directory

theorem IsPlace.root (s : Store) : s.IsPlace [] :=
  ⟨fun _ hn => absurd hn List.not_mem_nil, fun h => absurd rfl h⟩

/-- The place of a name in a directory. -/
theorem IsPlace.concat {s : Store} {d : Location} (hdir : s.get? d = some .directory) {n : Text}
    (hn : IsEntryName n) : s.IsPlace (d ++ [n]) := by
  refine ⟨fun m hm => ?_, fun _ => by rwa [List.dropLast_concat]⟩
  rcases List.mem_append.mp hm with hm | hm
  · exact s.sound.names_of_get? hdir m hm
  · rwa [List.mem_singleton.mp hm]

theorem get?_of_ne_nil (s : Store) {l : Location} (h : l ≠ []) : s.get? l = s.entries.lookup l :=
  Entries.get?_of_ne_nil s.entries h

/-- What is somewhere is in a directory. -/
theorem isPlace_of_get? {s : Store} {l : Location} {e : Entry} (h : s.get? l = some e) :
    s.IsPlace l := by
  refine ⟨s.sound.names_of_get? h, fun hl => ?_⟩
  rw [get?_of_ne_nil s hl] at h
  exact s.sound.parent _ (mem_of_lookup h) hl

theorem get?_dropLast {s : Store} {l : Location} {e : Entry} (h : s.get? l = some e) :
    s.get? l.dropLast = some .directory := by
  by_cases hl : l = []
  · subst hl
    rfl
  · exact (isPlace_of_get? h).parent hl

/-- A place takes everything but a file instead of a directory. -/
theorem takes_iff_of_isPlace {s : Store} {l : Location} (hl : s.IsPlace l) (hne : l ≠ [])
    {e : Entry} :
    s.takes l e = true ↔ (s.get? l = some .directory → e = .directory) := by
  obtain ⟨d, n, rfl⟩ := List.eq_nil_or_concat l |>.resolve_left hne
  rw [takes_iff]
  refine ⟨fun h => h.2.2, fun h => ⟨⟨n, by simp, hl.names n (by simp)⟩, hl.parent hne, h⟩⟩

/-! ### Following a path -/

/-- One name further. -/
def stepInto (s : Store) (l : Location) (piece : Text) : Option Location :=
  if s.get? l == some .directory && isName piece then
    match component? piece with
    | some .parent => some l.dropLast
    | some (.name n) => some (l ++ [n])
    | _ => some l
  else none

/-- Some pieces further. -/
def walk (s : Store) (start : Option Location) (ps : List Text) : Option Location :=
  ps.foldl (fun place piece => place.bind fun l => s.stepInto l piece) start

theorem locate_iff {s : Store} {p : Path} {l : Location} :
    s.locate p = some l ↔ isPath p = true ∧ s.follow p = some l := by
  rw [locate]
  split
  · next h => simp [h]
  · next h => simp [h]

theorem isDirectory_iff {s : Store} {p : Path} :
    s.isDirectory p = true ↔ ∃ l, s.locate p = some l ∧ s.get? l = some .directory := by
  rw [isDirectory, beq_iff_eq, entry?, Option.bind_eq_some_iff]

theorem follow_eq (s : Store) (p : Path) : s.follow p = s.walk (some []) (pieces p) := rfl

theorem walk_none (s : Store) (ps : List Text) : s.walk none ps = none := by
  induction ps with
  | nil => rfl
  | cons piece rest ih => exact ih

theorem walk_append (s : Store) (start : Option Location) (a b : List Text) :
    s.walk start (a ++ b) = s.walk (s.walk start a) b := by
  rw [walk, List.foldl_append]
  rfl

/-- A piece between slashes is a name if it names anything. -/
theorem isEntryName_of_component? {piece n : Text} (h : component? piece = some (.name n))
    (hslash : '/' ∉ piece) (hfits : isName piece = true) : IsEntryName n := by
  obtain rfl := Path.component?_eq_name h
  exact ⟨h, hslash, hfits⟩

theorem stepInto_isPlace {s : Store} {l next : Location} {piece : Text}
    (hl : s.IsPlace l) (hslash : '/' ∉ piece) (h : s.stepInto l piece = some next) :
    s.IsPlace next := by
  unfold stepInto at h
  split at h
  · next hc =>
    rw [Bool.and_eq_true, beq_iff_eq] at hc
    split at h
    · cases h
      exact isPlace_of_get? (get?_dropLast hc.1)
    · next n hn =>
      cases h
      exact .concat hc.1 (isEntryName_of_component? hn hslash hc.2)
    · cases h
      exact hl
  · cases h

theorem not_mem_pieces {p : Path} {piece : Text} (h : piece ∈ pieces p) : '/' ∉ piece := by
  have hall : ∀ t : Text, ∀ piece ∈ Text.splitFrom ['/'] 0 t, '/' ∉ piece := by
    intro t
    induction t with
    | nil =>
      intro piece h
      rw [List.mem_singleton.mp h]
      exact List.not_mem_nil
    | cons c t ih =>
      intro piece h
      by_cases hc : c = '/'
      · subst hc
        rw [show Text.splitFrom ['/'] 0 ('/' :: t) = [] :: Text.splitFrom ['/'] 0 t by
          simp [Text.splitFrom, List.isPrefixOf]] at h
        rcases List.mem_cons.mp h with rfl | h
        · exact List.not_mem_nil
        · exact ih piece h
      · have hb : ('/' == c) = false := beq_eq_false_iff_ne.mpr (Ne.symm hc)
        obtain ⟨part, parts, hparts⟩ := List.exists_cons_of_ne_nil (Text.splitFrom_ne_nil ['/'] 0 t)
        rw [show Text.splitFrom ['/'] 0 (c :: t) = (c :: part) :: parts by
          simp [Text.splitFrom, List.isPrefixOf, hb, hparts, Text.consHead]] at h
        rw [hparts] at ih
        rcases List.mem_cons.mp h with rfl | h
        · rw [List.mem_cons, not_or]
          exact ⟨Ne.symm hc, ih part List.mem_cons_self⟩
        · exact ih piece (List.mem_cons_of_mem _ h)
  exact hall p piece h

theorem walk_isPlace {s : Store} {ps : List Text} (hps : ∀ piece ∈ ps, '/' ∉ piece)
    {start l : Location} (hstart : s.IsPlace start) (h : s.walk (some start) ps = some l) :
    s.IsPlace l := by
  induction ps generalizing start with
  | nil =>
    cases h
    exact hstart
  | cons piece rest ih =>
    have hstep : s.walk (some start) (piece :: rest) = s.walk (s.stepInto start piece) rest := rfl
    rw [hstep] at h
    cases hnext : s.stepInto start piece with
    | none =>
      rw [hnext, walk_none] at h
      cases h
    | some next =>
      rw [hnext] at h
      exact ih (fun p hp => hps p (List.mem_cons_of_mem _ hp))
        (stepInto_isPlace hstart (hps piece List.mem_cons_self) hnext) h

/-- A path leads to a place. -/
theorem follow_isPlace {s : Store} {p : Path} {l : Location} (h : s.follow p = some l) :
    s.IsPlace l :=
  walk_isPlace (fun _ => not_mem_pieces) (.root s) h

/-- Where a path leads and no directory is, a file can be put. -/
theorem takes_file {s : Store} {p : Path} {l : Location} (hl : s.locate p = some l)
    (hdir : s.get? l ≠ some .directory) (c : Content) : s.takes l (.file c) = true := by
  have hne : l ≠ [] := by
    rintro rfl
    exact hdir rfl
  exact (takes_iff_of_isPlace (follow_isPlace (locate_iff.mp hl).2) hne).mpr fun h => absurd h hdir

/-- A name behind a directory is followed from there. -/
theorem follow_join {s : Store} {dir : Path} {n : Text} (hn : '/' ∉ n)
    (hname : component? n = some (.name n)) {l : Location} :
    s.follow (join dir n) = some l ↔
      ∃ d, s.follow dir = some d ∧ s.get? d = some .directory ∧ isName n = true ∧ l = d ++ [n] := by
  obtain ⟨init, hdir, hjoin⟩ := Path.pieces_join dir
  have hstep (d l : Location) : s.stepInto d n = some l ↔
      s.get? d = some .directory ∧ isName n = true ∧ l = d ++ [n] := by
    by_cases hd : s.get? d = some .directory
    · by_cases hfits : isName n = true
      · simp [stepInto, hfits, hname, hd, eq_comm]
      · simp [stepInto, hfits, hd]
    · have hb : (s.get? d == some .directory) = false := beq_eq_false_iff_ne.mpr hd
      simp [stepInto, hd, hb]
  have hblank (d l : Location) : s.stepInto d [] = some l ↔ s.get? d = some .directory ∧ l = d := by
    have hfits : isName [] = true := by decide
    by_cases hd : s.get? d = some .directory
    · simp [stepInto, hd, hfits, component?, eq_comm]
    · have hb : (s.get? d == some .directory) = false := beq_eq_false_iff_ne.mpr hd
      simp [stepInto, hd, hb]
  have hlast : s.follow (join dir n) = (s.walk (some []) init).bind fun d => s.stepInto d n := by
    rw [follow_eq, hjoin n hn, walk_append]
    rfl
  have hinit (d : Location) (hd : s.get? d = some .directory) :
      s.follow dir = some d ↔ s.walk (some []) init = some d := by
    rcases hdir with h | h
    · rw [follow_eq, h]
    · have : s.follow dir = (s.walk (some []) init).bind fun d => s.stepInto d [] := by
        rw [follow_eq, h, walk_append]
        rfl
      rw [this, Option.bind_eq_some_iff]
      constructor
      · rintro ⟨d', hd', h⟩
        obtain ⟨-, rfl⟩ := (hblank d' d).mp h
        exact hd'
      · exact fun h => ⟨d, h, (hblank d d).mpr ⟨hd, rfl⟩⟩
  rw [hlast, Option.bind_eq_some_iff]
  constructor
  · rintro ⟨d, hd, h⟩
    obtain ⟨hdirectory, hfits, rfl⟩ := (hstep d l).mp h
    exact ⟨d, (hinit d hdirectory).mpr hd, hdirectory, hfits, rfl⟩
  · rintro ⟨d, hd, hdirectory, hfits, rfl⟩
    exact ⟨d, (hinit d hdirectory).mp hd, (hstep d _).mpr ⟨hdirectory, hfits, rfl⟩⟩

/-- The path of an entry leads to its place in the directory. -/
theorem follow_join_iff {s : Store} {dir : Path} {n : Text} (hn : IsEntryName n) {l : Location} :
    s.follow (join dir n) = some l ↔
      ∃ d, s.follow dir = some d ∧ s.get? d = some .directory ∧ l = d ++ [n] := by
  rw [follow_join hn.noSlash hn.component]
  simp only [hn.fits, true_and]

end Localization.Store
