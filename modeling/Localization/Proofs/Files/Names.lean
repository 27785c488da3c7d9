import Mathlib
import Localization.Proofs.Files.Sound

/-! The names in a directory.

The names that a directory lists are those under which something stands at its place
(`mem_namesIn_iff`), in order and each once. The path of such a name leads there
(`locate_join_iff`), and the last name of a path that leads to a file is that of the file
(`fileName?_of_locate`). -/
namespace Localization.Store

open Localization.Path (IsEntryName join)

/-! ### Names in a directory -/

/-- The name of a location in a directory. -/
def nameIn (d k : Location) : Option Text :=
  match k.getLast? with
  | some n => if k.dropLast == d then some n else none
  | none => none

theorem nameIn_eq_some_iff {d k : Location} {n : Text} : nameIn d k = some n ↔ k = d ++ [n] := by
  rcases List.eq_nil_or_concat k with rfl | ⟨init, last, rfl⟩
  · simp [nameIn]
  · simp only [List.concat_eq_append, nameIn, List.getLast?_concat, List.dropLast_concat]
    by_cases hd : init = d
    · subst hd
      simp
    · have hb : (init == d) = false := beq_eq_false_iff_ne.mpr hd
      rw [hb, if_neg (by simp)]
      exact ⟨fun h => (by cases h), fun h => absurd (List.append_inj' h rfl).1 hd⟩

theorem namesIn_eq (s : Store) (d : Location) :
    s.namesIn d = ((s.entries.map (·.1)).filterMap (nameIn d)).mergeSort Text.le := by
  rw [List.filterMap_map]
  rfl

theorem mem_namesIn_iff {s : Store} {d : Location} {n : Text} :
    n ∈ s.namesIn d ↔ (s.get? (d ++ [n])).isSome = true := by
  have hne : d ++ [n] ≠ [] := by simp
  rw [namesIn_eq, List.mem_mergeSort, List.mem_filterMap, get?_of_ne_nil s hne]
  constructor
  · rintro ⟨k, hk, h⟩
    rw [nameIn_eq_some_iff.mp h] at hk
    obtain ⟨⟨k', e⟩, he, rfl⟩ := List.mem_map.mp hk
    exact List.lookup_isSome_iff.mpr ⟨_, he, beq_self_eq_true _⟩
  · intro h
    obtain ⟨e, he⟩ := Option.isSome_iff_exists.mp h
    exact ⟨_, List.mem_map_of_mem (mem_of_lookup he), nameIn_eq_some_iff.mpr rfl⟩

theorem pairwise_namesIn (s : Store) (d : Location) :
    (s.namesIn d).Pairwise fun a b => Text.le a b = true :=
  List.pairwise_mergeSort Text.le_trans Text.le_total _

theorem names?_eq {s : Store} {dir : Path} {d : Location} (hd : s.locate dir = some d)
    (hdir : s.get? d = some .directory) : s.names? dir = some (s.namesIn d) := by
  rw [names?, if_pos (isDirectory_iff.mpr ⟨d, hd, hdir⟩), hd, Option.map_some]

theorem nodup_namesIn (s : Store) (d : Location) : (s.namesIn d).Nodup := by
  rw [namesIn_eq, (List.mergeSort_perm _ _).nodup_iff]
  refine s.sound.nodup.filterMap fun a b n ha hb => ?_
  rw [nameIn_eq_some_iff.mp ha, nameIn_eq_some_iff.mp hb]

theorem isEntryName_of_mem_namesIn {s : Store} {d : Location} {n : Text}
    (h : n ∈ s.namesIn d) : IsEntryName n := by
  obtain ⟨e, he⟩ := Option.isSome_iff_exists.mp (mem_namesIn_iff.mp h)
  exact (isPlace_of_get? he).names n (by simp)

theorem isEntryName_of_names? {s : Store} {p : Path} {n : Text} (h : n ∈ (s.names? p).getD []) :
    IsEntryName n := by
  unfold names? at h
  split at h
  · cases hl : s.locate p with
    | none =>
      rw [hl] at h
      cases h
    | some l =>
      rw [hl] at h
      exact isEntryName_of_mem_namesIn h
  · cases h

/-! ### Paths in a directory -/

/-- What is no directory stands under the last name of its path. -/
theorem fileName?_of_locate {s : Store} {p : Path} {l : Location}
    (hl : s.locate p = some l) (hdir : s.get? l ≠ some .directory) :
    Path.fileName? p = l.getLast? := by
  have hfollow := (locate_iff.mp hl).2
  obtain ⟨init, last, hpieces⟩ : ∃ init last, Path.pieces p = init ++ [last] := by
    rcases List.eq_nil_or_concat (Path.pieces p) with h | ⟨init, last, h⟩
    · exact absurd h (Text.splitFrom_ne_nil ['/'] 0 p)
    · exact ⟨init, last, h.trans List.concat_eq_append⟩
  rw [follow_eq, hpieces, walk_append] at hfollow
  obtain ⟨d, -, hstep⟩ := Option.bind_eq_some_iff.mp hfollow
  have hstep : s.stepInto d last = some l := hstep
  -- Only a name leads to what is no directory.
  obtain ⟨n, hn, rfl⟩ : ∃ n, Path.component? last = some (.name n) ∧ l = d ++ [n] := by
    unfold stepInto at hstep
    split at hstep
    · next hc =>
      rw [Bool.and_eq_true, beq_iff_eq] at hc
      split at hstep
      · cases hstep
        exact absurd (get?_dropLast hc.1) hdir
      · next n hn =>
        cases hstep
        exact ⟨n, hn, rfl⟩
      · cases hstep
        exact absurd hc.1 hdir
    · cases hstep
  have hinner : ((Path.pieces p).filterMap Path.component?).getLast? = some (.name n) := by
    rw [hpieces, List.filterMap_append, List.filterMap_cons_some hn, List.filterMap_nil,
      List.getLast?_concat]
  have hlast : (Path.components p).getLast? = some (.name n) := by
    unfold Path.components
    split
    · rw [List.getLast?_cons, hinner, Option.getD_some]
    · split
      · rw [List.getLast?_cons, hinner, Option.getD_some]
      · exact hinner
  rw [Path.fileName?, hlast, List.getLast?_concat]

theorem isPath_of_isPath_join {dir : Path} {n : Text} (hn : '/' ∉ n)
    (h : isPath (join dir n) = true) : isPath dir = true := by
  obtain ⟨more, hmore⟩ : ∃ more, join dir n = dir ++ more := by
    rw [join, Path.not_isAbsolute hn, if_neg (by simp)]
    split
    · exact ⟨_, rfl⟩
    · exact ⟨_, rfl⟩
  simp only [isPath, hmore, Bool.and_eq_true, decide_eq_true_eq, Text.size_append,
    Bool.not_eq_true', ← Bool.not_eq_true, List.contains_iff_mem, List.mem_append, not_or] at h ⊢
  exact ⟨by omega, h.2.1⟩

/-- What stands behind one more piece is below a directory. -/
theorem isDirectory_of_isDirectory_join {s : Store} {dir : Path} {piece : Text} (hp : '/' ∉ piece)
    (h : s.isDirectory (join dir piece) = true) : s.isDirectory dir = true := by
  obtain ⟨l, hl, -⟩ := isDirectory_iff.mp h
  obtain ⟨hpath, hfollow⟩ := locate_iff.mp hl
  obtain ⟨init, hdir, hjoin⟩ := Path.pieces_join dir
  rw [follow_eq, hjoin piece hp, walk_append] at hfollow
  obtain ⟨d, hd, hstep⟩ := Option.bind_eq_some_iff.mp hfollow
  have hget : s.get? d = some .directory := by
    unfold stepInto at hstep
    split at hstep
    · next hc =>
      rw [Bool.and_eq_true, beq_iff_eq] at hc
      exact hc.1
    · cases hstep
  refine isDirectory_iff.mpr ⟨d, locate_iff.mpr ⟨isPath_of_isPath_join hp hpath, ?_⟩, hget⟩
  rw [follow_eq]
  rcases hdir with he | he
  · rw [he, hd]
  · have hfits : isName [] = true := by decide
    rw [he, walk_append, hd]
    simp [walk, stepInto, hget, Path.component?, hfits]

/-- The path of an entry leads to its place in the directory, unless it is too long. -/
theorem locate_join_iff {s : Store} {dir : Path} {n : Text} (hn : IsEntryName n) {l : Location} :
    s.locate (join dir n) = some l ↔
      isPath (join dir n) = true ∧
        ∃ d, s.locate dir = some d ∧ s.get? d = some .directory ∧ l = d ++ [n] := by
  rw [locate_iff, follow_join_iff hn]
  refine and_congr_right fun hpath => ?_
  refine exists_congr fun d => ?_
  rw [locate_iff, and_iff_right (isPath_of_isPath_join hn.noSlash hpath)]

theorem eq_of_locate_join {s : Store} {dir : Path} {d : Location} (hd : s.locate dir = some d)
    {n : Text} (hn : IsEntryName n) {l : Location} (hl : s.locate (join dir n) = some l) :
    l = d ++ [n] := by
  obtain ⟨-, d', hd', -, rfl⟩ := (locate_join_iff hn).mp hl
  rw [hd] at hd'
  cases hd'
  rfl

/-- Under a name that the directory does not have, nothing is found. -/
theorem entry?_join_eq_none {s : Store} {dir : Path} {d : Location} (hd : s.locate dir = some d)
    {n : Text} (hn : IsEntryName n) (hnone : s.get? (d ++ [n]) = none) :
    s.entry? (join dir n) = none := by
  rw [Store.entry?]
  cases hl : s.locate (join dir n) with
  | none => rfl
  | some l =>
    rw [eq_of_locate_join hd hn hl]
    exact hnone

theorem not_isDirectory_join {s : Store} {p : Path} {l : Location} (hl : s.locate p = some l)
    {n : Text} (hn : IsEntryName n) (hnone : s.get? (l ++ [n]) = none) :
    ¬ s.isDirectory (join p n) = true := by
  rw [isDirectory, entry?_join_eq_none hl hn hnone]
  exact Bool.false_ne_true

theorem readText?_eq_some_iff {s : Store} {p : Path} {t : Text} :
    s.readText? p = some t ↔ ∃ l, s.locate p = some l ∧ s.get? l = some (.file (.text t)) := by
  rw [← Option.bind_eq_some_iff]
  show _ ↔ s.entry? p = _
  unfold readText?
  split
  · next u hu => simp [hu]
  · next hne => exact ⟨fun h => (by cases h), fun h => absurd h (hne t)⟩

theorem readText?_join_iff {s : Store} {dir : Path} {d : Location} (hd : s.locate dir = some d)
    (hdir : s.get? d = some .directory) {n : Text} (hn : IsEntryName n) {t : Text} :
    s.readText? (join dir n) = some t ↔
      isPath (join dir n) = true ∧ s.get? (d ++ [n]) = some (.file (.text t)) := by
  rw [readText?_eq_some_iff]
  constructor
  · rintro ⟨l, hl, hget⟩
    rw [eq_of_locate_join hd hn hl] at hget
    exact ⟨((locate_join_iff hn).mp hl).1, hget⟩
  · rintro ⟨hpath, hget⟩
    exact ⟨_, (locate_join_iff hn).mpr ⟨hpath, d, hd, hdir, rfl⟩, hget⟩

theorem isFile_iff {s : Store} {p : Path} :
    s.isFile p = true ↔ ∃ c, s.entry? p = some (.file c) := by
  unfold isFile
  split
  · next c hc => simp [hc]
  · next hc => exact ⟨fun h => (by cases h), fun ⟨c, h⟩ => absurd h (hc c)⟩

theorem isFile_join_iff {s : Store} {dir : Path} {d : Location} (hd : s.locate dir = some d)
    (hdir : s.get? d = some .directory) {n : Text} (hn : IsEntryName n) :
    s.isFile (join dir n) = true ↔
      isPath (join dir n) = true ∧ ∃ c, s.get? (d ++ [n]) = some (.file c) := by
  rw [isFile_iff]
  constructor
  · rintro ⟨c, h⟩
    rw [Store.entry?, Option.bind_eq_some_iff] at h
    obtain ⟨l, hl, hget⟩ := h
    rw [eq_of_locate_join hd hn hl] at hget
    exact ⟨((locate_join_iff hn).mp hl).1, c, hget⟩
  · rintro ⟨hpath, c, hget⟩
    refine ⟨c, ?_⟩
    rw [Store.entry?, (locate_join_iff hn).mpr ⟨hpath, d, hd, hdir, rfl⟩, Option.bind_some, hget]

end Localization.Store
