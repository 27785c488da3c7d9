import Mathlib
import Localization.Project.Inline
import Localization.Proofs.Project.AssetFiles

/-! The chunks of a project as they stand.

The chunks of a directory are its files with an extension of scripts. What is read from a
directory are these files, in name order and each with its text (`areChunksIn_of_chunksIn`). -/
namespace Localization.Project

open Localization.Path (IsEntryName join)
open Store (isDirectory_iff isEntryName_of_mem_namesIn isFile_join_iff mem_namesIn_iff
  nodup_namesIn pairwise_namesIn)
open Inlining (Chunk)

/-- Whether a name in a directory is that of a chunk. -/
structure IsChunkName (s : Store) (dir : Path) (n : Text) : Prop where
  name : IsEntryName n
  file : s.isFile (join dir n) = true
  extension : ∃ e ∈ chunkExtensions, Path.extensionOf? n = some e

/-- Some chunks are those of a directory, in name order and with their texts. -/
structure AreChunksIn (s : Store) (dir : Path) (chunks : List Chunk) : Prop where
  name : ∀ n, IsChunkName s dir n ↔ ∃ chunk ∈ chunks, chunk.name = n
  text : ∀ chunk ∈ chunks, s.readText? (join dir chunk.name) = some chunk.code
  nodup : (chunks.map (·.name)).Nodup
  sorted : (chunks.map (·.name)).Pairwise fun a b => Text.le a b = true

theorem readText_eq_ok_iff {s : Store} {p : Path} {t : Text} :
    readText s p = .ok t ↔ s.readText? p = some t := by
  unfold readText
  split
  · next u hu => rw [hu, Except.ok.injEq, Option.some.injEq]
  · next hu =>
    rw [hu]
    exact ⟨fun h => (by cases h), fun h => (by cases h)⟩

/-- The names of the chunks in the directory at a location. -/
def chunkNames (s : Store) (dir : Path) (d : Location) : List Text :=
  (s.namesIn d).filter fun n => s.isFile (join dir n) &&
    ((Path.extensionOf? n).map chunkExtensions.contains).getD false

theorem mem_chunkNames_iff {s : Store} {dir : Path} {d : Location}
    (hd : s.locate dir = some d) (hdir : s.get? d = some .directory) {n : Text} :
    n ∈ chunkNames s dir d ↔ IsChunkName s dir n := by
  rw [chunkNames, List.mem_filter, Bool.and_eq_true, Option.getD_eq_iff]
  constructor
  · rintro ⟨hn, hfile, hext⟩
    refine ⟨isEntryName_of_mem_namesIn hn, hfile, ?_⟩
    rcases hext with hext | ⟨-, h⟩
    · obtain ⟨e, he, hmem⟩ := Option.map_eq_some_iff.mp hext
      exact ⟨e, List.contains_iff_mem.mp hmem, he⟩
    · cases h
  · rintro ⟨hn, hfile, e, hmem, he⟩
    obtain ⟨-, c, hc⟩ := (isFile_join_iff hd hdir hn).mp hfile
    refine ⟨mem_namesIn_iff.mpr (by rw [hc]; rfl), hfile, .inl ?_⟩
    rw [he, Option.map_some, List.contains_iff_mem.mpr hmem]

/-- The names and texts of the chunks that are read. -/
theorem forall₂_of_chunksIn {s : Store} {dir : Path} {chunks : List Chunk}
    (h : chunksIn s dir = .ok chunks) :
    ∃ d, s.locate dir = some d ∧ s.get? d = some .directory ∧
      List.Forall₂ (fun n chunk => chunk.name = n ∧ s.readText? (join dir n) = some chunk.code)
        (chunkNames s dir d) chunks := by
  unfold chunksIn at h
  split at h
  · cases h
  · next files hfiles =>
    -- The directory is there, or its files could not be listed.
    have hisdir : s.isDirectory dir = true := by
      by_contra hnot
      rw [filesWith, Store.names?, if_neg hnot] at hfiles
      cases hfiles
    obtain ⟨d, hd, hdir⟩ := isDirectory_iff.mp hisdir
    rw [filesWith_eq_map _ hd hdir] at hfiles
    cases hfiles
    refine ⟨d, hd, hdir, ?_⟩
    rw [mapM_eq_ok_iff, List.forall₂_map_left_iff] at h
    refine ((List.forall₂_and_left _ _).mpr ⟨fun n hn => hn, h⟩).imp ?_
    rintro n chunk ⟨hn, hchunk⟩
    obtain ⟨t, ht, he⟩ := Except.bind_eq_ok_iff.mp hchunk
    cases he
    have hname := ((mem_chunkNames_iff hd hdir).mp hn).name
    exact ⟨by rw [Path.fileName?_join hname]; rfl, readText_eq_ok_iff.mp ht⟩

/-- The chunks that are read are those of the directory. -/
theorem areChunksIn_of_chunksIn {s : Store} {dir : Path} {chunks : List Chunk}
    (h : chunksIn s dir = .ok chunks) : AreChunksIn s dir chunks := by
  obtain ⟨d, hd, hdir, hread⟩ := forall₂_of_chunksIn h
  have hnames : chunks.map (·.name) = chunkNames s dir d := by
    have hsame : List.Forall₂ Eq (chunks.map (·.name)) (chunkNames s dir d) :=
      List.forall₂_map_left_iff.mpr (hread.flip.imp fun _ _ h => h.1)
    rwa [List.forall₂_eq_eq_eq] at hsame
  refine ⟨fun n => ?_, fun chunk hchunk => ?_, ?_, ?_⟩
  · rw [← mem_chunkNames_iff hd hdir, ← hnames, List.mem_map]
  · clear h hnames
    generalize chunkNames s dir d = names at hread
    induction hread with
    | nil => cases hchunk
    | cons hfirst _ ih =>
      rcases List.mem_cons.mp hchunk with rfl | hchunk
      · rw [hfirst.1]
        exact hfirst.2
      · exact ih hchunk
  · rw [hnames]
    exact (nodup_namesIn s d).sublist List.filter_sublist
  · rw [hnames]
    exact (pairwise_namesIn s d).sublist List.filter_sublist

end Localization.Project
