import Mathlib
import Localization.Config.Validation
import Localization.Proofs.Project.AssetFiles
import Localization.Proofs.Project.Writes
import Localization.Proofs.Tree.Distinct

/-! What an extraction writes is what is read back.

Files written into a directory lie over those that were there (`perm_assetFiles`). So the
directory of a language holds, behind an extraction, the files of its tree over the older
ones, and reading it gives the tree up to the order of keys exactly if no older file that is
left over hides a key (`readLocale_extract`). Later edits of these files are read as they
are. -/
namespace Localization.Project

open Json (Value)
open Localization.Path (IsEntryName join)
open Store (isDirectory_iff isFile_join_iff locate_iff locate_join_iff)
open Assets (layered leftOver combined)

/-! ### Files over those of a directory -/

section

variable {s s' : Store} {files : List (Path × Text)} {format : Text} {dir : Path}
    {new : List (Text × Tree)}

/-- The files written into a directory are those of a list, by their names. -/
structure Fills (s' : Store) (files : List (Path × Text)) (format : Text) (dir : Path)
    (new : List (Text × Tree)) : Prop where
  nodup : (new.map (·.1)).Nodup
  name : ∀ t ∈ new, '/' ∉ t.1 ∧ Path.component? t.1 = some (.name t.1) ∧
    Path.extensionOf? t.1 = some format
  path : ∀ t ∈ new, ∃ f ∈ files, f.1 = join dir t.1
  tree : ∀ f ∈ files, ∀ d n, s'.locate dir = some d → s'.locate f.1 = some (d ++ [n]) →
    ∃ t ∈ new, t.1 = n ∧ Value.ofText? f.2 = some (.object t.2)

/-- Where a file of the list stands. -/
theorem exists_content (hw : Writes files s s') (hf : Fills s' files format dir new)
    {t : Text × Tree} (ht : t ∈ new) :
    ∃ d, s'.locate dir = some d ∧ s'.get? d = some .directory ∧ HasAssetFile s' format dir d t := by
  obtain ⟨hslash, hcomponent, hext⟩ := hf.name t ht
  obtain ⟨f, hmem, hpath⟩ := hf.path t ht
  obtain ⟨l, c, hl, hget, g, hg, hgl, rfl⟩ := hw.written f hmem
  rw [hpath] at hl
  have hisPath := (locate_iff.mp hl).1
  obtain ⟨d, -, -, hfits, -⟩ := (Store.follow_join hslash hcomponent).mp (locate_iff.mp hl).2
  have hname : IsEntryName t.1 := ⟨hcomponent, hslash, hfits⟩
  obtain ⟨-, d, hd, hdir, rfl⟩ := (locate_join_iff hname).mp hl
  obtain ⟨u, hu, hun, htext⟩ := hf.tree g hg d t.1 hd hgl
  obtain rfl : u = t := List.inj_on_of_nodup_map hf.nodup hu ht hun
  exact ⟨d, hd, hdir, hname, hisPath, hext, g.2, hget, htext⟩

variable (hw : Writes files s s') (hf : Fills s' files format dir new)
  (hplace : ∀ d, s'.locate dir = some d → s.get? d = some .directory → s.locate dir = some d)

include hw hf hplace

/-- A file in the directory is one of the list or stood there before. -/
theorem mem_or_of_get? {d : Location} (hd : s'.locate dir = some d) {n : Text} {c : Content}
    (hget : s'.get? (d ++ [n]) = some (.file c)) :
    (∃ t ∈ new, t.1 = n ∧ ∃ text, c = .text text ∧ Value.ofText? text = some (.object t.2)) ∨
      (s.locate dir = some d ∧ s.get? d = some .directory ∧
        s.get? (d ++ [n]) = some (.file c)) := by
  rcases hw.changes.made _ _ hget with hold | ⟨f, hmem, hl, rfl⟩
  · have hparent := Store.get?_dropLast hold
    rw [List.dropLast_concat] at hparent
    exact .inr ⟨hplace d hd hparent, hparent, hold⟩
  · obtain ⟨t, ht, hn, htext⟩ := hf.tree f hmem d n hd hl
    exact .inl ⟨t, ht, hn, f.2, rfl, htext⟩

theorem areReadable_of_writes (hr : AreReadable s format dir) : AreReadable s' format dir := by
  intro n hisdir hn hasset
  obtain ⟨d, hd, hdir⟩ := isDirectory_iff.mp hisdir
  rw [isAssetFile, Bool.and_eq_true] at hasset
  obtain ⟨hpath, c, hc⟩ := (isFile_join_iff hd hdir hn).mp hasset.1
  rw [Option.isSome_iff_exists]
  rcases mem_or_of_get? hw hf hplace hd hc with ⟨t, -, -, text, rfl, htext⟩ | ⟨hd₀, hdir₀, hc₀⟩
  · exact ⟨t.2, (treeIn_join_iff hd hdir hn).mpr ⟨hpath, text, hc, htext⟩⟩
  · have hasset₀ : isAssetFile s format dir n = true := by
      rw [isAssetFile, Bool.and_eq_true]
      exact ⟨(isFile_join_iff hd₀ hdir₀ hn).mpr ⟨hpath, c, hc₀⟩, hasset.2⟩
    obtain ⟨tree, htree⟩ :=
      Option.isSome_iff_exists.mp (hr n (isDirectory_iff.mpr ⟨d, hd₀, hdir₀⟩) hn hasset₀)
    obtain ⟨-, text, hget, htext⟩ := (treeIn_join_iff hd₀ hdir₀ hn).mp htree
    rw [hc₀] at hget
    cases hget
    exact ⟨tree, (treeIn_join_iff hd hdir hn).mpr ⟨hpath, text, hc, htext⟩⟩

/-- **Written files lie over those that were in the directory.** -/
theorem perm_assetFiles :
    (assetFiles s' format dir).Perm (layered (assetFiles s format dir) new) := by
  have hold := nodup_assetFiles s format dir
  refine (List.perm_ext_iff_of_nodup (.of_map _ (nodup_assetFiles s' format dir))
    (.of_map _ (Assets.nodup_layered hold hf.nodup))).mpr fun f => ?_
  by_cases hisdir : s'.isDirectory dir = true
  · obtain ⟨d, hd, hdir⟩ := isDirectory_iff.mp hisdir
    rw [mem_assetFiles_iff hd hdir, layered, List.mem_append]
    constructor
    · rintro ⟨hname, hpath, hext, text, hget, htext⟩
      by_cases hnew : f.1 ∈ new.map (·.1)
      · obtain ⟨t, ht, hn⟩ := List.mem_map.mp hnew
        obtain ⟨d', hd', -, hfile⟩ := exists_content hw hf ht
        rw [hd] at hd'
        cases hd'
        obtain ⟨text', hget', htext'⟩ := hfile.content
        rw [hn, hget] at hget'
        cases hget'
        have htree : f.2 = t.2 := by
          rw [htext] at htext'
          simpa using htext'
        exact .inr (Prod.ext hn.symm htree ▸ ht)
      · rcases mem_or_of_get? hw hf hplace hd hget with ⟨t, ht, hn, -⟩ | ⟨hd₀, hdir₀, hget₀⟩
        · exact absurd (hn ▸ List.mem_map_of_mem ht) hnew
        · refine .inl (List.mem_filter.mpr ⟨?_, ?_⟩)
          · exact (mem_assetFiles_iff hd₀ hdir₀).mpr ⟨hname, hpath, hext, text, hget₀, htext⟩
          · rw [Bool.not_eq_true', ← Bool.not_eq_true, List.contains_iff_mem]
            exact hnew
    · rintro (hleft | hnew)
      · obtain ⟨hmem, hnot⟩ := List.mem_filter.mp hleft
        rw [Bool.not_eq_true', ← Bool.not_eq_true, List.contains_iff_mem] at hnot
        have hisdir₀ : s.isDirectory dir = true := by
          by_contra h
          rw [assetFiles_of_not_isDirectory h] at hmem
          cases hmem
        obtain ⟨d₀, hd₀, hdir₀⟩ := isDirectory_iff.mp hisdir₀
        have hsame := hw.changes.locate hd₀
        rw [hd] at hsame
        cases hsame
        obtain ⟨hname, hpath, hext, text, hget, htext⟩ := (mem_assetFiles_iff hd₀ hdir₀).mp hmem
        obtain ⟨c, hc, hor⟩ := hw.changes.kept _ _ hget
        rcases hor with rfl | ⟨g, hg, hgl, -⟩
        · exact ⟨hname, hpath, hext, text, hc, htext⟩
        · obtain ⟨t, ht, hn, -⟩ := hf.tree g hg d f.1 hd hgl
          exact absurd (hn ▸ List.mem_map_of_mem ht) hnot
      · obtain ⟨d', hd', -, hfile⟩ := exists_content hw hf hnew
        rw [hd] at hd'
        cases hd'
        exact hfile
  · have hnone : new = [] := by
      rw [List.eq_nil_iff_forall_not_mem]
      intro t ht
      obtain ⟨d, hd, hdir, -⟩ := exists_content hw hf ht
      exact hisdir (isDirectory_iff.mpr ⟨d, hd, hdir⟩)
    have hisdir₀ : ¬ s.isDirectory dir = true := by
      intro h
      obtain ⟨d, hd, hdir⟩ := isDirectory_iff.mp h
      exact hisdir (isDirectory_iff.mpr ⟨d, hw.changes.locate hd, hw.changes.directories d hdir⟩)
    rw [assetFiles_of_not_isDirectory hisdir, assetFiles_of_not_isDirectory hisdir₀, hnone]
    exact Iff.rfl

/-- Reading the directory is combining the written files over those that were there. -/
theorem readLocale_of_writes (hr : AreReadable s format dir) :
    readLocale s' format false dir = .ok (combined (layered (assetFiles s format dir) new)) := by
  refine readLocale_eq_iff.mpr ⟨areReadable_of_writes hw hf hplace hr, ?_⟩
  exact (Assets.combined_perm (perm_assetFiles hw hf hplace)
    (nodup_assetFiles s' format dir)).symm

end

end Localization.Project
