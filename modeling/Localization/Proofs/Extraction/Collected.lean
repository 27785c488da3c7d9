import Mathlib
import Localization.Extraction.Keys

/-! The keys that a source gives, call by call.

Every call that a scan reports gives some keys (`callKeys`), and what is collected from
a source are the keys of its calls, whatever their family: `mem_keys_collect`. -/
namespace Localization.Extraction

open Marker (Call Family)

theorem nodup_eraseDups {α : Type} [BEq α] [LawfulBEq α] (l : List α) : l.eraseDups.Nodup := by
  generalize hn : l.length = n
  induction n using Nat.strongRecOn generalizing l with
  | ind n ih =>
    subst hn
    cases l with
    | nil => exact .nil
    | cons a rest =>
      rw [List.eraseDups_cons, List.nodup_cons]
      refine ⟨fun h => ?_, ih _ (Nat.lt_succ_of_le (List.length_filter_le _ rest)) _ rfl⟩
      have := (List.mem_filter.mp (List.mem_eraseDups.mp h)).2
      simp at this

/-- The calls of a family belong to it. -/
theorem family_of_mem_scan {f : Family} {marker code : Text} {call : Call}
    (h : call ∈ Marker.scan f marker code) : call.family = f := by
  unfold Marker.scan at h
  split at h
  · rw [Marker.inOrder, List.mem_mergeSort, List.mem_flatMap] at h
    obtain ⟨name, -, h⟩ := h
    rw [Marker.scanName, List.mem_filterMap] at h
    obtain ⟨place, -, h⟩ := h
    obtain ⟨found, -, rfl⟩ := Option.map_eq_some_iff.mp h
    rfl
  · cases h

/-- The keys that one call gives. -/
def callKeys (config : Config) (call : Call) : SourceKeys :=
  match call.family with
  | .plural => pluralKeys config call
  | _ => translateKeys call

theorem SourceKeys.keys_concat (parts : List SourceKeys) :
    (SourceKeys.concat parts).keys = parts.flatMap (·.keys) := by
  suffices h : ∀ start : SourceKeys,
      (parts.foldl SourceKeys.append start).keys = start.keys ++ parts.flatMap (·.keys) by
    rw [SourceKeys.concat, h]
    rfl
  induction parts with
  | nil => simp
  | cons part rest ih =>
    intro start
    rw [List.foldl_cons, ih]
    simp [SourceKeys.append]

/-- A key is collected if some call of some family gives it. -/
theorem mem_keys_collect {config : Config} {code raw : Text} :
    raw ∈ (collect config code).keys ↔
      ∃ f, ∃ call ∈ Marker.scan f (config.markers.name f) code,
        raw ∈ (callKeys config call).keys := by
  rw [collect, SourceKeys.keys_concat, List.flatMap_append, List.mem_append]
  simp only [List.mem_flatMap, List.mem_map]
  constructor
  · rintro (⟨_, ⟨f, hf, call, hcall, rfl⟩, hraw⟩ | ⟨_, ⟨call, hcall, rfl⟩, hraw⟩)
    · refine ⟨f, call, hcall, ?_⟩
      have hne : call.family ≠ .plural := by
        rw [family_of_mem_scan hcall]
        rintro rfl
        exact absurd hf (by decide)
      rw [callKeys]
      split
      · exact absurd ‹_› hne
      · exact hraw
    · refine ⟨.plural, call, hcall, ?_⟩
      rw [callKeys, family_of_mem_scan hcall]
      exact hraw
  · rintro ⟨f, call, hcall, hraw⟩
    rw [callKeys, family_of_mem_scan hcall] at hraw
    cases f with
    | plural => exact Or.inr ⟨_, ⟨call, hcall, rfl⟩, hraw⟩
    | translate => exact Or.inl ⟨_, ⟨.translate, by decide, call, hcall, rfl⟩, hraw⟩
    | inlineTranslate => exact Or.inl ⟨_, ⟨.inlineTranslate, by decide, call, hcall, rfl⟩, hraw⟩
    | useTranslate => exact Or.inl ⟨_, ⟨.useTranslate, by decide, call, hcall, rfl⟩, hraw⟩

end Localization.Extraction
