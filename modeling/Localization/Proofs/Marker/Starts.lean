import Mathlib
import Localization.Proofs.Marker.Place

/-! Where calls start.

The walk through a text meets every place once, so the occurrences of a name stand one behind
the other (`pairwise_occurrences`), and at one place only one name stands, as a name is a whole
run of its characters (`takeWhile_start`). Since the aliases of a family are different, no two
of its calls start together (`pairwise_scan`). -/
namespace Localization.Script

/-- Occurrences are met from left to right. -/
theorem pairwise_occurrencesFrom (name : Text) (skip : Nat) (frames : List Frame)
    (before t : Text) :
    (occurrencesFrom name skip frames before t).Pairwise (fun a b => a.position < b.position) ∧
      ∀ place ∈ occurrencesFrom name skip frames before t, before.length ≤ place.position := by
  induction t generalizing skip frames before with
  | nil =>
    rw [occurrencesFrom]
    exact ⟨.nil, fun _ h => by cases h⟩
  | cons c rest ih =>
    cases skip with
    | succ skip =>
      rw [occurrencesFrom]
      obtain ⟨hlater, hbehind⟩ := ih skip frames (c :: before)
      exact ⟨hlater, fun place hplace => Nat.le_of_succ_le (hbehind place hplace)⟩
    | zero =>
      rw [occurrencesFrom]
      obtain ⟨hlater, hbehind⟩ :=
        ih ((piece frames before c rest).length - 1) (piece frames before c rest).frames
          (c :: before)
      split
      · refine ⟨.cons hbehind hlater, fun place hplace => ?_⟩
        rcases List.mem_cons.mp hplace with rfl | hplace
        · exact Nat.le_refl _
        · exact Nat.le_of_succ_le (hbehind place hplace)
      · exact ⟨hlater, fun place hplace => Nat.le_of_succ_le (hbehind place hplace)⟩

theorem pairwise_occurrences (name t : Text) :
    (occurrences name t).Pairwise fun a b => a.position < b.position :=
  (pairwise_occurrencesFrom name 0 [] [] t).1

end Localization.Script

namespace Localization.Marker

open Script

theorem pairwise_scanName (family : Family) (name code : Text) :
    (scanName family name code).Pairwise fun a b => a.start < b.start := by
  rw [scanName, List.pairwise_filterMap]
  refine (pairwise_occurrences name code).imp fun {a b} hab call hcall other hother => ?_
  obtain ⟨-, -, rfl⟩ := Option.map_eq_some_iff.mp hcall
  obtain ⟨-, -, rfl⟩ := Option.map_eq_some_iff.mp hother
  exact hab

/-- A call of a name starts with just that name. -/
theorem takeWhile_start {family : Family} {name code : Text} {call : Call}
    (h : call ∈ scanName family name code) :
    (code.drop call.start).takeWhile isNameChar = name := by
  obtain ⟨place, hplace, hcall⟩ := List.mem_filterMap.mp h
  obtain ⟨-, -, rfl⟩ := Option.map_eq_some_iff.mp hcall
  obtain ⟨hcode, frames, hown⟩ := isPlace_of_mem_occurrencesFrom hplace
  have hafter : code.drop place.position = place.after := by
    have hcode' : place.before.reverse ++ place.after = code := hcode
    rw [← hcode', Cursor.position, List.drop_left' List.length_reverse]
  exact hafter ▸ (takeWhile_of_isOccurrence hown).1

theorem nodup_aliases (family : Family) (marker code : Text) :
    (aliases family marker code).Nodup := by
  unfold aliases
  split
  · exact Extraction.nodup_eraseDups _
  · dsimp only
    split
    · exact List.nodup_singleton marker
    · exact Extraction.nodup_eraseDups _

theorem pairwise_inOrder (calls : List Call) :
    (inOrder calls).Pairwise fun a b => a.start ≤ b.start := by
  have h := @List.pairwise_mergeSort Call (fun a b => decide (a.start ≤ b.start))
    (fun a b c hab hbc => by simp only [decide_eq_true_eq] at *; omega)
    (fun a b => by simp only [Bool.or_eq_true, decide_eq_true_eq]; omega)
    calls
  exact h.imp fun hab => by simpa using hab

theorem perm_inOrder (calls : List Call) : calls.Perm (inOrder calls) :=
  (List.mergeSort_perm _ _).symm

/-- **No two calls of a family start together**, and they come in the order of their starts. -/
theorem pairwise_scan (family : Family) (marker code : Text) :
    (scan family marker code).Pairwise fun a b => a.start < b.start := by
  unfold scan
  split
  · have hnodup :
        (((aliases family marker code).flatMap fun name => scanName family name code).map
          (·.start)).Nodup := by
      rw [List.map_flatMap, List.nodup_flatMap]
      refine ⟨fun name _ => ?_, ?_⟩
      · exact List.pairwise_map.mpr ((pairwise_scanName family name code).imp Nat.ne_of_lt)
      · refine (nodup_aliases family marker code).imp fun {a b} hab start ha hb => ?_
        obtain ⟨call, hcall, rfl⟩ := List.mem_map.mp ha
        obtain ⟨other, hother, hsame⟩ := List.mem_map.mp hb
        exact hab ((takeWhile_start hcall).symm.trans (hsame ▸ takeWhile_start hother))
    have hsorted :=
      pairwise_inOrder ((aliases family marker code).flatMap fun name => scanName family name code)
    have hdifferent := List.pairwise_map.mp (hnodup.perm ((perm_inOrder _).map (·.start)))
    exact (hsorted.and hdifferent).imp fun h => Nat.lt_of_le_of_ne h.1 h.2
  · exact .nil

end Localization.Marker
