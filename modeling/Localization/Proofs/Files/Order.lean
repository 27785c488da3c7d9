import Mathlib
import Localization.Files.Path
import Localization.Proofs.Tree.Sort

/-! The order of paths.

Components are ordered by their kinds, and names among each other like texts; paths are ordered
component by component. Both are linear orders up to spelling, so sorted paths are in order
(`pairwise_sort`). -/
namespace Localization.Path

namespace Component

theorem le_iff {a b : Component} :
    a.le b = true ↔ a.rank < b.rank ∨ (a.rank = b.rank ∧ ∀ m n, a = .name m → b = .name n →
      Text.le m n = true) := by
  cases a <;> cases b <;> simp [Component.le, rank]

theorem le_total (a b : Component) : a.le b = true ∨ b.le a = true := by
  rw [le_iff, le_iff]
  rcases Nat.lt_trichotomy a.rank b.rank with h | h | h
  · exact .inl (.inl h)
  · by_cases hle : ∀ m n, a = .name m → b = .name n → Text.le m n = true
    · exact .inl (.inr ⟨h, hle⟩)
    · refine .inr (.inr ⟨h.symm, fun n m hb ha => ?_⟩)
      have := Text.le_total m n
      rw [Bool.or_eq_true] at this
      refine this.resolve_left fun hmn => hle fun m' n' ha' hb' => ?_
      rw [ha] at ha'
      rw [hb] at hb'
      cases ha'
      cases hb'
      exact hmn
  · exact .inr (.inl h)

theorem le_trans {a b c : Component} (hab : a.le b = true) (hbc : b.le c = true) :
    a.le c = true := by
  rw [le_iff] at hab hbc ⊢
  rcases hab with hab | ⟨hab, hmn⟩
  · rcases hbc with hbc | ⟨hbc, -⟩ <;> exact .inl (by omega)
  · rcases hbc with hbc | ⟨hbc, hnk⟩
    · exact .inl (by omega)
    · refine .inr ⟨by omega, fun m k ha hc => ?_⟩
      cases b with
      | name n => exact Text.le_trans m n k (hmn m n ha rfl) (hnk n k rfl hc)
      | _ => subst ha; cases hab

theorem le_antisymm {a b : Component} (hab : a.le b = true) (hba : b.le a = true) : a = b := by
  rw [le_iff] at hab hba
  have hrank : a.rank = b.rank := by
    rcases hab with h | ⟨h, -⟩ <;> rcases hba with h' | ⟨h', -⟩ <;> omega
  have hab := (hab.resolve_left (by omega)).2
  have hba := (hba.resolve_left (by omega)).2
  cases a with
  | name m =>
    cases b with
    | name n => rw [Text.le_antisymm (hab m n rfl rfl) (hba n m rfl rfl)]
    | _ => cases hrank
  | _ =>
    cases b with
    | name n => cases hrank
    | _ => first | rfl | cases hrank

end Component

theorem componentsLe_cons {a b : Component} {as bs : List Component} :
    componentsLe (a :: as) (b :: bs) = true ↔ (a = b ∧ componentsLe as bs = true) ∨
      (a ≠ b ∧ a.le b = true) := by
  rw [componentsLe]
  by_cases h : a = b
  · simp [h]
  · have hb : (a == b) = false := beq_eq_false_iff_ne.mpr h
    simp [h, hb]

theorem componentsLe_total (as bs : List Component) :
    componentsLe as bs = true ∨ componentsLe bs as = true := by
  induction as generalizing bs with
  | nil => exact .inl rfl
  | cons a as ih =>
    cases bs with
    | nil => exact .inr rfl
    | cons b bs =>
      rw [componentsLe_cons, componentsLe_cons]
      by_cases h : a = b
      · exact (ih bs).imp (fun hle => .inl ⟨h, hle⟩) fun hle => .inl ⟨h.symm, hle⟩
      · exact (a.le_total b).imp (fun hle => .inr ⟨h, hle⟩) fun hle => .inr ⟨Ne.symm h, hle⟩

theorem componentsLe_trans {as bs cs : List Component} (hab : componentsLe as bs = true)
    (hbc : componentsLe bs cs = true) : componentsLe as cs = true := by
  induction as generalizing bs cs with
  | nil => rfl
  | cons a as ih =>
    cases bs with
    | nil => cases hab
    | cons b bs =>
      cases cs with
      | nil => cases hbc
      | cons c cs =>
        rw [componentsLe_cons] at hab hbc ⊢
        rcases hab with ⟨rfl, hab⟩ | ⟨hne, hab⟩
        · exact hbc.imp_left fun ⟨he, hbc⟩ => ⟨he, ih hab hbc⟩
        · rcases hbc with ⟨rfl, -⟩ | ⟨-, hbc⟩
          · exact .inr ⟨hne, hab⟩
          · refine .inr ⟨?_, Component.le_trans hab hbc⟩
            rintro rfl
            exact hne (Component.le_antisymm hab hbc)

theorem componentsLe_antisymm {as bs : List Component} (hab : componentsLe as bs = true)
    (hba : componentsLe bs as = true) :
    as = bs := by
  induction as generalizing bs with
  | nil =>
    cases bs with
    | nil => rfl
    | cons b bs => cases hba
  | cons a as ih =>
    cases bs with
    | nil => cases hab
    | cons b bs =>
      rw [componentsLe_cons] at hab hba
      rcases hab with ⟨rfl, hab⟩ | ⟨hne, hab⟩
      · rw [ih hab (hba.resolve_right fun h => h.1 rfl).2]
      · exact absurd (Component.le_antisymm hab (hba.resolve_left fun h => hne h.1.symm).2) hne

theorem pairwise_mergeSort (paths : List Path) :
    (paths.mergeSort le).Pairwise fun a b => le a b = true := by
  have htrans (a b c : Path) (hab : le a b = true) (hbc : le b c = true) : le a c = true :=
    componentsLe_trans hab hbc
  have htotal (a b : Path) : (le a b || le b a) = true := by
    rw [Bool.or_eq_true]
    exact componentsLe_total _ _
  exact List.pairwise_mergeSort htrans htotal paths

/-- Sorted paths are in order. -/
theorem pairwise_sort (paths : List Path) : (sort paths).Pairwise fun a b => le a b = true :=
  pairwise_mergeSort paths

/-! ### Distinct paths -/

/-- A path comes before another one. -/
def IsBefore (a b : Path) : Prop := le a b = true ∧ components a ≠ components b

/-- The distinct paths are some of the paths. -/
theorem mem_of_mem_sortDistinct {paths : List Path} {p : Path} (h : p ∈ sortDistinct paths) :
    p ∈ paths := by
  have hfold (paths kept : List Path)
      (h : p ∈ paths.foldl (fun kept p => if kept.any (same p) then kept else kept ++ [p]) kept) :
      p ∈ kept ∨ p ∈ paths := by
    induction paths generalizing kept with
    | nil => exact .inl h
    | cons q paths ih =>
      rw [List.foldl_cons] at h
      rcases ih _ h with hkept | hrest
      · split at hkept
        · exact .inl hkept
        · rcases List.mem_append.mp hkept with hkept | hq
          · exact .inl hkept
          · exact .inr (List.mem_singleton.mp hq ▸ List.mem_cons_self)
      · exact .inr (List.mem_cons_of_mem _ hrest)
  exact (hfold paths [] (List.mem_mergeSort.mp h)).resolve_left List.not_mem_nil

/-- Of paths with the same components one is kept. -/
theorem foldl_distinct (paths kept : List Path)
    (hkept : kept.Pairwise fun a b => components a ≠ components b) :
    ∃ found, paths.foldl (fun kept p => if kept.any (same p) then kept else kept ++ [p]) kept =
      found ∧
      found.Pairwise (fun a b => components a ≠ components b) ∧
      ∀ cs, cs ∈ found.map components ↔ cs ∈ kept.map components ∨ cs ∈ paths.map components := by
  induction paths generalizing kept with
  | nil => exact ⟨kept, rfl, hkept, by simp⟩
  | cons p paths ih =>
    have hany : kept.any (same p) = true ↔ components p ∈ kept.map components := by
      simp only [List.any_eq_true, same, beq_iff_eq, List.mem_map, eq_comm (a := components p)]
    rw [List.foldl_cons]
    split
    · next hp =>
      obtain ⟨found, hfound, hdistinct, hmem⟩ := ih kept hkept
      refine ⟨found, hfound, hdistinct, fun cs => ?_⟩
      rw [hmem, List.map_cons, List.mem_cons]
      exact or_congr_right' fun hcs => ⟨.inr, Or.rec (fun he => absurd (he ▸ hany.mp hp) hcs) id⟩
    · next hp =>
      have hnew : (kept ++ [p]).Pairwise fun a b => components a ≠ components b := by
        refine List.pairwise_append.mpr ⟨hkept, List.pairwise_singleton _ _, fun a ha b hb he =>
          hp (hany.mpr ?_)⟩
        rw [List.mem_singleton.mp hb] at he
        exact he ▸ List.mem_map_of_mem ha
      obtain ⟨found, hfound, hdistinct, hmem⟩ := ih _ hnew
      refine ⟨found, hfound, hdistinct, fun cs => ?_⟩
      rw [hmem, List.map_append, List.mem_append, List.map_singleton, List.mem_singleton,
        List.map_cons, List.mem_cons, or_assoc]

/-- The distinct paths are in order, each before the next. -/
theorem pairwise_sortDistinct (paths : List Path) : (sortDistinct paths).Pairwise IsBefore := by
  obtain ⟨found, hfound, hdistinct, -⟩ := foldl_distinct paths [] .nil
  have hsorted : (sortDistinct paths).Pairwise fun a b => components a ≠ components b := by
    rw [sortDistinct, hfound]
    exact (List.mergeSort_perm found le).symm.pairwise hdistinct fun h => h.symm
  exact (pairwise_mergeSort _).imp₂ (fun _ _ hle hne => ⟨hle, hne⟩) hsorted

/-- No path is lost but for its spelling. -/
theorem mem_map_sortDistinct {paths : List Path} {cs : List Component} :
    cs ∈ (sortDistinct paths).map components ↔ cs ∈ paths.map components := by
  obtain ⟨found, hfound, -, hmem⟩ := foldl_distinct paths [] .nil
  rw [sortDistinct, hfound, ((List.mergeSort_perm found le).map components).mem_iff, hmem]
  simp

/-- Paths in order are told by what they name. -/
theorem map_components_eq {a b : List Path} (ha : a.Pairwise IsBefore) (hb : b.Pairwise IsBefore)
    (h : ∀ cs, cs ∈ a.map components ↔ cs ∈ b.map components) :
    a.map components = b.map components := by
  have hsorted {l : List Path} (hl : l.Pairwise IsBefore) :
      (l.map components).Pairwise (fun cs ds => componentsLe cs ds = true) ∧
      (l.map components).Nodup :=
    ⟨List.pairwise_map.mpr (hl.imp fun hlt => hlt.1),
      List.pairwise_map.mpr (hl.imp fun hlt => hlt.2)⟩
  exact ((List.perm_ext_iff_of_nodup (hsorted ha).2 (hsorted hb).2).mpr h).eq_of_pairwise
    (fun _ _ _ _ => componentsLe_antisymm) (hsorted ha).1 (hsorted hb).1

end Localization.Path
