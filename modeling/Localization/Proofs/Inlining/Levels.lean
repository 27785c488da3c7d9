import Mathlib
import Localization.Proofs.Inlining.Coverage
import Localization.Proofs.Inlining.Ordered

/-! The levels of the forest of sites.

A level of a forest are its outermost sites or the sites nested in one of its sites. `levels_of`
says of the forest of a plan what `areOrdered_of` keeps at every depth: the sites of a level do
not overlap, and what is nested in a site starts inside of it. In preorder the forest lists the
static calls of all families, each once, as they start: two calls that start together belong to
different families (`pairwise_calls_family`). -/
namespace Localization.Inlining

open Marker (Call Family)

namespace Site

/-- Whether some sites are a level of a forest. -/
def IsLevel (sites level : List Site) : Prop :=
  level = sites ∨ ∃ site ∈ preorderAll sites, level = site.nested

mutual

theorem isOrdered_of_mem_preorder (outer : Site) (h : outer.isOrdered) {site : Site}
    (hs : site ∈ preorder outer) : site.isOrdered := by
  cases outer with
  | mk call request nested =>
    rw [preorder] at hs
    rcases List.mem_cons.mp hs with rfl | hs
    · exact h
    · exact isOrdered_of_mem_preorderAll nested h.1 hs

/-- At every depth of a forest in order the sites are in order. -/
theorem isOrdered_of_mem_preorderAll (sites : List Site) (h : areOrdered sites) {site : Site}
    (hs : site ∈ preorderAll sites) :
    site.isOrdered := by
  cases sites with
  | nil => cases hs
  | cons first rest =>
    rw [preorderAll] at hs
    rcases List.mem_append.mp hs with hs | hs
    · exact isOrdered_of_mem_preorder first h.1 hs
    · exact isOrdered_of_mem_preorderAll rest h.2.2 hs

end

/-- What is nested in a site in order is in order and starts inside of it. -/
theorem nested_of_isOrdered {site : Site} (h : site.isOrdered) :
    areOrdered site.nested ∧ ∀ inner ∈ site.nested, site.call.start ≤ inner.call.start ∧
      inner.call.start < site.call.stop := by
  cases site with
  | mk call request nested => exact ⟨h.1, fun inner hinner => h.2 _ (call_mem_asked hinner)⟩

end Site

/-- Calls come in the order of their starts, and two that start together are of different
families. -/
theorem pairwise_calls_family (config : Config) (code : Text) :
    (calls config code).Pairwise fun a b => a.start < b.start ∨ a.start = b.start ∧
      a.family ≠ b.family := by
  have hnodup :
      ((Family.all.flatMap fun f => Marker.scan f (config.markers.name f) code).map fun call =>
      (call.start, call.family)).Nodup := by
    rw [List.map_flatMap, List.nodup_flatMap]
    refine ⟨fun f _ => ?_, ?_⟩
    · exact List.pairwise_map.mpr ((Marker.pairwise_scan f _ code).imp fun hlt heq =>
        hlt.ne (congrArg Prod.fst heq))
    · have hall : Family.all.Nodup := by decide
      refine hall.imp fun {f g} hfg p hf hg => ?_
      obtain ⟨call, hcall, rfl⟩ := List.mem_map.mp hf
      obtain ⟨other, hother, hsame⟩ := List.mem_map.mp hg
      have hfamily : other.family = call.family := congrArg Prod.snd hsame
      rw [Extraction.family_of_mem_scan hcall, Extraction.family_of_mem_scan hother] at hfamily
      exact hfg hfamily.symm
  have hdifferent :=
    List.pairwise_map.mp (hnodup.perm ((Marker.perm_inOrder _).map fun call =>
      (call.start, call.family)))
  refine ((pairwise_calls config code).and hdifferent).imp fun {a b} h => ?_
  rcases Nat.lt_or_eq_of_le h.1 with hlt | heq
  · exact .inl hlt
  · exact .inr ⟨heq, fun hfamily => h.2 (Prod.ext heq hfamily)⟩

/-- The forest of a plan lists its static calls in preorder. -/
theorem preorder_of (config : Config) (code : Text) :
    (Site.preorderAll (Plan.of config code).sites).map Site.call =
      ((calls config code).filterMap request?).map (·.1) := by
  rw [← asked_of, Site.asked, List.map_map]
  rfl

/-- **The sites of a plan form an ordered forest**: at every depth each site ends before the
next one starts, nested sites start inside of the site around them, and in preorder the forest
lists the static calls of all families, each once, in the order of their starts. -/
theorem levels_of (config : Config) (code : Text) :
    (∀ level, Site.IsLevel (Plan.of config code).sites level →
      level.Pairwise fun a b => a.call.stop ≤ b.call.start) ∧
    (∀ site ∈ Site.preorderAll (Plan.of config code).sites, ∀ inner ∈ site.nested,
      site.call.start ≤ inner.call.start ∧ inner.call.start < site.call.stop) ∧
    (∀ call, call ∈ (Site.preorderAll (Plan.of config code).sites).map Site.call ↔
      IsStatic call ∧ ∃ f, call ∈ Marker.scan f (config.markers.name f) code) ∧
    ((Site.preorderAll (Plan.of config code).sites).map Site.call).Nodup ∧
    ((Site.preorderAll (Plan.of config code).sites).map Site.call).Pairwise fun a b =>
      a.start < b.start ∨ a.start = b.start ∧ a.family ≠ b.family := by
  have hordered := areOrdered_of config code
  have hpairwise :
      ((Site.preorderAll (Plan.of config code).sites).map Site.call).Pairwise fun a b =>
      a.start < b.start ∨ a.start = b.start ∧ a.family ≠ b.family := by
    rw [preorder_of, List.pairwise_map, List.pairwise_filterMap]
    refine (pairwise_calls_family config code).imp fun {a b} hab p hp q hq => ?_
    rw [(request?_eq_some_iff.mp hp).1, (request?_eq_some_iff.mp hq).1]
    exact hab
  refine ⟨fun level hlevel => ?_, fun site hs => ?_, fun call => ?_, ?_, hpairwise⟩
  · rcases hlevel with rfl | ⟨site, hs, rfl⟩
    · exact Site.pairwise_of_areOrdered hordered
    · exact Site.pairwise_of_areOrdered
        (Site.nested_of_isOrdered (Site.isOrdered_of_mem_preorderAll _ hordered hs)).1
  · exact (Site.nested_of_isOrdered (Site.isOrdered_of_mem_preorderAll _ hordered hs)).2
  · rw [preorder_of, List.mem_map, ← mem_calls]
    constructor
    · rintro ⟨p, hp, rfl⟩
      rw [← asked_of] at hp
      obtain ⟨hcall, hstatic⟩ := mem_asked_of.mp hp
      exact ⟨⟨p.2, hstatic⟩, hcall⟩
    · rintro ⟨⟨request, hstatic⟩, hcall⟩
      refine ⟨(call, request), ?_, rfl⟩
      rw [← asked_of]
      exact mem_asked_of.mpr ⟨hcall, hstatic⟩
  · refine hpairwise.imp fun {a b} hab heq => ?_
    subst heq
    rcases hab with hlt | ⟨-, hne⟩
    · exact Nat.lt_irrefl _ hlt
    · exact hne rfl

end Localization.Inlining
