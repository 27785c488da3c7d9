import Mathlib
import Localization.Inlining.Chunk
import Localization.Proofs.Inlining.Coverage
import Localization.Proofs.Inlining.Ordered
import Localization.Proofs.Text.Replace

/-! Sites in sites.

The value of a site may carry the texts of the sites nested in it. Read from left to right, it
has the value of a nested site wherever the text of one starts, and a character is kept only
where no such text starts: `Rendered`. That holds of every site of a plan, however deep it is
nested (`rendered_resolve`), so a nested call stays where the value has another text for it, and
only there. -/
namespace Localization.Inlining

open Marker (Call IsCallText)

/-! ### What is replaced at a place -/

section

variable {pairs : List (Text × Text)} {t u : Text}

/-- At a place where no text of the pairs stands, nothing is replaced. -/
theorem replacement?_eq_none_iff : replacement? pairs t = none ↔ ∀ p ∈ pairs, ¬ p.1 <+: t := by
  simp [replacement?, List.find?_eq_none, List.isPrefixOf_iff_prefix]

theorem exists_of_replacement? {p : Text × Nat} (h : replacement? pairs t = some p) :
    ∃ q ∈ pairs, q.1 <+: t ∧ p = (q.2, q.1.length) := by
  rw [replacement?, Option.map_eq_some_iff] at h
  obtain ⟨q, hfind, rfl⟩ := h
  have hprefix : q.1.isPrefixOf t = true := by simpa using List.find?_some hfind
  exact ⟨q, List.mem_mergeSort.mp (List.mem_of_find?_eq_some hfind),
    List.isPrefixOf_iff_prefix.mp hprefix, rfl⟩

/-- What is replaced at a place depends on nothing but which texts of the pairs stand there. -/
theorem replacement?_congr (h : ∀ p ∈ pairs, p.1 <+: t ↔ p.1 <+: u) :
    replacement? pairs t = replacement? pairs u := by
  rw [replacement?, replacement?, ← List.head?_filter, ← List.head?_filter]
  congr 2
  refine List.filter_congr fun p hp => ?_
  rw [Bool.eq_iff_iff, List.isPrefixOf_iff_prefix, List.isPrefixOf_iff_prefix]
  exact h p (List.mem_mergeSort.mp hp)

end

/-! ### Texts of sites -/

/-- Whether everything that a forest asks for is asked for by a call. -/
def AreCalls (sites : List Site) : Prop := ∀ p ∈ Site.asked sites, ∃ name, IsCallText name p.1.raw

theorem areCalls_of (config : Config) (code : Text) : AreCalls (Plan.of config code).sites := by
  intro p hp
  obtain ⟨f, hf⟩ := mem_calls.mp (mem_asked_of.mp hp).1
  obtain ⟨name, -, hname⟩ := Marker.isCallText_of_mem_scan hf
  exact ⟨name, hname⟩

section

variable {sites : List Site} {site : Site}

theorem AreCalls.of_mem (h : AreCalls sites) (hs : site ∈ sites) :
    ∃ name, IsCallText name site.call.raw :=
  h _ (Site.call_mem_asked hs)

theorem AreCalls.nested (h : AreCalls sites) (hs : site ∈ sites) : AreCalls site.nested := by
  intro p hp
  refine h p (Site.asked_subset hs ?_)
  rw [Site.asked_cons]
  exact List.mem_cons_of_mem _ (List.mem_append_left _ hp)

/-- The sites that a text carries, with their values. -/
theorem resolveCarried_eq (x : Context) (lang carrier : Text) (sites : List Site) :
    (resolveCarried x lang carrier sites).1 =
      (sites.filter fun site => Text.occursIn site.call.raw carrier).map fun site =>
        (site.call.raw, (resolve x lang site).1) := by
  induction sites with
  | nil => rfl
  | cons site rest ih =>
    simp only [resolveCarried, List.filter_cons]
    split
    · rw [List.map_cons, ← ih]
    · exact ih

theorem mem_resolveCarried_iff {x : Context} {lang carrier : Text} {p : Text × Text} :
    p ∈ (resolveCarried x lang carrier sites).1 ↔
      ∃ site ∈ sites, site.call.raw <:+: carrier ∧
        p = (site.call.raw, (resolve x lang site).1) := by
  simp only [resolveCarried_eq, List.mem_map, List.mem_filter, Text.occursIn_iff, and_assoc,
    eq_comm (b := p)]

/-! ### Values -/

theorem resolve_mk (x : Context) (lang : Text) (call : Call) (request : Request)
    (nested : List Site) :
    (resolve x lang (.mk call request nested)).1 =
      Text.replaceAll (replacement? (resolveCarried x lang (x.render lang call request).1 nested).1)
        0
        (x.render lang call request).1 := by
  simp only [resolve]
  split
  · next h =>
    rw [List.isEmpty_iff.mp h, Text.replaceAll_eq_self fun t => by simp [replacement?]]
  · rfl

/-- How a text becomes another when, from left to right, the value of a site is put in the place of
its text wherever one starts. -/
inductive Rendered (x : Context) (lang : Text) (sites : List Site) : Text → Text → Prop
  | nil : Rendered x lang sites [] []
  | kept {c : Char} {t u : Text} (hnone : ∀ site ∈ sites, ¬ site.call.raw <+: c :: t)
      (h : Rendered x lang sites t u) :
      Rendered x lang sites (c :: t) (c :: u)
  | replaced {site : Site} {t u : Text} (hs : site ∈ sites) (h : Rendered x lang sites t u) :
      Rendered x lang sites (site.call.raw ++ t) ((resolve x lang site).1 ++ u)

/-- A text that carries no site is kept. -/
theorem Rendered.eq_of_not_carried {x : Context} {lang t u : Text} (h : Rendered x lang sites t u)
    (hnone : ∀ site ∈ sites, ¬ site.call.raw <:+: t) : u = t := by
  induction h with
  | nil => rfl
  | kept _ _ ih =>
    rw [ih fun site hs hinside => hnone site hs (hinside.trans (List.suffix_cons _ _).isInfix)]
  | replaced hs _ _ => exact absurd (List.prefix_append _ _).isInfix (hnone _ hs)

/-- **A value has every text of a nested site replaced.** -/
theorem rendered_replaceAll {x : Context} {lang carrier : Text} (hcalls : AreCalls sites) {t : Text}
    (ht : t <:+ carrier) :
    Rendered x lang sites t (Text.replaceAll
      (replacement? (resolveCarried x lang carrier sites).1) 0 t) := by
  generalize hn : t.length = n
  induction n using Nat.strongRecOn generalizing t with
  | ind n ih =>
    subst hn
    cases t with
    | nil => exact .nil
    | cons c rest =>
      cases hfind : replacement? (resolveCarried x lang carrier sites).1 (c :: rest) with
      | none =>
        rw [Text.replaceAll_cons_of_none hfind]
        refine .kept (fun site hs hprefix =>
          ?_) (ih _ (Nat.lt_succ_self _) ((List.suffix_cons c rest).trans ht) rfl)
        have hcarried : site.call.raw <:+: carrier := hprefix.isInfix.trans ht.isInfix
        exact replacement?_eq_none_iff.mp hfind _ (mem_resolveCarried_iff.mpr ⟨site, hs, hcarried,
          rfl⟩) hprefix
      | some p =>
        obtain ⟨q, hq, hprefix, rfl⟩ := exists_of_replacement? hfind
        obtain ⟨site, hs, -, rfl⟩ := mem_resolveCarried_iff.mp hq
        obtain ⟨more, hmore⟩ : site.call.raw <+: c :: rest := hprefix
        obtain ⟨name, hname⟩ := hcalls.of_mem hs
        have hpos := List.length_pos_of_ne_nil hname.ne_nil
        rw [← hmore] at hfind ht ih ⊢
        rw [Text.replaceAll_match hname.ne_nil hfind]
        refine .replaced hs (ih _ ?_ ((List.suffix_append _ more).trans ht) rfl)
        rw [List.length_append]
        omega

end

/-! ### Every site of a plan -/

namespace Site

mutual

theorem preorder_subset {site inner : Site} (h : inner ∈ preorder site) :
    preorder inner ⊆ preorder site := by
  cases site with
  | mk call request nested =>
    rw [preorder] at h ⊢
    rcases List.mem_cons.mp h with rfl | h
    · rw [preorder]
      exact List.Subset.refl _
    · exact List.subset_cons_of_subset _ (preorderAll_subset h)

/-- What is nested in a site of a forest is in the forest. -/
theorem preorderAll_subset {sites : List Site} {inner : Site} (h : inner ∈ preorderAll sites) :
    preorder inner ⊆ preorderAll sites := by
  cases sites with
  | nil => cases h
  | cons site rest =>
    rw [preorderAll] at h ⊢
    rcases List.mem_append.mp h with h | h
    · exact List.subset_append_of_subset_left _ (preorder_subset h)
    · exact List.subset_append_of_subset_right _ (preorderAll_subset h)

end

end Site

theorem AreCalls.of_mem_preorderAll {sites : List Site} (h : AreCalls sites) {site : Site}
    (hs : site ∈ Site.preorderAll sites) : AreCalls site.nested := by
  intro p hp
  obtain ⟨inner, hinner, rfl⟩ := List.mem_map.mp hp
  refine h _ (List.mem_map_of_mem (Site.preorderAll_subset hs ?_))
  cases site with
  | mk call request nested =>
    rw [Site.preorder]
    exact List.mem_cons_of_mem _ hinner

/-- The value of a site has every text of the sites nested in it replaced by their values. -/
theorem AreCalls.rendered {site : Site} (h : AreCalls site.nested) (x : Context) (lang : Text) :
    Rendered x lang site.nested (x.render lang site.call site.request).1
      (resolve x lang site).1 := by
  cases site with
  | mk call request nested =>
    rw [resolve_mk]
    exact rendered_replaceAll h List.suffix_rfl

/-- **However deep a site is nested, its value has every text of the sites nested in it replaced by
their values.** -/
theorem rendered_resolve (x : Context) (lang : Text) {sites : List Site} (h : AreCalls sites)
    {site : Site} (hs : site ∈ Site.preorderAll sites) :
    Rendered x lang site.nested (x.render lang site.call site.request).1 (resolve x lang site).1 :=
  (h.of_mem_preorderAll hs).rendered x lang

end Localization.Inlining
