import Mathlib
import Localization.Inlining.Site

/-! The forest of sites.

A site is put into the forest at the end of its rightmost path, so the forest read in
preorder grows by that site at its end (`asked_insert`). What a plan asks for, read in
preorder, is therefore what the calls of its chunk ask for, call by call, in the order
in which they start (`asked_of`). -/
namespace Localization.Inlining

open Marker (Call)

namespace Site

/-- What the sites of a forest ask for, in preorder. -/
def asked (sites : List Site) : List (Call × Request) :=
  (preorderAll sites).map fun site => (site.call, site.request)

@[simp] theorem asked_nil : asked [] = [] := rfl

theorem asked_cons (site : Site) (rest : List Site) :
    asked (site :: rest) = (site.call, site.request) :: (asked site.nested ++ asked rest) := by
  cases site with
  | mk call request nested =>
    simp [asked, preorderAll, preorder, Site.call, Site.request, Site.nested]

/-- What a tree of a forest asks for, the forest asks for. -/
theorem asked_subset {sites : List Site} {site : Site} (h : site ∈ sites) :
    asked [site] ⊆ asked sites := by
  induction sites with
  | nil => cases h
  | cons first rest ih =>
    intro p hp
    rw [asked_cons] at hp ⊢
    rcases List.mem_cons.mp h with rfl | h
    · rw [asked_nil, List.append_nil] at hp
      exact List.cons_subset_cons _ (List.subset_append_left _ _) hp
    · exact List.mem_cons_of_mem _ (List.mem_append_right _ (ih h (by rw [asked_cons]; exact hp)))

mutual

theorem asked_insertBehind (last site : Site) :
    asked (insertBehind last site) = asked [last] ++ asked [site] := by
  cases last with
  | mk call request nested =>
    rw [insertBehind]
    split
    · rw [asked_cons, asked_cons]
      show (call, request) :: (asked (insert nested site) ++ _) = _
      rw [asked_insert nested site]
      simp [Site.call, Site.request, Site.nested]
    · rw [asked_cons, asked_cons (mk call request nested) []]
      simp

/-- A site comes last in the forest that it is put into. -/
theorem asked_insert (sites : List Site) (site : Site) :
    asked (insert sites site) = asked sites ++ asked [site] := by
  match sites with
  | [] => simp [insert]
  | [last] => exact asked_insertBehind last site
  | first :: next :: rest =>
    rw [insert, asked_cons, asked_insert (next :: rest) site, asked_cons first (next :: rest)]
    simp

end

end Site

/-! ### The forest of a plan -/

/-- What a call asks for, if it is a site. -/
def request? (call : Call) : Option (Call × Request) :=
  (classify call).toOption.map fun request => (call, request)

/-- One more call at the end is put into the forest, or something is said of it. -/
theorem sitesOf_concat (calls : List Call) (call : Call) :
    (sitesOf (calls ++ [call])).1 =
      match classify call with
      | .ok request => Site.insert (sitesOf calls).1 (.mk call request [])
      | .error _ => (sitesOf calls).1 := by
  unfold sitesOf
  rw [List.foldl_append, List.foldl_cons, List.foldl_nil]
  cases classify call <;> rfl

theorem asked_sitesOf (calls : List Call) :
    Site.asked (sitesOf calls).1 = calls.filterMap request? := by
  induction calls using List.reverseRecOn with
  | nil => rfl
  | append_singleton calls call ih =>
    rw [sitesOf_concat, List.filterMap_append, ← ih]
    cases hc : classify call with
    | error finding =>
      have hr : request? call = none := by rw [request?, hc]; rfl
      simp [hr]
    | ok request =>
      have hr : request? call = some (call, request) := by rw [request?, hc]; rfl
      simp only [Site.asked_insert, Site.asked_cons, List.filterMap_cons, hr]
      rfl

/-- A plan asks, in preorder, for what the static calls of its chunk ask for, in order. -/
theorem asked_of (config : Config) (code : Text) :
    Site.asked (Plan.of config code).sites = (calls config code).filterMap request? :=
  asked_sitesOf (calls config code)

end Localization.Inlining
