import Mathlib
import Localization.Proofs.Inlining.Forest
import Localization.Proofs.Marker.Starts

/-! Sites in order.

In the forest of a plan every site ends before the next one beside it starts, and whatever is
nested in a site starts inside of it (`areOrdered_of`). A new site goes to the end of the
rightmost path, and because it starts after all others the order is kept
(`areOrdered_insert`). So the outermost sites do not overlap, and every static call starts
inside one of them. -/
namespace Localization.Inlining

open Marker (Call)

namespace Site

mutual

/-- Whether all that is nested in a site is in order and starts inside of it. -/
def isOrdered : Site → Prop
  | mk call _ nested => areOrdered nested ∧ ∀ p ∈ asked nested, call.start ≤ p.1.start ∧
    p.1.start < call.stop

/-- Whether the sites of a forest are in order: what stands behind a site starts behind it. -/
def areOrdered : List Site → Prop
  | [] => True
  | site :: rest =>
    site.isOrdered ∧ (∀ p ∈ asked rest, site.call.stop ≤ p.1.start) ∧ areOrdered rest

end

theorem areOrdered_leaf (call : Call) (request : Request) : areOrdered [mk call request []] := by
  refine ⟨⟨trivial, fun p hp => ?_⟩, fun p hp => ?_, trivial⟩
  · exact absurd hp List.not_mem_nil
  · exact absurd hp List.not_mem_nil

theorem call_mem_asked {sites : List Site} {site : Site} (h : site ∈ sites) :
    (site.call, site.request) ∈ asked sites :=
  asked_subset h (by rw [asked_cons]; exact List.mem_cons_self)

/-! ### One more site -/

section

variable {call : Call} {request : Request}

mutual

theorem areOrdered_insertBehind (last : Site) (h : last.isOrdered)
    (hs : ∀ p ∈ asked [last], p.1.start ≤ call.start) :
    areOrdered (insertBehind last (mk call request [])) := by
  cases last with
  | mk outer own nested =>
    have houter : outer.start ≤ call.start :=
      hs (outer, own) (by rw [asked_cons]; exact List.mem_cons_self)
    rw [insertBehind]
    split
    · next hstart =>
      have hnested : ∀ p ∈ asked nested, p.1.start ≤ call.start := by
        intro p hp
        refine hs p ?_
        rw [asked_cons]
        exact List.mem_cons_of_mem _ (List.mem_append_left _ hp)
      refine ⟨⟨areOrdered_insert nested h.1 hnested, fun p hp => ?_⟩,
        fun p hp => absurd hp List.not_mem_nil, trivial⟩
      rw [asked_insert] at hp
      rcases List.mem_append.mp hp with hp | hp
      · exact h.2 p hp
      · rw [List.mem_singleton.mp hp]
        exact ⟨houter, hstart⟩
    · next hstart =>
      refine ⟨h, fun p hp => ?_, areOrdered_leaf call request⟩
      rw [List.mem_singleton.mp hp]
      exact Nat.le_of_not_lt hstart

/-- A site that starts after all others is put in order. -/
theorem areOrdered_insert (sites : List Site) (h : areOrdered sites)
    (hs : ∀ p ∈ asked sites, p.1.start ≤ call.start) :
    areOrdered (insert sites (mk call request [])) := by
  match sites with
  | [] => exact areOrdered_leaf call request
  | [last] => exact areOrdered_insertBehind last h.1 hs
  | first :: next :: rest =>
    have hrest : ∀ p ∈ asked (next :: rest), p.1.start ≤ call.start := by
      intro p hp
      refine hs p ?_
      rw [asked_cons]
      exact List.mem_cons_of_mem _ (List.mem_append_right _ hp)
    rw [insert]
    refine ⟨h.1, fun p hp => ?_, areOrdered_insert (next :: rest) h.2.2 hrest⟩
    rw [asked_insert] at hp
    rcases List.mem_append.mp hp with hp | hp
    · exact h.2.1 p hp
    · rw [List.mem_singleton.mp hp]
      have hnext := call_mem_asked (List.mem_cons_self (a := next) (l := rest))
      exact Nat.le_trans (h.2.1 _ hnext) (hrest _ hnext)

end

end

/-! ### The outermost sites -/

theorem isOrdered_of_mem {sites : List Site} (h : areOrdered sites) {site : Site}
    (hs : site ∈ sites) :
    site.isOrdered := by
  induction sites with
  | nil => cases hs
  | cons first rest ih =>
    rcases List.mem_cons.mp hs with rfl | hs
    · exact h.1
    · exact ih h.2.2 hs

/-- Sites beside each other do not overlap. -/
theorem pairwise_of_areOrdered {sites : List Site} (h : areOrdered sites) :
    sites.Pairwise fun a b => a.call.stop ≤ b.call.start := by
  induction sites with
  | nil => exact .nil
  | cons first rest ih => exact .cons (fun site hs => h.2.1 _ (call_mem_asked hs)) (ih h.2.2)

/-- Whatever a forest asks for is asked for from inside one of its trees. -/
theorem exists_around {sites : List Site} (h : areOrdered sites)
    (hne : ∀ site ∈ sites, site.call.raw ≠ []) {p : Call × Request} (hp : p ∈ asked sites) :
    ∃ site ∈ sites, site.call.start ≤ p.1.start ∧ p.1.start < site.call.stop := by
  induction sites with
  | nil => cases hp
  | cons first rest ih =>
    rw [asked_cons] at hp
    rcases List.mem_cons.mp hp with rfl | hp
    · have hpos := List.length_pos_of_ne_nil (hne first List.mem_cons_self)
      have hin : first.call.start < first.call.stop := by rw [Call.stop]; omega
      exact ⟨first, List.mem_cons_self, Nat.le_refl _, hin⟩
    · rcases List.mem_append.mp hp with hp | hp
      · cases first with
        | mk call request nested => exact ⟨_, List.mem_cons_self, h.1.2 p hp⟩
      · obtain ⟨site, hs, hin⟩ := ih h.2.2 (fun s hs => hne s (List.mem_cons_of_mem _ hs)) hp
        exact ⟨site, List.mem_cons_of_mem _ hs, hin⟩

end Site

/-! ### The forest of a plan -/

/-- Whether a call is a site. -/
def IsStatic (call : Call) : Prop := ∃ request, classify call = .ok request

theorem request?_eq_some_iff {call : Call} {p : Call × Request} :
    request? call = some p ↔ p.1 = call ∧ classify call = .ok p.2 := by
  rw [request?]
  cases classify call with
  | error finding => simp [Except.toOption]
  | ok request =>
    simp only [Except.toOption, Option.map_some, Option.some.injEq, Except.ok.injEq]
    constructor
    · rintro rfl; exact ⟨rfl, rfl⟩
    · rintro ⟨rfl, rfl⟩; rfl

theorem areOrdered_sitesOf {calls : List Call} (h : calls.Pairwise fun a b => a.start ≤ b.start) :
    Site.areOrdered (sitesOf calls).1 := by
  induction calls using List.reverseRecOn with
  | nil => trivial
  | append_singleton calls call ih =>
    have hbefore := List.pairwise_append.mp h
    rw [sitesOf_concat]
    split
    · refine Site.areOrdered_insert _ (ih hbefore.1) fun p hp => ?_
      rw [asked_sitesOf, List.mem_filterMap] at hp
      obtain ⟨other, hother, hp⟩ := hp
      rw [(request?_eq_some_iff.mp hp).1]
      exact hbefore.2.2 other hother call List.mem_cons_self
    · exact ih hbefore.1

/-- The calls of a chunk are in the order of their starts. -/
theorem pairwise_calls (config : Config) (code : Text) :
    (calls config code).Pairwise fun a b => a.start ≤ b.start :=
  Marker.pairwise_inOrder _

/-- **The sites of a plan are in order.** -/
theorem areOrdered_of (config : Config) (code : Text) :
    Site.areOrdered (Plan.of config code).sites :=
  areOrdered_sitesOf (pairwise_calls config code)

/-- What a plan asks for are the static calls of its chunk. -/
theorem mem_asked_of {config : Config} {code : Text} {p : Call × Request} :
    p ∈ Site.asked (Plan.of config code).sites ↔ p.1 ∈ calls config code ∧
      classify p.1 = .ok p.2 := by
  rw [asked_of, List.mem_filterMap]
  constructor
  · rintro ⟨call, hcall, hp⟩
    obtain ⟨rfl, hc⟩ := request?_eq_some_iff.mp hp
    exact ⟨hcall, hc⟩
  · rintro ⟨hcall, hc⟩
    exact ⟨p.1, hcall, request?_eq_some_iff.mpr ⟨rfl, hc⟩⟩

end Localization.Inlining
