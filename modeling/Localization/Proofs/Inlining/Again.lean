import Mathlib
import Localization.Proofs.Inlining.Splice
import Localization.Proofs.Inlining.Values
import Localization.Proofs.Results

/-! Inlining a second time.

A value starts differently from the call that it stands for, so inlining changes every text that
has a static call (`inlineText_eq_self_iff`). Every static call of a chunk is a site, an
outermost one is replaced where it stands, and a nested one wherever a value has its text; what
comes out is changed by another pass exactly if a static call was left in it
(`completes_inlineText`). One is left where a value carries a call with another text than the
chunk has: a comment in it is not carried. -/
namespace Localization.Inlining

open Marker (Call)

variable {x : Context} {lang code : Text}

/-- Inlining changes a text that has a call to replace. -/
theorem replacements_eq_nil_of_inlineText_eq (hx : x.HasFiniteNumbers)
    (h : (inlineText x lang code).1 = code) :
    replacements x lang code = [] := by
  cases hl : replacements x lang code with
  | nil => rfl
  | cons r rest =>
    exfalso
    have hr : r ∈ replacements x lang code := hl ▸ List.mem_cons_self
    obtain ⟨site, hs, hrsite⟩ := List.mem_map.mp hr
    have hcalls := areCalls_of x.config code
    obtain ⟨name, hname⟩ := hcalls.of_mem hs
    have hvalue := isValueText_resolve x lang hcalls hs
    have hat := isAt_of_mem_replacements hr
    subst hrsite
    obtain ⟨c, raw, hraw, hc⟩ := hname.exists_eq_cons
    -- Up to the first call both are alike; there the one goes on with a value, the other with a
    -- name.
    have hcode := drop_eq_of_isAt hat (Nat.zero_le _)
    rw [inlineText_eq_splice, hl, List.map_cons, splice, List.append_assoc] at h
    rw [List.drop_zero] at hcode
    have hrest := List.append_cancel_left (h.trans hcode)
    have hhead := congrArg List.head? hrest
    rw [List.head?_append_of_ne_nil _ hvalue.ne_nil,
      List.head?_append_of_ne_nil _ hname.ne_nil] at hhead
    exact hvalue.head?_ne hc (.inr hx) (hhead.trans (by rw [hraw]; rfl))

variable (x lang code) in
theorem replacements_eq_nil_iff :
    replacements x lang code = [] ↔
      ∀ f, ∀ call ∈ Marker.scan f (x.config.markers.name f) code, ¬ IsStatic call := by
  constructor
  · intro h f call hf hc
    obtain ⟨r, hr, -⟩ := @exists_patch_around x lang code f call hf hc
    rw [h] at hr
    cases hr
  · intro h
    rw [List.eq_nil_iff_forall_not_mem]
    intro r hr
    obtain ⟨site, hs, -⟩ := exists_site_of_mem_replacements hr
    obtain ⟨hc, f, hf⟩ := scanned_of_mem_sites hs
    exact h f site.call hf hc

/-- **Inlining leaves a text alone exactly if it has no static call.** -/
theorem inlineText_eq_self_iff (hx : x.HasFiniteNumbers) :
    (inlineText x lang code).1 = code ↔
      ∀ f, ∀ call ∈ Marker.scan f (x.config.markers.name f) code, ¬ IsStatic call := by
  rw [← replacements_eq_nil_iff x lang code]
  refine ⟨replacements_eq_nil_of_inlineText_eq hx, fun h => ?_⟩
  rw [inlineText_eq_splice, h, List.map_nil, splice]

/-- What one pass over a chunk does to its static calls. -/
structure Completes (x : Context) (lang code out : Text) : Prop where
  /-- Every static call is a site, outermost or nested. -/
  sites : ∀ f, ∀ call ∈ Marker.scan f (x.config.markers.name f) code, IsStatic call →
    ∃ site ∈ Site.preorderAll (Plan.of x.config code).sites, site.call = call
  /-- An outermost site is replaced where it stands. -/
  outermost : out = splice 0 code
    ((Plan.of x.config code).sites.map fun site =>
      (site.call.start, site.call.stop, (resolve x lang site).1))
  /-- The value of a site has every text of a site nested in it replaced. -/
  nested : ∀ site ∈ Site.preorderAll (Plan.of x.config code).sites,
    Rendered x lang site.nested (x.render lang site.call site.request).1 (resolve x lang site).1
  /-- Another pass changes nothing exactly if no static call was left. -/
  again : (inlineText x lang out).1 = out ↔
    ∀ f, ∀ call ∈ Marker.scan f (x.config.markers.name f) out, ¬ IsStatic call

/-- **Inlining replaces static calls at every depth where their texts are carried, and inlining
again changes nothing exactly if none was left.** -/
theorem completes_inlineText (x : Context) (lang code : Text) (hx : x.HasFiniteNumbers) :
    Completes x lang code (inlineText x lang code).1 where
  sites := by
    rintro f call hf ⟨request, hc⟩
    have hasked : (call, request) ∈ Site.asked (Plan.of x.config code).sites :=
      mem_asked_of.mpr ⟨mem_calls.mpr ⟨f, hf⟩, hc⟩
    obtain ⟨site, hs, he⟩ := List.mem_map.mp hasked
    exact ⟨site, hs, congrArg Prod.fst he⟩
  outermost := by
    rw [inlineText_eq_splice, replacements, List.map_map]
    rfl
  nested := fun site hs => rendered_resolve x lang (areCalls_of x.config code) hs
  again := inlineText_eq_self_iff hx

/-! ### A call that is left -/

/-- Trees whose entries are plain texts hold no numbers. -/
theorem hasFiniteNumbers_of_strings (h : ∀ p ∈ x.trees, ∀ e ∈ p.2, ∃ t, e.2 = .string t) :
    x.HasFiniteNumbers := by
  intro lang raw n hn
  obtain ⟨tree, htree, hat⟩ := Option.bind_eq_some_iff.mp hn
  cases hpath : Key.path x.config.keySeparator (Key.cut x.config.valueSeparator raw).1 with
  | nil =>
    rw [hpath] at hat
    cases hat
  | cons key rest =>
    rw [hpath] at hat
    obtain ⟨v, hv, hrest⟩ := Option.bind_eq_some_iff.mp hat
    obtain ⟨t, rfl⟩ : ∃ t, v = .string t := h _ (mem_of_lookup htree) (key, v) (mem_of_lookup hv)
    cases rest <;> cases hrest

/-- A text that is nothing but its parameter, and a text for the parameter. -/
def commentedTexts : Context :=
  ⟨Config.standard, [("en-US", [("k", .string "\x7b\x7bp\x7d\x7d"), ("a", .string "A")])]⟩

/-- A call with a comment, carried by another call. -/
def commentedCall : Text := "$translate('k', \x7bp: $translate(/*c*/'a')\x7d)"

theorem hasFiniteNumbers_commentedTexts : commentedTexts.HasFiniteNumbers := by
  refine hasFiniteNumbers_of_strings fun p hp e he => ?_
  rw [List.mem_singleton.mp hp] at he
  simp only [List.mem_cons, List.not_mem_nil, or_false] at he
  rcases he with rfl | rfl
  · exact ⟨_, rfl⟩
  · exact ⟨_, rfl⟩

theorem completes_commentedCall :
    commentedTexts.HasFiniteNumbers ∧
      Completes commentedTexts "en-US" commentedCall
        (inlineText commentedTexts "en-US" commentedCall).1 :=
  ⟨hasFiniteNumbers_commentedTexts, completes_inlineText _ _ _ hasFiniteNumbers_commentedTexts⟩

/-- The call is carried without its comment, so its text is not found, and it is left for a
second time. -/
theorem inlineText_again_ne_commentedCall :
    "en-US".toList ∈ commentedTexts.config.langs ∧
      (inlineText commentedTexts "en-US" commentedCall).1 = "`$\x7b$translate( 'a')\x7d`".toList ∧
      (inlineText commentedTexts "en-US" (inlineText commentedTexts "en-US" commentedCall).1).1 =
        "`$\x7b`A`\x7d`".toList := by
  have hfirst : (inlineText commentedTexts "en-US" commentedCall).1 =
      "`$\x7b$translate( 'a')\x7d`".toList := by cbv
  refine ⟨by decide, hfirst, ?_⟩
  rw [hfirst]
  cbv

end Localization.Inlining
