import Mathlib
import Localization.Inlining.Chunk
import Localization.Proofs.Inlining.Coverage
import Localization.Proofs.Inlining.Ordered
import Localization.Proofs.Text.Patch

/-! What inlining leaves alone.

The outermost sites of a chunk do not overlap, so the chunk falls into what stands between them
and their texts (`exists_segments`). Only the latter are replaced: `inlines_inlineText` says so
of the bytes of the chunk, and that putting the values in from the last to the first never uses
an offset that is out of range or inside a character. -/
namespace Localization.Inlining

open Marker (Call)
open Text (bytes size size_take_mono size_take_lt Patch Segment patched patchFromEnd patchesOf
  original replaced)

/-! ### Offsets -/

section

variable {code : Text} {call : Call} (h : call.IsAt code)

include h

theorem drop_start_of_isAt : code.drop call.start = call.raw ++ code.drop call.stop := by
  obtain ⟨before, after, rfl, hb⟩ := h.split
  rw [← hb, List.drop_left, Call.stop, ← hb, ← List.append_assoc, ← List.length_append,
    List.drop_left]

/-- From a place before a call, the text goes on to the call, its text, and what stands behind
it. -/
theorem drop_eq_of_isAt {position : Nat} (hstart : position ≤ call.start) :
    code.drop position = (code.drop position).take (call.start - position) ++
      (call.raw ++ code.drop call.stop) := by
  rw [← drop_start_of_isAt h]
  conv_lhs => rw [← List.take_append_drop (call.start - position) (code.drop position)]
  rw [List.drop_drop, Nat.add_sub_cancel' hstart]

theorem stop_le_of_isAt : call.stop ≤ code.length := by
  obtain ⟨before, after, rfl, hb⟩ := h.split
  rw [Call.stop, ← hb]
  simp only [List.length_append]
  omega

theorem byteSpan_of_isAt :
    call.byteSpan code = (size (code.take call.start), size (code.take call.stop)) := by
  obtain ⟨before, after, rfl, hb⟩ := h.split
  rw [Call.byteSpan, Call.stop, ← hb]
  congr 1
  rw [← List.append_assoc, ← List.length_append, List.take_left, List.append_assoc, List.take_left,
    Text.size_append]

end

/-! ### Segments -/

/-- The patch that puts a value in the place of a call. -/
def patchAt (code : Text) (replacement : Call × Text) : Patch :=
  ⟨(replacement.1.byteSpan code).1, (replacement.1.byteSpan code).2, replacement.2⟩

/-- Calls that do not overlap cut a text into segments, and what the segments are replaced by is
the spliced text. -/
theorem exists_segments {code : Text} {l : List (Call × Text)} (hat : ∀ r ∈ l, r.1.IsAt code)
    (hp : l.Pairwise fun a b => a.1.stop ≤ b.1.start) (position : Nat)
    (hpos : ∀ r ∈ l, position ≤ r.1.start) :
    ∃ segments tail, original tail segments = code.drop position ∧
      replaced tail segments =
        splice position (code.drop position) (l.map fun r => (r.1.start, r.1.stop, r.2)) ∧
      patchesOf (size (code.take position)) segments = l.map (patchAt code) := by
  induction l generalizing position with
  | nil => exact ⟨[], code.drop position, rfl, rfl, rfl⟩
  | cons r rest ih =>
    obtain ⟨call, value⟩ := r
    rw [List.pairwise_cons] at hp
    have hcall : call.IsAt code := hat _ List.mem_cons_self
    have hstart : position ≤ call.start := hpos _ List.mem_cons_self
    obtain ⟨segments, tail, horiginal, hreplaced, hpatches⟩ :=
      ih (fun r hr => hat r (List.mem_cons_of_mem _ hr)) hp.2 call.stop fun r hr => hp.1 r hr
    have hgap := drop_eq_of_isAt hcall hstart
    have hbehind : (code.drop position).drop (call.stop - position) = code.drop call.stop := by
      have : position + (call.stop - position) = call.stop := by rw [Call.stop]; omega
      rw [List.drop_drop, this]
    have hsize :
        size (code.take position) + size ((code.drop position).take (call.start - position)) =
        size (code.take call.start) := by
      rw [← Text.size_append, ← List.take_add, Nat.add_sub_cancel' hstart]
    have hspan := byteSpan_of_isAt hcall
    have hraw : size (code.take call.start) + size call.raw = size (code.take call.stop) :=
      congrArg Prod.snd hspan
    refine ⟨⟨(code.drop position).take (call.start - position), call.raw, value⟩ :: segments,
      tail, ?_, ?_, ?_⟩
    · rw [original, horiginal]
      exact hgap.symm
    · rw [replaced, hreplaced, List.map_cons, splice, hbehind]
    · rw [patchesOf, List.map_cons, patchAt, hspan]
      simp only [hsize, hraw, hpatches]

/-! ### The values of a chunk -/

section

variable (x : Context) (lang code : Text)

/-- The outermost calls of a chunk with their values. -/
def replacements : List (Call × Text) :=
  (Plan.of x.config code).sites.map fun site => (site.call, (resolve x lang site).1)

variable {x lang code}

theorem scanned_of_mem_sites {site : Site} (h : site ∈ (Plan.of x.config code).sites) :
    IsStatic site.call ∧ ∃ f, site.call ∈ Marker.scan f (x.config.markers.name f) code := by
  obtain ⟨hcall, hc⟩ := mem_asked_of.mp (Site.call_mem_asked h)
  exact ⟨⟨_, hc⟩, mem_calls.mp hcall⟩

theorem isAt_of_mem_sites {site : Site} (h : site ∈ (Plan.of x.config code).sites) :
    site.call.IsAt code := by
  obtain ⟨-, f, hf⟩ := scanned_of_mem_sites h
  exact Marker.isAt_of_mem_scan hf

theorem exists_site_of_mem_replacements {r : Call × Text} (h : r ∈ replacements x lang code) :
    ∃ site ∈ (Plan.of x.config code).sites, r.1 = site.call := by
  obtain ⟨site, hs, rfl⟩ := List.mem_map.mp h
  exact ⟨site, hs, rfl⟩

theorem isAt_of_mem_replacements {r : Call × Text} (h : r ∈ replacements x lang code) :
    r.1.IsAt code := by
  obtain ⟨site, hs, he⟩ := exists_site_of_mem_replacements h
  exact he ▸ isAt_of_mem_sites hs

theorem pairwise_replacements :
    (replacements x lang code).Pairwise fun a b => a.1.stop ≤ b.1.start :=
  List.pairwise_map.mpr (Site.pairwise_of_areOrdered (areOrdered_of x.config code))

theorem patchAt_of_mem_replacements {r : Call × Text} (h : r ∈ replacements x lang code) :
    patchAt code r = ⟨size (code.take r.1.start), size (code.take r.1.stop), r.2⟩ := by
  rw [patchAt, byteSpan_of_isAt (isAt_of_mem_replacements h)]

/-- The inlined chunk is the chunk with its outermost calls replaced. -/
theorem inlineText_eq_splice :
    (inlineText x lang code).1 = splice 0 code ((replacements x lang code).map fun r =>
      (r.1.start, r.1.stop, r.2)) := by
  show splice 0 code _ = splice 0 code _
  rw [replacements, List.map_map, List.map_map]
  rfl

/-- The inlined chunk is the chunk with its segments replaced. -/
theorem exists_segments_inlineText :
    ∃ segments tail, original tail segments = code ∧
      replaced tail segments = (inlineText x lang code).1 ∧
      patchesOf 0 segments = (replacements x lang code).map (patchAt code) := by
  obtain ⟨segments, tail, horiginal, hreplaced, hpatches⟩ :=
    exists_segments (fun r hr => isAt_of_mem_replacements hr) (@pairwise_replacements x lang code) 0
      fun _ _ => Nat.zero_le _
  refine ⟨segments, tail, horiginal, ?_, hpatches⟩
  rw [hreplaced, inlineText_eq_splice]
  rfl

/-- Every byte outside of the outermost calls is copied. -/
theorem bytes_inlineText :
    bytes (inlineText x lang code).1 = patched 0 (bytes code)
      ((replacements x lang code).map (patchAt code)) := by
  obtain ⟨segments, tail, horiginal, hreplaced, hpatches⟩ := @exists_segments_inlineText x lang code
  have := Text.patched_patchesOf 0 tail segments
  rw [horiginal, hreplaced, hpatches] at this
  exact this.symm

/-- Putting the values in from the last to the first makes the inlined chunk. -/
theorem patchFromEnd_inlineText :
    patchFromEnd code ((replacements x lang code).map (patchAt code)) =
      some (inlineText x lang code).1 := by
  obtain ⟨segments, tail, horiginal, hreplaced, hpatches⟩ := @exists_segments_inlineText x lang code
  have := Text.patchFromEnd_patchesOf [] tail segments
  rw [List.nil_append, List.nil_append, horiginal, hreplaced] at this
  rw [← hpatches]
  exact this

/-- The ranges do not overlap. -/
theorem pairwise_patches :
    ((replacements x lang code).map (patchAt code)).Pairwise fun p q => p.stop ≤ q.start := by
  refine List.pairwise_map.mpr (pairwise_replacements.imp_of_mem fun {a b} ha hb hab => ?_)
  rw [patchAt_of_mem_replacements ha, patchAt_of_mem_replacements hb]
  exact size_take_mono code hab

theorem start_lt_stop_patchAt {r : Call × Text} (h : r ∈ replacements x lang code) :
    (patchAt code r).start < (patchAt code r).stop := by
  have hat := isAt_of_mem_replacements h
  rw [patchAt_of_mem_replacements h]
  refine size_take_lt ?_ (stop_le_of_isAt hat)
  have := List.length_pos_of_ne_nil hat.ne_nil
  rw [Call.stop]
  omega

/-- A static call starts inside of an outermost one. -/
theorem exists_replacement_around {f : Marker.Family} {call : Call}
    (hf : call ∈ Marker.scan f (x.config.markers.name f) code) (hc : IsStatic call) :
    ∃ r ∈ replacements x lang code, r.1.start ≤ call.start ∧ call.start < r.1.stop := by
  obtain ⟨request, hc⟩ := hc
  have hasked : (call, request) ∈ Site.asked (Plan.of x.config code).sites :=
    mem_asked_of.mpr ⟨mem_calls.mpr ⟨f, hf⟩, hc⟩
  obtain ⟨site, hs, hin⟩ :=
    Site.exists_around (areOrdered_of x.config code) (fun site hs =>
      (isAt_of_mem_sites hs).ne_nil) hasked
  exact ⟨_, List.mem_map_of_mem hs, hin⟩

/-- A static call starts inside of the range of an outermost one. -/
theorem exists_patch_around {f : Marker.Family} {call : Call}
    (hf : call ∈ Marker.scan f (x.config.markers.name f) code) (hc : IsStatic call) :
    ∃ r ∈ replacements x lang code, (patchAt code r).start ≤ (call.byteSpan code).1 ∧
      (call.byteSpan code).1 < (patchAt code r).stop := by
  obtain ⟨r, hr, hstart, hstop⟩ := @exists_replacement_around x lang code f call hf hc
  refine ⟨r, hr, ?_⟩
  rw [byteSpan_of_isAt (Marker.isAt_of_mem_scan hf), patchAt_of_mem_replacements hr]
  exact ⟨size_take_mono code hstart, size_take_lt hstop
    (stop_le_of_isAt (isAt_of_mem_replacements hr))⟩

end

/-! ### The chunk -/

/-- How a chunk becomes another text by patches. -/
structure Inlines (config : Config) (code out : Text) (patches : List Patch) : Prop where
  /-- The ranges are in increasing order and do not overlap. -/
  inOrder : patches.Pairwise fun p q => p.stop ≤ q.start
  /-- Each of them is the span of a static call. -/
  atCalls : ∀ p ∈ patches, p.start < p.stop ∧
    ∃ f, ∃ call ∈ Marker.scan f (config.markers.name f) code,
      IsStatic call ∧ call.byteSpan code = (p.start, p.stop)
  /-- Every byte outside of them is copied in order. -/
  outside : bytes out = patched 0 (bytes code) patches
  /-- Put in from the last to the first, every patch finds its range. -/
  fromEnd : patchFromEnd code patches = some out
  /-- Every static call starts inside of a range. -/
  covers : ∀ f, ∀ call ∈ Marker.scan f (config.markers.name f) code, IsStatic call →
    ∃ p ∈ patches, p.start ≤ (call.byteSpan code).1 ∧ (call.byteSpan code).1 < p.stop
  /-- A text of the chunk that no range reaches into from outside, such as that of any other call
  that lies outside of the ranges, is kept but for the ranges inside of it. -/
  keeps : ∀ front text back, code = front ++ (text ++ back) →
    (∀ p ∈ patches, p.stop ≤ size front ∨ size front + size text ≤ p.start ∨
      (size front ≤ p.start ∧ p.stop ≤ size front + size text)) →
    bytes out =
      patched 0 (bytes front) (patches.filter fun p => p.stop ≤ size front) ++
        patched (size front) (bytes text)
          (patches.filter fun p => size front ≤ p.start && p.stop ≤ size front + size text) ++
        patched (size front + size text) (bytes back)
          (patches.filter fun p => size front + size text ≤ p.start)

/-- Cutting a text twice where no patch stands. -/
theorem patched_cut_twice {front text back : Text} {patches : List Patch}
    (hp : patches.Pairwise fun p q => p.stop ≤ q.start) (hne : ∀ p ∈ patches, p.start < p.stop)
    (hcut : ∀ p ∈ patches, p.stop ≤ size front ∨ size front + size text ≤ p.start ∨
      (size front ≤ p.start ∧ p.stop ≤ size front + size text)) :
    patched 0 (bytes (front ++ (text ++ back))) patches =
      patched 0 (bytes front) (patches.filter fun p => p.stop ≤ size front) ++
        patched (size front) (bytes text)
          (patches.filter fun p => size front ≤ p.start && p.stop ≤ size front + size text) ++
        patched (size front + size text) (bytes back)
          (patches.filter fun p => size front + size text ≤ p.start) := by
  have hfirst :=
    Text.patched_cut (b := bytes (front ++ (text ++ back))) hp (fun _ _ => Nat.zero_le _) hne
    (Nat.zero_le (size front)) fun p hm => by have := hcut p hm; omega
  have hrest := @Text.patched_cut (size front) (size front + size text) (bytes (text ++ back))
    (patches.filter fun p => size front ≤ p.start)
    (hp.filter _) (fun p hm => by simpa using (List.mem_filter.mp hm).2)
    (fun p hm => hne p (List.mem_filter.mp hm).1) (Nat.le_add_right _ _)
    fun p hm => by
      have h1 := hcut p (List.mem_filter.mp hm).1
      have h2 : size front ≤ p.start := by simpa using (List.mem_filter.mp hm).2
      have h3 := hne p (List.mem_filter.mp hm).1
      omega
  have htake : (bytes (front ++ (text ++ back))).take (size front) = bytes front := by
    rw [Text.bytes_append, ← Text.length_bytes, List.take_left]
  have hdrop : (bytes (front ++ (text ++ back))).drop (size front) = bytes (text ++ back) := by
    rw [Text.bytes_append, ← Text.length_bytes front, List.drop_left]
  have htake' : (bytes (text ++ back)).take (size text) = bytes text := by
    rw [Text.bytes_append, ← Text.length_bytes, List.take_left]
  have hdrop' : (bytes (text ++ back)).drop (size text) = bytes back := by
    rw [Text.bytes_append, ← Text.length_bytes text, List.drop_left]
  rw [Nat.sub_zero, htake, hdrop] at hfirst
  rw [Nat.add_sub_cancel_left, htake', hdrop', List.filter_filter, List.filter_filter] at hrest
  rw [hfirst, hrest, ← List.append_assoc]
  congr 2
  · congr 1
    exact List.filter_congr fun p _ => Bool.and_comm _ _
  · refine List.filter_congr fun p _ => ?_
    by_cases h : size front + size text ≤ p.start
    · have : size front ≤ p.start := by omega
      simp [h, this]
    · simp [h]

/-- **Inlining changes nothing but static calls.** The spans that it replaces are those of the
outermost ones. -/
theorem inlines_inlineText (x : Context) (lang code : Text) :
    ∃ patches, Inlines x.config code (inlineText x lang code).1 patches := by
  have hne : ∀ p ∈ (replacements x lang code).map (patchAt code), p.start < p.stop := by
    intro p hp
    obtain ⟨r, hr, rfl⟩ := List.mem_map.mp hp
    exact start_lt_stop_patchAt hr
  refine ⟨(replacements x lang code).map (patchAt code), {
    inOrder := pairwise_patches
    atCalls := ?_
    outside := bytes_inlineText
    fromEnd := patchFromEnd_inlineText
    covers := ?_
    keeps := ?_ }⟩
  · intro p hp
    obtain ⟨r, hr, rfl⟩ := List.mem_map.mp hp
    obtain ⟨site, hs, he⟩ := exists_site_of_mem_replacements hr
    obtain ⟨hc, f, hf⟩ := scanned_of_mem_sites hs
    exact ⟨start_lt_stop_patchAt hr, f, r.1, he ▸ hf, he ▸ hc, rfl⟩
  · intro f call hf hc
    obtain ⟨r, hr, hin⟩ := @exists_patch_around x lang code f call hf hc
    exact ⟨_, List.mem_map_of_mem hr, hin⟩
  · intro front text back hcode hcut
    rw [← patched_cut_twice pairwise_patches hne hcut, ← hcode]
    exact bytes_inlineText

end Localization.Inlining
