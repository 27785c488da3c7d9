import Mathlib
import Localization.Proofs.Inlining.Splice
import Localization.Proofs.Inlining.Values
import Localization.Proofs.Text.Replace

/-! Replacing by text and by place.

The outermost calls of a chunk are replaced where they stand. Calls that a value carries are looked
for by their texts instead, and every place where such a text stands is replaced. The two agree on
a text exactly if no call's text stands outside of the calls (`replaceAll_eq_splice_iff`), because
the text of a call does not go on as that of another one, and because a value does not start like a
call. -/
namespace Localization.Inlining

open Marker (Call)
open Text (replaceAll ChangesHead)

/-! ### By text -/

/-- At a call the text of that call is replaced, and none that is longer or shorter. -/
theorem replacement?_own {pairs : List (Text × Text)}
    (hcalls : ∀ p ∈ pairs, ∃ name, Marker.IsCallText name p.1)
    (hsame : ∀ p ∈ pairs, ∀ q ∈ pairs, p.1 = q.1 → p.2 = q.2) {p : Text × Text} (hp : p ∈ pairs)
    (z : Text) :
    replacement? pairs (p.1 ++ z) = some (p.2, p.1.length) := by
  have hown : p.1 <+: p.1 ++ z := List.prefix_append _ _
  cases hr : replacement? pairs (p.1 ++ z) with
  | none => exact absurd hown (replacement?_eq_none_iff.mp hr p hp)
  | some r =>
    obtain ⟨q, hq, hprefix, rfl⟩ := exists_of_replacement? hr
    obtain ⟨name, hname⟩ := hcalls p hp
    obtain ⟨name', hname'⟩ := hcalls q hq
    have heq : p.1 = q.1 := by
      rcases List.prefix_or_prefix_of_prefix hown hprefix with h | h
      · exact hname.eq_of_prefix hname' h
      · exact (hname'.eq_of_prefix hname h).symm
    rw [heq, hsame p hp q hq heq]

/-! ### By place -/

/-- Whether a place is in none of some calls. -/
def IsOutside (calls : List (Call × Text)) (place : Nat) : Prop :=
  ∀ r ∈ calls, place < r.1.start ∨ r.1.stop ≤ place

/-- The places outside of calls are those in front of the first one and those behind it that are
outside of the others. -/
theorem forall_isOutside_cons_iff {call : Call} {value : Text} {rest : List (Call × Text)}
    {position stop : Nat} (hcall : call.start < call.stop) (hstart : position ≤ call.start)
    (hstop : call.stop ≤ stop) (hrest : ∀ r ∈ rest, call.stop ≤ r.1.start) (P : Nat → Prop) :
    (∀ place, position ≤ place → place < stop → IsOutside ((call, value) :: rest) place → P place) ↔
      (∀ place, position ≤ place → place < call.start → P place) ∧
        ∀ place, call.stop ≤ place → place < stop → IsOutside rest place → P place := by
  constructor
  · intro h
    refine ⟨fun place hle hlt => h place hle (by omega) fun r hr => ?_,
      fun place hle hlt hout => ?_⟩
    · rcases List.mem_cons.mp hr with rfl | hr
      · exact .inl hlt
      · have := hrest r hr
        exact .inl (by omega)
    · refine h place (by omega) hlt fun r hr => ?_
      rcases List.mem_cons.mp hr with rfl | hr
      · exact .inr hle
      · exact hout r hr
  · rintro ⟨hbefore, hbehind⟩ place hle hlt hout
    rcases hout _ List.mem_cons_self with h | h
    · exact hbefore place hle h
    · exact hbehind place h hlt fun r hr => hout r (List.mem_cons_of_mem _ hr)

/-- The places of a stretch of text. -/
theorem forall_drop_iff (P : Text → Prop) (code : Text) (position length : Nat) :
    (∀ n < length, P ((code.drop position).drop n)) ↔
      ∀ place, position ≤ place → place < position + length → P (code.drop place) := by
  constructor
  · intro h place hle hlt
    have := h (place - position) (by omega)
    rwa [List.drop_drop, Nat.add_sub_cancel' hle] at this
  · intro h n hn
    rw [List.drop_drop]
    exact h _ (Nat.le_add_right _ _) (by omega)

/-- **Replacing matches comes to the same as replacing calls exactly if the calls match and nothing
outside of them does.** -/
theorem replaceAll_eq_splice_iff {find : Text → Option (Text × Nat)} (hfind : ChangesHead find)
    {code : Text} {l : List (Call × Text)} (hat : ∀ r ∈ l, r.1.IsAt code)
    (hp : l.Pairwise fun a b => a.1.stop ≤ b.1.start)
    (hown : ∀ r ∈ l, ∀ z, find (r.1.raw ++ z) = some (r.2, r.1.raw.length)) (position : Nat)
    (hposition : ∀ r ∈ l, position ≤ r.1.start) :
    replaceAll find 0 (code.drop position) =
        splice position (code.drop position) (l.map fun r => (r.1.start, r.1.stop, r.2)) ↔
      ∀ place, position ≤ place → place < code.length → IsOutside l place →
        find (code.drop place) = none := by
  induction l generalizing position with
  | nil =>
    have hgap := Text.replaceAll_gap_iff hfind (code.drop position) [] []
    rw [List.append_nil, forall_drop_iff (find · = none)] at hgap
    rw [List.map_nil, splice, hgap]
    constructor
    · rintro ⟨h, -⟩ place hle hlt -
      exact h place hle (by rw [List.length_drop]; omega)
    · intro h
      refine ⟨fun place hle hlt => ?_, rfl⟩
      rw [List.length_drop] at hlt
      exact h place hle (by omega) fun r hr => absurd hr List.not_mem_nil
  | cons r rest ih =>
    obtain ⟨call, value⟩ := r
    rw [List.pairwise_cons] at hp
    have hcall : call.IsAt code := hat _ List.mem_cons_self
    have hstart : position ≤ call.start := hposition _ List.mem_cons_self
    have hstop : call.start < call.stop := by
      have := List.length_pos_of_ne_nil hcall.ne_nil
      rw [Call.stop]
      omega
    have hend := stop_le_of_isAt hcall
    have hrest := ih (fun r hr => hat r (List.mem_cons_of_mem _ hr)) hp.2
      (fun r hr => hown r (List.mem_cons_of_mem _ hr)) call.stop hp.1
    have hgap := drop_eq_of_isAt hcall hstart
    have hlength : ((code.drop position).take (call.start - position)).length =
        call.start - position := by
      rw [List.length_take, List.length_drop]
      omega
    have hbehind : (code.drop position).drop (call.stop - position) = code.drop call.stop := by
      rw [List.drop_drop]
      congr 1
      omega
    -- Up to the call nothing matches, the call itself does, and behind it the same holds again.
    have hstep := Text.replaceAll_gap_iff hfind ((code.drop position).take (call.start - position))
      (call.raw ++ code.drop call.stop)
      (value ++ splice call.stop (code.drop call.stop) (rest.map fun r =>
        (r.1.start, r.1.stop, r.2)))
    rw [Text.replaceAll_match hcall.ne_nil (hown _ List.mem_cons_self _),
      List.append_cancel_left_eq, hrest, ← hgap, hlength, forall_drop_iff (find · = none)] at hstep
    rw [forall_isOutside_cons_iff hstop hstart hend hp.1, List.map_cons, splice, hbehind,
      List.append_assoc, hstep, Nat.add_sub_cancel' hstart]

/-! ### A text of a chunk -/

section

variable {x : Context} {lang code : Text}

/-- The texts of the outermost calls and what stands for them. -/
def callTexts (calls : List (Call × Text)) : List (Text × Text) := calls.map fun r => (r.1.raw, r.2)

/-- Whether calls of the same text have the same value. -/
def HaveOneValue (calls : List (Call × Text)) : Prop :=
  ∀ r ∈ calls, ∀ s ∈ calls, r.1.raw = s.1.raw → r.2 = s.2

theorem isCallText_of_mem_replacements {r : Call × Text} (h : r ∈ replacements x lang code) :
    ∃ name, Marker.IsCallText name r.1.raw := by
  obtain ⟨site, hs, he⟩ := exists_site_of_mem_replacements h
  exact he ▸ (areCalls_of x.config code).of_mem hs

theorem isValueText_of_mem_replacements {r : Call × Text} (h : r ∈ replacements x lang code) :
    IsValueText x r.2 := by
  obtain ⟨site, hs, rfl⟩ := List.mem_map.mp h
  exact isValueText_resolve x lang (areCalls_of x.config code) hs

/-- A call and its value start differently. -/
theorem changesHead_callTexts
    (h : (∀ r ∈ replacements x lang code, r.1.raw.head? ≠ some 'n') ∨ x.HasFiniteNumbers) :
    ChangesHead (replacement? (callTexts (replacements x lang code))) := by
  intro c rest p hp
  obtain ⟨q, hq, hprefix, rfl⟩ := exists_of_replacement? hp
  obtain ⟨r, hr, rfl⟩ := List.mem_map.mp hq
  have hvalue := isValueText_of_mem_replacements hr
  obtain ⟨name, hname⟩ := isCallText_of_mem_replacements hr
  obtain ⟨d, raw, hraw, hd⟩ := hname.exists_eq_cons
  have hprefix : r.1.raw <+: c :: rest := hprefix
  rw [hraw, List.cons_prefix_cons] at hprefix
  obtain rfl : d = c := hprefix.1
  refine ⟨hvalue.ne_nil, hvalue.head?_ne hd (h.imp_left fun h hn => h r hr ?_)⟩
  rw [hraw, hn]
  rfl

/-- **Replacing the texts of the outermost calls of a chunk inlines it exactly if none of these
texts stands outside of the calls.** -/
theorem replaceAll_callTexts_iff
    (h : (∀ r ∈ replacements x lang code, r.1.raw.head? ≠ some 'n') ∨ x.HasFiniteNumbers)
    (hvalues : HaveOneValue (replacements x lang code)) :
    replaceAll (replacement? (callTexts (replacements x lang code))) 0 code =
      (inlineText x lang code).1 ↔
      ∀ place < code.length, IsOutside (replacements x lang code) place →
        ∀ r ∈ replacements x lang code, ¬ r.1.raw <+: code.drop place := by
  have hown : ∀ r ∈ replacements x lang code, ∀ z,
      replacement? (callTexts (replacements x lang code)) (r.1.raw ++ z) =
        some (r.2, r.1.raw.length) := by
    intro r hr z
    have hp : (r.1.raw, r.2) ∈ callTexts (replacements x lang code) := List.mem_map.mpr ⟨r, hr, rfl⟩
    refine replacement?_own ?_ ?_ hp z
    · intro p hp
      obtain ⟨s, hs, rfl⟩ := List.mem_map.mp hp
      exact isCallText_of_mem_replacements hs
    · intro p hp q hq hpq
      obtain ⟨s, hs, rfl⟩ := List.mem_map.mp hp
      obtain ⟨s', hs', rfl⟩ := List.mem_map.mp hq
      exact hvalues s hs s' hs' hpq
  have hiff :=
    replaceAll_eq_splice_iff (changesHead_callTexts h) (fun r hr => isAt_of_mem_replacements hr)
    pairwise_replacements hown 0 fun r hr => Nat.zero_le _
  rw [List.drop_zero, ← inlineText_eq_splice] at hiff
  rw [hiff]
  simp only [Nat.zero_le, true_implies, replacement?_eq_none_iff, callTexts, List.forall_mem_map]

end

end Localization.Inlining
