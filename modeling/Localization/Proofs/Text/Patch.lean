import Mathlib
import Localization.Proofs.Text.Bytes

/-! Patches of a text.

A patch puts a text in the place of a range of bytes. Patches in order that do not overlap are
put in from the last to the first, so that the offsets of those still to come stay valid
(`patchFromEnd`); an offset behind the end or inside a character would stop that. It comes to
the same as copying the bytes outside of the ranges in one pass (`patched`).

`patchFromEnd_patchesOf` and `patched_patchesOf` say so of a text that is cut into segments, and
`patched_cut` that a text may be cut wherever no patch stands. -/
namespace Localization.Text

/-! ### Sizes -/

theorem size_take_mono (t : Text) {m n : Nat} (h : m ≤ n) : size (t.take m) ≤ size (t.take n) := by
  obtain ⟨k, rfl⟩ := Nat.le.dest h
  rw [List.take_add, size_append]
  omega

theorem size_take_lt {t : Text} {m n : Nat} (h : m < n) (hn : n ≤ t.length) :
    size (t.take m) < size (t.take n) := by
  have hm : m < t.length := by omega
  have hstep : size (t.take m) < size (t.take (m + 1)) := by
    rw [List.take_add_one, List.getElem?_eq_getElem hm, size_append]
    have := (t[m]).utf8Size_pos
    simp only [Option.toList_some, size]
    omega
  exact Nat.lt_of_lt_of_le hstep (size_take_mono t h)

/-- Offsets in bytes and in characters are ordered alike. -/
theorem size_take_le_iff {t : Text} {m n : Nat} (hm : m ≤ t.length) :
    size (t.take m) ≤ size (t.take n) ↔ m ≤ n := by
  refine ⟨fun h => ?_, size_take_mono t⟩
  by_contra hlt
  exact absurd (size_take_lt (Nat.lt_of_not_le hlt) hm) (Nat.not_lt.mpr h)

/-- The text up to an offset in bytes, and what follows; none if the offset is behind the end or
inside a character. -/
def cut? : Nat → Text → Option (Text × Text)
  | 0, t => some ([], t)
  | _ + 1, [] => none
  | n + 1, c :: rest =>
    if c.utf8Size ≤ n + 1 then (cut? (n + 1 - c.utf8Size) rest).map fun (a, b) =>
      (c :: a, b) else none

theorem cut?_size (a b : Text) : cut? (size a) (a ++ b) = some (a, b) := by
  induction a with
  | nil => rw [size, cut?, List.nil_append]
  | cons c rest ih =>
    have hpos := c.utf8Size_pos
    obtain ⟨n, hn⟩ : ∃ n, size (c :: rest) = n + 1 :=
      ⟨c.utf8Size + size rest - 1, by rw [size]; omega⟩
    have hrest : n + 1 - c.utf8Size = size rest := by rw [size] at hn; omega
    have hle : c.utf8Size ≤ n + 1 := by rw [size] at hn; omega
    rw [hn, List.cons_append, cut?, if_pos hle, hrest, ih, Option.map_some]

/-- Puts a text in place of a range of bytes. -/
def replaceRange? (start stop : Nat) (value t : Text) : Option Text :=
  (cut? start t).bind fun (before, rest) =>
    if stop < start then none else (cut? (stop - start) rest).map fun (_, after) =>
      before ++ value ++ after

theorem replaceRange?_append (a old value b : Text) :
    replaceRange? (size a) (size a + size old) value (a ++ (old ++ b)) =
      some (a ++ value ++ b) := by
  have hstop : ¬ size a + size old < size a := by omega
  have hlen : size a + size old - size a = size old := by omega
  rw [replaceRange?, cut?_size, Option.bind_some]
  simp only [hstop, if_false, hlen, cut?_size, Option.map_some]

/-! ### Patches -/

/-- A text in place of the bytes from `start` to `stop`. -/
structure Patch where
  start : Nat
  stop : Nat
  value : Text

/-- The bytes from `position` on with the ranges of some patches replaced, in one pass. -/
def patched (position : Nat) (b : List UInt8) : List Patch → List UInt8
  | [] => b
  | p :: rest =>
    b.take (p.start - position) ++ bytes p.value ++ patched p.stop (b.drop (p.stop - position)) rest

/-- The text with patches put in one after the other, the last one first. -/
def patchFromEnd (t : Text) (patches : List Patch) : Option Text :=
  patches.foldr (fun p t => t.bind (replaceRange? p.start p.stop p.value)) (some t)

/-- Patches that do not overlap are told by which they are. -/
theorem patches_ext {a b : List Patch} (ha : a.Pairwise fun p q => p.stop ≤ q.start)
    (hb : b.Pairwise fun p q => p.stop ≤ q.start) (hne : ∀ p ∈ b, p.start < p.stop)
    (h : ∀ p, p ∈ a ↔ p ∈ b) : a = b := by
  have hnodup {l : List Patch} (hl : l.Pairwise fun p q => p.stop ≤ q.start)
      (hmem : ∀ p ∈ l, p ∈ b) : l.Nodup := by
    refine hl.imp_of_mem fun {p q} hp _ hle => ?_
    rintro rfl
    exact absurd (hne p (hmem p hp)) (Nat.not_lt.mpr hle)
  have hperm : a.Perm b :=
    (List.perm_ext_iff_of_nodup (hnodup ha fun p => (h p).mp) (hnodup hb fun _ => id)).mpr h
  refine hperm.eq_of_pairwise (fun p q hp hq hpq hqp => ?_) ha hb
  have hp := hne p ((h p).mp hp)
  have hq := hne q hq
  omega

/-! ### Segments -/

/-- A stretch that is kept, one behind it that is replaced, and what stands for that. -/
structure Segment where
  gap : Text
  old : Text
  value : Text

/-- The text before its segments are replaced. -/
def original (tail : Text) : List Segment → Text
  | [] => tail
  | s :: rest => s.gap ++ (s.old ++ original tail rest)

/-- The text with its segments replaced. -/
def replaced (tail : Text) : List Segment → Text
  | [] => tail
  | s :: rest => s.gap ++ s.value ++ replaced tail rest

/-- The patches that replace the segments of a text that starts at `position`. -/
def patchesOf (position : Nat) : List Segment → List Patch
  | [] => []
  | s :: rest =>
    let start := position + size s.gap
    ⟨start, start + size s.old, s.value⟩ :: patchesOf (start + size s.old) rest

/-- Replacing segments from the last to the first uses no offset that is out of range or inside a
character. -/
theorem patchFromEnd_patchesOf (front tail : Text) (segments : List Segment) :
    patchFromEnd (front ++ original tail segments) (patchesOf (size front) segments) =
      some (front ++ replaced tail segments) := by
  induction segments generalizing front with
  | nil => rfl
  | cons s rest ih =>
    have hinner := ih (front ++ s.gap ++ s.old)
    have hstart : size (front ++ s.gap) = size front + size s.gap := size_append _ _
    have hstop : size (front ++ s.gap ++ s.old) = size front + size s.gap + size s.old := by
      rw [size_append, hstart]
    rw [hstop] at hinner
    rw [original, patchesOf, replaced, patchFromEnd, List.foldr_cons]
    rw [patchFromEnd] at hinner
    simp only [List.append_assoc] at hinner ⊢
    rw [hinner, Option.bind_some, ← hstart, ← List.append_assoc front s.gap, replaceRange?_append]
    simp only [List.append_assoc]

/-- Replacing segments copies every byte outside of them. -/
theorem patched_patchesOf (position : Nat) (tail : Text) (segments : List Segment) :
    patched position (bytes (original tail segments)) (patchesOf position segments) =
      bytes (replaced tail segments) := by
  induction segments generalizing position with
  | nil => rfl
  | cons s rest ih =>
    have hall : bytes (original tail (s :: rest)) =
        bytes (s.gap ++ s.old) ++ bytes (original tail rest) := by
      rw [original, ← List.append_assoc, bytes_append]
    have htake : (bytes (original tail (s :: rest))).take (position + size s.gap - position) =
        bytes s.gap := by
      have hlen : position + size s.gap - position = (bytes s.gap).length := by
        rw [length_bytes]; omega
      rw [original, bytes_append, hlen, List.take_left]
    have hdrop :
        (bytes (original tail (s :: rest))).drop (position + size s.gap + size s.old - position) =
        bytes (original tail rest) := by
      have hlen : position + size s.gap + size s.old - position =
          (bytes (s.gap ++ s.old)).length := by
        rw [length_bytes, size_append]
        omega
      rw [hall, hlen, List.drop_left]
    show (bytes (original tail (s :: rest))).take (position + size s.gap - position) ++
      bytes s.value ++
      patched (position + size s.gap + size s.old)
        ((bytes (original tail (s :: rest))).drop (position + size s.gap + size s.old -
          position)) _ = _
    rw [htake, hdrop, ih, replaced, bytes_append, bytes_append]

/-! ### Cutting -/

/-- A text may be cut wherever no patch stands. -/
theorem patched_cut {position place : Nat} {b : List UInt8} {patches : List Patch}
    (hp : patches.Pairwise fun p q => p.stop ≤ q.start)
    (hposition : ∀ p ∈ patches, position ≤ p.start) (hne : ∀ p ∈ patches, p.start < p.stop)
    (hplace : position ≤ place) (hcut : ∀ p ∈ patches, p.stop ≤ place ∨ place ≤ p.start) :
    patched position b patches =
      patched position (b.take (place - position)) (patches.filter fun p => p.stop ≤ place) ++
        patched place (b.drop (place - position)) (patches.filter fun p => place ≤ p.start) := by
  induction patches generalizing position b with
  | nil => simp [patched]
  | cons p rest ih =>
    rw [List.pairwise_cons] at hp
    have hstart := hposition p List.mem_cons_self
    have hstop := hne p List.mem_cons_self
    rcases hcut p List.mem_cons_self with h | h
    · have hrest := ih (b := b.drop (p.stop - position)) hp.2 hp.1
        (fun q hq => hne q (List.mem_cons_of_mem _ hq)) h (fun q hq =>
          hcut q (List.mem_cons_of_mem _ hq))
      have hnot : ¬ place ≤ p.start := by omega
      have hsub : place - position - (p.stop - position) = place - p.stop := by omega
      have hadd : p.stop - position + (place - p.stop) = place - position := by omega
      have hmin : min (p.start - position) (place - position) = p.start - position := by omega
      rw [List.filter_cons_of_pos (by simpa using h), List.filter_cons_of_neg (by simpa using hnot),
        patched, patched, hrest, List.take_take, List.drop_take, List.drop_drop, hsub, hadd, hmin]
      simp only [List.append_assoc]
    · have hbehind : ∀ q ∈ rest, place ≤ q.start := by
        intro q hq
        have := hp.1 q hq
        omega
      have hnone : rest.filter (fun q => decide (q.stop ≤ place)) = [] := by
        refine List.filter_eq_nil_iff.mpr fun q hq => ?_
        have h1 := hbehind q hq
        have h2 := hne q (List.mem_cons_of_mem _ hq)
        simp only [decide_eq_true_eq]
        omega
      have hall : rest.filter (fun q => decide (place ≤ q.start)) = rest := by
        refine List.filter_eq_self.mpr fun q hq => ?_
        simpa using hbehind q hq
      have hnot : ¬ p.stop ≤ place := by omega
      have hfirst : p.start - position = place - position + (p.start - place) := by omega
      have hsecond : place - position + (p.stop - place) = p.stop - position := by omega
      rw [List.filter_cons_of_neg (by simpa using hnot), List.filter_cons_of_pos (by simpa using h),
        hnone, hall, patched, patched, patched, List.drop_drop, hsecond, hfirst, List.take_add]
      simp only [List.append_assoc]

end Localization.Text
