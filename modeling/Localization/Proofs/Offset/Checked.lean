import Mathlib
import Localization.Proofs.Text.Patch

/-! Walking a text by its bytes.

A walk by bytes keeps offsets and asks for single bytes, ranges and differences of offsets. Each
of these may go wrong (`Fault`), and what has not is `Checked`. A byte is told as the character
of its number (`units`): an ASCII character is one byte, itself, and the bytes of any other
character are no ASCII characters (`IsInert`). So an offset behind whole characters finds the
next one (`getElem?_offset`), and what passes over every inert byte passes over the characters
that are made of these (`inert_run`). -/
namespace Localization.Offset

/-! ### Faults -/

/-- What may go wrong at an offset. -/
inductive Fault where
  /-- A byte that is none of the text, or a range that is none of it. -/
  | outside
  /-- A range that starts or ends inside a character. -/
  | split
  /-- A difference below zero. -/
  | underflow
  /-- A loop that does not go on. -/
  | stalled
  deriving DecidableEq, Repr

abbrev Checked (α : Type) := Except Fault α

section

variable {α β : Type}

@[simp] theorem ok_bind (a : α) (f : α → Checked β) : ((.ok a : Checked α) >>= f) = f a := rfl

@[simp] theorem pure_eq_ok (a : α) : (pure a : Checked α) = .ok a := rfl

end

/-- The difference of two offsets. -/
def minus (i j : Nat) : Checked Nat := if j ≤ i then .ok (i - j) else .error .underflow

/-- An offset that lies behind another. -/
def ahead (i j : Nat) : Checked {k : Nat // i < k} :=
  if h : i < j then .ok ⟨j, h⟩ else .error .stalled

/-- The byte at an offset. -/
def byteAt (u : Text) (i : Nat) : Checked Char :=
  match u[i]? with
  | some b => .ok b
  | none => .error .outside

/-- The bytes of a range. -/
def rangeOf (u : Text) (start stop : Nat) : Checked Text :=
  if start ≤ stop ∧ stop ≤ u.length then .ok ((u.take stop).drop start) else .error .outside

/-- The text of a range. -/
def slice (t : Text) (start stop : Nat) : Checked Text :=
  if start ≤ stop ∧ stop ≤ Text.size t then
    match Text.cut? stop t with
    | none => .error .split
    | some (front, _) =>
      match Text.cut? start front with
      | none => .error .split
      | some (_, middle) => .ok middle
  else .error .outside

/-! ### Bytes as characters -/

/-- The bytes of a text, each as the character of its number. -/
def units (t : Text) : Text := (Text.bytes t).map fun b => Char.ofNat b.toNat

/-- Whether a character is none of ASCII. -/
def IsInert (c : Char) : Prop := 128 ≤ c.toNat

instance (c : Char) : Decidable (IsInert c) := inferInstanceAs (Decidable (128 ≤ c.toNat))

@[simp] theorem units_nil : units [] = [] := rfl

theorem units_append (a b : Text) : units (a ++ b) = units a ++ units b := by
  rw [units, Text.bytes_append, List.map_append]
  rfl

@[simp] theorem length_units (t : Text) : (units t).length = Text.size t := by
  rw [units, List.length_map, Text.length_bytes]

theorem toNat_ofNat_byte (b : UInt8) : (Char.ofNat b.toNat).toNat = b.toNat := by
  have := b.toNat_lt
  rw [Char.toNat_ofNat, if_pos (by left; omega)]

/-- An ASCII character is one byte. -/
theorem units_singleton {c : Char} (h : ¬ IsInert c) : units [c] = [c] := by
  have hlt : c.val.toNat < 128 := Nat.lt_of_not_le h
  have hbyte : String.utf8EncodeChar c = [UInt8.ofNat c.val.toNat] := by
    unfold String.utf8EncodeChar
    rw [if_pos (by omega)]
  have hnat : (UInt8.ofNat c.val.toNat).toNat = c.toNat := by
    rw [UInt8.toNat_ofNat', Nat.mod_eq_of_lt (by omega)]
    rfl
  rw [units, Text.bytes, List.flatMap_singleton, hbyte, List.map_singleton, hnat, Char.ofNat_toNat]

/-- The bytes of any other character are no ASCII characters. -/
theorem isInert_of_mem_units {c : Char} (h : IsInert c) {d : Char} (hd : d ∈ units [c]) :
    IsInert d := by
  obtain ⟨b, hb, rfl⟩ := List.mem_map.mp hd
  rw [Text.bytes, List.flatMap_singleton] at hb
  rw [IsInert, toNat_ofNat_byte]
  have hle : 128 ≤ c.val.toNat := h
  unfold String.utf8EncodeChar at hb
  generalize c.val.toNat = n at hle hb
  simp only at hb
  split_ifs at hb
  all_goals
    simp only [List.mem_cons, List.not_mem_nil, or_false] at hb
    first
      | omega
      | rcases hb with rfl | rfl | rfl | rfl <;> simp only [UInt8.toNat_ofNat'] <;> omega

theorem IsInert.ne {c d : Char} (hc : IsInert c) (hd : ¬ IsInert d) : c ≠ d := fun h => hd (h ▸ hc)

theorem IsInert.beq_eq_false {c d : Char} (hc : IsInert c) (hd : ¬ IsInert d) : (c == d) = false :=
  beq_false_of_ne (hc.ne hd)

theorem units_cons (c : Char) (b : Text) : units (c :: b) = units [c] ++ units b :=
  units_append [c] b

theorem units_ne_nil (c : Char) : units [c] ≠ [] := by
  intro h
  have hlength := length_units [c]
  rw [h] at hlength
  exact absurd hlength (c.utf8Size_pos).ne

theorem utf8Size_ascii {c : Char} (h : ¬ IsInert c) : c.utf8Size = 1 := by
  have hlength := length_units [c]
  rw [units_singleton h] at hlength
  exact hlength.symm

/-- An ASCII character is the first byte if it is the first character. -/
theorem head?_units_iff {b : Text} {x : Char} (hx : ¬ IsInert x) :
    (units b).head? = some x ↔ b.head? = some x := by
  cases b with
  | nil => exact Iff.rfl
  | cons c rest =>
    rw [units_cons, List.head?_append_of_ne_nil _ (units_ne_nil c)]
    by_cases hc : IsInert c
    · obtain ⟨d, ds, hd⟩ := List.exists_cons_of_ne_nil (units_ne_nil c)
      have hinert : IsInert d := isInert_of_mem_units hc (hd ▸ List.mem_cons_self)
      rw [hd]
      exact iff_of_false (fun h => hinert.ne hx (Option.some.inj h)) fun h =>
        hc.ne hx (Option.some.inj h)
    · rw [units_singleton hc]
      exact Iff.rfl

/-! ### Offsets behind whole characters -/

/-- The offset at which the rest of a text begins. -/
def offset (t rest : Text) : Nat := Text.size t - Text.size rest

theorem offset_append (a b : Text) : offset (a ++ b) b = Text.size a := by
  rw [offset, Text.size_append, Nat.add_sub_cancel]

theorem offset_self (t : Text) : offset t t = 0 := Nat.sub_self _

theorem offset_nil (t : Text) : offset t [] = Text.size t := rfl

section

variable {t b : Text} {c : Char}

theorem getElem?_offset (h : b <:+ t) : (units t)[offset t b]? = (units b).head? := by
  obtain ⟨a, rfl⟩ := h
  rw [offset_append, units_append, List.getElem?_append_right (by rw [length_units]), length_units,
    Nat.sub_self, List.head?_eq_getElem?]

theorem getElem?_ascii (h : c :: b <:+ t) (hc : ¬ IsInert c) :
    (units t)[offset t (c :: b)]? = some c := by
  rw [getElem?_offset h, head?_units_iff hc]
  rfl

theorem getElem?_end (t : Text) : (units t)[offset t []]? = none := by
  rw [offset_nil, ← length_units, List.getElem?_length]

theorem offset_cons (h : c :: b <:+ t) : offset t b = offset t (c :: b) + c.utf8Size := by
  obtain ⟨a, rfl⟩ := h
  rw [offset_append, List.append_cons, offset_append, Text.size_append]
  rfl

/-- The offset behind a text is that of the text and its bytes. -/
theorem offset_behind {m : Text} (h : m ++ b <:+ t) :
    offset t b = offset t (m ++ b) + Text.size m := by
  obtain ⟨a, rfl⟩ := h
  rw [offset_append, ← List.append_assoc, offset_append, Text.size_append]

theorem offset_ascii (h : c :: b <:+ t) (hc : ¬ IsInert c) :
    offset t b = offset t (c :: b) + 1 := by
  rw [offset_cons h, utf8Size_ascii hc]

theorem offset_two {d : Char} (h : c :: d :: b <:+ t) (hc : ¬ IsInert c) (hd : ¬ IsInert d) :
    offset t b = offset t (c :: d :: b) + 2 := by
  rw [offset_ascii ((List.suffix_cons _ _).trans h) hd, offset_ascii h hc]

/-- Whether an ASCII character comes next. -/
theorem getElem?_beq (h : b <:+ t) (hc : ¬ IsInert c) :
    ((units t)[offset t b]? == some c) = (b.head? == some c) := by
  rw [getElem?_offset h, Bool.eq_iff_iff, beq_iff_eq, beq_iff_eq, head?_units_iff hc]

theorem getElem?_succ_beq {x : Char} (h : c :: b <:+ t) (hc : ¬ IsInert c) (hx : ¬ IsInert x) :
    ((units t)[offset t (c :: b) + 1]? == some x) = (b.head? == some x) := by
  rw [← offset_ascii h hc, getElem?_beq ((List.suffix_cons _ _).trans h) hx]

theorem offset_le (b : Text) : offset t b ≤ Text.size t := Nat.sub_le _ _

/-- More of a text lies in front of less. -/
theorem offset_lt {z : Text} (h : b <:+ t) (hz : z <:+ b) (hlt : z.length < b.length) :
    offset t b < offset t z := by
  obtain ⟨a, rfl⟩ := h
  obtain ⟨m, rfl⟩ := hz
  have hpos : 0 < Text.size m := by
    cases m with
    | nil => exact absurd hlt (Nat.lt_irrefl _)
    | cons c m => exact Nat.lt_of_lt_of_le (Char.utf8Size_pos c) (Nat.le_add_right _ _)
  rw [offset_append, ← List.append_assoc, offset_append, Text.size_append]
  omega

theorem offset_lt_of_suffix {z : Text} (h : c :: b <:+ t) (hz : z <:+ b) :
    offset t (c :: b) < offset t z :=
  offset_lt h (hz.trans (List.suffix_cons _ _)) (Nat.lt_succ_of_le hz.length_le)

/-- The bytes of a character that is none of ASCII are inert. -/
theorem exists_getElem?_inert (h : c :: b <:+ t) (hc : IsInert c) {k : Nat} (hk : k < c.utf8Size) :
    ∃ d, (units t)[offset t (c :: b) + k]? = some d ∧ IsInert d := by
  obtain ⟨a, rfl⟩ := h
  have hlength : k < (units [c]).length := by rwa [length_units]
  refine ⟨(units [c])[k], ?_, isInert_of_mem_units hc (List.getElem_mem hlength)⟩
  rw [offset_append, units_append, List.getElem?_append_right (by rw [length_units]; omega),
    length_units, Nat.add_sub_cancel_left, units_cons, List.getElem?_append_left hlength,
    List.getElem?_eq_getElem hlength]

section

variable {α : Type} {f : Nat → α}

/-- What passes over inert bytes passes over a character that is made of these, also from inside
of it. -/
theorem inert_run (h : c :: b <:+ t)
    (hf : ∀ i d, (units t)[i]? = some d → IsInert d → f i = f (i + 1)) (hc : IsInert c) {k : Nat}
    (hk : k ≤ c.utf8Size) : f (offset t (c :: b) + k) = f (offset t b) := by
  rw [offset_cons h]
  obtain ⟨n, hn⟩ := Nat.exists_eq_add_of_le hk
  induction n generalizing k with
  | zero => rw [hn, Nat.add_zero]
  | succ n ih =>
    obtain ⟨d, hd, hinert⟩ := exists_getElem?_inert h hc (show k < c.utf8Size by omega)
    rw [hf _ d hd hinert, Nat.add_assoc, ih (by omega) (by omega)]

/-- What passes over some bytes, all inert ones among them, passes over a character that is one
of them or none of ASCII. -/
theorem next_char {P : Char → Prop} (h : c :: b <:+ t)
    (hf : ∀ i d, (units t)[i]? = some d → P d → f i = f (i + 1)) (hinert : ∀ d, IsInert d → P d)
    (hc : P c) : f (offset t (c :: b)) = f (offset t b) := by
  by_cases hi : IsInert c
  · exact inert_run h (fun i d hd hi => hf i d hd (hinert d hi)) hi (Nat.zero_le _)
  · rw [offset_ascii h hi]
    exact hf _ c (getElem?_ascii h hi) hc

/-- What passes over inert bytes comes from behind the first byte of a character to the end of
it. -/
theorem second_byte (h : c :: b <:+ t)
    (hf : ∀ i d, (units t)[i]? = some d → IsInert d → f i = f (i + 1)) :
    f (offset t (c :: b) + 1) = f (offset t b) := by
  by_cases hc : IsInert c
  · exact inert_run h hf hc (Char.utf8Size_pos c)
  · rw [offset_ascii h hc]

end

end

/-! ### Ranges -/

/-- A range between whole characters is its text. -/
theorem slice_append (a m z : Text) :
    slice (a ++ m ++ z) (Text.size a) (Text.size (a ++ m)) = .ok m := by
  have hle : Text.size a ≤ Text.size (a ++ m) ∧ Text.size (a ++ m) ≤ Text.size (a ++ m ++ z) := by
    simp only [Text.size_append]
    omega
  rw [slice, if_pos hle, Text.cut?_size]
  simp only [Text.cut?_size]

theorem rangeOf_append (a m z : Text) :
    rangeOf (units (a ++ m ++ z)) (Text.size a) (Text.size (a ++ m)) = .ok (units m) := by
  have hle : Text.size a ≤ Text.size (a ++ m) ∧
      Text.size (a ++ m) ≤ (units (a ++ m ++ z)).length := by
    simp only [Text.size_append, length_units]
    omega
  rw [rangeOf, if_pos hle, units_append, List.take_left' (by simp), units_append,
    List.drop_left' (by simp)]

end Localization.Offset
