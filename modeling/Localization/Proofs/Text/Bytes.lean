import Mathlib
import Localization.Proofs.Tree.Sort

/-! Texts in UTF-8.

`bytes` writes a text in bytes, `size` of them. No character's bytes begin those of another, and the
greater character has the greater bytes, so the order of texts is the order of their bytes
(`bytes_lt_bytes`). -/
namespace Localization.Text

/-- The bytes of the UTF-8 form. -/
def bytes (t : Text) : List UInt8 := t.flatMap String.utf8EncodeChar

theorem bytes_cons (c : Char) (t : Text) : bytes (c :: t) = String.utf8EncodeChar c ++ bytes t :=
  List.flatMap_cons

theorem bytes_append (a b : Text) : bytes (a ++ b) = bytes a ++ bytes b :=
  List.flatMap_append

theorem length_bytes (t : Text) : (bytes t).length = size t := by
  induction t with
  | nil => rfl
  | cons c t ih => rw [bytes_cons, List.length_append, String.length_utf8EncodeChar, ih, size]

theorem ofNat_lt_ofNat {a b : Nat} (ha : a < 256) (hb : b < 256) :
    UInt8.ofNat a < UInt8.ofNat b ↔ a < b := by
  rw [UInt8.lt_iff_toNat_lt, UInt8.toNat_ofNat', UInt8.toNat_ofNat', Nat.mod_eq_of_lt ha,
    Nat.mod_eq_of_lt hb]

theorem ofNat_inj {a b : Nat} (ha : a < 256) (hb : b < 256) :
    UInt8.ofNat a = UInt8.ofNat b ↔ a = b := by
  rw [← UInt8.toNat_inj, UInt8.toNat_ofNat', UInt8.toNat_ofNat', Nat.mod_eq_of_lt ha,
    Nat.mod_eq_of_lt hb]

/-- The bytes of two characters differ in their order, whatever follows them. -/
theorem utf8EncodeChar_append_lt {c d : Char} (h : c < d) (x y : List UInt8) :
    String.utf8EncodeChar c ++ x < String.utf8EncodeChar d ++ y := by
  have hlt : c.val.toNat < d.val.toNat := h
  have hbound : d.val.toNat < 0x110000 := by
    rcases d.valid with h | h <;> omega
  unfold String.utf8EncodeChar
  generalize c.val.toNat = m at hlt
  generalize d.val.toNat = n at hlt hbound
  -- The six bits of each byte are one digit to the base 64.
  have hsecond (k : Nat) : k / 4096 = k / 64 / 64 := by omega
  have hthird (k : Nat) : k / 262144 = k / 64 / 64 / 64 := by omega
  simp only [hsecond, hthird]
  -- A longer form has the greater first byte; forms of one length are compared byte by byte.
  split_ifs
  all_goals first
    | omega
    | simp (disch := omega) only [List.cons_append, List.nil_append, List.cons_lt_cons_iff,
        ofNat_lt_ofNat, ofNat_inj]
      omega

/-- **The order of texts is the order of their bytes.** -/
theorem bytes_lt_bytes {a b : Text} (h : le a b = true) (hne : a ≠ b) : bytes a < bytes b := by
  induction a generalizing b with
  | nil =>
    obtain ⟨d, b, rfl⟩ := List.exists_cons_of_ne_nil (Ne.symm hne)
    have hsize : (String.utf8EncodeChar d).length ≠ 0 := by
      rw [String.length_utf8EncodeChar]
      exact (Char.utf8Size_pos d).ne'
    obtain ⟨byte, rest, hd⟩ := List.exists_cons_of_ne_nil (fun h => hsize (congrArg List.length h))
    rw [bytes_cons, hd]
    exact List.nil_lt_cons byte _
  | cons c a ih =>
    cases b with
    | nil => cases h
    | cons d b =>
      rw [bytes_cons, bytes_cons]
      rcases le_cons.mp h with hlt | ⟨rfl, hle⟩
      · exact utf8EncodeChar_append_lt hlt _ _
      · exact List.append_left_lt (ih hle fun he => hne (he ▸ rfl))

end Localization.Text
