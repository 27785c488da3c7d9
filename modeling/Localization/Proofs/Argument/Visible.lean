import Mathlib
import Localization.Proofs.Argument.Spelled
import Localization.Proofs.Results

/-! How long a spelling is.

What a script spells may be shorter than its spelling, by comments, blanks and escapes, but never
longer, when the backslashes of both are left out of account: `visible`. So the text of a string
among some arguments has no more visible characters than the text of the arguments. -/
namespace Localization

open Script

namespace Text

/-- How many characters of a text are no backslashes. -/
def visible (t : Text) : Nat := t.countP (· != '\\')

theorem visible_append (a b : Text) : visible (a ++ b) = visible a + visible b := List.countP_append

theorem visible_le_of_sublist {a b : Text} (h : a.Sublist b) : visible a ≤ visible b := h.countP_le

theorem visible_cons (c : Char) (t : Text) : visible (c :: t) = visible [c] + visible t :=
  visible_append [c] t

theorem visible_le_length (t : Text) : visible t ≤ t.length := List.countP_le_length

/-- A part of a text is found in it. -/
theorem sublist_join_of_mem {separator part : Text} {parts : List Text} (h : part ∈ parts) :
    part.Sublist (join separator parts) := by
  induction parts with
  | nil => cases h
  | cons first rest ih =>
    by_cases hrest : rest = []
    · subst hrest
      rw [List.mem_singleton.mp h, join, List.intercalate_singleton]
    · rw [join_cons hrest]
      rcases List.mem_cons.mp h with rfl | h
      · exact (List.sublist_append_left _ _).trans (List.sublist_append_left _ _)
      · exact (ih h).trans (List.sublist_append_right _ _)

theorem trim_sublist (t : Text) : (trim t).Sublist t := by
  have hfront := List.dropWhile_sublist (l := t) isBlank
  have hback := List.dropWhile_sublist (l := (t.dropWhile isBlank).reverse) isBlank
  rw [trim]
  exact (List.reverse_sublist.mp (by rwa [List.reverse_reverse])).trans hfront

end Text

namespace Script

open Text (visible visible_append visible_cons visible_le_of_sublist visible_le_length)

/-! ### Literals -/

theorem visible_encode (t : Text) : visible (encode t) = visible t := by
  fun_induction encode t with
  | case1 => rfl
  | case2 rest ih => simp [visible] at ih ⊢; omega
  | case3 c rest _ h ih => simp [visible, List.countP_cons] at ih ⊢; omega
  | case4 c rest _ h ih => simp [visible, List.countP_cons] at ih ⊢; omega

/-- An escape denotes one character at most. -/
theorem length_escapedChar_le (c : Char) : (escapedChar c).length ≤ 1 := by
  unfold escapedChar
  repeat' split
  all_goals simp

theorem length_codePoint_le (digits : Text) : (codePoint digits).length ≤ 1 := by
  simp only [codePoint]
  generalize Text.hex? _ = code
  cases code with
  | none => simp
  | some n => by_cases h : n.isValidChar <;> simp [h]

theorem visible_escapedChar (c : Char) : visible (escapedChar c) ≤ visible [c] := by
  by_cases hc : c = '\\'
  · subst hc
    decide
  · have hvisible : visible [c] = 1 := by simp [visible, hc]
    rw [hvisible]
    exact (visible_le_length _).trans (length_escapedChar_le c)

theorem visible_codePoint (digits : Text) : visible (codePoint digits) ≤ 1 :=
  (visible_le_length _).trans (length_codePoint_le digits)

/-- An escape has a character behind its backslash. -/
theorem visible_decode (t : Text) : visible (decode t) ≤ visible t := by
  have hbackslash : visible ['\\'] = 0 := rfl
  fun_induction decode t with
  | case1 => exact Nat.le_refl _
  | case2 => exact Nat.le_refl _
  | case3 rest ih =>
    have hcode := visible_codePoint (rest.take 2)
    have hrest := visible_le_of_sublist (List.drop_sublist 2 rest)
    have hx : visible ['x'] = 1 := rfl
    rw [visible_append, visible_cons, visible_cons 'x']
    omega
  | case4 rest ih =>
    have hcode := visible_codePoint (rest.takeWhile (· != '}'))
    have hrest :=
      visible_le_of_sublist ((List.drop_sublist 1 _).trans
        (List.dropWhile_sublist (l := rest) (· != '}')))
    have hu : visible ['u'] = 1 := rfl
    rw [visible_append, visible_cons, visible_cons 'u', visible_cons '{']
    omega
  | case5 rest _ ih =>
    have hcode := visible_codePoint (rest.take 4)
    have hrest := visible_le_of_sublist (List.drop_sublist 4 rest)
    have hu : visible ['u'] = 1 := rfl
    rw [visible_append, visible_cons, visible_cons 'u']
    omega
  | case6 c rest _ _ _ ih =>
    have hc := visible_escapedChar c
    rw [visible_append, visible_cons, visible_cons c rest]
    omega
  | case7 c rest _ _ _ _ _ ih =>
    rw [visible_cons, visible_cons c rest]
    omega

/-! ### Arguments -/

/-- A comment has more than the one space that it becomes. -/
theorem visible_stripFrom (kept dropped : Nat) (t : Text) :
    visible (stripFrom kept dropped t) ≤ visible t := by
  fun_induction stripFrom kept dropped t with
  | case1 => exact Nat.le_refl _
  | case2 kept dropped c rest ih =>
    rw [visible_cons, visible_cons c rest]
    omega
  | case3 dropped c rest ih =>
    rw [visible_cons c rest]
    omega
  | case4 c rest r _ read after _ ih =>
    rw [visible_cons, visible_cons c rest]
    omega
  | case5 => exact Nat.le_refl _
  | case6 c rest _ after hcomment ih =>
    have hslash : visible [c] = 1 := by
      obtain rfl : c = '/' := by
        rw [commentPrefix?.eq_def] at hcomment
        split at hcomment <;> simp_all
      rfl
    have hspace : visible [' '] = 1 := rfl
    rw [visible_cons, visible_cons c rest]
    omega
  | case7 c rest _ _ ih =>
    rw [visible_cons, visible_cons c rest]
    omega

end Script

theorem readPlain_ne_string (text raw : Text) : readPlain text ≠ .string raw := by
  rw [readPlain.eq_def]
  repeat' split
  all_goals simp

theorem visible_of_readArgument {text raw : Text} (h : readArgument text = some (.string raw)) :
    raw.visible ≤ text.visible := by
  rw [readArgument.eq_def] at h
  split at h
  · cases h
  · next c rest =>
    have hplain : some (readPlain (c :: rest)) ≠ some (.string raw) := fun he =>
      readPlain_ne_string _ _ (Option.some.inj he)
    split at h
    · split at h
      · cases h
      · cases h
        exact (visible_decode _).trans
          (Text.visible_le_of_sublist ((List.dropLast_sublist rest).trans
            (List.sublist_cons_self c rest)))
      · exact absurd h hplain
    · split at h
      · split at h
        · cases h
        · obtain ⟨_, -, he⟩ := Option.map_eq_some_iff.mp h
          cases he
        · exact absurd h hplain
      · split at h
        · split at h
          · cases h
          · split at h <;> cases h
          · exact absurd h hplain
        · exact absurd h hplain

/-- **A string among some arguments is no longer than their text**, backslashes left out of
account. -/
theorem visible_string_le {src raw : Text} {arguments : List Argument}
    (h : readArguments src = some arguments) (hraw : .string raw ∈ arguments) :
    raw.visible ≤ src.visible := by
  rw [readArguments_eq_mapM] at h
  obtain ⟨texts, htexts, h⟩ := Option.bind_eq_some_iff.mp h
  obtain ⟨text, htext, hread⟩ := exists_of_mem_mapM h _ hraw
  obtain ⟨parts, hparts, rfl⟩ := Option.map_eq_some_iff.mp htexts
  obtain ⟨part, hpart, rfl⟩ := List.mem_map.mp (List.mem_filter.mp htext).1
  calc raw.visible ≤ (Text.trim part).visible := visible_of_readArgument hread
    _ ≤ part.visible := Text.visible_le_of_sublist (Text.trim_sublist part)
    _ ≤ (withoutComments src).visible :=
      Text.visible_le_of_sublist (sublist_of_mem_splitFrom hparts part hpart)
    _ ≤ src.visible := visible_stripFrom 0 0 src

end Localization
