import Mathlib
import Localization.Proofs.Offset.Angles
import Localization.Proofs.Script.Occurrences

/-! Words before an offset.

What stands before an offset is read backwards, byte by byte. Told from the nearest on (`back`),
the bytes before an offset are those of the characters before it, so runs of ASCII characters
start where characters do (`runBack_eq`). A word is compared with as many bytes as it has
itself. These may cut a character, but then they are no ASCII characters and so another word
(`isPrefix_back_iff`). -/
namespace Localization.Offset

open Script (isNameChar skipBlanks precededBy callableAfter opensString keywordsBeforeString)

/-! ### Words of ASCII characters -/

/-- Whether a text has ASCII characters only. -/
def IsAscii (w : Text) : Prop := ∀ c ∈ w, ¬ IsInert c

theorem isAscii_iff {w : Text} : IsAscii w ↔ (w.all fun c => c.toNat < 128) = true := by
  simp [IsAscii, IsInert]

instance (w : Text) : Decidable (IsAscii w) := decidable_of_iff _ isAscii_iff.symm

theorem units_ascii {w : Text} (hw : IsAscii w) : units w = w := by
  induction w with
  | nil => rfl
  | cons c w ih =>
    rw [units_cons, units_singleton (hw c List.mem_cons_self), ih fun d hd =>
      hw d (List.mem_cons_of_mem _ hd)]
    rfl

theorem size_ascii {w : Text} (hw : IsAscii w) :
    Text.size w = w.length := by rw [← length_units, units_ascii hw]

/-- The bytes of what stands before a place, from the nearest on. -/
def back (before : Text) : Text := (units before.reverse).reverse

theorem back_cons (c : Char) (before : Text) :
    back (c :: before) = (units [c]).reverse ++ back before := by
  rw [back, List.reverse_cons, units_append, List.reverse_append]
  rfl

section

variable {w : Text} (hw : IsAscii w) (x : Text)

include hw

/-- A word of ASCII characters is found in whole characters, whatever bytes the others have. -/
theorem isPrefix_flatMap_iff {f : Text → Text} {g : Char → Text} (hnil : f [] = [])
    (hcons : ∀ c x, f (c :: x) = g c ++ f x) (hascii : ∀ c, ¬ IsInert c → g c = [c])
    (hinert : ∀ c, IsInert c → ∃ d ds, g c = d :: ds ∧ IsInert d) : w <+: f x ↔ w <+: x := by
  induction w generalizing x with
  | nil => exact iff_of_true List.nil_prefix List.nil_prefix
  | cons c w ih =>
    have hc : ¬ IsInert c := hw c List.mem_cons_self
    cases x with
    | nil => rw [hnil]
    | cons d x =>
      rw [hcons]
      by_cases hd : IsInert d
      · obtain ⟨e, es, he, hi⟩ := hinert d hd
        rw [he, List.cons_append, List.cons_prefix_cons, List.cons_prefix_cons]
        exact iff_of_false (fun h => hi.ne hc h.1.symm) fun h => hd.ne hc h.1.symm
      · rw [hascii d hd, List.singleton_append, List.cons_prefix_cons, List.cons_prefix_cons,
          ih (fun e he => hw e (List.mem_cons_of_mem _ he))]

theorem isPrefix_units_iff : w <+: units x ↔ w <+: x := by
  refine isPrefix_flatMap_iff hw x units_nil units_cons (fun _ => units_singleton) fun c hc => ?_
  obtain ⟨d, ds, hd⟩ := List.exists_cons_of_ne_nil (units_ne_nil c)
  exact ⟨d, ds, hd, isInert_of_mem_units hc (hd ▸ List.mem_cons_self)⟩

theorem isPrefix_back_iff : w <+: back x ↔ w <+: x := by
  refine isPrefix_flatMap_iff hw x rfl back_cons (fun c hc => by rw [units_singleton hc]; rfl)
    fun c hc => ?_
  obtain ⟨d, ds, hd⟩ := List.exists_cons_of_ne_nil (List.reverse_ne_nil_iff.mpr (units_ne_nil c))
  exact ⟨d, ds, hd, isInert_of_mem_units hc (List.mem_reverse.mp (hd ▸ List.mem_cons_self))⟩

end

/-- The byte before a place is the character before it, or neither is one of ASCII. -/
theorem head?_back_cases (before : Text) : (back before).head? = before.head? ∨
    ∃ d c, (back before).head? = some d ∧ before.head? = some c ∧ IsInert d ∧ IsInert c := by
  cases before with
  | nil => exact .inl rfl
  | cons c before =>
    rw [back_cons]
    by_cases hc : IsInert c
    · obtain ⟨d, ds, hd⟩ :=
        List.exists_cons_of_ne_nil (List.reverse_ne_nil_iff.mpr (units_ne_nil c))
      have hinert := isInert_of_mem_units hc (List.mem_reverse.mp (hd ▸ List.mem_cons_self))
      exact .inr ⟨d, c, by rw [hd]; rfl, rfl, hinert, hc⟩
    · rw [units_singleton hc]
      exact .inl rfl

theorem any_head?_back {p : Char → Bool} (hp : ∀ c, IsInert c → p c = false) (before : Text) :
    (back before).head?.any p = before.head?.any p := by
  obtain h | ⟨d, c, hd, hc, hid, hic⟩ := head?_back_cases before
  · rw [h]
  · rw [hd, hc, Option.any_some, Option.any_some, hp d hid, hp c hic]

/-! ### Bytes before an offset -/

/-- The byte before an offset, if there is one. -/
def byteBefore? (u : Text) (i : Nat) : Checked (Option Char) :=
  if i = 0 then .ok none else do return some (← byteAt u (← minus i 1))

/-- The start of the run of some bytes that ends at an offset. -/
def runBack (p : Char → Bool) (u : Text) : Nat → Checked Nat
  | 0 => .ok 0
  | i + 1 => do if p (← byteAt u i) then runBack p u i else return i + 1

/-- The text of what stands before a place and of what follows it. -/
def around (before b : Text) : Text := before.reverse ++ b

theorem around_cons (c : Char) (before b : Text) :
    around (c :: before) b = around before (c :: b) := by simp [around]

theorem offset_around (before b : Text) : offset (around before b) b = Text.size before := by
  rw [around, offset_append, Script.size_reverse]

theorem byteAt_of {u : Text} {i : Nat} {d : Char} (h : u[i]? = some d) :
    byteAt u i = .ok d := by rw [byteAt, h]

theorem length_back (before : Text) : (back before).length = Text.size before := by
  rw [back, List.length_reverse, length_units, Script.size_reverse]

theorem units_around (before b : Text) :
    units (around before b) = (back before).reverse ++ units b := by
  rw [around, units_append, back, List.reverse_reverse]

/-- The bytes before an offset, counted backwards. -/
theorem getElem?_around {before : Text} {k : Nat} (hk : k < Text.size before) (b : Text) :
    (units (around before b))[Text.size before - 1 - k]? = (back before)[k]? := by
  rw [units_around, List.getElem?_append_left (by rw [List.length_reverse, length_back]; omega),
    List.getElem?_reverse (by rw [length_back]; omega), length_back]
  congr 1
  omega

section

variable {before b : Text} {p : Char → Bool}

theorem byteBefore?_eq (before b : Text) :
    byteBefore? (units (around before b)) (Text.size before) = .ok (back before).head? := by
  rw [byteBefore?]
  split
  · next h =>
    rw [← length_back] at h
    rw [List.length_eq_zero_iff.mp h]
    rfl
  · next h =>
    have hbyte := getElem?_around (Nat.pos_of_ne_zero h) b
    rw [← length_back] at h
    obtain ⟨d, ds, hd⟩ := List.exists_cons_of_length_pos (Nat.pos_of_ne_zero h)
    rw [hd, Nat.sub_zero] at hbyte
    rw [minus, if_pos (by rw [length_back] at h; omega), hd]
    show Except.bind (byteAt _ _) _ = _
    rw [byteAt_of hbyte]
    rfl

/-- Runs of ASCII characters start where a character does. -/
theorem runBack_eq (hp : ∀ c, IsInert c → p c = false) (before b : Text) :
    runBack p (units (around before b)) (Text.size before) =
      .ok (Text.size (before.dropWhile p)) := by
  induction before generalizing b with
  | nil => rfl
  | cons c before ih =>
    have hpos : 0 < Text.size (c :: before) := Nat.add_pos_left c.utf8Size_pos _
    obtain ⟨k, hk⟩ : ∃ k, Text.size (c :: before) = k + 1 := Nat.exists_eq_add_one.mpr hpos
    have hbyte := getElem?_around hpos b
    rw [Nat.sub_zero, hk, Nat.add_sub_cancel] at hbyte
    rw [hk, runBack]
    cases hpc : p c with
    | true =>
      have hc : ¬ IsInert c := fun hi => by
        rw [hp c hi] at hpc
        cases hpc
      have hsize : k = Text.size before := by
        rw [Text.size, utf8Size_ascii hc] at hk
        omega
      have hstep : runBack p (units (around (c :: before) b)) k =
          .ok (Text.size (before.dropWhile p)) := by
        rw [around_cons, hsize, ih]
      rw [back_cons, units_singleton hc] at hbyte
      rw [byteAt_of (hbyte.trans rfl), List.dropWhile_cons_of_pos hpc, ← hstep]
      simp [bind, Except.bind, hpc]
    | false =>
      have hany := any_head?_back hp (c :: before)
      rw [List.head?_cons, Option.any_some, hpc] at hany
      obtain ⟨d, hd⟩ : ∃ d, (back (c :: before)).head? = some d := by
        rw [back_cons, List.head?_append_of_ne_nil _ (List.reverse_ne_nil_iff.mpr (units_ne_nil c))]
        exact ⟨_, List.head?_eq_some_head (List.reverse_ne_nil_iff.mpr (units_ne_nil c))⟩
      rw [hd, Option.any_some] at hany
      rw [List.head?_eq_getElem?] at hd
      rw [byteAt_of (hbyte.trans hd), List.dropWhile_cons_of_neg (by simp [hpc]), hk]
      simp only [bind, Except.bind, hany]
      rfl

end

/-! ### Words -/

/-- Whether a quote opens a string: it ends no word but a keyword. -/
def quoteOpensString (u : Text) (i : Nat) : Checked Bool := do
  if (← byteBefore? u i).any isNameChar then
    let start ← runBack isNameChar u i
    let word ← rangeOf u start i
    return keywordsBeforeString.any fun k => word == k.toList
  else return true

/-- Whether what stands before an offset, blanks aside, is a word and not the tail of a longer
name. -/
def precededByWord (u : Text) (word : Text) (i : Nat) : Checked Bool := do
  let stop ← runBack Text.isAsciiBlank u i
  if stop = i ∨ stop < word.length then return false
  else
    let start ← minus stop word.length
    if (← rangeOf u start stop) == word then return !(← byteBefore? u start).any isNameChar
    else return false

/-- Whether what stands at an offset is a member of what stands before it, unless that is a
spread. -/
def isMember (u : Text) (i : Nat) : Checked Bool := do
  if (← byteBefore? u i) == some '.' then
    if i < 3 then return true else return (← rangeOf u (← minus i 3) i) != ['.', '.', '.']
  else return false

/-- Whether a name at an offset can be called. -/
def isCallPosition (u : Text) (i : Nat) : Checked Bool := do
  if ← isMember u i then return false else return !(← precededByWord u "function".toList i)

section

variable {word : Text} (before b : Text)

theorem around_append (m x b : Text) :
    around (m ++ x) b = around x (m.reverse ++ b) := by simp [around]

/-- A word is compared with as many bytes, even if these cut a character. -/
theorem exists_rangeOf_word (hword : IsAscii word) {x : Text} (hx : word.length ≤ Text.size x)
    (b : Text) :
    ∃ w, rangeOf (units (around x b)) (Text.size x - word.length) (Text.size x) = .ok w ∧
      (w == word) = word.reverse.isPrefixOf x := by
  have hlength : Text.size x ≤ (units (around x b)).length := by
    rw [length_units, around, Text.size_append, Script.size_reverse]
    exact Nat.le_add_right _ _
  have htake : (units (around x b)).take (Text.size x) = (back x).reverse := by
    rw [units_around, List.take_left' (by rw [List.length_reverse, length_back])]
  have hreverse : IsAscii word.reverse := fun c hc => hword c (List.mem_reverse.mp hc)
  refine ⟨((back x).take word.length).reverse, ?_, ?_⟩
  · rw [rangeOf, if_pos ⟨Nat.sub_le _ _, hlength⟩, htake, List.drop_reverse, length_back,
      Nat.sub_sub_self hx]
  · rw [Bool.eq_iff_iff, beq_iff_eq, List.isPrefixOf_iff_prefix, ← isPrefix_back_iff hreverse,
      List.prefix_iff_eq_take, List.length_reverse, List.reverse_eq_iff, eq_comm]

theorem quoteOpensString_eq :
    quoteOpensString (units (around before b)) (Text.size before) = .ok (opensString before) := by
  have hinert (c : Char) (hc : IsInert c) : isNameChar c = false := isNameChar_of_isInert hc
  rw [quoteOpensString, byteBefore?_eq, opensString]
  rw [ok_bind, any_head?_back hinert, runBack_eq hinert]
  simp only [ok_bind]
  cases before with
  | nil => rfl
  | cons c before =>
    cases hc : isNameChar c with
    | false =>
      rw [List.takeWhile_cons_of_neg (by simp [hc])]
      simp only [List.head?_cons, Option.any_some, hc]
      rfl
    | true =>
      generalize hbefore : c :: before = back
      have hascii : IsAscii (back.takeWhile isNameChar).reverse := fun d hd hi => by
        have hname := List.mem_takeWhile_imp (List.mem_reverse.mp hd)
        rw [hinert d hi] at hname
        cases hname
      have hword :
          rangeOf (units (around back b)) (Text.size (back.dropWhile isNameChar)) (Text.size back) =
          .ok (back.takeWhile isNameChar).reverse := by
        have hrange :=
          rangeOf_append (back.dropWhile isNameChar).reverse (back.takeWhile isNameChar).reverse b
        rwa [← List.reverse_append, List.takeWhile_append_dropWhile, Script.size_reverse,
          Script.size_reverse, units_ascii hascii] at hrange
      have hne : (back.takeWhile isNameChar).reverse.isEmpty = false := by
        rw [← hbefore, List.takeWhile_cons_of_pos hc]
        simp
      have hhead : back.head?.any isNameChar = true := by rw [← hbefore]; exact hc
      simp only [hhead, if_true, hword, hne, Bool.false_or]
      rfl

theorem isPrefixOf_eq_false_of_size_lt {x : Text} (h : Text.size x < Text.size word) :
    word.isPrefixOf x = false := by
  rw [Bool.eq_false_iff, ne_eq, List.isPrefixOf_iff_prefix]
  rintro ⟨y, rfl⟩
  rw [Text.size_append] at h
  omega

theorem runBack_blanks :
    runBack Text.isAsciiBlank (units (around before b)) (Text.size before) =
      .ok (Text.size (skipBlanks before)) :=
  runBack_eq (fun _ hc => isAsciiBlank_of_isInert hc) before b

theorem precededByWord_eq (hword : IsAscii word) :
    precededByWord (units (around before b)) word (Text.size before) =
      .ok (precededBy word before) := by
  have hinert (c : Char) (hc : IsInert c) : isNameChar c = false := isNameChar_of_isInert hc
  rw [precededByWord, runBack_blanks]
  simp only [bind, Except.bind]
  cases before with
  | nil => rfl
  | cons c before =>
    rw [Script.precededBy_cons]
    cases hc : Text.isAsciiBlank c with
    | false =>
      rw [if_pos (.inl (by rw [skipBlanks, List.dropWhile_cons_of_neg (by simp [hc])]))]
      rfl
    | true =>
      obtain ⟨m, hm⟩ : skipBlanks (c :: before) <:+ c :: before := List.dropWhile_suffix _
      generalize hx : skipBlanks (c :: before) = x at hm
      have hne : Text.size x ≠ Text.size (c :: before) := by
        have hlength : x.length ≤ before.length := by
          rw [← hx, skipBlanks, List.dropWhile_cons_of_pos hc]
          exact (List.dropWhile_suffix _).length_le
        cases m with
        | nil =>
          have := congrArg List.length hm
          simp at this
          omega
        | cons d m =>
          rw [← hm, Text.size_append, Text.size]
          have := d.utf8Size_pos
          omega
      rw [← hm, around_append, hm, Bool.true_and, Script.isWordAt]
      by_cases hlength : Text.size x < word.length
      · have hsize : Text.size x < Text.size word.reverse := by
          rwa [Script.size_reverse, size_ascii hword]
        rw [if_pos (.inr hlength), isPrefixOf_eq_false_of_size_lt hsize]
        rfl
      · obtain ⟨w, hrange, hw⟩ :=
          exists_rangeOf_word hword (Nat.le_of_not_lt hlength) (m.reverse ++ b)
        rw [if_neg (by rw [not_or]; exact ⟨hne, hlength⟩), minus, if_pos (Nat.le_of_not_lt hlength)]
        simp only [hrange, hw]
        cases hprefix : word.reverse.isPrefixOf x with
        | false => rfl
        | true =>
          obtain ⟨y, rfl⟩ := List.isPrefixOf_iff_prefix.mp hprefix
          have hstart : Text.size (word.reverse ++ y) - word.length = Text.size y := by
            rw [Text.size_append, Script.size_reverse, size_ascii hword, Nat.add_sub_cancel_left]
          rw [around_append, hstart, byteBefore?_eq]
          simp only [if_true, any_head?_back hinert, Bool.true_and]
          rw [List.drop_left' (by rw [List.length_reverse])]
          cases y <;> rfl

theorem isMember_eq : isMember (units (around before b)) (Text.size before) =
    .ok (before.head? == some '.' && !List.isPrefixOf ['.', '.', '.'] before) := by
  have hpoint : ((back before).head? == some '.') = (before.head? == some '.') := by
    obtain h | ⟨d, c, hd, hc, hid, hic⟩ := head?_back_cases before
    · rw [h]
    · rw [hd, hc, Option.some_beq_some, Option.some_beq_some, hid.beq_eq_false (by decide),
        hic.beq_eq_false (by decide)]
  have hthree : IsAscii ['.', '.', '.'] := by decide
  rw [isMember, byteBefore?_eq]
  simp only [bind, Except.bind, hpoint]
  cases before.head? == some '.' with
  | false => rfl
  | true =>
    by_cases hlength : Text.size before < 3
    · rw [@isPrefixOf_eq_false_of_size_lt ['.', '.', '.'] before hlength, if_pos rfl,
        if_pos hlength]
      rfl
    · obtain ⟨w, hrange, hw⟩ := exists_rangeOf_word hthree (Nat.le_of_not_lt hlength) b
      have hrange' : rangeOf (units (around before b)) (Text.size before - 3) (Text.size before) =
          .ok w := hrange
      rw [if_pos rfl, if_neg hlength, minus, if_pos (Nat.le_of_not_lt hlength)]
      simp only [hrange', bne, hw]
      rfl

theorem isCallPosition_eq :
    isCallPosition (units (around before b)) (Text.size before) = .ok (callableAfter before) := by
  rw [isCallPosition, isMember_eq, precededByWord_eq before b (by decide), callableAfter]
  simp only [bind, Except.bind, bne]
  cases before.head? == some '.' <;> cases ['.', '.', '.'].isPrefixOf before <;> rfl

end

end Localization.Offset
