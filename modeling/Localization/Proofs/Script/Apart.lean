import Mathlib
import Localization.Proofs.Script.Passage
import Localization.Proofs.Script.Stretch

/-! Occurrences are whole names.

In code a name is one piece, so the walk never stands inside of one: a piece of code ends at the
end of a name or behind a character that is in none, and the walk comes back to code only behind
`{`, `}`, `>` or a backtick (`isApart_piece`). What is found is therefore no tail of a longer
name (`isApart_of_mem_occurrences`). -/
namespace Localization.Script

/-! ### Texts between which no name goes on -/

/-- Whether no name goes on from the end of a text into another text. -/
def IsApart (left right : Text) : Prop :=
  ∀ c ∈ left.getLast?, ∀ d ∈ right.head?, isNameChar c = true → isNameChar d = false

section

variable {left right : Text} {c : Char}

theorem isApart_nil_left (right : Text) : IsApart [] right := nofun

theorem isApart_nil_right (left : Text) : IsApart left [] := fun _ _ _ hd => nomatch hd

theorem isApart_concat (hc : isNameChar c = false) (left right : Text) :
    IsApart (left ++ [c]) right := by
  intro d hd e _ hname
  obtain rfl : c = d := by simpa using hd
  rw [hc] at hname
  cases hname

theorem isApart_singleton (hc : isNameChar c = false) (right : Text) : IsApart [c] right :=
  isApart_concat hc [] right

theorem isApart_of_head? (h : ∀ d ∈ right.head?, isNameChar d = false) (left : Text) :
    IsApart left right :=
  fun _ _ d hd _ => h d hd

/-- What stands in front of a text does not matter. -/
theorem IsApart.append (h : IsApart left right) (hne : left ≠ []) (before : Text) :
    IsApart (before ++ left) right := by
  rwa [IsApart, List.getLast?_append_of_ne_nil _ hne]

theorem IsApart.cons (h : IsApart left right) (hc : isNameChar c = false) :
    IsApart (c :: left) right := by
  cases left with
  | nil => exact isApart_singleton hc right
  | cons d left => exact h.append (List.cons_ne_nil d left) [c]

/-- What holds of a run of characters does not hold of the one behind it. -/
theorem of_mem_head?_dropWhile {p : Char → Bool} {t : Text} (h : c ∈ (t.dropWhile p).head?) :
    p c = false := by
  have hnot := List.head?_dropWhile_not p t
  rw [Option.mem_def.mp h] at hnot
  exact hnot

theorem eq_of_mem_head?_dropWhile {x : Char} {t : Text} (h : c ∈ (t.dropWhile (· != x)).head?) :
    c = x := by
  simpa using of_mem_head?_dropWhile h

end

/-! ### Where pieces end -/

/-- A piece with the text behind its first characters, cut where it ends. -/
theorem isApart_cut {t right : Text} {n : Nat} (left : Text) (ht : t = left ++ right)
    (hn : n = left.length) (h : IsApart left right) :
    IsApart (t.take n) (t.drop n) := by
  rwa [ht, hn, List.take_left, List.drop_left]

theorem isApart_one {c : Char} (hc : isNameChar c = false) (rest : Text) :
    IsApart ((c :: rest).take 1) ((c :: rest).drop 1) :=
  isApart_singleton hc rest

/-- Behind more of a template its text ends where it ends alone. -/
theorem isApart_templateText_append {rest : Text}
    (h : IsApart (rest.take (templateText rest).1) (rest.drop (templateText rest).1))
    (front : Text) :
    IsApart (front ++ rest.take (templateText rest).1) (rest.drop (templateText rest).1) := by
  cases rest with
  | nil => exact isApart_nil_right _
  | cons d rest =>
    have hpos := templateText_pos (List.cons_ne_nil d rest)
    refine h.append (fun hnil => ?_) front
    rcases List.take_eq_nil_iff.mp hnil with h | h
    · omega
    · cases h

/-- The text of a template ends behind a backtick or `${`, or with all of the text. -/
theorem isApart_templateText (t : Text) :
    IsApart (t.take (templateText t).1) (t.drop (templateText t).1) := by
  fun_induction templateText t with
  | case1 => exact isApart_nil_left []
  | case2 => exact isApart_nil_right ['\\']
  | case3 c rest n more hrest ih =>
    have h := isApart_templateText_append ih ['\\', c]
    rwa [hrest] at h
  | case4 rest => exact isApart_one (by decide) rest
  | case5 rest => exact isApart_concat (by decide) ['$'] rest
  | case6 c rest _ _ _ _ n more hrest ih =>
    have h := isApart_templateText_append ih [c]
    rwa [hrest] at h

theorem isApart_templatePiece {c : Char} (hc : isNameChar c = false) (frames : List Frame)
    (rest : Text) :
    IsApart ((c :: rest).take (templatePiece frames rest).length)
      ((c :: rest).drop (templatePiece frames rest).length) := by
  have hlength : (templatePiece frames rest).length = (templateText rest).1 + 1 := Nat.add_comm ..
  rw [hlength, List.take_succ_cons, List.drop_succ_cons]
  exact (isApart_templateText rest).cons hc

/-- A string ends behind its quote. -/
theorem isApart_stringLength {quote : Char} (hquote : (quote == '\'' || quote == '"') = true)
    (rest : Text) :
    IsApart ((quote :: rest).take (stringLength quote rest))
      ((quote :: rest).drop (stringLength quote rest)) := by
  have hname : isNameChar quote = false := by
    simp only [Bool.or_eq_true, beq_iff_eq] at hquote
    rcases hquote with rfl | rfl <;> rfl
  rw [stringLength]
  split
  · next read z hread =>
    have hclosed : State.IsClosedBy ⟨[] ++ [.quoted quote], .none⟩ read :=
      isClosedBy_of_closing hread
    obtain ⟨body, rfl⟩ :=
      List.getLast?_eq_some_iff.mp (hclosed.getLast?_literal (by rw [literal?, if_pos hquote]))
    refine isApart_cut _ ?_ (Nat.add_comm 1 _) (isApart_concat hname (quote :: body) z)
    rw [closing_append hread]
    rfl
  · exact isApart_one hname rest

/-- A comment ends in front of a line end or behind its `/`, or with all of the text. -/
theorem isApart_comment {rest after : Text} (h : commentPrefix? ('/' :: rest) = some after) :
    IsApart (('/' :: rest).take (1 + rest.length - after.length))
      (('/' :: rest).drop (1 + rest.length - after.length)) := by
  have hcut (left : Text) (ht : '/' :: rest = left ++ after) (h : IsApart left after) :
      IsApart (('/' :: rest).take (1 + rest.length - after.length))
        (('/' :: rest).drop (1 + rest.length - after.length)) := by
    refine isApart_cut left ht ?_ h
    have := congrArg List.length ht
    rw [List.length_cons, List.length_append] at this
    omega
  unfold commentPrefix? at h
  split at h
  · next body heq =>
    cases heq
    cases h
    refine hcut ('/' :: '/' :: body.takeWhile (· != '\n')) (by simp)
      (isApart_of_head? (fun d hd => ?_) _)
    obtain rfl := eq_of_mem_head?_dropWhile hd
    rfl
  · next body heq =>
    cases heq
    cases h
    rcases afterBlockComment_cases body with ⟨front, hfront, -⟩ | ⟨hnil, -⟩
    · refine hcut (('/' :: '*' :: front ++ ['*']) ++ ['/']) ?_ (isApart_concat (by decide) _ _)
      conv_lhs => rw [hfront]
      simp
    · exact hcut ('/' :: '*' :: body) (by rw [hnil, List.append_nil])
        (by rw [hnil]; exact isApart_nil_right _)
  · cases h

/-- A tag begins behind its `<`, and an end tag ends behind its `>` or with all of the text. -/
theorem isApart_tagPiece (frames : List Frame) (rest : Text) :
    IsApart (('<' :: rest).take (tagPiece frames rest).length)
      (('<' :: rest).drop (tagPiece frames rest).length) := by
  unfold tagPiece
  split
  · next more =>
    have htext := List.takeWhile_append_dropWhile (p := (· != '>')) (l := '/' :: more)
    generalize ('/' :: more).takeWhile (· != '>') = tag at htext ⊢
    cases hend : ('/' :: more).dropWhile (· != '>') with
    | nil =>
      rw [hend, List.append_nil] at htext
      refine isApart_cut _ (List.append_nil _).symm ?_ (isApart_nil_right _)
      simp [htext]
      omega
    | cons c after =>
      obtain rfl : c = '>' := eq_of_mem_head?_dropWhile (by rw [hend]; rfl)
      rw [hend] at htext
      have hcut : '<' :: '/' :: more = ('<' :: tag) ++ ['>'] ++ after := by simp [← htext]
      refine isApart_cut _ hcut ?_ (isApart_concat (by decide) _ _)
      have hlength := congrArg List.length htext
      simp at hlength ⊢
      omega
  · next more => exact isApart_concat (by decide) ['<'] more
  · exact isApart_one (by decide) rest

theorem isApart_codePiece (frames : List Frame) (before : Text) (c : Char) (rest : Text) :
    IsApart ((c :: rest).take (codePiece frames before c rest).length)
      ((c :: rest).drop (codePiece frames before c rest).length) := by
  have hone (hc : isNameChar c = false) : IsApart ((c :: rest).take 1) ((c :: rest).drop 1) :=
    isApart_one hc rest
  unfold codePiece
  split
  · next hquote =>
    simp only
    split
    · exact isApart_stringLength hquote rest
    · refine hone ?_
      simp only [Bool.or_eq_true, beq_iff_eq] at hquote
      rcases hquote with rfl | rfl <;> rfl
  split
  · next h => exact isApart_templatePiece (by rw [beq_iff_eq.mp h]; rfl) frames rest
  split
  · next h =>
    obtain rfl := beq_iff_eq.mp h
    split
    · next after hcomment => exact isApart_comment hcomment
    · exact hone rfl
  split
  · next h =>
    obtain rfl := beq_iff_eq.mp (Bool.and_eq_true_iff.mp h).1
    exact isApart_tagPiece frames rest
  split
  · next h => exact hone (by rw [beq_iff_eq.mp h]; rfl)
  split
  · next h =>
    have hc : isNameChar c = false := by rw [beq_iff_eq.mp h]; rfl
    split
    · exact isApart_templatePiece hc _ rest
    · exact hone hc
    · exact hone hc
  split
  · refine isApart_cut _ (List.takeWhile_append_dropWhile (p := isNameChar)).symm rfl
      (isApart_of_head? (fun d hd => ?_) _)
    exact of_mem_head?_dropWhile hd
  · next h => exact hone (by simpa using h)

/-- **A piece behind which there is code ends between two names.** -/
theorem isApart_piece {frames : List Frame} {before rest : Text} {c : Char}
    (h : inCode (piece frames before c rest).frames = true) :
    IsApart ((c :: rest).take (piece frames before c rest).length)
      ((c :: rest).drop (piece frames before c rest).length) := by
  unfold piece at h ⊢
  split
  · split
    · next h => exact isApart_one (by rw [beq_iff_eq.mp h]; rfl) rest
    split
    · next h =>
      obtain rfl := beq_iff_eq.mp h
      exact isApart_tagPiece _ rest
    · simp_all [inCode]
  · split
    · next hquote => exact isApart_stringLength hquote rest
    split
    · next h => exact isApart_one (by rw [beq_iff_eq.mp h]; rfl) rest
    split
    · next h =>
      obtain ⟨hslash, hangle⟩ := Bool.and_eq_true_iff.mp h
      obtain rfl := beq_iff_eq.mp hslash
      obtain ⟨more, rfl⟩ := List.head?_eq_some_iff.mp (beq_iff_eq.mp hangle)
      exact isApart_concat (by decide) ['/'] more
    split
    · next h => exact isApart_one (by rw [beq_iff_eq.mp h]; rfl) rest
    · simp_all [inCode]
  · exact isApart_codePiece frames before c rest

/-! ### Occurrences -/

/-- Where a passage ends in code, no name goes on. -/
theorem Passage.isApart {z t before : Text} {frames last : List Frame}
    {starts : List (List Frame × Cursor)} (h : Passage z frames before t starts last)
    (hstart : inCode frames = true → IsApart before.reverse (t ++ z)) (hlast : inCode last = true) :
    IsApart (t.reverse ++ before).reverse z := by
  induction h with
  | nil => exact hstart hlast
  | @cons frames next last before a t c starts hpiece _ ih =>
    have hnext (hcode : inCode next = true) :
        IsApart (a.reverse ++ c :: before).reverse (t ++ z) := by
      have hend : IsApart _ _ :=
        isApart_piece (show inCode (piece frames before c (a ++ (t ++ z))).frames =
          true by rw [hpiece]; exact hcode)
      rw [hpiece, List.take_succ_cons, List.drop_succ_cons, List.take_left, List.drop_left] at hend
      have hbehind := hend.append (List.cons_ne_nil c a) before.reverse
      simpa using hbehind
    have hend := ih hnext hlast
    simpa using hend

/-- **What is found is a whole name**: no name goes on from what stands in front of it into it. -/
theorem isApart_of_mem_occurrences {name t : Text} {place : Cursor}
    (h : place ∈ occurrences name t) :
    IsApart place.before.reverse place.after := by
  obtain ⟨htext, -⟩ := isPlace_of_mem_occurrencesFrom h
  have htext : place.before.reverse ++ place.after = t := htext
  rw [occurrences, ← htext] at h
  obtain ⟨starts, last, hpassage, hown⟩ := exists_passage h (by simp)
  rw [isOccurrence, Bool.and_eq_true, Bool.and_eq_true, Bool.and_eq_true] at hown
  have hapart := hpassage.isApart (fun _ => isApart_nil_left _) hown.1.1.1
  simpa using hapart

end Localization.Script
