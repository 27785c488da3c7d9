import Mathlib
import Localization.Proofs.Offset.Element
import Localization.Proofs.Script.Passage

/-! The walk through a text by offsets.

`namesFrom` walks the bytes of a text piece by piece and keeps the offsets at which a name
stands as code. A piece starts at a byte and is told by it, by those around it and by what the
walk is inside of. A byte that is none of ASCII is a piece of its own, so a character of several
bytes is passed over byte by byte (`pieceAt_inert`); any other piece is that of the character,
and ends in front of one (`pieceAt_eq`). So the walk goes on at every step, asks for no byte and
no range outside of the text, and finds the places that the walk through the characters finds
(`findNames_eq`). -/
namespace Localization.Script

/-- Characters that belong to a piece already read are passed over. -/
theorem occurrencesFrom_skip (name : Text) (n : Nat) (frames : List Frame) (before t : Text) :
    occurrencesFrom name n frames before t =
      occurrencesFrom name 0 frames ((t.take n).reverse ++ before) (t.drop n) := by
  rcases Nat.le_total n t.length with h | h
  · have hskip :=
      occurrencesFrom_append name (t.take n) (t.drop n) n (by rw [List.length_take,
        Nat.min_eq_left h]) frames before
    rwa [List.take_append_drop] at hskip
  · rw [List.drop_of_length_le h, occurrencesFrom]
    induction t generalizing n before with
    | nil => rw [occurrencesFrom]
    | cons c t ih =>
      obtain ⟨k, rfl⟩ : ∃ k, n = k + 1 :=
        Nat.exists_eq_add_one.mpr (Nat.lt_of_lt_of_le (Nat.succ_pos _) h)
      rw [occurrencesFrom, ih k _ (Nat.le_of_succ_le_succ h)]

end Localization.Script

namespace Localization.Offset

open Script (Piece literal? commentPrefix? isNameChar isNameStart behind stringLength templatePiece
  codePiece piece inCode isOccurrence occurrencesFrom occurrences opensString opensElement)

/-! ### Pieces -/

/-- The closing brace at an offset, with the text of the template that it leads back to. -/
def bracePieceAt (u : Text) (i : Nat) : List Script.Frame → Nat × List Script.Frame
  | .substitution :: outer => templatePieceAt u outer (i + 1)
  | _ :: outer => (i + 1, outer)
  | [] => (i + 1, [])

/-- The piece of code that starts at an offset with a byte: behind it, and the frames there. -/
def codePieceAt (u : Text) (frames : List Script.Frame) (b : Char) (i : Nat) :
    Checked (Nat × List Script.Frame) := do
  if b == '\'' || b == '"' then
    if ← quoteOpensString u i then return ((← skipString u i).getD (i + 1), frames) else
      return (i + 1, frames)
  else if b == '`' then return templatePieceAt u frames (i + 1)
  else if b == '/' then return ((skipComment u i).getD (i + 1), frames)
  else if b == '<' then if ← opensElementAt u i then tagPieceAt u frames i else
    return (i + 1, frames)
  else if b == '{' then return (i + 1, .block :: frames)
  else if b == '}' then return bracePieceAt u i frames
  else if isNameChar b then return (nameEnd u i, frames)
  else return (i + 1, frames)

/-- The piece that starts at an offset with a byte. -/
def pieceAt (u : Text) (frames : List Script.Frame) (b : Char) (i : Nat) :
    Checked (Nat × List Script.Frame) :=
  match frames with
  | .children :: _ =>
    if b == '{' then .ok (i + 1, .elementCode :: frames)
    else if b == '<' then tagPieceAt u frames i
    else .ok (i + 1, frames)
  | .tag :: outer =>
    if b == '\'' || b == '"' then do return ((← skipString u i).getD (i + 1), frames)
    else if b == '{' then .ok (i + 1, .elementCode :: frames)
    else if b == '/' && u[i + 1]? == some '>' then .ok (i + 2, outer)
    else if b == '>' then .ok (i + 1, .children :: outer)
    else .ok (i + 1, frames)
  | _ => codePieceAt u frames b i

/-- A byte of a character that is none of ASCII is a piece of its own. -/
theorem pieceAt_inert {d : Char} (hd : IsInert d) (u : Text) (frames : List Script.Frame)
    (i : Nat) :
    pieceAt u frames d i = .ok (i + 1, frames) := by
  have hcode (frames : List Script.Frame) : codePieceAt u frames d i = .ok (i + 1, frames) := by
    simp (disch := decide) [codePieceAt, hd.ne, isNameChar_of_isInert hd]
  unfold pieceAt
  split
  · simp (disch := decide) [hd.ne]
  · simp (disch := decide) [hd.ne]
  · exact hcode frames

theorem piece_inert {c : Char} (hc : IsInert c) (frames : List Script.Frame) (before rest : Text) :
    piece frames before c rest = ⟨1, frames⟩ := by
  have hcode (frames : List Script.Frame) : codePiece frames before c rest = ⟨1, frames⟩ := by
    simp (disch := decide) [codePiece, hc.ne, isNameChar_of_isInert hc]
  unfold piece
  split
  · simp (disch := decide) [hc.ne]
  · simp (disch := decide) [hc.ne]
  · exact hcode frames

section

variable {t rest : Text} {c : Char}

/-- The offset behind a piece and the frames there. -/
def behindPiece (t : Text) (c : Char) (rest : Text) (p : Piece) : Nat × List Script.Frame :=
  (offset t ((c :: rest).drop p.length), p.frames)

theorem behindPiece_one (h : c :: rest <:+ t) (hc : ¬ IsInert c) (frames : List Script.Frame) :
    behindPiece t c rest ⟨1, frames⟩ = (offset t (c :: rest) + 1, frames) := by
  rw [behindPiece, List.drop_one, List.tail_cons, offset_ascii h hc]

/-- A string or a quote that opens none. -/
theorem skipString_getD (hc : c = '\'' ∨ c = '"') (h : c :: rest <:+ t)
    (frames : List Script.Frame) :
    (do return ((← skipString (units t) (offset t (c :: rest))).getD (offset t (c :: rest) + 1),
      frames) : Checked (Nat × List Script.Frame)) =
      .ok (behindPiece t c rest ⟨stringLength c rest, frames⟩) := by
  have hascii : ¬ IsInert c := by rcases hc with rfl | rfl <;> decide
  have hliteral : literal? c = some (.quoted c) := by rcases hc with rfl | rfl <;> rfl
  rw [skipString_eq hliteral h, stringLength, behind, ← offset_ascii h hascii]
  cases hread : Script.closing (.inside (.quoted c)) rest with
  | none => rfl
  | some found =>
    obtain ⟨read, z⟩ := found
    have hdrop : (c :: (read ++ z)).drop (1 + read.length) = z := by
      rw [Nat.add_comm, List.drop_succ_cons, List.drop_left]
    rw [Script.closing_append hread, behindPiece, hdrop]
    rfl

theorem skipComment_getD (h : '/' :: rest <:+ t) :
    (skipComment (units t) (offset t ('/' :: rest))).getD (offset t ('/' :: rest) + 1) =
      offset t ((commentPrefix? ('/' :: rest)).getD rest) := by
  rw [skipComment_eq h, ← offset_ascii h (by decide)]
  cases commentPrefix? ('/' :: rest) <;> rfl

variable {before : Text}

/-- **A piece of code is told by its bytes.** -/
theorem codePieceAt_eq (hc : ¬ IsInert c) (frames : List Script.Frame) :
    codePieceAt (units (around before (c :: rest))) frames c (Text.size before) =
      .ok (behindPiece (around before (c :: rest)) c rest (codePiece frames before c rest)) := by
  have hquotes : quoteOpensString (units (around before (c :: rest))) (Text.size before) =
      .ok (opensString before) := quoteOpensString_eq ..
  have helements : c = '<' →
      opensElementAt (units (around before (c :: rest))) (Text.size before) =
        .ok (opensElement before rest) := by
    rintro rfl
    exact opensElementAt_eq before rest
  have hsuffix : c :: rest <:+ around before (c :: rest) := List.suffix_append _ _
  have hsize : Text.size before = offset (around before (c :: rest)) (c :: rest) :=
    (offset_around ..).symm
  generalize around before (c :: rest) = t at *
  have hone (frames : List Script.Frame) :
      behindPiece t c rest ⟨1, frames⟩ = (Text.size before + 1, frames) := by
    rw [hsize, behindPiece_one hsuffix hc]
  have htemplate (frames : List Script.Frame) :
      templatePieceAt (units t) frames (Text.size before + 1) =
        behindPiece t c rest (templatePiece frames rest) := by
    rw [hsize, ← offset_ascii hsuffix hc, templatePieceAt_eq hsuffix]
    rfl
  unfold codePieceAt codePiece
  by_cases hquote : (c == '\'' || c == '"') = true
  · rw [if_pos hquote, if_pos hquote, hquotes]
    cases opensString before with
    | false => exact congrArg Except.ok (hone frames).symm
    | true =>
      rw [hsize]
      exact skipString_getD (by simpa using hquote) hsuffix frames
  rw [if_neg hquote, if_neg hquote]
  by_cases hbacktick : (c == '`') = true
  · rw [if_pos hbacktick, if_pos hbacktick, htemplate]
    rfl
  rw [if_neg hbacktick, if_neg hbacktick]
  by_cases hslash : (c == '/') = true
  · obtain rfl := beq_iff_eq.mp hslash
    rw [if_pos hslash, if_pos hslash, hsize, skipComment_getD hsuffix]
    cases hcomment : commentPrefix? ('/' :: rest) with
    | none => rfl
    | some after =>
      obtain ⟨m, rfl⟩ := Script.isSuffix_of_commentPrefix? hcomment
      have hdrop : ('/' :: (m ++ after)).drop (1 + (m ++ after).length - after.length) = after := by
        rw [List.length_append, ← Nat.add_assoc, Nat.add_sub_cancel, Nat.add_comm,
          List.drop_succ_cons, List.drop_left]
      rw [behindPiece, hdrop]
      rfl
  rw [if_neg hslash, if_neg hslash]
  by_cases hangle : c = '<'
  · subst hangle
    rw [if_pos (beq_self_eq_true _), helements rfl, beq_self_eq_true, Bool.true_and]
    cases opensElement before rest with
    | false => exact congrArg Except.ok (hone frames).symm
    | true =>
      rw [hsize]
      exact tagPieceAt_eq hsuffix frames
  rw [beq_false_of_ne hangle, if_neg Bool.false_ne_true, Bool.false_and, if_neg Bool.false_ne_true]
  by_cases hopen : (c == '{') = true
  · rw [if_pos hopen, if_pos hopen, hone]
    rfl
  rw [if_neg hopen, if_neg hopen]
  by_cases hclose : (c == '}') = true
  · rw [if_pos hclose, if_pos hclose]
    cases frames with
    | nil => exact congrArg Except.ok (hone []).symm
    | cons frame outer =>
      cases frame with
      | substitution => exact congrArg Except.ok (htemplate outer)
      | _ => exact congrArg Except.ok (hone outer).symm
  rw [if_neg hclose, if_neg hclose]
  by_cases hname : isNameChar c = true
  · have hdrop : (c :: rest).drop ((c :: rest).takeWhile isNameChar).length =
        (c :: rest).dropWhile isNameChar := by
      conv_lhs => arg 2; rw [← List.takeWhile_append_dropWhile (p := isNameChar) (l := c :: rest)]
      rw [List.drop_left]
    rw [if_pos hname, if_pos hname, hsize, nameEnd_eq hsuffix, behindPiece, hdrop]
    rfl
  · rw [if_neg hname, if_neg hname, hone]
    rfl

/-- **A piece is told by its bytes.** -/
theorem pieceAt_eq (hc : ¬ IsInert c) (frames : List Script.Frame) :
    pieceAt (units (around before (c :: rest))) frames c (Text.size before) =
      .ok (behindPiece (around before (c :: rest)) c rest (piece frames before c rest)) := by
  have hcode (frames : List Script.Frame) :
      codePieceAt (units (around before (c :: rest))) frames c (Text.size before) =
      .ok (behindPiece (around before (c :: rest)) c rest (codePiece frames before c rest)) :=
        codePieceAt_eq hc frames
  have hsuffix : c :: rest <:+ around before (c :: rest) := List.suffix_append _ _
  have hsize : Text.size before = offset (around before (c :: rest)) (c :: rest) :=
    (offset_around ..).symm
  have hone (frames : List Script.Frame) :
      behindPiece (around before (c :: rest)) c rest ⟨1, frames⟩ =
        (Text.size before + 1, frames) := by
    rw [hsize, behindPiece_one hsuffix hc]
  generalize around before (c :: rest) = t at *
  cases frames with
  | nil => exact hcode []
  | cons frame outer =>
  cases frame with
  | children =>
    simp only [pieceAt, piece]
    by_cases hopen : (c == '{') = true
    · rw [if_pos hopen, if_pos hopen, hone]
    rw [if_neg hopen, if_neg hopen]
    by_cases hangle : (c == '<') = true
    · obtain rfl := beq_iff_eq.mp hangle
      rw [if_pos hangle, if_pos hangle, hsize]
      exact tagPieceAt_eq hsuffix _
    · rw [if_neg hangle, if_neg hangle, hone]
  | tag =>
    simp only [pieceAt, piece]
    by_cases hquote : (c == '\'' || c == '"') = true
    · rw [if_pos hquote, if_pos hquote, hsize]
      exact skipString_getD (by simpa using hquote) hsuffix _
    rw [if_neg hquote, if_neg hquote]
    by_cases hopen : (c == '{') = true
    · rw [if_pos hopen, if_pos hopen, hone]
    have hnext : ((units t)[Text.size before + 1]? == some '>') = (rest.head? == some '>') := by
      rw [hsize, getElem?_succ_beq hsuffix hc (by decide)]
    rw [if_neg hopen, if_neg hopen, hnext]
    by_cases hend : (c == '/' && rest.head? == some '>') = true
    · rw [if_pos hend, if_pos hend]
      simp only [Bool.and_eq_true, beq_iff_eq, List.head?_eq_some_iff] at hend
      obtain ⟨rfl, more, rfl⟩ := hend
      rw [hsize, ← offset_two hsuffix (by decide) (by decide)]
      rfl
    rw [if_neg hend, if_neg hend]
    by_cases hclose : (c == '>') = true
    · rw [if_pos hclose, if_pos hclose, hone]
    · rw [if_neg hclose, if_neg hclose, hone]
  | block => exact hcode (.block :: outer)
  | substitution => exact hcode (.substitution :: outer)
  | elementCode => exact hcode (.elementCode :: outer)

end

/-! ### Names -/

/-- Whether the piece that starts at an offset is a name that may be called. -/
def isNameAt (name u : Text) (frames : List Script.Frame) (b : Char) (i : Nat) : Checked Bool := do
  if inCode frames && isNameStart b then
    if (← rangeOf u i (nameEnd u i)) == name then isCallPosition u i else return false
  else return false

/-- The offsets from one on at which a name stands as code. -/
def namesFrom (name u : Text) (frames : List Script.Frame) (i : Nat) : Checked (List Nat) :=
  match h : u[i]? with
  | none => .ok []
  | some b => do
    have := lt_of_getElem? h
    let found ← isNameAt name u frames b i
    let (j, later) ← pieceAt u frames b i
    let ⟨next, _⟩ ← ahead i j
    let more ← namesFrom name u later next
    return if found then i :: more else more
termination_by u.length - i

/-- The offsets at which a name stands as code. -/
def findNames (name t : Text) : Checked (List Nat) := namesFrom (units name) (units t) [] 0

section

variable {u : Text} {frames : List Script.Frame} {i : Nat} {d : Char}

theorem namesFrom_end (name : Text) (h : u[i]? = none) : namesFrom name u frames i = .ok [] := by
  rw [namesFrom]
  split <;> simp_all

theorem namesFrom_of (name : Text) (h : u[i]? = some d) :
    namesFrom name u frames i = (isNameAt name u frames d i).bind fun found =>
      (pieceAt u frames d i).bind fun p =>
      (ahead i p.1).bind fun next => (namesFrom name u p.2 next.1).bind fun more =>
        .ok (if found then i :: more else more) := by
  rw [namesFrom]
  split
  · simp_all
  · next b hb =>
    rw [h] at hb
    cases hb
    rfl

theorem isNameAt_inert (name : Text) (hd : IsInert d) : isNameAt name u frames d i = .ok false := by
  rw [isNameAt, isNameStart_of_isInert hd, Bool.and_false]
  rfl

end

/-- A name of ASCII characters is told by its bytes. -/
theorem units_beq {x : Text} (hx : IsAscii x) (name : Text) :
    (units x == units name) = (x == name) := by
  rw [Bool.eq_iff_iff, beq_iff_eq, beq_iff_eq]
  refine ⟨fun h => ?_, fun h => h ▸ rfl⟩
  rw [units_ascii hx] at h
  have hname : IsAscii name := fun c hc hi => by
    obtain ⟨a, b, rfl⟩ := List.append_of_mem hc
    obtain ⟨d, ds, hd⟩ := List.exists_cons_of_ne_nil (units_ne_nil c)
    have hmem : d ∈ x := by
      rw [h, units_append, units_cons, hd]
      simp
    exact hx d hmem (isInert_of_mem_units hi (hd ▸ List.mem_cons_self))
  rw [h, units_ascii hname]

section

variable {before rest : Text} {c : Char}

theorem isNameAt_eq (name : Text) (frames : List Script.Frame) :
    isNameAt (units name) (units (around before (c :: rest))) frames c (Text.size before) =
      .ok (isOccurrence name frames ⟨before, c :: rest⟩) := by
  have hsuffix : c :: rest <:+ around before (c :: rest) := List.suffix_append _ _
  have hascii : IsAscii ((c :: rest).takeWhile isNameChar) := fun d hd hi => by
    have hname := List.mem_takeWhile_imp hd
    rw [isNameChar_of_isInert hi] at hname
    cases hname
  have hword :
      rangeOf (units (around before (c :: rest))) (Text.size before)
        (nameEnd (units (around before (c :: rest))) (Text.size before)) =
      .ok (units ((c :: rest).takeWhile isNameChar)) := by
    have hrange :=
      rangeOf_append before.reverse ((c :: rest).takeWhile isNameChar)
        ((c :: rest).dropWhile isNameChar)
    have hend := nameEnd_eq hsuffix
    rw [offset_around] at hend
    rw [List.append_assoc, List.takeWhile_append_dropWhile, Script.size_reverse] at hrange
    have hstop : offset (around before (c :: rest)) ((c :: rest).dropWhile isNameChar) =
        Text.size (before.reverse ++ (c :: rest).takeWhile isNameChar) := by
      conv_lhs => arg 1; rw [around, ← List.takeWhile_append_dropWhile (p := isNameChar)
        (l := c :: rest), ← List.append_assoc]
      rw [offset_append]
    rw [hend, hstop]
    exact hrange
  rw [isNameAt, hword, isOccurrence, isCallPosition_eq]
  simp only [ok_bind, units_beq hascii]
  cases inCode frames && isNameStart c <;> cases (c :: rest).takeWhile isNameChar == name <;> rfl

/-- **Walked through byte by byte, a text shows a name where it stands.** -/
theorem namesFrom_eq (name : Text) (frames : List Script.Frame) (before b : Text) :
    namesFrom (units name) (units (around before b)) frames (Text.size before) =
      .ok ((occurrencesFrom name 0 frames before b).map fun place => Text.size place.before) := by
  generalize hn : b.length = n
  induction n using Nat.strongRecOn generalizing b before frames with
  | ind n ih =>
    subst hn
    cases b with
    | nil =>
      have hend := getElem?_end (around before [])
      rw [offset_around] at hend
      rw [namesFrom_end _ hend, occurrencesFrom]
      rfl
    | cons c rest =>
      have hsuffix : c :: rest <:+ around before (c :: rest) := List.suffix_append _ _
      by_cases hc : IsInert c
      · have hpass (i : Nat) (d : Char) (hd : (units (around before (c :: rest)))[i]? = some d)
            (hi : IsInert d) :
            namesFrom (units name) (units (around before (c :: rest))) frames i =
              namesFrom (units name) (units (around before (c :: rest))) frames (i + 1) := by
          rw [namesFrom_of _ hd, isNameAt_inert _ hi, pieceAt_inert hi]
          simp only [Except.bind, ahead_of_lt (Nat.lt_succ_self i)]
          cases namesFrom (units name) (units (around before (c :: rest))) frames (i + 1) <;> rfl
        have hrun := inert_run hsuffix hpass hc (Nat.zero_le _)
        rw [Nat.add_zero, offset_around] at hrun
        have hsize : offset (around before (c :: rest)) rest = Text.size (c :: before) := by
          rw [← around_cons, offset_around]
        have hmodel : occurrencesFrom name 0 frames before (c :: rest) =
            occurrencesFrom name 0 frames (c :: before) rest := by
          simp [occurrencesFrom, piece_inert hc, isOccurrence, isNameStart_of_isInert hc]
        rw [hrun, hsize, ← around_cons, ih rest.length (Nat.lt_succ_self _) frames
          (c :: before) rest rfl, hmodel]
      · have hbyte := getElem?_ascii hsuffix hc
        rw [offset_around] at hbyte
        have hone := Script.one_le_length_piece frames before c rest
        generalize hp : piece frames before c rest = p at hone
        obtain ⟨k, hk⟩ : ∃ k, p.length = k + 1 := Nat.exists_eq_add_one.mpr hone
        have hdrop : (c :: rest).drop p.length = rest.drop k := by rw [hk, List.drop_succ_cons]
        have htext : around before (c :: rest) =
            around ((rest.take k).reverse ++ c :: before) (rest.drop k) := by
          simp [around]
        have hnext : offset (around before (c :: rest)) (rest.drop k) =
            Text.size ((rest.take k).reverse ++ c :: before) := by
          rw [htext, offset_around]
        have hlt : Text.size before < Text.size ((rest.take k).reverse ++ c :: before) := by
          rw [Text.size_append, Text.size]
          have := c.utf8Size_pos
          omega
        have hlater :=
          ih (rest.drop k).length (by simp) p.frames ((rest.take k).reverse ++ c :: before)
            (rest.drop k) rfl
        rw [namesFrom_of _ hbyte, isNameAt_eq, pieceAt_eq hc, hp, behindPiece, hdrop, hnext]
        simp only [Except.bind, ahead_of_lt hlt]
        rw [htext, hlater]
        simp only [occurrencesFrom, hp]
        rw [Script.occurrencesFrom_skip name (p.length - 1), hk, Nat.add_sub_cancel]
        split <;> rfl

/-- The offsets of a name are those of the places where it stands. -/
theorem findNames_eq (name t : Text) :
    findNames name t = .ok ((occurrences name t).map fun place => Text.size place.before) :=
  namesFrom_eq name [] [] t

end

end Localization.Offset
