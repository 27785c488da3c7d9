import Mathlib
import Localization.Proofs.Offset.Word
import Localization.Proofs.Script.Embedded
import Localization.Proofs.Script.Opening

/-! Templates and elements by offsets.

The text of a template is passed over byte by byte, a backslash with the byte behind it. Whether
an angle bracket opens an element is told by the name behind it, by what follows that, by the
last character before the bracket that is no blank and by the word before it; a closing tag goes
up to the next `>`. Started in front of a character, each of these ends in front of one
(`templateFrom_eq`, `opensElementAt_eq`, `tagPieceAt_eq`). -/
namespace Localization.Script

/-- What follows the group at the head of a text. -/
theorem map_groupPrefix? {c closer : Char} (hc : closer? c = some closer) (rest : Text) :
    (groupPrefix? (c :: rest)).map (·.2) = behind (.inside (.group closer)) rest := by
  rw [groupPrefix?, hc]
  simp only [Option.map_map]
  rfl

theorem startsNoParameters_eq_behind {c closer : Char} (hc : closer? c = some closer)
    (rest : Text) :
    startsNoParameters (c :: rest) = (behind (.inside (.group closer)) rest).elim true fun z =>
      !followsParameters z := by
  rw [startsNoParameters, ← map_groupPrefix? hc]
  cases groupPrefix? (c :: rest) <;> rfl

end Localization.Script

namespace Localization.Offset

open Script (closer? isNameChar isNameStart skipBlanks behind templateText templatePiece tagPiece
  looksLikeTag mayFollowTagName startsNoParameters opensElement endsInOperator startsOperand)

/-! ### Templates -/

/-- Behind the text of a template from an offset on, and whether a substitution follows. -/
def templateFrom (u : Text) (i : Nat) : Nat × Bool :=
  match h : u[i]? with
  | none => (u.length, false)
  | some b =>
    have := lt_of_getElem? h
    if b == '\\' then templateFrom u (i + 2)
    else if b == '`' then (i + 1, false)
    else if b == '$' && u[i + 1]? == some '{' then (i + 2, true)
    else templateFrom u (i + 1)
termination_by u.length - i

section

variable {t b : Text} {u : Text} {c d : Char} {i : Nat}

theorem templateFrom_end (h : u[i]? = none) : templateFrom u i = (u.length, false) := by
  rw [templateFrom]
  split <;> simp_all

theorem templateFrom_of (h : u[i]? = some d) :
    templateFrom u i =
      if d == '\\' then templateFrom u (i + 2)
      else if d == '`' then (i + 1, false)
      else if d == '$' && u[i + 1]? == some '{' then (i + 2, true)
      else templateFrom u (i + 1) := by
  rw [templateFrom]
  split
  · simp_all
  · next b hb =>
    rw [h] at hb
    cases hb
    rfl

theorem templateFrom_inert (h : u[i]? = some d) (hd : IsInert d) :
    templateFrom u i = templateFrom u (i + 1) := by
  rw [templateFrom_of h]
  simp (disch := decide) [hd.ne]

/-- The text of a template ends in front of a character. -/
theorem templateFrom_eq (h : b <:+ t) :
    templateFrom (units t) (offset t b) =
      (offset t (b.drop (templateText b).1), (templateText b).2) := by
  have hinert (i : Nat) (d : Char) (hd : (units t)[i]? = some d) (hi : IsInert d) :
      templateFrom (units t) i = templateFrom (units t) (i + 1) := templateFrom_inert hd hi
  have hend : (units t).length = offset t [] := by rw [length_units, offset_nil]
  fun_induction templateText b with
  | case1 => rw [templateFrom_end (getElem?_end t), hend]; rfl
  | case2 =>
    have hbehind := offset_ascii h (by decide)
    have hnone : (units t)[offset t ['\\'] + 2]? = none := by
      rw [List.getElem?_eq_none_iff, hend, hbehind]
      omega
    rw [templateFrom_of (getElem?_ascii h (by decide)), if_pos (by decide),
      templateFrom_end hnone, hend]
    rfl
  | case3 c rest n more hmore ih =>
    have hrest := suffix_tail h
    have htwo : offset t ('\\' :: c :: rest) + 2 = offset t (c :: rest) + 1 := by
      rw [offset_ascii h (by decide)]
    rw [templateFrom_of (getElem?_ascii h (by decide)), if_pos (by decide), htwo,
      second_byte hrest hinert, ih (suffix_tail hrest), hmore]
    rfl
  | case4 rest =>
    rw [templateFrom_of (getElem?_ascii h (by decide)), if_neg (by decide), if_pos (by decide),
      ← offset_ascii h (by decide)]
    rfl
  | case5 rest =>
    rw [templateFrom_of (getElem?_ascii h (by decide)), if_neg (by decide), if_neg (by decide),
      getElem?_succ_beq h (by decide) (by decide), if_pos (by simp),
      ← offset_two h (by decide) (by decide)]
    rfl
  | case6 c rest hlast hescape hbacktick hdollar n more hmore ih =>
    have hrest := ih (suffix_tail h)
    rw [hmore] at hrest
    by_cases hc : IsInert c
    · rw [← Nat.add_zero (offset t (c :: rest)), inert_run h hinert hc (Nat.zero_le _), hrest]
      rfl
    · have hbackslash : c ≠ '\\' := by
        rintro rfl
        cases rest with
        | nil => exact hlast rfl rfl
        | cons d rest => exact hescape d rest rfl rfl
      have hopens : (c == '$' && rest.head? == some '{') = false := by
        rw [Bool.eq_false_iff, ne_eq, Bool.and_eq_true, beq_iff_eq, beq_iff_eq,
          List.head?_eq_some_iff]
        intro hboth
        obtain ⟨hc, rest', hrest⟩ := hboth
        exact hdollar rest' hc hrest
      rw [templateFrom_of (getElem?_ascii h hc), getElem?_succ_beq h hc (by decide),
        ← offset_ascii h hc, hopens, hrest, if_neg (by simpa using hbackslash),
        if_neg (by simpa using hbacktick), if_neg Bool.false_ne_true]
      rfl

/-- A piece that ends with the text of a template, from behind its first character on. -/
def templatePieceAt (u : Text) (frames : List Script.Frame) (i : Nat) : Nat × List Script.Frame :=
  ((templateFrom u i).1, if (templateFrom u i).2 then .substitution :: frames else frames)

theorem templatePieceAt_eq (h : c :: b <:+ t) (frames : List Script.Frame) :
    templatePieceAt (units t) frames (offset t b) =
      (offset t ((c :: b).drop (templatePiece frames b).length),
        (templatePiece frames b).frames) := by
  rw [templatePieceAt, templateFrom_eq (suffix_tail h)]
  simp only [templatePiece, Nat.add_comm 1, List.drop_succ_cons]

/-! ### Words behind an offset -/

theorem rangeOf_end (h : b <:+ t) :
    rangeOf (units t) (offset t b) (units t).length = .ok (units b) := by
  obtain ⟨a, rfl⟩ := h
  have hrange := rangeOf_append a b []
  rw [List.append_nil] at hrange
  rwa [offset_append, length_units]

theorem isPrefixOf_units {w : Text} (hw : IsAscii w) (x : Text) :
    w.isPrefixOf (units x) = w.isPrefixOf x := by
  rw [Bool.eq_iff_iff, List.isPrefixOf_iff_prefix, List.isPrefixOf_iff_prefix,
    isPrefix_units_iff hw]

/-- The first place of an ASCII character among bytes is behind what stands before it. -/
theorem findIdx?_units {x : Char} (hx : ¬ IsInert x) (b : Text) :
    (units b).findIdx? (· == x) = if x ∈ b then some (Text.size (b.takeWhile (· != x)))
      else none := by
  induction b with
  | nil => rfl
  | cons c b ih =>
    by_cases hc : c = x
    · subst hc
      rw [units_cons, units_singleton hx, List.singleton_append, List.findIdx?_cons]
      simp [Text.size]
    · have hnone : (units [c]).findIdx? (· == x) = none := by
        rw [List.findIdx?_eq_none_iff]
        intro d hd
        by_cases hi : IsInert c
        · exact (isInert_of_mem_units hi hd).beq_eq_false hx
        · rw [units_singleton hi, List.mem_singleton] at hd
          rw [hd]
          exact beq_false_of_ne hc
      rw [units_cons, List.findIdx?_append, hnone, Option.none_or, ih, length_units,
        List.takeWhile_cons_of_pos (by simpa using hc)]
      by_cases hmem : x ∈ b
      · rw [if_pos hmem, if_pos (List.mem_cons_of_mem _ hmem), Option.map_some, Text.size,
          Text.size, Text.size, Nat.add_zero, Nat.add_comm]
      · rw [if_neg hmem, if_neg (by simp [hmem, Ne.symm hc]), Option.map_none]

/-! ### Elements -/

theorem isNameStart_of_isInert (h : IsInert c) : isNameStart c = false := by
  rw [Bool.eq_false_iff]
  intro hstart
  have hname := Script.isNameChar_of_isNameStart hstart
  rw [isNameChar_of_isInert h] at hname
  cases hname

/-- Whether the parentheses at an offset hold no parameters of a function. -/
def startsNoParametersAt (u : Text) (i : Nat) : Checked Bool := do
  match ← findClosing u i with
  | none => return true
  | some close =>
    let next := skipBlanksFrom u (close + 1)
    return !(['=', '>'].isPrefixOf (← rangeOf u next u.length) || u[next]? == some ':')

/-- Whether what stands at an offset behind the name of an element does not make it the type
parameter of an arrow function. -/
def mayFollowTagNameAt (u : Text) (i : Nat) : Checked Bool :=
  if u[i]? == some '>' && u[i + 1]? == some '(' then startsNoParametersAt u (i + 1) else .ok true

/-- Whether an element may be named from an offset on. -/
def looksLikeTagAt (u : Text) (i : Nat) : Checked Bool :=
  match u[i]? with
  | none => .ok false
  | some b =>
    if b == '>' then .ok true
    else if isNameStart b then do
      let after := skipBlanksFrom u (nameEnd u i)
      if u[after]? == some ',' || "extends ".toList.isPrefixOf (← rangeOf u after u.length) then
        return false
      else mayFollowTagNameAt u after
    else .ok false

/-- Whether the angle bracket at an offset opens an element. -/
def opensElementAt (u : Text) (i : Nat) : Checked Bool := do
  if ← looksLikeTagAt u (i + 1) then
    if (← byteBefore? u (← runBack Text.isAsciiBlank u i)).all startsOperand then return true
    else precededByWord u "return".toList i
  else return false

/-- The frames behind a closing tag. -/
def afterElement : List Script.Frame → List Script.Frame
  | .children :: outer => outer
  | frames => frames

/-- The tag whose angle bracket stands at an offset. -/
def tagPieceAt (u : Text) (frames : List Script.Frame) (i : Nat) :
    Checked (Nat × List Script.Frame) :=
  if u[i + 1]? == some '/' then do
    return (((← rangeOf u i u.length).findIdx? (· == '>')).elim u.length fun k => i + k + 1,
      afterElement frames)
  else if u[i + 1]? == some '>' then .ok (i + 2, .children :: frames)
  else .ok (i + 1, .tag :: frames)

theorem startsNoParametersAt_eq {rest : Text} (h : '(' :: rest <:+ t) :
    startsNoParametersAt (units t) (offset t ('(' :: rest)) =
      .ok (startsNoParameters ('(' :: rest)) := by
  have hcloser : closer? '(' = some ')' := rfl
  rw [startsNoParametersAt, findClosing_eq hcloser h, Script.startsNoParameters_eq_behind hcloser]
  cases hbehind : behind (.inside (.group ')')) rest with
  | none => rfl
  | some z =>
    have hz := Script.suffix_of_behind hbehind
    have hlt := offset_lt_of_suffix h hz
    have hclose : offset t z - 1 + 1 = offset t z := by omega
    have hsuffix : skipBlanks z <:+ t := (List.dropWhile_suffix _).trans (hz.trans (suffix_tail h))
    simp only [Option.map_some, ok_bind, Option.elim_some, hclose,
      skipBlanksFrom_eq (hz.trans (suffix_tail h)), rangeOf_end hsuffix,
      isPrefixOf_units (by decide : IsAscii ['=', '>']),
      getElem?_beq hsuffix (by decide : ¬ IsInert ':'), pure_eq_ok]
    rfl

theorem mayFollowTagNameAt_eq (h : b <:+ t) :
    mayFollowTagNameAt (units t) (offset t b) = .ok (mayFollowTagName b) := by
  rw [mayFollowTagNameAt, getElem?_beq h (by decide)]
  cases b with
  | nil => rfl
  | cons c rest =>
    by_cases hc : c = '>'
    · subst hc
      rw [getElem?_succ_beq h (by decide) (by decide), ← offset_ascii h (by decide)]
      cases rest with
      | nil => rfl
      | cons d more =>
        by_cases hd : d = '('
        · subst hd
          exact startsNoParametersAt_eq (suffix_tail h)
        · simp [mayFollowTagName, hd]
    · simp [mayFollowTagName, hc]

theorem looksLikeTagAt_eq (h : b <:+ t) :
    looksLikeTagAt (units t) (offset t b) = .ok (looksLikeTag b) := by
  cases b with
  | nil => rw [looksLikeTagAt, getElem?_end]; rfl
  | cons c rest =>
    by_cases hc : IsInert c
    · obtain ⟨d, hd, hinert⟩ := exists_getElem?_inert h hc (Char.utf8Size_pos c)
      rw [Nat.add_zero] at hd
      rw [looksLikeTagAt, hd, Script.looksLikeTag_cons (hc.ne (by decide)),
        isNameStart_of_isInert hc]
      simp only [hinert.beq_eq_false (by decide : ¬ IsInert '>'), isNameStart_of_isInert hinert,
        Bool.false_eq_true, if_false, Bool.false_and]
    · rw [looksLikeTagAt, getElem?_ascii h hc]
      by_cases hgt : c = '>'
      · subst hgt; rfl
      rw [Script.looksLikeTag_cons hgt]
      simp only [beq_false_of_ne hgt, Bool.false_eq_true, if_false]
      cases hstart : isNameStart c with
      | false => rfl
      | true =>
        have hname : (c :: rest).dropWhile isNameChar <:+ t := (List.dropWhile_suffix _).trans h
        have hafter : skipBlanks ((c :: rest).dropWhile isNameChar) <:+ t :=
          (List.dropWhile_suffix _).trans hname
        rw [nameEnd_eq h, skipBlanksFrom_eq hname]
        generalize skipBlanks ((c :: rest).dropWhile isNameChar) = after at hafter ⊢
        rw [rangeOf_end hafter, getElem?_beq hafter (by decide), mayFollowTagNameAt_eq hafter]
        simp only [ok_bind, if_true, isPrefixOf_units (by decide : IsAscii "extends ".toList),
          Bool.true_and]
        cases after.head? == some ',' || "extends ".toList.isPrefixOf after <;> rfl

theorem startsOperand_of_isInert (h : IsInert c) : startsOperand c = false := by
  simp (disch := decide) [startsOperand, h.ne]

/-- Whether an operand starts behind a text is told by its last byte. -/
theorem all_head?_back (before : Text) :
    (back before).head?.all startsOperand = endsInOperator before := by
  obtain h | ⟨d, c, hd, hc, hid, hic⟩ := head?_back_cases before
  · rw [h]
    cases before <;> rfl
  · obtain ⟨before, rfl⟩ := List.head?_eq_some_iff.mp hc
    rw [hd, Option.all_some, startsOperand_of_isInert hid]
    exact (startsOperand_of_isInert hic).symm

theorem opensElementAt_eq (before rest : Text) :
    opensElementAt (units (around before ('<' :: rest))) (Text.size before) =
      .ok (opensElement before rest) := by
  have hsuffix : '<' :: rest <:+ around before ('<' :: rest) := List.suffix_append _ _
  have hnext : Text.size before + 1 = offset (around before ('<' :: rest)) rest := by
    rw [← offset_around before ('<' :: rest), offset_ascii hsuffix (by decide)]
  rw [opensElementAt, hnext, looksLikeTagAt_eq (suffix_tail hsuffix), runBack_blanks,
    precededByWord_eq before _ (by decide)]
  obtain ⟨m, hm⟩ : skipBlanks before <:+ before := List.dropWhile_suffix _
  have hbyte : byteBefore? (units (around before ('<' :: rest))) (Text.size (skipBlanks before)) =
      .ok (back (skipBlanks before)).head? := by
    conv_lhs => rw [← hm, around_append, hm]
    rw [byteBefore?_eq]
  rw [Script.opensElement_eq]
  simp only [ok_bind, hbyte, all_head?_back]
  cases looksLikeTag rest with
  | false => rfl
  | true => cases endsInOperator (skipBlanks before) <;> rfl

/-- The first `>` of a text is told by its bytes. -/
theorem closingTag_eq (h : b <:+ t) :
    ((units b).findIdx? (· == '>')).elim (units t).length (fun k => offset t b + k + 1) =
      offset t (b.drop ((b.takeWhile (· != '>')).length + 1)) := by
  rw [findIdx?_units (by decide)]
  have hb : b.takeWhile (· != '>') ++ b.dropWhile (· != '>') = b := List.takeWhile_append_dropWhile
  cases hdrop : b.dropWhile (· != '>') with
  | nil =>
    rw [hdrop, List.append_nil] at hb
    have hmem : '>' ∉ b := fun hmem => by
      have := List.mem_takeWhile_imp (hb.symm ▸ hmem)
      simp at this
    rw [if_neg hmem, hb, List.drop_of_length_le (Nat.le_succ _), offset_nil, Option.elim_none,
      length_units]
  | cons c z =>
    have hc : c = '>' := by
      have := List.head?_dropWhile_not (· != '>') b
      rw [hdrop] at this
      simpa using this
    subst hc
    rw [hdrop] at hb
    have hmem : '>' ∈ b := by rw [← hb]; simp
    have hz : '>' :: z <:+ t := (hdrop ▸ List.dropWhile_suffix _ : '>' :: z <:+ b).trans h
    generalize b.takeWhile (· != '>') = m at hb
    subst hb
    obtain ⟨a, rfl⟩ := h
    rw [if_pos hmem, Option.elim_some, ← List.drop_drop, List.drop_left, List.drop_one,
      List.tail_cons, offset_ascii hz (by decide), ← List.append_assoc, offset_append,
      List.append_assoc, offset_append, Text.size_append]

theorem tagPieceAt_eq {rest : Text} (h : '<' :: rest <:+ t) (frames : List Script.Frame) :
    tagPieceAt (units t) frames (offset t ('<' :: rest)) =
      .ok (offset t (('<' :: rest).drop (tagPiece frames rest).length),
        (tagPiece frames rest).frames) := by
  rw [tagPieceAt, getElem?_succ_beq h (by decide) (by decide),
    getElem?_succ_beq h (by decide) (by decide), rangeOf_end h]
  cases rest with
  | nil => rw [← offset_ascii h (by decide)]; rfl
  | cons c rest =>
    by_cases hslash : c = '/'
    · subst hslash
      have hlength : (tagPiece frames ('/' :: rest)).length =
          min ('<' :: '/' :: rest).length ((('<' :: '/' :: rest).takeWhile (· != '>')).length +
            1) := by
        simp [tagPiece]
        omega
      have hdrop : ('<' :: '/' :: rest).drop (tagPiece frames ('/' :: rest)).length =
          ('<' :: '/' :: rest).drop ((('<' :: '/' :: rest).takeWhile (· != '>')).length + 1) := by
        rw [hlength]
        generalize (('<' :: '/' :: rest).takeWhile (· != '>')).length + 1 = n
        rcases Nat.le_total ('<' :: '/' :: rest).length n with hn | hn
        · rw [Nat.min_eq_left hn, List.drop_length, List.drop_of_length_le hn]
        · rw [Nat.min_eq_right hn]
      rw [hdrop, ← closingTag_eq h]
      rfl
    · by_cases hgt : c = '>'
      · subst hgt
        rw [← offset_two h (by decide) (by decide)]
        rfl
      · rw [← offset_ascii h (by decide)]
        simp [hslash, hgt, tagPiece]

end

end Localization.Offset
