import Mathlib
import Localization.Proofs.Argument.Written
import Localization.Proofs.Marker.Place
import Localization.Proofs.Offset.Element
import Localization.Proofs.Offset.Part

/-! Callees by offsets.

The name of a call is told from the parentheses behind it by offsets: a path goes on over points
and blanks as long as a name follows (`pathEnd_eq`), and between a name and its parentheses
stand type arguments or blanks (`afterNameAt_eq`). A text that is a call is cut into its path
and what stands in its parentheses, and both are ranges between characters (`callPartsAt_eq`).
-/
namespace Localization.Script

/-! ### Paths, name by name -/

/-- What follows a path whose last name goes on. -/
def behindPath (t : Text) : Option Text := (pathFrom .inName [] t).map (·.2)

/-- What follows a path that must go on with a name. -/
def behindName : Text → Option Text
  | [] => none
  | c :: rest => if isNameStart c then behindPath rest else none

/-- What stands behind the point at the head of a text, or behind its `?.`. -/
def afterPoint? (t : Text) : Option Text :=
  if t.head? == some '.' then some (t.drop 1)
  else if t.head? == some '?' && (t.drop 1).head? == some '.' then some (t.drop 2)
  else none

/-- What follows a path whose last name ends in front of a text: the path goes on if a point
comes next. -/
def behindGap (t : Text) : Option Text :=
  (afterPoint? (skipBlanks t)).elim (some t) fun more => behindName (skipBlanks more)

theorem map_pathFrom_point (before t : Text) :
    (pathFrom .point before t).map (·.2) = behindName (skipBlanks t) := by
  induction t generalizing before with
  | nil => rfl
  | cons c rest ih =>
    rw [pathFrom]
    cases hblank : Text.isAsciiBlank c with
    | true =>
      rw [skipBlanks, List.dropWhile_cons_of_pos hblank, ← skipBlanks, ← ih (before ++ [c])]; rfl
    | false =>
      rw [skipBlanks, List.dropWhile_cons_of_neg (by simp [hblank]), behindName]
      cases isNameStart c with
      | false => rfl
      | true => simp only [Bool.false_eq_true, if_false, if_true, Option.map_map]; rfl

/-- A point or `?.` is followed by a name; if there is none, the path ends with its last name. -/
theorem map_pathFrom_point_or_end {c : Char} (hc : Text.isAsciiBlank c = false)
    (before rest : Text) :
    (if c == '.' then pathFrom .point (before ++ [c]) rest
      else if c == '?' && rest.head? == some '.' then pathFrom .question (before ++ [c]) rest
      else some ([], before ++ c :: rest)).map (·.2) =
      (afterPoint? (c :: rest)).elim (some (before ++ c :: rest)) fun more =>
        behindName (skipBlanks more) := by
  rw [afterPoint?]
  by_cases hpoint : c = '.'
  · subst hpoint
    exact map_pathFrom_point _ rest
  have hpoint' : (some c == some '.') = false := by simpa using hpoint
  rw [beq_false_of_ne hpoint, List.head?_cons, hpoint']
  simp only [Bool.false_eq_true, if_false]
  by_cases hquestion : c = '?' ∧ rest.head? = some '.'
  · obtain ⟨rfl, hrest⟩ := hquestion
    obtain ⟨more, rfl⟩ := List.head?_eq_some_iff.mp hrest
    exact map_pathFrom_point _ more
  · have hquestion' : (c == '?' && rest.head? == some '.') = false := by
      rw [Bool.eq_false_iff, ne_eq, Bool.and_eq_true, beq_iff_eq, beq_iff_eq]
      exact hquestion
    have hsame : (some c == some '?' && ((c :: rest).drop 1).head? == some '.') =
        (c == '?' && rest.head? == some '.') := rfl
    rw [hsame, hquestion']
    rfl

theorem map_pathFrom_gap (before t : Text) :
    (pathFrom .gap before t).map (·.2) =
      (afterPoint? (skipBlanks t)).elim (some (before ++ t)) fun more =>
        behindName (skipBlanks more) := by
  induction t generalizing before with
  | nil => rw [List.append_nil]; rfl
  | cons c rest ih =>
    rw [pathFrom]
    cases hblank : Text.isAsciiBlank c with
    | true =>
      have hih := ih (before ++ [c])
      rw [List.append_assoc, List.singleton_append] at hih
      rw [skipBlanks, List.dropWhile_cons_of_pos hblank, ← skipBlanks, ← hih]
      rfl
    | false =>
      rw [skipBlanks_cons hblank]
      exact map_pathFrom_point_or_end hblank before rest

/-- **A path goes on with the characters of a name, and over a point or `?.` with another name.** -/
theorem behindPath_eq (t : Text) : behindPath t = behindGap (t.dropWhile isNameChar) := by
  induction t with
  | nil => rfl
  | cons c rest ih =>
    rw [behindPath, pathFrom]
    cases hname : isNameChar c with
    | true =>
      rw [List.dropWhile_cons_of_pos hname, ← ih]
      simp only [if_true, Option.map_map]
      rfl
    | false =>
      rw [List.dropWhile_cons_of_neg (by simp [hname]), behindGap]
      cases hblank : Text.isAsciiBlank c with
      | true =>
        have hgap := map_pathFrom_gap [c] rest
        rw [skipBlanks, List.dropWhile_cons_of_pos hblank, ← skipBlanks]
        exact hgap
      | false =>
        rw [skipBlanks_cons hblank]
        exact map_pathFrom_point_or_end hblank [] rest

/-! ### What ends with its text -/

/-- A group ends with its closing bracket. -/
theorem exists_inner_of_behind {closer : Char} {rest z : Text}
    (h : behind (.inside (.group closer)) rest = some z) :
    ∃ inner, rest = inner ++ closer :: z := by
  obtain ⟨⟨read, after⟩, hread, rfl⟩ := Option.map_eq_some_iff.mp h
  have hclosed : State.IsClosedBy ⟨[] ++ [.group closer], .none⟩ read := isClosedBy_of_closing hread
  obtain ⟨inner, rfl⟩ := List.getLast?_eq_some_iff.mp hclosed.getLast?_group
  exact ⟨inner, by rw [closing_append hread, List.append_assoc]; rfl⟩

/-- A literal ends with its quote. -/
theorem exists_body_of_behind {quote : Char} {r : Region} (hr : literal? quote = some r)
    {rest z : Text} (h : behind (.inside r) rest = some z) : ∃ body, rest = body ++ quote :: z := by
  obtain ⟨⟨read, after⟩, hread, rfl⟩ := Option.map_eq_some_iff.mp h
  have hclosed : State.IsClosedBy ⟨[] ++ [r], .none⟩ read := isClosedBy_of_closing hread
  obtain ⟨body, rfl⟩ := List.getLast?_eq_some_iff.mp (hclosed.getLast?_literal hr)
  exact ⟨body, by rw [closing_append hread, List.append_assoc]; rfl⟩

/-- A group is an opening bracket, what stands in it, and its closing bracket. -/
theorem groupPrefix?_cases {opener closer : Char} (hc : closer? opener = some closer)
    (rest : Text) :
    groupPrefix? (opener :: rest) = none ∧ behind (.inside (.group closer)) rest = none ∨
      ∃ inner z, rest = inner ++ closer :: z ∧
        groupPrefix? (opener :: rest) = some (opener :: (inner ++ [closer]), z) ∧
        behind (.inside (.group closer)) rest = some z := by
  have hbehind := map_groupPrefix? hc rest
  cases hgroup : groupPrefix? (opener :: rest) with
  | none => exact .inl ⟨rfl, by rw [← hbehind, hgroup]; rfl⟩
  | some found =>
    obtain ⟨group, z⟩ := found
    rw [hgroup] at hbehind
    obtain ⟨inner, rfl⟩ := exists_inner_of_behind hbehind.symm
    have hread := groupPrefix?_append hgroup
    rw [List.append_cons inner, ← List.cons_append] at hread
    exact .inr ⟨inner, z, rfl, by rw [List.append_cancel_right hread], hbehind.symm⟩

theorem map_literalPrefix? {quote : Char} {r : Region} (hr : literal? quote = some r)
    (rest : Text) :
    (literalPrefix? (quote :: rest)).map (·.2) = behind (.inside r) rest := by
  simp only [literalPrefix?, hr, Option.map_map]
  rfl

/-! ### Ends of paths -/

/-- A path ends with a character of a name. -/
theorem isNameChar_of_getLast?_path {s : PathState} {before t path after : Text}
    (h : pathFrom s before t = some (path, after)) {d : Char} (hd : path.getLast? = some d) :
    isNameChar d = true := by
  induction t generalizing s before path with
  | nil => cases s <;> cases h <;> cases hd
  | cons c rest ih =>
    have name {q : Text} (hc : isNameChar c = true)
        (hq : pathFrom .inName [] rest = some (q, after))
        (hd : (before ++ c :: q).getLast? = some d) : isNameChar d = true := by
      rw [List.getLast?_append_of_ne_nil _ (List.cons_ne_nil _ _), List.getLast?_cons] at hd
      cases hlast : q.getLast? with
      | none => rw [hlast] at hd; cases hd; exact hc
      | some e => rw [hlast] at hd; cases hd; exact ih hq hlast
    have go {next : PathState} (hn : pathFrom next (before ++ [c]) rest = some (path, after)) :
        isNameChar d = true := ih hn hd
    cases s <;> simp only [pathFrom] at h <;> (repeat' split at h) <;>
      first
      | exact go h
      | obtain ⟨⟨q, a⟩, hq, he⟩ := Option.map_eq_some_iff.mp h
        cases he
        first
        | exact name ‹_› hq hd
        | exact name (isNameChar_of_isNameStart ‹_›) hq hd
      | cases h <;> cases hd

/-- A path has no outer blanks. -/
theorem trim_path {c : Char} (hc : isNameStart c = true) {rest path after : Text}
    (h : pathFrom .inName [] rest = some (path, after)) :
    Text.trim (c :: path) = c :: path := by
  have hblank {d : Char} (hd : isNameChar d = true) : Text.isBlank d = false := by
    have hrange := toNat_of_isNameChar hd
    rw [Bool.eq_false_iff]
    intro hb
    simp only [Text.isBlank, Bool.or_eq_true, Bool.and_eq_true, decide_eq_true_eq, beq_iff_eq] at hb
    omega
  refine Text.IsTrimmed.trim ⟨List.cons_ne_nil _ _, fun d hd => ?_, fun d hd => ?_⟩
  · obtain rfl : c = d := Option.some.inj hd
    exact hblank (isNameChar_of_isNameStart hc)
  · rw [List.getLast?_cons] at hd
    cases hlast : path.getLast? with
    | none => rw [hlast] at hd; cases hd; exact hblank (isNameChar_of_isNameStart hc)
    | some e => rw [hlast] at hd; cases hd; exact hblank (isNameChar_of_getLast?_path h hlast)

end Localization.Script

namespace Localization.Offset

open Marker (afterCallee? afterCallee?_append)
open Script (isNameChar isNameStart skipBlanks behind behindPath behindName behindGap afterPoint?
  closer? groupPrefix? pathPrefix? pathFrom)

variable {t b : Text}

/-! ### Paths -/

/-- Behind the point at an offset, or behind its `?.`. -/
def afterPointAt (u : Text) (i : Nat) : Option Nat :=
  if u[i]? == some '.' then some (i + 1)
  else if u[i]? == some '?' && u[i + 1]? == some '.' then some (i + 2)
  else none

/-- The end of the path whose name stands at an offset; none if a point is not followed by a
name. -/
def pathEnd (u : Text) (i : Nat) : Checked (Option Nat) :=
  match afterPointAt u (skipBlanksFrom u (nameEnd u i)) with
  | none => .ok (some (nameEnd u i))
  | some j => do
    let ⟨next, _⟩ ← ahead i (skipBlanksFrom u j)
    match h : u[next]? with
    | none => return none
    | some b =>
      have := lt_of_getElem? h
      if isNameStart b then pathEnd u next else return none
termination_by u.length - i

theorem afterPointAt_eq (h : b <:+ t) :
    afterPointAt (units t) (offset t b) = (afterPoint? b).map (offset t) := by
  rw [afterPointAt, afterPoint?, getElem?_beq h (by decide), getElem?_beq h (by decide)]
  by_cases hpoint : b.head? = some '.'
  · obtain ⟨rest, rfl⟩ := List.head?_eq_some_iff.mp hpoint
    simp [← offset_ascii h (by decide)]
  by_cases hquestion : b.head? = some '?'
  · obtain ⟨rest, rfl⟩ := List.head?_eq_some_iff.mp hquestion
    rw [getElem?_succ_beq h (by decide) (by decide)]
    by_cases hrest : rest.head? = some '.'
    · obtain ⟨more, rfl⟩ := List.head?_eq_some_iff.mp hrest
      simp [← offset_two h (by decide) (by decide)]
    · simp [hrest]
  · simp [hpoint, hquestion]

theorem suffix_of_afterPoint? {z : Text} (h : afterPoint? b = some z) :
    z <:+ b ∧ z.length < b.length := by
  rw [afterPoint?] at h
  split_ifs at h with hpoint hquestion
  · cases h
    obtain ⟨rest, rfl⟩ := List.head?_eq_some_iff.mp (beq_iff_eq.mp hpoint)
    exact ⟨List.drop_suffix _ _, by simp⟩
  · cases h
    obtain ⟨rest, rfl⟩ :=
      List.head?_eq_some_iff.mp (beq_iff_eq.mp (Bool.and_eq_true_iff.mp hquestion).1)
    exact ⟨List.drop_suffix _ _, by simp⟩

theorem pathEnd_unfold (u : Text) (i : Nat) :
    pathEnd u i =
      (afterPointAt u (skipBlanksFrom u (nameEnd u i))).elim (.ok (some (nameEnd u i))) fun j =>
        (ahead i (skipBlanksFrom u j)).bind fun next =>
          (u[next.1]?).elim (.ok none) fun b => if isNameStart b then pathEnd u next.1 else
            .ok none := by
  rw [pathEnd]
  split
  · next hnone => rw [hnone]; rfl
  · next j hj =>
    rw [hj, Option.elim_some]
    refine congrArg _ (funext fun ⟨next, _⟩ => ?_)
    simp only
    split
    · next hnone => rw [hnone]; rfl
    · next b hb => rw [hb]; rfl

/-- **A path ends where the text behind it begins.** -/
theorem pathEnd_eq (h : b <:+ t) :
    pathEnd (units t) (offset t b) = .ok ((behindPath b).map (offset t)) := by
  generalize hn : b.length = n
  induction n using Nat.strongRecOn generalizing b with
  | ind n ih =>
    subst hn
    have hname : b.dropWhile isNameChar <:+ b := List.dropWhile_suffix _
    generalize hx : b.dropWhile isNameChar = x at hname
    have hgap : skipBlanks x <:+ x := List.dropWhile_suffix _
    rw [pathEnd_unfold, nameEnd_eq h, hx, skipBlanksFrom_eq (hname.trans h),
      afterPointAt_eq (hgap.trans (hname.trans h)), Script.behindPath_eq, hx, behindGap]
    cases hpoint : afterPoint? (skipBlanks x) with
    | none => rfl
    | some more =>
      obtain ⟨hmore, hshort⟩ := suffix_of_afterPoint? hpoint
      have hmore' : more <:+ b := hmore.trans (hgap.trans hname)
      have hstart : skipBlanks more <:+ more := List.dropWhile_suffix _
      have hle := (hgap.trans hname).length_le
      have hle' := hstart.length_le
      simp only [Option.map_some, Option.elim_some]
      rw [skipBlanksFrom_eq (hmore'.trans h)]
      generalize skipBlanks more = start at hstart hle' ⊢
      have hshorter : start.length < b.length := by omega
      have hsuffix : start <:+ t := hstart.trans (hmore'.trans h)
      rw [ahead_of_lt (offset_lt h (hstart.trans hmore') hshorter)]
      simp only [Except.bind]
      cases start with
      | nil => rw [getElem?_end]; rfl
      | cons c rest =>
        by_cases hc : IsInert c
        · obtain ⟨d, hd, hinert⟩ := exists_getElem?_inert hsuffix hc (Char.utf8Size_pos c)
          rw [Nat.add_zero] at hd
          rw [hd, Option.elim_some, isNameStart_of_isInert hinert, behindName,
            isNameStart_of_isInert hc]
          rfl
        · rw [getElem?_ascii hsuffix hc, Option.elim_some, behindName]
          cases hc : isNameStart c with
          | false => rfl
          | true =>
            have hname : isNameChar c = true := Script.isNameChar_of_isNameStart hc
            have hpath : behindPath (c :: rest) = behindPath rest := by
              rw [Script.behindPath_eq, List.dropWhile_cons_of_pos hname, ← Script.behindPath_eq]
            rw [if_pos rfl, if_pos rfl, ih _ hshorter hsuffix rfl, hpath]

/-! ### Ends -/

theorem size_eq_zero_iff {z : Text} : Text.size z = 0 ↔ z = [] := by
  cases z with
  | nil => exact iff_of_true rfl rfl
  | cons c z =>
    have := c.utf8Size_pos
    exact iff_of_false (by rw [Text.size]; omega) (List.cons_ne_nil _ _)

theorem one_le_size (hne : t ≠ []) : 1 ≤ Text.size t :=
  Nat.one_le_iff_ne_zero.mpr fun h => hne (size_eq_zero_iff.mp h)

theorem offset_beq_size {z : Text} (h : z <:+ t) : (offset t z == Text.size t) = z.isEmpty := by
  obtain ⟨a, rfl⟩ := h
  rw [Bool.eq_iff_iff, beq_iff_eq, List.isEmpty_iff, ← size_eq_zero_iff, offset_append,
    Text.size_append]
  omega

/-- The last byte of a text ends a group exactly if nothing follows it. -/
theorem pred_offset_beq {c : Char} {rest z : Text} (h : c :: rest <:+ t) (hz : z <:+ rest) :
    (offset t z - 1 == Text.size t - 1) = z.isEmpty := by
  rw [← offset_beq_size (hz.trans (suffix_tail h)), Bool.eq_iff_iff, beq_iff_eq, beq_iff_eq]
  have hlt := offset_lt_of_suffix h hz
  have hle := offset_le (t := t) z
  omega

/-- The first byte of a text is its first character, or neither is one of ASCII. -/
theorem byteAt_zero_cases (c : Char) (rest : Text) :
    byteAt (units (c :: rest)) 0 = .ok c ∨ ∃ d, byteAt (units (c :: rest)) 0 = .ok d ∧ IsInert d ∧
      IsInert c := by
  have hself : c :: rest <:+ c :: rest := List.suffix_refl _
  by_cases hc : IsInert c
  · obtain ⟨d, hd, hinert⟩ := exists_getElem?_inert hself hc (Char.utf8Size_pos c)
    rw [offset_self] at hd
    exact .inr ⟨d, byteAt_of hd, hinert, hc⟩
  · have hbyte := getElem?_ascii hself hc
    rw [offset_self] at hbyte
    exact .inl (byteAt_of hbyte)

/-! ### Parentheses behind a name -/

/-- The text of a range that is shorter than all of the text. -/
def inside (t : Text) (start stop : Nat) : Checked {m : Text // m.length < t.length} := do
  let m ← slice t start stop
  if h : m.length < t.length then return ⟨m, h⟩ else .error .stalled

/-- Behind the type arguments or the blanks at an offset. -/
def afterNameAt (u : Text) (i : Nat) : Checked (Option Nat) :=
  if u[i]? == some '<' then skipTypeArguments u i else .ok (some (skipBlanksFrom u i))

/-- The parenthesis that closes the one at an offset, if one stands there. -/
def closingParenthesis (u : Text) (i : Nat) : Checked (Option Nat) :=
  if u[i]? == some '(' then findClosing u i else .ok none

/-- The path of a text that is a call, and the text in its parentheses. -/
def callPartsAt (t : Text) : Checked (Option (Text × {inner : Text // inner.length < t.length})) :=
  do
  if isNameStart (← byteAt (units t) 0) then
    match ← pathEnd (units t) 0 with
    | none => return none
    | some i =>
      let callee := Text.trim (← slice t 0 i)
      match ← afterNameAt (units t) i with
      | none => return none
      | some opening =>
        match ← closingParenthesis (units t) opening with
        | none => return none
        | some close =>
          let last ← minus (Text.size t) 1
          if close == last then return some (callee, ← inside t (opening + 1) last) else return none
  else return none

theorem inside_offset {m z : Text} (h : m ++ z <:+ t) (hz : m.length < t.length) :
    inside t (offset t (m ++ z)) (offset t z) = .ok ⟨m, hz⟩ := by
  rw [inside, slice_offset h]
  exact dif_pos hz

theorem afterNameAt_eq (h : b <:+ t) :
    afterNameAt (units t) (offset t b) = .ok ((afterCallee? b).map (offset t)) := by
  rw [afterNameAt, afterCallee?, getElem?_beq h (by decide)]
  by_cases hangle : b.head? = some '<'
  · obtain ⟨rest, rfl⟩ := List.head?_eq_some_iff.mp hangle
    exact skipTypeArguments_eq h
  · rw [if_neg (by simpa using hangle), if_neg (by simpa using hangle), skipBlanksFrom_eq h]
    rfl

theorem closingParenthesis_eq {rest : Text} (h : '(' :: rest <:+ t) :
    closingParenthesis (units t) (offset t ('(' :: rest)) =
      .ok ((behind (.inside (.group ')')) rest).map fun z => offset t z - 1) := by
  rw [closingParenthesis, getElem?_beq h (by decide)]
  exact findClosing_eq rfl h

theorem closingParenthesis_none (h : b <:+ t) (hb : b.head? ≠ some '(') :
    closingParenthesis (units t) (offset t b) = .ok none := by
  rw [closingParenthesis, getElem?_beq h (by decide), if_neg (by simpa using hb)]

/-- **A call that takes all of a text is cut between its characters.** -/
theorem callPartsAt_eq (hne : t ≠ []) :
    ∃ parts, callPartsAt t = .ok parts ∧ parts.map (fun p => (p.1, p.2.1)) = callParts? t := by
  obtain ⟨c, rest, rfl⟩ := List.exists_cons_of_ne_nil hne
  obtain ⟨d, hd, hstart⟩ : ∃ d, byteAt (units (c :: rest)) 0 = .ok d ∧
      isNameStart d = isNameStart c := by
    obtain hc | ⟨d, hd, hid, hic⟩ := byteAt_zero_cases c rest
    · exact ⟨c, hc, rfl⟩
    · exact ⟨d, hd, by rw [isNameStart_of_isInert hid, isNameStart_of_isInert hic]⟩
  have hself : c :: rest <:+ c :: rest := List.suffix_refl _
  rw [callPartsAt, callParts?, pathPrefix?, pathFrom, hd, ok_bind, hstart]
  cases hc : isNameStart c with
  | false => exact ⟨none, rfl, rfl⟩
  | true =>
  have hend := pathEnd_eq hself
  have hpath : behindPath (c :: rest) = behindPath rest := by
    rw [Script.behindPath_eq, List.dropWhile_cons_of_pos (Script.isNameChar_of_isNameStart hc),
      ← Script.behindPath_eq]
  rw [offset_self, hpath, behindPath] at hend
  simp only [if_true, hend]
  cases hread : pathFrom .inName [] rest with
  | none => exact ⟨none, rfl, rfl⟩
  | some found =>
  obtain ⟨path, after⟩ := found
  obtain rfl : rest = path ++ after := Script.pathFrom_append hread fun _ => rfl
  have hafter : after <:+ c :: (path ++ after) := List.suffix_append (c :: path) after
  have hcallee : slice (c :: (path ++ after)) 0 (offset (c :: (path ++ after)) after) =
      .ok (c :: path) := by
    have hslice :=
      slice_offset (t := c :: (path ++ after)) (m := c :: path) (b := after) (List.suffix_refl _)
    rwa [List.cons_append, offset_self] at hslice
  have hopening : (if after.head? == some '<' then (Script.typeArguments? after).map (·.2) else
      some (skipBlanks after)) = afterCallee? after := rfl
  simp only [Option.map_some, ok_bind, hcallee, afterNameAt_eq hafter,
    Script.trim_path hc hread, hopening]
  cases hbehind : afterCallee? after with
  | none => exact ⟨none, rfl, rfl⟩
  | some opening =>
  obtain ⟨gap, rfl⟩ := afterCallee?_append hbehind
  generalize ht : c :: (path ++ (gap ++ opening)) = t at *
  have hsuffix : opening <:+ t := (List.suffix_append _ _).trans hafter
  simp only [Option.map_some]
  by_cases hhead : opening.head? = some '('
  · obtain ⟨rest, rfl⟩ := List.head?_eq_some_iff.mp hhead
    obtain ⟨hgroup, hbehind⟩ | ⟨inner, z, rfl, hgroup, hbehind⟩ :=
      Script.groupPrefix?_cases (show closer? '(' = some ')' from rfl) rest
    · simp only [closingParenthesis_eq hsuffix, hbehind, hgroup, ok_bind]
      exact ⟨none, rfl, rfl⟩
    simp only [closingParenthesis_eq hsuffix, hbehind, hgroup, ok_bind, Option.map_some, minus,
      if_pos (one_le_size hne), pred_offset_beq hsuffix (Script.suffix_of_behind hbehind)]
    cases z with
    | cons d z => exact ⟨none, rfl, rfl⟩
    | nil =>
      have hinner : inner ++ [')'] <:+ t := suffix_tail hsuffix
      have hlength : inner.length < t.length := by
        have := hinner.length_le
        simp at this
        omega
      have hlast : Text.size t - 1 = offset t [')'] := by
        rw [← offset_nil, offset_ascii ((List.suffix_append _ _).trans hinner) (by decide),
          Nat.add_sub_cancel]
      rw [hlast, ← offset_ascii hsuffix (by decide), inside_offset hinner hlength]
      exact ⟨some (c :: path, ⟨inner, hlength⟩), rfl, by simp [isWhole]⟩
  · rw [closingParenthesis_none hsuffix hhead]
    refine ⟨none, rfl, ?_⟩
    cases opening with
    | nil => rfl
    | cons d opening =>
      have hd : d ≠ '(' := by simpa using hhead
      simp [hd]

end Localization.Offset
