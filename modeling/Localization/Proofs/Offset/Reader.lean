import Mathlib
import Localization.Proofs.Argument.Shape
import Localization.Proofs.Offset.Callee

/-! Arguments by offsets.

A list of arguments is freed of its comments, cut at its commas and read text by text; what
stands between the brackets or quotes of a text is a range without its first and its last byte.
These two are the brackets or quotes themselves, so the range lies between characters, and it is
shorter than the text, so that the reading ends. Read so, a list is read as `readArguments`
reads it (`parse_eq`). -/
namespace Localization.Offset

open Script (Region closer? literal? isNameChar isNameStart isPath behind decode splitTop
  withoutComments)

/-! ### Keys -/

/-- The key of a property as written. -/
def propertyKeyAt (raw : Text) : Checked (Option Text) :=
  match (units raw)[0]? with
  | none => .ok none
  | some b =>
    if b == '\'' || b == '"' then do
      if (← skipString (units raw) 0) == some (Text.size raw) then
        return some (decode (← slice raw 1 (← minus (Text.size raw) 1)))
      else return none
    else if (isNameStart b && nameEnd (units raw) 0 == Text.size raw) || b.isDigit then
      .ok (some raw)
    else .ok none

/-- The key of the property that a text without outer blanks spells, and the text of its value;
a shorthand has none. -/
def memberAt (text : Text) : Checked (Option (Text × Option Text)) := do
  if ['.', '.', '.'].isPrefixOf text || text.head? == some '[' then return none
  else
    match ← splitTopLevel ':' text with
    | some [only] =>
      let name := Text.trim only
      return if isPath name && !name.contains '.' then some (name, none) else none
    | some (key :: rest) =>
      match ← propertyKeyAt (Text.trim key) with
      | none => return none
      | some key =>
        let value := Text.trim (Text.join [':'] rest)
        return if value.isEmpty then none else some (key, some value)
    | _ => return none

/-! ### Lists -/

/-- The texts between the commas of a list that are not blank, without outer blanks. -/
def textsAt (src : Text) : Checked (Option (List Text)) := do
  return (← splitTopLevel ',' src).map fun parts => (parts.map Text.trim).filter (!·.isEmpty)

/-- A text that is no longer than another. -/
def within (t m : Text) : Checked {m : Text // m.length ≤ t.length} :=
  if h : m.length ≤ t.length then .ok ⟨m, h⟩ else .error .stalled

/-- A text that is no longer is read if less is left to do with it. -/
theorem lex_of_le {m n j k a b : Nat} (hm : m ≤ n) (hj : j < k) :
    Prod.Lex (· < ·) (Prod.Lex (· < ·) (· < ·)) (m, j, a) (n, k, b) := by
  rcases Nat.lt_or_eq_of_le hm with hlt | rfl
  · exact Prod.Lex.left _ _ hlt
  · exact Prod.Lex.right _ (Prod.Lex.left _ _ hj)

mutual

/-- The arguments that a text separates by commas, none if it is not balanced. -/
def parseArguments (src : Text) : Checked (Option (List Argument)) := do
  match ← textsAt (← stripComments src) with
  | none => return none
  | some texts => parseTexts src texts
termination_by (src.length, 3, 0)

/-- The arguments that some texts of a list spell. -/
def parseTexts (src : Text) (texts : List Text) : Checked (Option (List Argument)) :=
  match texts with
  | [] => .ok (some [])
  | text :: rest => do
    let ⟨text, _⟩ ← within src text
    match ← parseArgument text with
    | none => return none
    | some a => return (← parseTexts src rest).map (a :: ·)
termination_by (src.length, 2, texts.length)
decreasing_by
  · exact lex_of_le ‹_› (by decide)
  · exact Prod.Lex.right _ (Prod.Lex.right _ (by simp))

/-- The argument that a text without outer blanks spells. -/
def parseArgument (text : Text) : Checked (Option Argument) := do
  let last ← minus (Text.size text) 1
  let first ← byteAt (units text) 0
  if (literal? first).isSome then
    match ← skipString (units text) 0 with
    | none => return none
    | some stop =>
      if stop == Text.size text then return some (.string (decode (← slice text 1 last)))
      else return some (← parsePlain text)
  else if first == '[' then
    match ← findClosing (units text) 0 with
    | none => return none
    | some close =>
      if close == last then
        let ⟨inner, _⟩ ← inside text 1 last
        return (← parseArguments inner).map .array
      else return some (← parsePlain text)
  else if first == '{' then
    match ← findClosing (units text) 0 with
    | none => return none
    | some close =>
      if close == last then
        let ⟨inner, _⟩ ← inside text 1 last
        return some (((← parseProperties inner).map .object).getD (.other text))
      else return some (← parsePlain text)
  else return some (← parsePlain text)
termination_by (text.length, 1, 0)

/-- An argument that is no literal in quotes, array or object. -/
def parsePlain (text : Text) : Checked Argument :=
  match Decimal.ofScript? text with
  | some value => .ok (.number value)
  | none =>
    if isPath text then
      .ok (if text == "undefined" || text == "null" || text == "true" || text == "false" then
        .other text else .name text)
    else do
      match ← callPartsAt text with
      | none => return .other text
      | some (callee, ⟨inner, _⟩) =>
        return ((← parseArguments inner).map (.call callee · text)).getD (.other text)
termination_by (text.length, 0, 0)

/-- The properties of an object literal. -/
def parseProperties (src : Text) : Checked (Option Properties) := do
  match ← textsAt src with
  | none => return none
  | some texts => parseMembers src texts
termination_by (src.length, 4, 0)

/-- The properties that some texts of an object literal spell. -/
def parseMembers (src : Text) (texts : List Text) : Checked (Option Properties) :=
  match texts with
  | [] => .ok (some [])
  | text :: rest => do
    match ← memberAt text with
    | none => return none
    | some (key, value?) =>
      match ← parseMember src key value? with
      | none => return none
      | some p => return (← parseMembers src rest).map (p :: ·)
termination_by (src.length, 3, texts.length)

/-- A property whose key was read. -/
def parseMember (src key : Text) (value? : Option Text) : Checked (Option (Text × Argument)) :=
  match value? with
  | none => .ok (some (key, .name key))
  | some value => do
    let ⟨value, _⟩ ← within src value
    return (← parseArgument value).map (key, ·)
termination_by (src.length, 2, 0)
decreasing_by exact lex_of_le ‹_› (by decide)

end

/-! ### What stands between two characters -/

section

variable {t : Text} {c d : Char}

/-- Without its first and its last byte a text is what stands between its first and its last
character. -/
theorem offset_enclosed (hc : ¬ IsInert c) (hd : ¬ IsInert d) (m : Text) :
    offset (c :: (m ++ [d])) (m ++ [d]) = 1 ∧
      offset (c :: (m ++ [d])) [d] = Text.size (c :: (m ++ [d])) - 1 := by
  have hself : c :: (m ++ [d]) <:+ c :: (m ++ [d]) := List.suffix_refl _
  constructor
  · rw [offset_ascii hself hc, offset_self]
  · rw [← offset_nil, offset_ascii ((List.suffix_append _ _).trans (suffix_tail hself)) hd,
      Nat.add_sub_cancel]

theorem slice_enclosed (hc : ¬ IsInert c) (hd : ¬ IsInert d) (m : Text) :
    slice (c :: (m ++ [d])) 1 (Text.size (c :: (m ++ [d])) - 1) = .ok m := by
  have h := slice_offset (t := c :: (m ++ [d])) (m := m) (b := [d]) (List.suffix_cons _ _)
  rwa [(offset_enclosed hc hd m).1, (offset_enclosed hc hd m).2] at h

theorem inside_enclosed (hc : ¬ IsInert c) (hd : ¬ IsInert d) (m : Text) :
    inside (c :: (m ++ [d])) 1 (Text.size (c :: (m ++ [d])) - 1) = .ok ⟨m, by simp⟩ := by
  rw [inside, slice_enclosed hc hd]
  exact dif_pos _

/-! ### Keys -/

theorem isDigit_of_isInert (h : IsInert c) : c.isDigit = false := by
  rw [Bool.eq_false_iff]
  intro hdigit
  have hname := Script.isNameChar_of_isDigit hdigit
  rw [isNameChar_of_isInert h] at hname
  cases hname

theorem nameEnd_beq (c : Char) (rest : Text) :
    (nameEnd (units (c :: rest)) 0 == Text.size (c :: rest)) = (c :: rest).all isNameChar := by
  have hself : c :: rest <:+ c :: rest := List.suffix_refl _
  have hend := nameEnd_eq hself
  rw [offset_self] at hend
  rw [hend, offset_beq_size (List.dropWhile_suffix _), Bool.eq_iff_iff, List.isEmpty_iff,
    List.dropWhile_eq_nil_iff, List.all_eq_true]

/-- A literal at the head of a text does not end, takes all of the text, which is cut between
its quotes, or leaves some of it. -/
theorem skipString_cases {r : Region} (hr : literal? c = some r) (rest : Text) :
    (skipString (units (c :: rest)) 0 = .ok none ∧ Script.literalPrefix? (c :: rest) = none) ∨
    (skipString (units (c :: rest)) 0 = .ok (some (Text.size (c :: rest))) ∧
      Script.literalPrefix? (c :: rest) = some (c :: rest, []) ∧
      slice (c :: rest) 1 (Text.size (c :: rest) - 1) = .ok rest.dropLast) ∨
    ∃ stop read d z, skipString (units (c :: rest)) 0 = .ok (some stop) ∧
      (stop == Text.size (c :: rest)) = false ∧
      Script.literalPrefix? (c :: rest) = some (read, d :: z) := by
  have hself : c :: rest <:+ c :: rest := List.suffix_refl _
  have hascii := not_isInert_of_literal? hr
  have hskip := skipString_eq hr hself
  rw [offset_self, ← Script.map_literalPrefix? hr] at hskip
  cases hread : Script.literalPrefix? (c :: rest) with
  | none => exact .inl ⟨by rw [hskip, hread]; rfl, rfl⟩
  | some found =>
    obtain ⟨read, z⟩ := found
    have hbehind : behind (.inside r) rest = some z := by
      rw [← Script.map_literalPrefix? hr, hread]; rfl
    rw [hread] at hskip
    refine .inr ?_
    cases z with
    | nil =>
      obtain ⟨body, rfl⟩ := Script.exists_body_of_behind hr hbehind
      have htext := Script.literalPrefix?_append hread
      rw [List.append_nil] at htext
      exact .inl ⟨hskip, by rw [htext], by rw [List.dropLast_concat, slice_enclosed hascii hascii]⟩
    | cons d z =>
      exact .inr ⟨_, read, d, z, hskip, offset_beq_size
        ((Script.suffix_of_behind hbehind).trans (suffix_tail hself)), rfl⟩

/-- So for a group, which is cut between its brackets. -/
theorem findClosing_cases {closer : Char} (hc : closer? c = some closer) (rest : Text) :
    (findClosing (units (c :: rest)) 0 = .ok none ∧ Script.groupPrefix? (c :: rest) = none) ∨
    (findClosing (units (c :: rest)) 0 = .ok (some (Text.size (c :: rest) - 1)) ∧
      Script.groupPrefix? (c :: rest) = some (c :: rest, []) ∧
      ∃ h, inside (c :: rest) 1 (Text.size (c :: rest) - 1) = .ok ⟨rest.dropLast, h⟩) ∨
    ∃ close read d z, findClosing (units (c :: rest)) 0 = .ok (some close) ∧
      (close == Text.size (c :: rest) - 1) = false ∧
      Script.groupPrefix? (c :: rest) = some (read, d :: z) := by
  have hself : c :: rest <:+ c :: rest := List.suffix_refl _
  obtain ⟨hopener, hcloser⟩ := not_isInert_of_closer? hc
  have hfind := findClosing_eq hc hself
  rw [offset_self, ← Script.map_groupPrefix? hc] at hfind
  cases hread : Script.groupPrefix? (c :: rest) with
  | none => exact .inl ⟨by rw [hfind, hread]; rfl, rfl⟩
  | some found =>
    obtain ⟨read, z⟩ := found
    have hbehind : behind (.inside (.group closer)) rest = some z := by
      rw [← Script.map_groupPrefix? hc, hread]; rfl
    rw [hread] at hfind
    refine .inr ?_
    cases z with
    | nil =>
      obtain ⟨inner, rfl⟩ := Script.exists_inner_of_behind hbehind
      have htext := Script.groupPrefix?_append hread
      rw [List.append_nil] at htext
      refine .inl ⟨hfind, by rw [htext], ?_⟩
      rw [List.dropLast_concat]
      exact ⟨_, inside_enclosed hopener hcloser inner⟩
    | cons d z =>
      exact .inr ⟨_, read, d, z, hfind, pred_offset_beq hself (Script.suffix_of_behind hbehind),
        rfl⟩

theorem propertyKeyAt_eq (raw : Text) : propertyKeyAt raw = .ok (propertyKey? raw) := by
  cases raw with
  | nil => rfl
  | cons c rest =>
    have hself : c :: rest <:+ c :: rest := List.suffix_refl _
    by_cases hc : IsInert c
    · obtain ⟨d, hd, hinert⟩ := exists_getElem?_inert hself hc (Char.utf8Size_pos c)
      rw [offset_self] at hd
      simp (disch := decide) only [propertyKeyAt, propertyKey?, hd, hinert.beq_eq_false,
        hc.beq_eq_false, isNameStart_of_isInert hinert, isNameStart_of_isInert hc,
        isDigit_of_isInert hinert, isDigit_of_isInert hc, Bool.false_and, Bool.or_false,
        Bool.false_eq_true, if_false]
    · have hbyte := getElem?_ascii hself hc
      rw [offset_self] at hbyte
      simp only [propertyKeyAt, propertyKey?, hbyte]
      cases hquote : (c == '\'' || c == '"') with
      | true =>
        have hliteral : literal? c = some (.quoted c) := by rw [literal?, if_pos hquote]
        simp only [if_true, minus, if_pos (one_le_size (List.cons_ne_nil c rest)), ok_bind]
        obtain ⟨hskip, hread⟩ | ⟨hskip, hread, hslice⟩ | ⟨stop, _, d, z, hskip, hstop, hread⟩ :=
          skipString_cases hliteral rest
        · rw [hskip, hread]
          rfl
        · simp only [hskip, hread, hslice, ok_bind, beq_self_eq_true]
          rfl
        · have hpart : (some stop == some (Text.size (c :: rest))) = false := hstop
          simp only [hskip, hread, hpart, ok_bind]
          rfl
      | false =>
        have hkey : (isNameStart c && (c :: rest).all isNameChar) =
            (isNameStart c && rest.all isNameChar) := by
          rw [List.all_cons]
          cases hstart : isNameStart c with
          | false => rfl
          | true => rw [Script.isNameChar_of_isNameStart hstart, Bool.true_and]
        simp only [Bool.false_eq_true, if_false, nameEnd_beq, hkey, apply_ite Except.ok]

end

/-! ### Lists -/

theorem textsAt_eq (src : Text) :
    textsAt src = .ok ((splitTop ',' src).map fun parts =>
      (parts.map Text.trim).filter (!·.isEmpty)) := by
  rw [textsAt, splitTopLevel_eq rfl (by decide)]
  rfl

/-- A property as it is read: its key, and the text of its value unless it is a shorthand. -/
def entry : Member → Text × Option Text
  | (.shorthand name, _) => (name, none)
  | (key, value) => (key.text, some value)

theorem entry_of_ofText? {raw value : Text} {key : KeyForm} (h : KeyForm.ofText? raw = some key) :
    entry (key, value) = (key.text, some value) := by
  cases key with
  | shorthand name => exact absurd h (KeyForm.ofText?_ne_shorthand raw name)
  | _ => rfl

theorem memberAt_eq (text : Text) : memberAt text = .ok ((member? text).map entry) := by
  rw [memberAt, member?, splitTopLevel_eq rfl (by decide), ok_bind]
  split
  · rfl
  cases hsplit : splitTop ':' text with
  | none => rfl
  | some parts =>
    obtain _ | ⟨key, _ | ⟨second, others⟩⟩ := parts
    · rfl
    · simp only
      split <;> rfl
    · simp only [propertyKeyAt_eq, ok_bind,
        Script.join_others_of_splitTop hsplit (List.cons_ne_nil _ _), ← KeyForm.map_ofText?]
      cases hkey : KeyForm.ofText? (Text.trim key) with
      | none => simp
      | some form =>
        simp only [Option.map_some]
        split
        · rfl
        · rw [Option.map_some, entry_of_ofText? hkey]
          rfl

theorem within_of_le {t m : Text} (h : m.length ≤ t.length) : within t m = .ok ⟨m, h⟩ := dif_pos h

/-- The texts of a list are read one after the other. -/
theorem parseTexts_eq {src : Text} {texts : List Text}
    (h : ∀ text ∈ texts, text.length ≤ src.length ∧ parseArgument text = .ok (readArgument text)) :
    parseTexts src texts = .ok (texts.mapM readArgument) := by
  induction texts with
  | nil => rw [parseTexts]; rfl
  | cons text rest ih =>
    obtain ⟨hlength, hread⟩ := h text List.mem_cons_self
    rw [parseTexts, within_of_le hlength, List.mapM_cons, ih fun text htext =>
      h text (List.mem_cons_of_mem _ htext)]
    simp only [ok_bind, hread]
    cases readArgument text with
    | none => rfl
    | some a => cases rest.mapM readArgument <;> rfl

theorem parseMember_eq {src : Text} {member : Member}
    (h : ∀ value, (entry member).2 = some value → value.length ≤ src.length ∧
      parseArgument value = .ok (readArgument value)) :
    parseMember src (entry member).1 (entry member).2 = .ok (readMember member) := by
  obtain ⟨key, value⟩ := member
  have written (key : Text) (h : value.length ≤ src.length ∧
      parseArgument value = .ok (readArgument value)) :
      parseMember src key (some value) = .ok ((readArgument value).map (key, ·)) := by
    rw [parseMember, within_of_le h.1]
    simp only [ok_bind, h.2]
    rfl
  cases key with
  | shorthand name => rw [entry, parseMember]; rfl
  | word name => exact written name (h value rfl)
  | quoted quote body => exact written (decode body) (h value rfl)
  | numeral text => exact written text (h value rfl)

/-- The properties of an object are read one after the other. -/
theorem parseMembers_eq {src : Text} {texts : List Text}
    (h : ∀ text ∈ texts, ∀ member, member? text = some member → ∀ value, (entry member).2 =
      some value → value.length ≤ src.length ∧ parseArgument value = .ok (readArgument value)) :
    parseMembers src texts = .ok (texts.mapM fun text => (member? text).bind readMember) := by
  induction texts with
  | nil => rw [parseMembers]; rfl
  | cons text rest ih =>
    rw [parseMembers, memberAt_eq, List.mapM_cons, ih fun text htext =>
      h text (List.mem_cons_of_mem _ htext)]
    simp only [ok_bind]
    cases hmember : member? text with
    | none => rfl
    | some member =>
      have hread := parseMember_eq (h text List.mem_cons_self member hmember)
      simp only [Option.map_some, hread, ok_bind, Option.bind_some]
      cases readMember member with
      | none => rfl
      | some p => cases rest.mapM fun text => (member? text).bind readMember <;> rfl

/-! ### One argument -/

/-- The argument that a text which may be a call spells. -/
theorem readPlain_eq (text : Text) :
    readPlain text =
      match Decimal.ofScript? text with
      | some value => .number value
      | none =>
        if isPath text then if text == "undefined" || text == "null" || text == "true" ||
          text == "false" then .other text else .name text
        else (callParts? text).elim (.other text) fun p =>
          ((readArguments p.2).map (.call p.1 · text)).getD (.other text) := by
  rw [readPlain.eq_def]
  cases Decimal.ofScript? text with
  | some value => rfl
  | none =>
    dsimp only
    split
    · rfl
    · split
      · next hcall => simp only [hcall, Option.elim_none]
      · next callee inner hcall =>
        simp only [hcall, Option.elim_some]
        cases readArguments inner <;> rfl

section

variable {text : Text} (hne : text ≠ [])
  (hlists : ∀ inner : Text, inner.length < text.length →
    parseArguments inner = .ok (readArguments inner))

include hne hlists

theorem parsePlain_eq : parsePlain text = .ok (readPlain text) := by
  obtain ⟨parts, hparts, hmodel⟩ := callPartsAt_eq hne
  rw [parsePlain, readPlain_eq, hparts, ← hmodel]
  cases Decimal.ofScript? text with
  | some value => rfl
  | none =>
    cases isPath text with
    | true => rfl
    | false =>
      cases parts with
      | none => rfl
      | some found =>
        obtain ⟨callee, inner, hlength⟩ := found
        simp only [Bool.false_eq_true, if_false, ok_bind, hlists inner hlength]
        rfl

/-- **An argument is read from the text between its first and its last byte.** -/
theorem parseArgument_eq
    (hobjects : ∀ inner : Text, inner.length < text.length →
      parseProperties inner = .ok (readProperties inner)) :
    parseArgument text = .ok (readArgument text) := by
  have hplain := parsePlain_eq hne hlists
  obtain ⟨c, rest, rfl⟩ := List.exists_cons_of_ne_nil hne
  rw [parseArgument, readArgument.eq_def, minus, if_pos (one_le_size hne), ok_bind]
  simp only [hplain]
  obtain hbyte | ⟨d, hbyte, hd, hc⟩ := byteAt_zero_cases c rest
  · rw [hbyte, ok_bind]
    cases hliteral : literal? c with
    | some r =>
      simp only [Option.isSome_some, if_true]
      obtain ⟨hskip, hread⟩ | ⟨hskip, hread, hslice⟩ | ⟨stop, _, d, z, hskip, hstop, hread⟩ :=
        skipString_cases hliteral rest
      · rw [hskip, hread]
        rfl
      · simp only [hskip, hread, hslice, ok_bind, beq_self_eq_true]
        rfl
      · simp only [hskip, hread, hstop, ok_bind]
        rfl
    | none =>
      simp only [Option.isSome_none, Bool.false_eq_true, if_false]
      by_cases hbracket : c = '['
      · subst hbracket
        simp only [if_true, beq_self_eq_true]
        obtain ⟨hfind, hread⟩ | ⟨hfind, hread, hshorter, hinside⟩
            | ⟨close, _, d, z, hfind, hclose, hread⟩ :=
          findClosing_cases (show closer? '[' = some ']' from rfl) rest
        · rw [hfind, hread]
          rfl
        · simp only [hfind, hread, hinside, ok_bind, beq_self_eq_true, if_true, hlists _ hshorter]
          rfl
        · simp only [hfind, hread, hclose, ok_bind]
          rfl
      by_cases hbrace : c = '\x7b'
      · subst hbrace
        simp only [show ('\x7b' == '[') = false from rfl, Bool.false_eq_true, if_false, if_true,
          beq_self_eq_true]
        obtain ⟨hfind, hread⟩ | ⟨hfind, hread, hshorter, hinside⟩
            | ⟨close, _, d, z, hfind, hclose, hread⟩ :=
          findClosing_cases (show closer? '\x7b' = some '\x7d' from rfl) rest
        · rw [hfind, hread]
          rfl
        · simp only [hfind, hread, hinside, ok_bind, beq_self_eq_true, if_true, hobjects _ hshorter]
          cases readProperties rest.dropLast <;> rfl
        · simp only [hfind, hread, hclose, ok_bind]
          rfl
      · simp only [beq_iff_eq, hbracket, hbrace, if_false]
        rfl
  · have literal {e : Char} (he : IsInert e) : literal? e = none :=
      Option.eq_none_iff_forall_ne_some.mpr fun r hr => not_isInert_of_literal? hr he
    simp (disch := decide) only [hbyte, ok_bind, literal hd, literal hc, hd.beq_eq_false,
      hc.beq_eq_false, Option.isSome_none, Bool.false_eq_true, if_false]
    rfl

end

/-! ### Arguments and properties -/

/-- No text of a list is longer than the list, and none is empty. -/
theorem texts_le {list : Text} {parts : List Text} (h : splitTop ',' list = some parts) :
    ∀ text ∈ (parts.map Text.trim).filter (!·.isEmpty), text.length ≤ list.length ∧ text ≠ [] := by
  intro text htext
  obtain ⟨hmem, hne⟩ := List.mem_filter.mp htext
  obtain ⟨part, hpart, rfl⟩ := List.mem_map.mp hmem
  exact ⟨(Text.length_trim_le part).trans
    (Script.length_le_of_mem_splitFrom h part hpart), by simpa using hne⟩

/-- The value of a property is no longer than the property, and not empty. -/
theorem value_le {text value : Text} {member : Member} (h : member? text = some member)
    (hvalue : (entry member).2 = some value) :
    value.length ≤ text.length ∧ value ≠ [] := by
  obtain ⟨key, written⟩ := member
  obtain rfl : written = value := by cases key <;> cases hvalue <;> rfl
  refine ⟨length_le_of_member? h, ?_⟩
  rw [member?] at h
  split at h
  · cases h
  split at h
  · simp only at h
    split at h
    · cases h; cases hvalue
    · cases h
  · simp only at h
    split at h
    · cases h
    · next hne =>
      obtain ⟨form, -, he⟩ := Option.map_eq_some_iff.mp h
      cases he
      simpa using hne
  · cases h

/-- **What is read by offsets is what is read by characters**: every list of arguments and every
list of properties is. -/
theorem parse_eq (src : Text) :
    parseArguments src = .ok (readArguments src) ∧
      parseProperties src = .ok (readProperties src) := by
  generalize hn : src.length = n
  induction n using Nat.strongRecOn generalizing src with
  | ind n ih =>
    subst hn
    have argument {text : Text} (hle : text.length ≤ src.length) (hne : text ≠ []) :
        parseArgument text = .ok (readArgument text) :=
      parseArgument_eq hne (fun inner h => (ih _ (h.trans_le hle) inner rfl).1) fun inner h =>
        (ih _ (h.trans_le hle) inner rfl).2
    constructor
    · rw [parseArguments, stripComments_eq, ok_bind, textsAt_eq, readArguments_eq_mapM,
        argumentTexts?]
      cases hsplit : splitTop ',' (withoutComments src) with
      | none => rfl
      | some parts =>
        refine parseTexts_eq fun text htext => ?_
        obtain ⟨hle, hne⟩ := texts_le hsplit text htext
        have hle := hle.trans (Script.length_stripFrom_le 0 0 src)
        exact ⟨hle, argument hle hne⟩
    · rw [parseProperties, textsAt_eq, readProperties_eq, members?, listTexts?]
      cases hsplit : splitTop ',' src with
      | none => rfl
      | some parts =>
        simp only [Option.map_some, Option.bind_some, ← mapM_bind]
        refine parseMembers_eq fun text htext member hmember value hvalue => ?_
        obtain ⟨hshorter, hne⟩ := value_le hmember hvalue
        have hle := hshorter.trans (texts_le hsplit text htext).1
        exact ⟨hle, argument hle hne⟩

theorem parseArguments_eq (src : Text) : parseArguments src = .ok (readArguments src) :=
  (parse_eq src).1

end Localization.Offset
