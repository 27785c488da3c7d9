import Mathlib
import Localization.Proofs.Marker.Starts
import Localization.Proofs.Offset.Reader
import Localization.Proofs.Offset.Walk
import Localization.Proofs.Script.Apart

/-! Calls by offsets.

A call is found at the offset of its name: its parentheses are looked for behind the name, what
stands between them is read as its arguments, and its range reaches from its name to behind its
closing parenthesis (`callFrom`). A scan so finds the calls that are found by characters, with
the offsets that these have in bytes (`scanCalls_eq`), whatever the text is: no step of it asks
for what is not there. The range of such a call is told by its bytes (`Spanned.IsCallOf`). -/
namespace Localization.Offset

open Marker (Call Family afterCallee? afterCallee?_append aliases scanName scan inOrder)
open Script (Cursor IsApart closer? groupPrefix? isNameChar behind occurrences)

/-! ### The scan -/

/-- A call with the offsets of its first byte and of the byte behind its last one. -/
structure Spanned where
  family : Family
  start : Nat
  stop : Nat
  raw : Text
  arguments : List Argument
  deriving Repr

/-- A call of a text, with its offsets there. -/
def Spanned.of (code : Text) (call : Call) : Spanned :=
  ⟨call.family, (call.byteSpan code).1, (call.byteSpan code).2, call.raw, call.arguments⟩

/-- Behind the call whose name stands at an offset, and its arguments. -/
def callFrom (name code : Text) (start : Nat) : Checked (Option (Nat × List Argument)) := do
  match ← afterNameAt (units code) (start + Text.size name) with
  | none => return none
  | some opening =>
    match ← closingParenthesis (units code) opening with
    | none => return none
    | some close => return (← parseArguments (← slice code (opening + 1) close)).map (close + 1, ·)

/-- The call whose name stands at an offset. -/
def spannedFrom (family : Family) (name code : Text) (start : Nat) : Checked (Option Spanned) := do
  match ← callFrom name code start with
  | none => return none
  | some (stop, arguments) => return some ⟨family, start, stop, ← slice code start stop, arguments⟩

/-- The calls of one name. -/
def spannedCalls (family : Family) (name code : Text) : Checked (List Spanned) := do
  return (← (← findNames name code).mapM (spannedFrom family name code)).reduceOption

/-- The calls of a family whose marker goes by its aliases, in the order of their starts. -/
def scanCalls (family : Family) (marker code : Text) : Checked (List Spanned) := do
  if Text.occursIn marker code then
    let calls ← (aliases family marker code).mapM fun name => spannedCalls family name code
    return calls.flatten.mergeSort fun a b => a.start ≤ b.start
  else return []

/-! ### What is found -/

theorem mapM_ok {α β : Type} {f : α → Checked β} {g : α → β} {l : List α}
    (h : ∀ a ∈ l, f a = .ok (g a)) :
    l.mapM f = .ok (l.map g) := by
  induction l with
  | nil => rfl
  | cons a rest ih =>
    rw [List.mapM_cons, h a List.mem_cons_self, ok_bind, ih fun b hb =>
      h b (List.mem_cons_of_mem _ hb)]
    rfl

/-- The call at a place, with its offsets. -/
theorem Spanned.of_around (family : Family) (before after raw : Text) (arguments : List Argument) :
    Spanned.of (around before after) ⟨family, before.length, raw, arguments⟩ =
      ⟨family, Text.size before, Text.size before + Text.size raw, raw, arguments⟩ := by
  simp only [Spanned.of, Call.byteSpan, around, List.take_left' List.length_reverse,
    Script.size_reverse]

theorem slice_around (before raw rest : Text) :
    slice (around before (raw ++ rest)) (Text.size before) (Text.size before + Text.size raw) =
      .ok raw := by
  have hslice := slice_append before.reverse raw rest
  rwa [Text.size_append, Script.size_reverse, List.append_assoc] at hslice

section

variable (name before b : Text)

/-- **A call is read behind its name**, up to where its text ends. -/
theorem callFrom_eq :
    callFrom name (around before (name ++ b)) (Text.size before) =
      .ok ((Marker.callAt? name ⟨before, name ++ b⟩).map fun p =>
        (Text.size before + Text.size p.1, p.2)) := by
  have hstart : Text.size before = offset (around before (name ++ b)) (name ++ b) :=
    (offset_around ..).symm
  have hbehind : Text.size before + Text.size name = offset (around before (name ++ b)) b := by
    rw [around, ← List.append_assoc, offset_append, Text.size_append, Script.size_reverse]
  have hname : name ++ b <:+ around before (name ++ b) := List.suffix_append _ _
  generalize around before (name ++ b) = code at hstart hbehind hname ⊢
  have hb : b <:+ code := (List.suffix_append name b).trans hname
  rw [callFrom, hbehind, afterNameAt_eq hb, ok_bind, Marker.callAt?, List.drop_left]
  cases hopening : afterCallee? b with
  | none => rfl
  | some opening =>
    obtain ⟨gap, rfl⟩ := afterCallee?_append hopening
    have hsuffix : opening <:+ code := (List.suffix_append gap opening).trans hb
    simp only [Option.map_some, Option.bind_eq_bind, Option.bind_some]
    by_cases hhead : opening.head? = some '('
    · obtain ⟨rest, rfl⟩ := List.head?_eq_some_iff.mp hhead
      rw [closingParenthesis_eq hsuffix, if_pos (beq_iff_eq.mpr hhead), ok_bind]
      obtain ⟨hnone, hbehind⟩ | ⟨inner, z, rfl, hgroup, hbehind⟩ :=
        Script.groupPrefix?_cases (show closer? '(' = some ')' from rfl) rest
      · rw [hnone, hbehind]
        rfl
      · have hz : ')' :: z <:+ code := (List.suffix_append inner _).trans (suffix_tail hsuffix)
        have hclose : offset code z = offset code (')' :: z) + 1 := offset_ascii hz (by decide)
        have hinner := slice_offset (suffix_tail hsuffix)
        rw [offset_ascii hsuffix (by decide)] at hinner
        rw [hgroup, hbehind]
        simp only [Option.map_some, hclose, Nat.add_sub_cancel, hinner, ok_bind, parseArguments_eq,
          Option.bind_some, List.drop_one, List.tail_cons, List.dropLast_concat]
        cases readArguments inner with
        | none => rfl
        | some arguments =>
          have htext : name ++ (gap ++ '(' :: (inner ++ ')' :: z)) =
              name ++ (gap ++ '(' :: (inner ++ [')'])) ++ z := by simp
          rw [htext] at hname hstart ⊢
          have hstop := offset_behind hname
          rw [← hstart, hclose] at hstop
          have hlength (raw : Text) : (raw ++ z).length - z.length = raw.length := by simp
          rw [hlength, List.take_left, Option.map_some, hstop]
          rfl
    · rw [closingParenthesis_none hsuffix hhead, if_neg (by simpa using hhead)]
      rfl

/-- **A call has the text of its range.** -/
theorem spannedFrom_eq (family : Family) :
    spannedFrom family name (around before (name ++ b)) (Text.size before) =
      .ok ((Marker.callAt? name ⟨before, name ++ b⟩).map fun p =>
        Spanned.of (around before (name ++ b)) ⟨family, before.length, p.1, p.2⟩) := by
  rw [spannedFrom, callFrom_eq, ok_bind]
  cases hcall : Marker.callAt? name ⟨before, name ++ b⟩ with
  | none => rfl
  | some found =>
    obtain ⟨raw, arguments⟩ := found
    obtain ⟨-, -, rest, hafter, -⟩ := Marker.raw_of_callAt? hcall (List.prefix_append name b)
    have hafter : name ++ b = raw ++ rest := hafter
    rw [hafter, Option.map_some, Option.map_some, Spanned.of_around]
    simp only [slice_around, ok_bind]
    rfl

end

variable (family : Family) (marker name code : Text)

theorem spannedCalls_eq :
    spannedCalls family name code = .ok ((scanName family name code).map (Spanned.of code)) := by
  have hplaces : ∀ place ∈ occurrences name code,
      (spannedFrom family name code ∘ fun place : Cursor => Text.size place.before) place =
      .ok ((Marker.callAt? name place).map fun p =>
        Spanned.of code ⟨family, place.position, p.1, p.2⟩) := by
    rintro ⟨before, after⟩ hplace
    obtain ⟨hcode, _, hown⟩ := Script.isPlace_of_mem_occurrencesFrom hplace
    obtain ⟨b, hafter⟩ :=
      (Script.takeWhile_of_isOccurrence hown).1 ▸ List.takeWhile_prefix (l := after) isNameChar
    have hcode : around before after = code := hcode
    subst hcode
    have hafter : name ++ b = after := hafter
    subst hafter
    exact spannedFrom_eq name before b family
  rw [spannedCalls, findNames_eq, ok_bind, List.mapM_map, mapM_ok hplaces, ok_bind, scanName,
    List.map_filterMap, List.reduceOption, List.filterMap_map]
  simp only [Option.map_map]
  rfl

/-- Calls are in the same order by characters and by bytes. -/
theorem map_inOrder {calls : List Call} (h : ∀ call ∈ calls, call.IsAt code) :
    (inOrder calls).map (Spanned.of code) = (calls.map (Spanned.of code)).mergeSort fun a b =>
      a.start ≤ b.start := by
  refine List.map_mergeSort fun a ha b _ => ?_
  obtain ⟨front, behind, rfl, hfront⟩ := (h a ha).split
  rw [decide_eq_decide]
  exact (Text.size_take_le_iff (by rw [← hfront, List.length_append]; omega)).symm

/-- **A scan by offsets is the scan by characters.** -/
theorem scanCalls_eq :
    scanCalls family marker code = .ok ((scan family marker code).map (Spanned.of code)) := by
  rw [scanCalls, scan]
  split
  · rw [mapM_ok fun name _ => spannedCalls_eq family name code, ok_bind, map_inOrder,
      List.map_flatMap, List.flatMap_def]
    · rfl
    · intro call hcall
      obtain ⟨name, -, hcall⟩ := List.mem_flatMap.mp hcall
      exact Marker.isAt_of_mem_scanName hcall
  · rfl

/-! ### Ranges of calls -/

/-- What the range of a call of a name is, told by bytes. -/
structure Spanned.IsCallOf (name code : Text) (call : Spanned) : Prop where
  /-- The range is one of whole characters of the text, and the text of the call stands there. -/
  within : ∃ before after, code = before ++ (call.raw ++ after) ∧ Text.size before = call.start ∧
    Text.size (before ++ call.raw) = call.stop
  raw_eq : slice code call.start call.stop = .ok call.raw
  ne_nil : name ≠ []
  isPrefix : name <+: call.raw
  /-- The byte before the call is in no name. -/
  before : ∀ i b, i + 1 = call.start → (units code)[i]? = some b → isNameChar b = false
  /-- Nor is the byte behind the name. -/
  behind : ∀ b, (units code)[call.start + Text.size name]? = some b → isNameChar b = false
  /-- The last byte is the parenthesis that closes the one behind the name. -/
  closes : ∃ opening close, afterNameAt (units code) (call.start + Text.size name) =
    .ok (some opening) ∧
    (units code)[opening]? = some '(' ∧ findClosing (units code) opening = .ok (some close) ∧
    (units code)[close]? = some ')' ∧
    call.stop = close + 1

section

variable {before after : Text}

/-- No name goes on into a whole name from the byte before it. -/
theorem not_isNameChar_byteBefore (h : IsApart before.reverse after)
    (hafter : after.head?.any isNameChar = true) {i : Nat} {b : Char}
    (hi : i + 1 = Text.size before) (hb : (units (around before after))[i]? = some b) :
    isNameChar b = false := by
  have hbyte := getElem?_around (show 0 < Text.size before by omega) after
  rw [Nat.sub_zero, ← hi, Nat.add_sub_cancel, hb, ← List.head?_eq_getElem?] at hbyte
  have hany := any_head?_back (fun _ => isNameChar_of_isInert) before
  rw [← hbyte, Option.any_some] at hany
  rw [hany, Option.any_eq_false]
  intro c hc
  rw [Bool.eq_false_iff]
  intro hname
  obtain ⟨d, hd, hdname⟩ := (Option.any_eq_true _ _).mp hafter
  rw [IsApart, List.getLast?_reverse] at h
  rw [h c hc d hd hname] at hdname
  cases hdname

/-- A name ends in front of the byte behind it. -/
theorem not_isNameChar_byteBehind {code b : Text} (hb : b <:+ code)
    (h : ∀ d ∈ b.head?, isNameChar d = false) {e : Char}
    (he : (units code)[offset code b]? = some e) : isNameChar e = false := by
  by_cases hinert : IsInert e
  · exact isNameChar_of_isInert hinert
  · rw [getElem?_offset hb, head?_units_iff hinert] at he
    exact h e he

end

/-- A call ends with the parenthesis that closes the one behind its name. -/
theorem exists_closing {code b inner rest : Text} (hb : b <:+ code)
    (hopening : afterCallee? b = some ('(' :: (inner ++ rest)))
    (hgroup : groupPrefix? ('(' :: (inner ++ rest)) = some ('(' :: inner, rest)) :
    ∃ opening close, afterNameAt (units code) (offset code b) = .ok (some opening) ∧
      (units code)[opening]? = some '(' ∧
      findClosing (units code) opening = .ok (some close) ∧ (units code)[close]? = some ')' ∧
      offset code rest = close + 1 := by
  obtain ⟨gap, rfl⟩ := afterCallee?_append hopening
  have hopener : '(' :: (inner ++ rest) <:+ code := (List.suffix_append gap _).trans hb
  have hbehind : behind (.inside (.group ')')) (inner ++ rest) = some rest := by
    rw [← Script.map_groupPrefix? (show closer? '(' = some ')' from rfl), hgroup]
    rfl
  obtain ⟨front, hfront⟩ := Script.exists_inner_of_behind hbehind
  have hcloser : ')' :: rest <:+ code :=
    (List.suffix_append front _).trans (hfront ▸ suffix_tail hopener)
  have hclose : offset code rest = offset code (')' :: rest) + 1 := offset_ascii hcloser (by decide)
  refine ⟨offset code ('(' :: (inner ++ rest)), offset code (')' :: rest), ?_, ?_, ?_, ?_, hclose⟩
  · rw [afterNameAt_eq hb, hopening]
    rfl
  · exact getElem?_ascii hopener (by decide)
  · rw [findClosing_eq rfl hopener, hbehind, Option.map_some, hclose, Nat.add_sub_cancel]
  · exact getElem?_ascii hcloser (by decide)

/-- **The range of a call that is found is sound.** -/
theorem isCallOf_of_mem_scanName {family : Family} {name code : Text} {call : Call}
    (h : call ∈ scanName family name code) :
    (Spanned.of code call).IsCallOf name code := by
  obtain ⟨⟨before, after⟩, hplace, hcall⟩ := List.mem_filterMap.mp h
  obtain ⟨⟨raw, arguments⟩, hat, rfl⟩ := Option.map_eq_some_iff.mp hcall
  obtain ⟨hcode, _, hown⟩ := Script.isPlace_of_mem_occurrencesFrom hplace
  have hapart := Script.isApart_of_mem_occurrences hplace
  obtain ⟨hname, hstart⟩ := Script.takeWhile_of_isOccurrence hown
  obtain ⟨gap, group, rest, hafter, hraw, hopening, hhead, hgroup, -⟩ :=
    Marker.raw_of_callAt? hat (hname ▸ List.takeWhile_prefix _)
  obtain ⟨inner, rfl⟩ := List.head?_eq_some_iff.mp hhead
  obtain rfl : around before after = code := hcode
  obtain ⟨first, more, rfl⟩ : ∃ c more, name = c :: more := by
    cases name with
    | nil => cases hstart
    | cons c more => exact ⟨c, more, rfl⟩
  rw [List.cons_append] at hopening hgroup
  -- The text from the name on, cut where the call ends, and cut where the name does.
  have hcut : after = raw ++ rest := hafter
  have hcut' : after = first :: more ++ (gap ++ '(' :: (inner ++ rest)) := by simp [hcut, hraw]
  have hnext : after.dropWhile isNameChar = gap ++ '(' :: (inner ++ rest) := by
    have htext := List.takeWhile_append_dropWhile (p := isNameChar) (l := after)
    rw [hname] at htext
    exact List.append_cancel_left (htext.trans hcut')
  have hfirst : after.head?.any isNameChar = true := by
    rw [hcut']
    exact Script.isNameChar_of_isNameStart hstart
  have hsuffix : after <:+ around before after := List.suffix_append _ _
  have hb : gap ++ '(' :: (inner ++ rest) <:+ around before after :=
    hnext ▸ (List.dropWhile_suffix _).trans hsuffix
  have hstop := offset_behind (hcut ▸ hsuffix)
  have hbehind := offset_behind (hcut' ▸ hsuffix)
  rw [← hcut, offset_around] at hstop
  rw [← hcut', offset_around] at hbehind
  show (Spanned.of (around before after) ⟨family, before.length, raw, arguments⟩).IsCallOf
    (first :: more) (around before after)
  rw [Spanned.of_around]
  exact {
    within :=
      ⟨before.reverse, rest, by rw [around, hcut],
        Script.size_reverse before, by rw [Text.size_append, Script.size_reverse]⟩
    raw_eq := hcut ▸ slice_around before raw rest
    ne_nil := List.cons_ne_nil first more
    isPrefix := ⟨_, hraw.symm⟩
    before := fun i b => not_isNameChar_byteBefore hapart hfirst
    behind :=
      fun b hbyte => not_isNameChar_byteBehind hb (fun d hd =>
        Script.of_mem_head?_dropWhile (hnext ▸ hd)) (hbehind ▸ hbyte)
    closes := by
      rw [← hbehind, ← hstop]
      exact exists_closing hb hopening hgroup }

/-- **A scan is safe and its ranges are sound.** Whatever the text is, no step of it asks for a
byte or a range that is not there or cuts a character, and none goes below zero or does not go
on: it finds the calls that are found by characters. These start one behind the other, each
stands in the text where it says, begins with a whole name of its family and ends with the
parenthesis that closes the one behind the name. -/
theorem scanCalls_sound (family : Family) (marker code : Text) :
    ∃ calls, scanCalls family marker code = .ok calls ∧
      calls = (scan family marker code).map (Spanned.of code) ∧
      calls.Pairwise (fun a b => a.start < b.start) ∧
      ∀ call ∈ calls, call.family = family ∧ ∃ name ∈ aliases family marker code,
        call.IsCallOf name code := by
  refine ⟨_, scanCalls_eq family marker code, rfl, ?_, ?_⟩
  · rw [List.pairwise_map]
    refine (Marker.pairwise_scan family marker code).imp_of_mem fun {a b} _ hb hab => ?_
    obtain ⟨front, behind, hcode, hfront⟩ := (Marker.isAt_of_mem_scan hb).split
    refine Text.size_take_lt hab ?_
    rw [hcode, ← hfront, List.length_append]
    omega
  · intro call hcall
    obtain ⟨found, hfound, rfl⟩ := List.mem_map.mp hcall
    rw [scan] at hfound
    split at hfound
    · rw [inOrder, List.mem_mergeSort, List.mem_flatMap] at hfound
      obtain ⟨name, hname, hfound⟩ := hfound
      refine ⟨?_, name, hname, isCallOf_of_mem_scanName hfound⟩
      obtain ⟨_, -, hread⟩ := List.mem_filterMap.mp hfound
      obtain ⟨_, -, rfl⟩ := Option.map_eq_some_iff.mp hread
      rfl
    · cases hfound

end Localization.Offset
