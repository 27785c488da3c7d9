import Mathlib
import Localization.Marker.Call
import Localization.Proofs.Extraction.Collected
import Localization.Proofs.Script.Balanced

/-! Where calls stand.

Every call that a scan reports stands in the text where it says: `isAt_of_mem_scan`. Its text
starts with the name that was scanned for and is not empty, and its arguments are those that stand
between its parentheses: `readArguments_inner`. -/
namespace Localization.Script

/-- An occurrence is a place of the text that was walked through. -/
theorem isPlace_of_mem_occurrencesFrom {name : Text} {skip : Nat} {frames : List Frame}
    {before t : Text} {place : Cursor} (h : place ∈ occurrencesFrom name skip frames before t) :
    place.before.reverse ++ place.after = before.reverse ++ t ∧
      ∃ own, isOccurrence name own place = true := by
  induction t generalizing skip frames before with
  | nil => simp [occurrencesFrom] at h
  | cons c rest ih =>
    have hmove : (c :: before).reverse ++ rest = before.reverse ++ c :: rest := by simp
    cases skip with
    | succ skip => rw [occurrencesFrom] at h; rw [← hmove]; exact ih h
    | zero =>
      rw [occurrencesFrom] at h
      split at h
      · next hown =>
        rcases List.mem_cons.mp h with rfl | h
        · exact ⟨rfl, frames, hown⟩
        · rw [← hmove]; exact ih h
      · rw [← hmove]; exact ih h

/-- The name stands at an occurrence of it, and it is not empty. -/
theorem takeWhile_of_isOccurrence {name : Text} {frames : List Frame} {place : Cursor}
    (h : isOccurrence name frames place = true) :
    place.after.takeWhile isNameChar = name ∧ (name.head?.map isNameStart).getD false = true := by
  rw [isOccurrence, Bool.and_eq_true, Bool.and_eq_true, Bool.and_eq_true, beq_iff_eq] at h
  obtain ⟨⟨⟨-, hstart⟩, hname⟩, -⟩ := h
  refine ⟨hname, ?_⟩
  cases hafter : place.after with
  | nil => simp [hafter] at hstart
  | cons c rest =>
    rw [hafter] at hname hstart
    have hc : isNameChar c = true := by
      simp only [isNameStart, isNameChar, Char.isAlphanum, Bool.or_eq_true] at hstart ⊢
      tauto
    rw [← hname, List.takeWhile_cons_of_pos hc]
    simpa using hstart

/-- What is read as type arguments stands in front of the rest. -/
theorem typeArgumentsFrom_append {depth : Nat} {s : State} {t read after : Text}
    (h : typeArgumentsFrom depth s t = some (read, after)) : t = read ++ after := by
  induction t generalizing depth s read with
  | nil => simp [typeArgumentsFrom] at h
  | cons c rest ih =>
    have step {d : Nat} {s' : State}
        (h : ((typeArgumentsFrom d s' rest).map fun p => (c :: p.1, p.2)) = some (read, after)) :
        c :: rest = read ++ after := by
      obtain ⟨⟨r, a⟩, hr, he⟩ := Option.map_eq_some_iff.mp h
      cases he
      rw [ih hr, List.cons_append]
    simp only [typeArgumentsFrom] at h
    repeat' split at h
    all_goals first
      | exact step h
      | cases h; rfl
      | cases h

theorem typeArgumentsFrom_ne_nil {depth : Nat} {s : State} {t read after : Text}
    (h : typeArgumentsFrom depth s t = some (read, after)) : read ≠ [] := by
  cases t with
  | nil => simp [typeArgumentsFrom] at h
  | cons c rest =>
    rintro rfl
    have step {d : Nat} {s' : State}
        (h : ((typeArgumentsFrom d s' rest).map fun p => (c :: p.1, p.2)) = some ([], after)) :
        False := by
      obtain ⟨p, -, he⟩ := Option.map_eq_some_iff.mp h
      cases he
    simp only [typeArgumentsFrom] at h
    repeat' split at h
    all_goals first
      | exact step h
      | cases h

/-- Type arguments are read alike whatever follows them. -/
theorem typeArgumentsFrom_append_of {depth : Nat} {s : State} {t read after : Text}
    (h : typeArgumentsFrom depth s t = some (read, after)) (z : Text) :
    typeArgumentsFrom depth s (read ++ z) = some (read, z) := by
  induction t generalizing depth s read with
  | nil => simp [typeArgumentsFrom] at h
  | cons c rest ih =>
    -- The character behind `c` is looked at; it is part of what is read.
    have step {d : Nat} {s' : State}
        (h : ((typeArgumentsFrom d s' rest).map fun p => (c :: p.1, p.2)) = some (read, after)) :
        ∃ more, read = c :: more ∧ (more ++ z).head? = rest.head? ∧
          typeArgumentsFrom d s' (more ++ z) = some (more, z) := by
      obtain ⟨⟨more, a⟩, hr, he⟩ := Option.map_eq_some_iff.mp h
      cases he
      refine ⟨more, rfl, ?_, ih hr⟩
      rw [typeArgumentsFrom_append hr, List.head?_append_of_ne_nil _ (typeArgumentsFrom_ne_nil hr),
        List.head?_append_of_ne_nil _ (typeArgumentsFrom_ne_nil hr)]
    simp only [typeArgumentsFrom] at h
    repeat' split at h
    all_goals first
      | obtain ⟨more, rfl, hhead, hmore⟩ := step h
        simp_all [typeArgumentsFrom]
        done
      | cases h
        simp_all [typeArgumentsFrom]
      | cases h

end Localization.Script

namespace Localization.Marker

open Script

/-- A call stands in a text where it says. -/
structure Call.IsAt (code : Text) (call : Call) : Prop where
  split : ∃ before after, code = before ++ (call.raw ++ after) ∧ before.length = call.start
  ne_nil : call.raw ≠ []

theorem afterCallee?_append {t opening : Text} (h : afterCallee? t = some opening) :
    ∃ gap, t = gap ++ opening := by
  unfold afterCallee? at h
  split at h
  · obtain ⟨⟨read, after⟩, hr, rfl⟩ := Option.map_eq_some_iff.mp h
    exact ⟨read, typeArgumentsFrom_append hr⟩
  · cases h
    exact ⟨t.takeWhile Text.isAsciiBlank, (List.takeWhile_append_dropWhile ..).symm⟩

/-- A call is read from its name, what separates that from its arguments, and the group of these. -/
theorem callAt?_eq_some_iff {name : Text} {place : Cursor} {raw : Text}
    {arguments : List Argument} :
    callAt? name place = some (raw, arguments) ↔
      ∃ opening group rest, afterCallee? (place.after.drop name.length) = some opening ∧
        opening.head? = some '(' ∧ groupPrefix? opening = some (group, rest) ∧
        readArguments (group.drop 1).dropLast = some arguments ∧
        raw = place.after.take (place.after.length - rest.length) := by
  unfold callAt?
  constructor
  · intro h
    obtain ⟨opening, hopening, h⟩ := Option.bind_eq_some_iff.mp h
    split at h
    · next hhead =>
      obtain ⟨⟨group, rest⟩, hgroup, h⟩ := Option.bind_eq_some_iff.mp h
      obtain ⟨read, hread, h⟩ := Option.bind_eq_some_iff.mp h
      cases h
      exact ⟨opening, group, rest, hopening, by simpa using hhead, hgroup, hread, rfl⟩
    · cases h
  · rintro ⟨opening, group, rest, hopening, hhead, hgroup, hread, rfl⟩
    rw [List.drop_one] at hread
    simp [hopening, hhead, hgroup, hread]

/-- A call's text is its name, what separates that from its arguments, and the group of these. -/
theorem raw_of_callAt? {name : Text} {place : Cursor} {raw : Text} {arguments : List Argument}
    (h : callAt? name place = some (raw, arguments)) (hname : name <+: place.after) :
    ∃ gap group rest, place.after = raw ++ rest ∧ raw = name ++ (gap ++ group) ∧
      afterCallee? (gap ++ (group ++ rest)) = some (group ++ rest) ∧ group.head? = some '(' ∧
      groupPrefix? (group ++ rest) = some (group, rest) ∧
      readArguments (group.drop 1).dropLast = some arguments := by
  obtain ⟨opening, group, rest, hopening, hhead, hgroup, hread, hraw⟩ := callAt?_eq_some_iff.mp h
  obtain ⟨behind, hbehind⟩ := hname
  rw [← hbehind, List.drop_left] at hopening
  obtain ⟨gap, rfl⟩ := afterCallee?_append hopening
  obtain rfl := groupPrefix?_append hgroup
  have hne : group ≠ [] := by
    rintro rfl
    rw [List.nil_append] at hgroup hhead
    cases rest with
    | nil => cases hhead
    | cons c rest =>
      simp only [groupPrefix?] at hgroup
      split at hgroup
      · cases hgroup
      · obtain ⟨p, -, he⟩ := Option.map_eq_some_iff.mp hgroup
        cases he
  have htext : place.after = name ++ (gap ++ group) ++ rest := by
    rw [← hbehind]
    simp only [List.append_assoc]
  have hlen : place.after.length - rest.length = (name ++ (gap ++ group)).length := by
    rw [htext, List.length_append]
    omega
  rw [hlen, htext, List.take_left] at hraw
  subst hraw
  refine ⟨gap, group, rest, htext, rfl, hopening, ?_, hgroup, hread⟩
  cases group with
  | nil => exact absurd rfl hne
  | cons c group => simpa using hhead

/-- **A call that is found stands in the text where it says.** -/
theorem isAt_of_mem_scanName {family : Family} {name code : Text} {call : Call}
    (h : call ∈ scanName family name code) : call.IsAt code := by
  rw [scanName, List.mem_filterMap] at h
  obtain ⟨place, hplace, h⟩ := h
  obtain ⟨⟨raw, arguments⟩, hcall, rfl⟩ := Option.map_eq_some_iff.mp h
  obtain ⟨hcode, frames, hown⟩ := isPlace_of_mem_occurrencesFrom hplace
  have hname := takeWhile_of_isOccurrence hown
  obtain ⟨gap, group, rest, hafter, hraw, -, hhead, -, -⟩ :=
    raw_of_callAt? hcall (hname.1 ▸ List.takeWhile_prefix _)
  constructor
  · refine ⟨place.before.reverse, rest, ?_, List.length_reverse⟩
    rw [← hafter]
    exact hcode.symm
  · rintro hnil
    have hnil' : raw = [] := hnil
    rw [hnil', eq_comm, List.append_eq_nil_iff, List.append_eq_nil_iff] at hraw
    rw [hraw.2.2] at hhead
    cases hhead

theorem isAt_of_mem_scan {family : Family} {marker code : Text} {call : Call}
    (h : call ∈ scan family marker code) : call.IsAt code := by
  unfold scan at h
  split at h
  · rw [inOrder, List.mem_mergeSort, List.mem_flatMap] at h
    obtain ⟨name, -, h⟩ := h
    exact isAt_of_mem_scanName h
  · cases h

/-! ### Texts of calls -/

/-- What stands between a name and its arguments is read alike whatever follows the opening
parenthesis. -/
theorem afterCallee?_append_of {gap group rest : Text} (hhead : group.head? = some '(')
    (h : afterCallee? (gap ++ (group ++ rest)) = some (group ++ rest)) (z : Text) :
    afterCallee? (gap ++ (group ++ z)) = some (group ++ z) := by
  obtain ⟨inner, rfl⟩ := List.head?_eq_some_iff.mp hhead
  have hfirst : (gap ++ ('(' :: inner ++ z)).head? = (gap ++ ('(' :: inner ++ rest)).head? := by
    cases gap <;> rfl
  unfold afterCallee? at h ⊢
  rw [hfirst]
  split at h
  · next ht =>
    obtain ⟨⟨read, after⟩, hread, he⟩ := Option.map_eq_some_iff.mp h
    cases he
    obtain rfl : read = gap := (List.append_cancel_right (typeArgumentsFrom_append hread)).symm
    rw [if_pos ht, typeArguments?, typeArgumentsFrom_append_of hread]
    rfl
  · next ht =>
    have hgap : gap.dropWhile Text.isAsciiBlank = [] := by
      have hdrop : (gap ++ ('(' :: inner ++ rest)).dropWhile Text.isAsciiBlank =
          '(' :: inner ++ rest := Option.some.inj h
      rw [List.cons_append, dropWhile_stop (by decide)] at hdrop
      have := congrArg List.length hdrop
      rw [List.length_append] at this
      exact List.length_eq_zero_iff.mp (by omega)
    rw [if_neg ht, skipBlanks, List.cons_append, dropWhile_stop (by decide), hgap, List.nil_append]

/-- Whether a text is a call of `name`: the name, what separates it from the arguments, and the
group of these, which are read alike whatever follows the text. -/
def IsCallText (name raw : Text) : Prop :=
  ∃ gap group, raw = name ++ (gap ++ group) ∧ raw.takeWhile isNameChar = name ∧
    (name.head?.map isNameStart).getD false = true ∧ group.head? = some '(' ∧
    ∀ z, afterCallee? (gap ++ (group ++ z)) = some (group ++ z) ∧
      groupPrefix? (group ++ z) = some (group, z)

theorem isCallText_of_mem_scanName {family : Family} {name code : Text} {call : Call}
    (h : call ∈ scanName family name code) : IsCallText name call.raw := by
  rw [scanName, List.mem_filterMap] at h
  obtain ⟨place, hplace, h⟩ := h
  obtain ⟨⟨raw, arguments⟩, hcall, rfl⟩ := Option.map_eq_some_iff.mp h
  obtain ⟨-, frames, hown⟩ := isPlace_of_mem_occurrencesFrom hplace
  obtain ⟨hname, hstart⟩ := takeWhile_of_isOccurrence hown
  obtain ⟨gap, group, rest, hafter, hraw, hcallee, hhead, hgroup, -⟩ :=
    raw_of_callAt? hcall (hname ▸ List.takeWhile_prefix _)
  obtain ⟨inner, rfl⟩ := List.head?_eq_some_iff.mp hhead
  have htake : (name ++ gap ++ '(' :: inner).takeWhile isNameChar = name := by
    have : place.after = (name ++ gap) ++ '(' :: (inner ++ rest) := by
      rw [hafter, hraw]
      simp only [List.append_assoc, List.cons_append]
    rw [this, takeWhile_stop (by decide)] at hname
    rw [takeWhile_stop (by decide), hname]
  refine ⟨gap, '(' :: inner, hraw, ?_, hstart, rfl,
    fun z => ⟨afterCallee?_append_of rfl hcallee z, ?_⟩⟩
  · show raw.takeWhile isNameChar = name
    rw [hraw, ← List.append_assoc, htake]
  · obtain ⟨⟨read, after⟩, hread, he⟩ := Option.map_eq_some_iff.mp hgroup
    cases he
    have := (isClosedBy_of_closing hread).closing_append z
    simp [groupPrefix?, closer?, this]

theorem isCallText_of_mem_scan {family : Family} {marker code : Text} {call : Call}
    (h : call ∈ scan family marker code) :
    ∃ name ∈ aliases family marker code, IsCallText name call.raw := by
  unfold scan at h
  split at h
  · rw [inOrder, List.mem_mergeSort, List.mem_flatMap] at h
    obtain ⟨name, hname, h⟩ := h
    exact ⟨name, hname, isCallText_of_mem_scanName h⟩
  · cases h

namespace IsCallText

variable {name name' raw raw' : Text}

/-- **No call's text goes on as another call's text.** -/
theorem eq_of_prefix (h : IsCallText name raw) (h' : IsCallText name' raw') (hp : raw <+: raw') :
    raw = raw' := by
  obtain ⟨gap, group, hraw, hname, -, hhead, hread⟩ := h
  obtain ⟨gap', group', hraw', hname', -, hhead', hread'⟩ := h'
  obtain ⟨more, hmore⟩ := hp
  obtain ⟨inner, rfl⟩ := List.head?_eq_some_iff.mp hhead
  have hsame : name = name' := by
    have hstop (z : Text) :
        (raw ++ z).takeWhile isNameChar = (name ++ gap).takeWhile isNameChar := by
      rw [hraw, ← List.append_assoc, List.append_assoc, List.cons_append,
        takeWhile_stop (by decide)]
    rw [← hname, ← hname', ← hmore, hstop, ← List.append_nil raw, hstop]
  subst hsame
  have hrest : gap ++ ('(' :: inner ++ more) = gap' ++ (group' ++ []) := by
    rw [hraw, hraw', List.append_assoc, List.append_assoc] at hmore
    rw [List.append_nil]
    exact List.append_cancel_left hmore
  have hcallee := (hread more).1
  rw [hrest, (hread' []).1] at hcallee
  have hgroup := (hread more).2
  rw [← Option.some.inj hcallee, (hread' []).2] at hgroup
  cases hgroup
  rw [← hmore, List.append_nil]

/-- A call starts with the start of a name. -/
theorem exists_eq_cons (h : IsCallText name raw) :
    ∃ c rest, raw = c :: rest ∧ isNameStart c = true := by
  obtain ⟨gap, group, rfl, -, hstart, -, -⟩ := h
  cases name with
  | nil => cases hstart
  | cons c name => exact ⟨c, _, rfl, by simpa using hstart⟩

theorem ne_nil (h : IsCallText name raw) : raw ≠ [] := by
  obtain ⟨c, rest, rfl, -⟩ := h.exists_eq_cons
  exact List.cons_ne_nil c rest

/-- A call has a list of arguments. -/
theorem parenthesis_mem (h : IsCallText name raw) : '(' ∈ raw := by
  obtain ⟨gap, group, rfl, -, -, hhead, -⟩ := h
  exact List.mem_append_right _ (List.mem_append_right _ (List.mem_of_mem_head? hhead))

/-- A call ends with its list of arguments. -/
theorem getLast?_eq (h : IsCallText name raw) : raw.getLast? = some ')' := by
  obtain ⟨gap, group, rfl, -, -, hhead, hread⟩ := h
  obtain ⟨inner, rfl⟩ := List.head?_eq_some_iff.mp hhead
  obtain ⟨⟨read, after⟩, hclosing, he⟩ := Option.map_eq_some_iff.mp (hread []).2
  cases he
  have hclosed : State.IsClosedBy ⟨[] ++ [.group ')'], .none⟩ inner :=
    isClosedBy_of_closing hclosing
  rw [← List.append_assoc, List.getLast?_append, List.getLast?_cons, hclosed.getLast?_group]
  rfl

end IsCallText

/-! ### Arguments of calls -/

/-- What stands between the parentheses of a call. -/
def Call.inner (call : Call) : Text :=
  (((afterCallee? (call.raw.dropWhile isNameChar)).getD []).drop 1).dropLast

theorem Call.inner_eq {name gap inner : Text} {call : Call}
    (hraw : call.raw = name ++ (gap ++ '(' :: (inner ++ [')'])))
    (hname : call.raw.takeWhile isNameChar = name)
    (hcallee : afterCallee? (gap ++ '(' :: (inner ++ [')'])) = some ('(' :: (inner ++ [')']))) :
    call.inner = inner := by
  have hdrop : call.raw.dropWhile isNameChar = gap ++ '(' :: (inner ++ [')']) := by
    have hsplit := List.takeWhile_append_dropWhile (p := isNameChar) (l := call.raw)
    rw [hname] at hsplit
    exact List.append_cancel_left (hsplit.trans hraw)
  rw [Call.inner, hdrop, hcallee, Option.getD_some, List.drop_one, List.tail_cons,
    List.dropLast_concat]

/-- A call is a name, what separates it from its arguments, and these in parentheses. -/
theorem exists_raw_eq_of_mem_scanName {family : Family} {name code : Text} {call : Call}
    (h : call ∈ scanName family name code) :
    (∃ gap, call.raw = name ++ (gap ++ '(' :: (call.inner ++ [')']))) ∧
      readArguments call.inner = some call.arguments := by
  obtain ⟨gap₀, group₀, -, htake, -, -, -⟩ := isCallText_of_mem_scanName h
  rw [scanName, List.mem_filterMap] at h
  obtain ⟨place, hplace, h⟩ := h
  obtain ⟨⟨raw, arguments⟩, hcall, rfl⟩ := Option.map_eq_some_iff.mp h
  obtain ⟨-, frames, hown⟩ := isPlace_of_mem_occurrencesFrom hplace
  obtain ⟨hname, -⟩ := takeWhile_of_isOccurrence hown
  obtain ⟨gap, group, rest, -, hraw, hcallee, hhead, hgroup, hread⟩ :=
    raw_of_callAt? hcall (hname ▸ List.takeWhile_prefix _)
  obtain ⟨tail, rfl⟩ := List.head?_eq_some_iff.mp hhead
  obtain ⟨⟨read, after⟩, hclosing, he⟩ := Option.map_eq_some_iff.mp hgroup
  cases he
  -- The group ends with its parenthesis.
  have hclosed : State.IsClosedBy ⟨[] ++ [.group ')'], .none⟩ tail := isClosedBy_of_closing hclosing
  have htail : tail = tail.dropLast ++ [')'] :=
    (List.dropLast_append_getLast? _ (Option.mem_def.mpr hclosed.getLast?_group)).symm
  have hbare := afterCallee?_append_of rfl hcallee []
  rw [List.append_nil, htail] at hbare
  rw [htail] at hraw
  have hinner : Call.inner ⟨family, place.position, raw, arguments⟩ = tail.dropLast :=
    Call.inner_eq hraw htake hbare
  rw [hinner]
  exact ⟨⟨gap, hraw⟩, hread⟩

theorem readArguments_inner {family : Family} {marker code : Text} {call : Call}
    (h : call ∈ scan family marker code) :
    readArguments call.inner = some call.arguments := by
  unfold scan at h
  split at h
  · rw [inOrder, List.mem_mergeSort, List.mem_flatMap] at h
    obtain ⟨name, -, h⟩ := h
    exact (exists_raw_eq_of_mem_scanName h).2
  · cases h

end Localization.Marker
