import Mathlib
import Localization.Proofs.Marker.Carried
import Localization.Proofs.Script.Regex

/-! Calls around a literal of a regular expression.

The scan does not know regular expressions. Where nothing in a literal is mistaken for something
else, the calls of a text are those of the text with a name in place of the literal:
`scan_regex`. Calls in front of the literal stay, calls behind it move, and a call that holds
the literal in its arguments holds the name instead. -/
namespace Localization.Script

/-- Whether a literal of a regular expression may stand for the name `r` between two texts, as
far as calls of some names are concerned. -/
structure Regex.StandsFor (l : Regex) (names : List Text) (before after : Text) : Prop where
  tame : l.IsTame
  mayFollow : MayFollow before
  mayPrecede : l.MayPrecede after
  /-- The name `r` is read as a name in code. -/
  found : ⟨before.reverse, 'r' :: after⟩ ∈ occurrences ['r'] (before ++ 'r' :: after)
  /-- No call is one of `r` or starts in the literal. -/
  name_ne (name : Text) (h : name ∈ names) : name ≠ ['r'] ∧ name ∉ words l.text
  /-- Whether type arguments follow a name in front of the literal does not hang on what stands
  there. -/
  types (name : Text) (h : name ∈ names) (u : Text) (hu : name ++ '<' :: u <:+ before) (z : Text) :
    (typeArguments? ('<' :: u ++ z)).isSome = (typeArguments? ('<' :: u)).isSome

theorem typeArguments?_append_of {t read after : Text} (h : typeArguments? t = some (read, after))
    (z : Text) :
    typeArguments? (t ++ z) = some (read, after ++ z) := by
  rw [typeArgumentsFrom_append h, List.append_assoc]
  exact typeArgumentsFrom_append_of h _

end Localization.Script

namespace Localization.Marker

open Script

/-! ### Calls in front of a literal and around it -/

/-- A call of a text with a name of one character at some place, as a call of the text with a
literal there. -/
def Call.restored (place : Nat) (literal : Text) (call : Call) : Call :=
  if call.stop ≤ place then call
  else if call.start ≤ place then
    let raw :=
      call.raw.take (place - call.start) ++ (literal ++ call.raw.drop (place - call.start + 1))
    { call with raw := raw, arguments := (readArguments { call with raw := raw }.inner).getD [] }
  else call.shift (literal.length - 1)

/-- What stands behind a name up to its arguments is read alike whatever stands behind that. -/
theorem exists_afterCallee? {t : Text} (hne : t ≠ []) {z z' : Text}
    (hz : ∃ c w, z = c :: w ∧ isIndifferent c = true)
    (hz' : ∃ c w, z' = c :: w ∧ isIndifferent c = true)
    (htypes : ∀ u, t = '<' :: u → ∀ z, (typeArguments? (t ++ z)).isSome =
      (typeArguments? t).isSome) :
    ∃ rest : Option Text, (∀ u ∈ rest, u <:+ t) ∧ afterCallee? (t ++ z) = rest.map (· ++ z) ∧
      afterCallee? (t ++ z') = rest.map (· ++ z') := by
  obtain ⟨d, t, rfl⟩ := List.exists_cons_of_ne_nil hne
  by_cases hd : d = '<'
  · subst hd
    have hread (y : Text) :
        afterCallee? ('<' :: t ++ y) = ((typeArguments? ('<' :: t)).map (·.2)).map (· ++ y) := by
      rw [afterCallee?, List.cons_append, List.head?_cons, if_pos (beq_self_eq_true _),
        ← List.cons_append]
      cases h : typeArguments? ('<' :: t) with
      | none =>
        have := htypes t rfl y
        rw [h, Option.isSome_none, Option.isSome_eq_false_iff, Option.isNone_iff_eq_none] at this
        rw [this]
        rfl
      | some p => rw [typeArguments?_append_of h]; rfl
    refine ⟨(typeArguments? ('<' :: t)).map (·.2), ?_, hread z, hread z'⟩
    intro u hu
    obtain ⟨p, hp, rfl⟩ := Option.map_eq_some_iff.mp hu
    exact ⟨p.1, (typeArgumentsFrom_append hp).symm⟩
  · have hread (y : Text) (hy : ∃ c w, y = c :: w ∧ isIndifferent c = true) :
        afterCallee? (d :: t ++ y) = (some (skipBlanks (d :: t))).map (· ++ y) := by
      obtain ⟨c, w, rfl, hc⟩ := hy
      simp only [isIndifferent, Bool.and_eq_true, Bool.not_eq_true'] at hc
      have hhead : ((d :: t ++ c :: w).head? == some '<') = false := by simpa using hd
      rw [afterCallee?, hhead, skipBlanks_stop hc.1]
      rfl
    refine ⟨some (skipBlanks (d :: t)), ?_, hread z hz, hread z' hz'⟩
    rintro u ⟨⟩
    exact List.dropWhile_suffix _

/-- A group that a text leaves open and that is closed alike in two others holds the front of
each. -/
theorem exists_closing_behind {t z z' read after : Text}
    (hopen : closing (.inside (.group ')')) t = none)
    (halike : (State.inside (.group ')')).EndsAlike (t ++ z) (t ++ z'))
    (h : closing (.inside (.group ')')) (t ++ z) = some (read, after)) :
    ∃ w w', w ≠ [] ∧ read = t ++ w ∧ z = w ++ after ∧ z' = w' ++ after ∧
      closing (.inside (.group ')')) (t ++ z') = some (t ++ w', after) := by
  have hpart {y read : Text} (hread : closing (.inside (.group ')')) (t ++ y) =
      some (read, after)) :
      ∃ w, w ≠ [] ∧ read = t ++ w ∧ y = w ++ after := by
    obtain ⟨w, hw⟩ := suffix_of_closing hopen hread
    have htext := closing_append hread
    rw [← hw, ← List.append_assoc] at htext
    have hself := (List.append_cancel_right htext).symm
    refine ⟨w, ?_, hself, hw.symm⟩
    rintro rfl
    rw [List.append_nil] at hself
    have := isClosedBy_of_closing hread
    rw [hself, State.IsClosedBy, hopen] at this
    cases this
  rw [State.EndsAlike, h, Option.map_some, eq_comm, Option.map_eq_some_iff] at halike
  obtain ⟨⟨read', after'⟩, hread', rfl⟩ := halike
  obtain ⟨w, hne, hw, hz⟩ := hpart h
  obtain ⟨w', -, rfl, hz'⟩ := hpart hread'
  exact ⟨w, w', hne, hw, hz, hz', hread'⟩

/-- What stands in a group is read as arguments. -/
theorem exists_readArguments {t read after : Text}
    (h : closing (.inside (.group ')')) t = some (read, after)) :
    ∃ arguments, readArguments (('(' :: read).drop 1).dropLast = some arguments := by
  have hclosed : State.IsClosedBy ⟨[] ++ [.group ')'], .none⟩ read := isClosedBy_of_closing h
  have hread : read = read.dropLast ++ [')'] :=
    (List.dropLast_append_getLast? _ (Option.mem_def.mpr hclosed.getLast?_group)).symm
  rw [List.drop_one, List.tail_cons]
  rw [hread] at hclosed
  exact Option.isSome_iff_exists.mp (isSome_readArguments hclosed)

/-- Without a group behind the callee there is no call. -/
theorem callAt?_eq_none {name x z : Text} (b : Text) {rest : Option Text}
    (hcallee : afterCallee? ((x ++ z).drop name.length) = rest)
    (hrest : ∀ u ∈ rest, u.head? ≠ some '(') : callAt? name ⟨b, x ++ z⟩ = none := by
  rw [callAt?, hcallee]
  cases rest with
  | none => rfl
  | some u => exact if_neg (by simpa using hrest u rfl)

section

variable {name x m z : Text} (b : Text)
    (hcallee : afterCallee? ((x ++ z).drop name.length) = some ('(' :: (m ++ z)))

include hcallee

/-- A call by the group behind its callee. -/
theorem callAt?_of_afterCallee? :
    callAt? name ⟨b, x ++ z⟩ = (closing (.inside (.group ')')) (m ++ z)).bind fun p =>
      (readArguments (('(' :: p.1).drop 1).dropLast).map fun arguments =>
        ((x ++ z).take ((x ++ z).length - p.2.length), arguments) := by
  have hgroup : groupPrefix? ('(' :: (m ++ z)) =
      (closing (.inside (.group ')')) (m ++ z)).map fun p => ('(' :: p.1, p.2) := rfl
  rw [callAt?, hcallee]
  simp only [Option.bind_eq_bind, Option.bind_some, List.head?_cons, beq_self_eq_true, if_true,
    hgroup]
  cases closing (.inside (.group ')')) (m ++ z) with
  | none => rfl
  | some p => exact Option.map_eq_bind.symm

/-- A call whose group is closed in front of what follows is the same whatever follows. -/
theorem callAt?_of_closing {read behind : Text}
    (h : closing (.inside (.group ')')) m = some (read, behind)) :
    callAt? name ⟨b, x ++ z⟩ = (readArguments (('(' :: read).drop 1).dropLast).map fun arguments =>
      (x.take (x.length - behind.length), arguments) := by
  have hlength : (x ++ z).length - (behind ++ z).length = x.length - behind.length := by
    simp only [List.length_append]
    omega
  rw [callAt?_of_afterCallee? b hcallee, closing_append_of h, Option.bind_some, hlength,
    List.take_append_of_le_length (Nat.sub_le _ _)]

/-- A call whose group is closed in what follows ends there. -/
theorem exists_callAt?_of_closing {w rest : Text} (hz : z = w ++ rest)
    (h : closing (.inside (.group ')')) (m ++ z) = some (m ++ w, rest)) :
    ∃ arguments, callAt? name ⟨b, x ++ z⟩ = some (x ++ w, arguments) := by
  obtain ⟨arguments, hread⟩ := exists_readArguments h
  refine ⟨arguments, ?_⟩
  rw [callAt?_of_afterCallee? b hcallee, h, Option.bind_some, hread, Option.map_some, hz,
    ← List.append_assoc, List.length_append, Nat.add_sub_cancel, List.take_left]

end

section

variable {l : Regex} {before after : Text} (hl : l.IsTame) (ha : l.MayPrecede after)
    (hb : Regex.MayFollow before)

include hl ha hb

/-- What is a call around a name is one around a literal, and what is a call in front of a name
is the same in front of a literal. -/
theorem callAt?_followedBy {name : Text} {place : Cursor} (hplace : place.after <:+ before)
    (hne : place.after ≠ []) (hname : place.after.takeWhile isNameChar = name)
    (htypes : ∀ u, name ++ '<' :: u = place.after → ∀ z, (typeArguments? ('<' :: u ++ z)).isSome =
      (typeArguments? ('<' :: u)).isSome) :
    (callAt? name (place.followedBy (l.text ++ after)) =
      callAt? name (place.followedBy ('r' :: after)) ∧
      ∀ raw arguments, callAt? name (place.followedBy ('r' :: after)) = some (raw, arguments) →
        raw.length ≤ place.after.length) ∨
    ∃ w arguments arguments', callAt? name (place.followedBy ('r' :: after)) =
      some (place.after ++ 'r' :: w, arguments) ∧
      callAt? name (place.followedBy (l.text ++ after)) =
        some (place.after ++ (l.text ++ w), arguments') := by
  obtain ⟨b, x⟩ := place
  simp only [Cursor.followedBy] at *
  have hallows := (hb.allowsExchange hl ha).of_suffix hplace
  obtain ⟨x', rfl⟩ : ∃ x', x = name ++ x' :=
    ⟨x.dropWhile isNameChar, by rw [← hname, List.takeWhile_append_dropWhile]⟩
  have hx' : x' ≠ [] := by
    rintro rfl
    rw [List.append_nil] at hname hallows hne
    have := (hallows.last _ (List.getLast?_eq_some_getLast hne)).2
    rw [List.takeWhile_eq_self_iff.mp hname _ (List.getLast_mem hne)] at this
    cases this
  have hdrop (y : Text) : (name ++ x' ++ y).drop name.length = x' ++ y := by
    rw [List.append_assoc, List.drop_left]
  obtain ⟨rest, hrest, hcallee, hcallee'⟩ :=
    exists_afterCallee? hx' (Regex.interchangeable hl after).head
    (Regex.interchangeable hl after).head' (fun u hu => by subst hu; exact htypes u rfl)
  rw [← hdrop] at hcallee hcallee'
  by_cases hgroup : ∃ m, rest = some ('(' :: m)
  · obtain ⟨m, rfl⟩ := hgroup
    have hgroups := hallows.of_suffix ((hrest _ rfl).trans (List.suffix_append name x'))
    rcases State.closing_append_cases (List.cons_ne_nil _ _)
      (hgroups.groups m List.suffix_rfl) with ⟨read, behind, hclosed⟩ | ⟨hopen, halike⟩
    · left
      rw [callAt?_of_closing b hcallee hclosed, callAt?_of_closing b hcallee' hclosed]
      refine ⟨rfl, fun raw arguments h => ?_⟩
      obtain ⟨_, -, he⟩ := Option.map_eq_some_iff.mp h
      cases he
      exact List.length_take_le' _ _
    cases hmore : closing (.inside (.group ')')) (m ++ 'r' :: after) with
    | none =>
      left
      rw [State.EndsAlike, hmore, Option.map_none, eq_comm, Option.map_eq_none_iff] at halike
      rw [callAt?_of_afterCallee? b hcallee, callAt?_of_afterCallee? b hcallee', hmore, halike]
      exact ⟨rfl, fun raw arguments h => by cases h⟩
    | some p =>
      right
      obtain ⟨read, rest⟩ := p
      obtain ⟨w, w', hw, rfl, hz, hz', hmore'⟩ := exists_closing_behind hopen halike hmore
      obtain ⟨c, w, rfl⟩ := List.exists_cons_of_ne_nil hw
      obtain rfl : 'r' = c := (List.cons.inj hz).1
      obtain rfl : after = w ++ rest := (List.cons.inj hz).2
      rw [← List.append_assoc] at hz'
      obtain rfl := List.append_cancel_right hz'
      obtain ⟨arguments, hcall⟩ := exists_callAt?_of_closing b hcallee hz hmore
      obtain ⟨arguments', hcall'⟩ :=
        exists_callAt?_of_closing b hcallee' (List.append_assoc ..).symm hmore'
      exact ⟨w, arguments, arguments', hcall, hcall'⟩
  · left
    have hhead (y : Text) (hy : y.head? ≠ some '(') :
        ∀ u ∈ rest.map (· ++ y), u.head? ≠ some '(' := by
      intro u hu
      obtain ⟨t, ht, rfl⟩ := Option.map_eq_some_iff.mp hu
      cases t with
      | nil => exact hy
      | cons d m =>
        rintro ⟨⟩
        exact hgroup ⟨m, ht⟩
    rw [callAt?_eq_none b hcallee (hhead _ (by simp)),
      callAt?_eq_none b hcallee' (hhead _ (by simp [Regex.text]))]
    exact ⟨rfl, fun raw arguments h => by cases h⟩

end

/-! ### The calls of one name -/

theorem Call.restored_behind {place start : Nat} (h : place < start) (literal : Text)
    (family : Family) (raw : Text) (arguments : List Argument) :
    Call.restored place literal ⟨family, start, raw, arguments⟩ =
      Call.shift (literal.length - 1) ⟨family, start, raw, arguments⟩ := by
  have hstop : ¬ start + raw.length ≤ place := by omega
  have hstart : ¬ start ≤ place := by omega
  simp [restored, stop, hstop, hstart]

theorem Call.restored_around {family : Family} {start place : Nat} {x w literal : Text}
    {arguments arguments' : List Argument} (hplace : start + x.length = place)
    (h : readArguments (Call.inner ⟨family, start, x ++ (literal ++ w), arguments'⟩) =
      some arguments') :
    Call.restored place literal ⟨family, start, x ++ 'r' :: w, arguments⟩ =
      ⟨family, start, x ++ (literal ++ w), arguments'⟩ := by
  have hstop : ¬ start + (x ++ 'r' :: w).length ≤ place := by
    rw [List.length_append, List.length_cons]
    omega
  have hstart : start ≤ place := by omega
  have hoffset : place - start = x.length := by omega
  have htake : (x ++ 'r' :: w).take x.length = x := List.take_left
  have hdrop : (x ++ 'r' :: w).drop (x.length + 1) = w := by
    rw [← List.drop_drop, List.drop_left, List.drop_one, List.tail_cons]
  have hinner : Call.inner ⟨family, start, x ++ (literal ++ w), arguments⟩ =
      Call.inner ⟨family, start, x ++ (literal ++ w), arguments'⟩ := rfl
  simp only [restored, stop, if_neg hstop, if_pos hstart, hoffset, htake, hdrop, hinner, h,
    Option.getD_some]

/-- The calls of a name in a text with a literal are those of the text with a name in its place. -/
theorem scanName_regex {l : Regex} {names : List Text} {before after : Text}
    (h : l.StandsFor names before after) {name : Text} (hname : name ∈ names) (family : Family) :
    scanName family name (before ++ (l.text ++ after)) =
      (scanName family name (before ++ 'r' :: after)).map (·.restored before.length l.text) := by
  obtain ⟨hne, hwords⟩ := h.name_ne name hname
  obtain ⟨front, behind, hfront, hoccurrences, hoccurrences'⟩ :=
    Regex.exists_occurrences h.tame h.mayPrecede h.mayFollow h.found hne hwords
  rw [scanName, scanName, hoccurrences, hoccurrences', List.filterMap_append, List.filterMap_append,
    List.map_append]
  congr 1
  · -- Places in front of the literal.
    rw [List.filterMap_map, List.filterMap_map, List.map_filterMap]
    refine List.filterMap_congr fun place hplace => ?_
    obtain ⟨hsuffix, hnil, htext⟩ := hfront place hplace
    have hmem : place.followedBy ('r' :: after) ∈ occurrences name (before ++ 'r' :: after) := by
      rw [hoccurrences]
      exact List.mem_append_left _ (List.mem_map_of_mem hplace)
    obtain ⟨-, frames, hown⟩ := isPlace_of_mem_occurrencesFrom hmem
    have htake : place.after.takeWhile isNameChar = name := by
      have hallows := (h.mayFollow.allowsExchange h.tame h.mayPrecede).of_suffix hsuffix
      rw [← hallows.takeWhile_append hnil]
      exact (takeWhile_of_isOccurrence hown).1
    have hlength : place.before.length + place.after.length = before.length := by
      rw [← htext, List.length_append, List.length_reverse]
    have htypes : ∀ u, name ++ '<' :: u = place.after → ∀ z,
        (typeArguments? ('<' :: u ++ z)).isSome = (typeArguments? ('<' :: u)).isSome :=
      fun u hu z => h.types name hname u (hu ▸ hsuffix) z
    simp only [Function.comp_apply]
    rcases callAt?_followedBy h.tame h.mayPrecede h.mayFollow hsuffix hnil htake htypes with
      ⟨hsame, hshort⟩ | ⟨w, arguments, arguments', hcall, hcall'⟩
    · rw [hsame]
      cases hcall : callAt? name (place.followedBy ('r' :: after)) with
      | none => rfl
      | some p =>
        obtain ⟨raw, arguments⟩ := p
        have := hshort raw arguments hcall
        have hstop : place.before.length + raw.length ≤ before.length := by omega
        simp [Call.restored, Call.stop, Cursor.followedBy, Cursor.position, hstop]
    · have hmem' :
          place.followedBy (l.text ++ after) ∈ occurrences name (before ++ (l.text ++ after)) := by
        rw [hoccurrences']
        exact List.mem_append_left _ (List.mem_map_of_mem hplace)
      have hread := (@exists_raw_eq_of_mem_scanName family _ _ _ (List.mem_filterMap.mpr
        ⟨_, hmem', by rw [hcall']; rfl⟩)).2
      rw [hcall, hcall']
      refine congrArg some ?_
      exact (Call.restored_around hlength hread).symm
  · -- Places behind the literal.
    rw [List.filterMap_map, List.filterMap_map, List.map_filterMap]
    refine List.filterMap_congr fun place _ => ?_
    have hcall : callAt? name (place.behind (l.text.reverse ++ before.reverse)) =
        callAt? name (place.behind ('r' :: before.reverse)) := rfl
    simp only [Function.comp_apply, hcall]
    cases callAt? name (place.behind ('r' :: before.reverse)) with
    | none => rfl
    | some p =>
      have hlater : before.length < (place.behind ('r' :: before.reverse)).position := by
        simp [Cursor.behind, Cursor.position]
        omega
      refine congrArg some (Eq.trans ?_ (Call.restored_behind hlater l.text family p.1 p.2).symm)
      simp only [Call.shift, Call.mk.injEq, true_and, and_true, Cursor.behind, Cursor.position,
        List.length_append, List.length_cons, List.length_reverse]
      rw [Regex.text, List.length_cons]
      omega

/-! ### Texts without the marker -/

theorem suffix_of_after? {word t u : Text} (h : after? word t = some u) : word <+: t ∧ u <:+ t := by
  unfold after? at h
  split at h
  · next hword =>
    cases h
    exact ⟨List.isPrefixOf_iff_prefix.mp hword, List.drop_suffix _ _⟩
  · cases h

theorem suffix_of_afterBlanks? {t u : Text} (h : afterBlanks? t = some u) : u <:+ t := by
  cases t with
  | nil => cases h
  | cons c t =>
    rw [afterBlanks?] at h
    split at h
    · cases h
      exact (List.dropWhile_suffix _).trans (List.suffix_cons c t)
    · cases h

theorem suffix_of_namePrefix? {t name u : Text} (h : namePrefix? t = some (name, u)) : u <:+ t := by
  cases t with
  | nil => cases h
  | cons c t =>
    rw [namePrefix?] at h
    split at h
    · cases h
      exact (List.dropWhile_suffix _).trans (List.suffix_cons c t)
    · cases h

theorem suffix_of_mem_blankReadings {t u : Text} (h : u ∈ blankReadings t) : u <:+ t := by
  induction t with
  | nil =>
    rw [blankReadings, List.mem_singleton] at h
    rw [h]
  | cons c t ih =>
    rw [blankReadings] at h
    split at h
    · rcases List.mem_append.mp h with h | h
      · exact (ih h).trans (List.suffix_cons c t)
      · rw [List.mem_singleton.mp h]
    · rw [List.mem_singleton.mp h]

theorem suffix_of_mem_awaitReadings {t u : Text} (h : u ∈ awaitReadings t) : u <:+ t := by
  rw [awaitReadings, List.mem_append, List.mem_singleton] at h
  rcases h with h | rfl
  · split at h
    · next c rest hafter =>
      split at h
      · exact (suffix_of_mem_blankReadings h).trans
          ((List.suffix_cons c rest).trans (suffix_of_after? hafter).2)
      · cases h
    · cases h
  · exact List.suffix_rfl

section

variable {marker code : Text} (h : Text.occursIn marker code = false)

include h

theorem after?_of_not_occursIn {u : Text} (hu : u <:+ code) : after? marker u = none := by
  rw [after?, if_neg]
  intro hprefix
  rw [Text.occursIn_iff.mpr ((List.isPrefixOf_iff_prefix.mp hprefix).isInfix.trans hu.isInfix)] at h
  cases h

theorem rename?_of_not_occursIn {u : Text} (hu : u <:+ code) : rename? marker u = none := by
  cases u with
  | nil => rfl
  | cons c u =>
    rw [rename?, after?_of_not_occursIn h ((List.suffix_cons c u).trans hu)]
    split <;> rfl

theorem declaration?_of_not_occursIn {u : Text} (hu : u <:+ code) :
    declaration? marker u = none := by
  rw [Option.eq_none_iff_forall_ne_some]
  intro found hfound
  obtain ⟨t₁, h₁, hfound⟩ := Option.bind_eq_some_iff.mp hfound
  obtain ⟨t₂, h₂, hfound⟩ := Option.bind_eq_some_iff.mp hfound
  obtain ⟨⟨name, t₃⟩, h₃, hfound⟩ := Option.bind_eq_some_iff.mp hfound
  obtain ⟨t₄, h₄, hfound⟩ := Option.bind_eq_some_iff.mp hfound
  have hkeyword : t₁ <:+ u := by
    rw [Option.or_eq_some_iff, Option.or_eq_some_iff] at h₁
    rcases h₁ with h₁ | ⟨-, h₁ | ⟨-, h₁⟩⟩ <;> exact (suffix_of_after? h₁).2
  have hsuffix : t₄ <:+ code :=
    (suffix_of_after? h₄).2.trans ((List.dropWhile_suffix _).trans ((suffix_of_namePrefix? h₃).trans
      ((suffix_of_afterBlanks? h₂).trans (hkeyword.trans hu))))
  have hnone : ((blankReadings t₄).flatMap awaitReadings).filterMap (after? marker) = [] := by
    rw [List.filterMap_eq_nil_iff]
    intro v hv
    obtain ⟨w, hw, hv⟩ := List.mem_flatMap.mp hv
    exact after?_of_not_occursIn h ((suffix_of_mem_awaitReadings hv).trans
      ((suffix_of_mem_blankReadings hw).trans hsuffix))
  simp [hnone] at hfound

/-- A text in which a marker does not occur gives it no name but its own. -/
theorem flatMap_aliases_of_not_occursIn (family : Family) :
    ((aliases family marker code).flatMap fun name => scanName family name code) = [] := by
  have hall {α : Type} {find : Text → Option (α × Nat)} (hfind : ∀ u, u <:+ code → find u = none)
      (skip : Nat) :
      Text.findAll find skip code = [] := by
    clear h
    induction code generalizing skip with
    | nil => simp [Text.findAll]
    | cons c t ih =>
      have hlater := ih fun u hu => hfind u (hu.trans (List.suffix_cons c t))
      cases skip with
      | succ skip => exact hlater skip
      | zero => rw [Text.findAll, hfind _ List.suffix_rfl]; exact hlater 0
  have hown : ([marker].flatMap fun name => scanName family name code) = [] := by
    rw [List.flatMap_singleton, scanName_of_not_occursIn h]
  have hnames : (Text.findAll (rename? marker) 0 code).eraseDups = [] := by
    rw [hall (fun u hu => rename?_of_not_occursIn h hu) 0]
    rfl
  cases family with
  | useTranslate =>
    rw [aliases, hall (fun u hu => declaration?_of_not_occursIn h hu) 0]
    rfl
  | translate | inlineTranslate | plural =>
    simp only [aliases, hnames, List.isEmpty_nil, if_true]
    exact hown

end

/-! ### All calls -/

/-- The calls of a marker are those of its names, in order. -/
theorem scan_eq_inOrder (family : Family) (marker code : Text) :
    scan family marker code = inOrder ((aliases family marker code).flatMap fun name =>
      scanName family name code) := by
  rw [scan]
  split
  · rfl
  · next h =>
      rw [flatMap_aliases_of_not_occursIn (by simpa using h) family, inOrder, List.mergeSort_nil]

/-- Calls keep their order. -/
theorem inOrder_restored (place : Nat) (literal : Text) (calls : List Call) :
    inOrder (calls.map (·.restored place literal)) =
      (inOrder calls).map (·.restored place literal) := by
  refine (List.map_mergeSort fun a _ b _ => ?_).symm
  have hstart (call : Call) : (call.restored place literal).start =
      if call.start ≤ place then call.start else call.start + (literal.length - 1) := by
    unfold Call.restored Call.stop
    split
    · rw [if_pos (by omega)]
    · split
      · rfl
      · rfl
  rw [hstart, hstart, decide_eq_decide]
  split <;> split <;> omega

/-- **A literal of a regular expression hides no call and makes none** where nothing in it is
mistaken for something else: the calls are those of the text with a name in its place. -/
theorem scan_regex {l : Regex} {family : Family} {marker before after : Text}
    (haliases : aliases family marker (before ++ (l.text ++ after)) =
      aliases family marker (before ++ 'r' :: after))
    (h : l.StandsFor (aliases family marker (before ++ 'r' :: after)) before after) :
    scan family marker (before ++ (l.text ++ after)) =
      (scan family marker (before ++ 'r' :: after)).map (·.restored before.length l.text) := by
  rw [scan_eq_inOrder, scan_eq_inOrder, haliases, ← inOrder_restored, List.map_flatMap]
  refine congrArg inOrder (List.flatMap_congr fun name hname => ?_)
  exact scanName_regex h hname family

/-- A literal with a slash in a class. -/
def slashClass : Regex where
  body := "\\s+[b/]".toList
  flags := ['g']
  starts := rfl
  isBody := rfl
  areFlags := rfl

theorem isTame_slashClass : slashClass.IsTame where
  noLiteral c h := by
    have hall : (slashClass.body.all fun c => (literal? c).isNone) = true := rfl
    simpa using List.all_eq_true.mp hall c h
  noLineComment := by decide
  noBlockComment := by decide
  noSubstitution := by decide
  noTag c d h _ := by
    have hmem : '<' ∈ slashClass.text := h.subset (by simp)
    exact absurd hmem (by decide)
  closes := ⟨.none, rfl⟩

theorem standsFor_slashClass :
    slashClass.StandsFor ["$translate".toList] "$translate('a', \x7bp: s.replace(".toList
      ", x)\x7d); $translate('b')".toList where
  tame := isTame_slashClass
  mayFollow :=
    { last := by
        rintro c ⟨⟩
        exact ⟨by decide, by decide⟩
      noComment := by
        intro u hu s hs
        have hall :
            ("$translate('a', \x7bp: s.replace(".toList.tails.all fun t => t.head? != some '(' ||
            ((State.inside (.group ')')).run t.tail).all fun s =>
              s.regions.head? != some .blockComment) = true := by cbv
        have := List.all_eq_true.mp hall _ ((List.mem_tails _ _).mpr hu)
        simpa [hs] using this }
  mayPrecede :=
    { noName := by rintro c ⟨⟩; rfl
      noQuote := by rintro c ⟨⟩; decide
      noComment := by rintro ⟨⟩ }
  found := by
    have :
        occurrences ['r'] ("$translate('a', \x7bp: s.replace(".toList ++ 'r' ::
          ", x)\x7d); $translate('b')".toList) =
        [⟨"$translate('a', \x7bp: s.replace(".toList.reverse,
          'r' :: ", x)\x7d); $translate('b')".toList⟩] := by cbv
    rw [this]
    exact List.mem_singleton_self _
  name_ne name h := by
    rw [List.mem_singleton.mp h]
    exact ⟨by decide, by decide⟩
  types name h u hu z := by
    have hmem : '<' ∈ "$translate('a', \x7bp: s.replace(".toList := hu.subset (by simp)
    exact absurd hmem (by decide)

theorem scan_regex_slashClass :
    aliases .translate "$translate" ("$translate('a', \x7bp: s.replace(".toList ++
        (slashClass.text ++ ", x)\x7d); $translate('b')".toList)) =
      aliases .translate "$translate" ("$translate('a', \x7bp: s.replace(".toList ++ 'r' ::
        ", x)\x7d); $translate('b')".toList) ∧
    slashClass.StandsFor (aliases .translate "$translate"
      ("$translate('a', \x7bp: s.replace(".toList ++
        'r' :: ", x)\x7d); $translate('b')".toList)) "$translate('a', \x7bp: s.replace("
          ", x)\x7d); $translate('b')" ∧
    scan .translate "$translate" ("$translate('a', \x7bp: s.replace(".toList ++
        (slashClass.text ++ ", x)\x7d); $translate('b')".toList)) =
      (scan .translate "$translate" ("$translate('a', \x7bp: s.replace(".toList ++
        'r' :: ", x)\x7d); $translate('b')".toList)).map
          (·.restored "$translate('a', \x7bp: s.replace(".toList.length slashClass.text) := by
  have hnames : aliases .translate "$translate" ("$translate('a', \x7bp: s.replace(".toList ++
      'r' :: ", x)\x7d); $translate('b')".toList) = ["$translate".toList] := by cbv
  have hnames' : aliases .translate "$translate" ("$translate('a', \x7bp: s.replace(".toList ++
      (slashClass.text ++ ", x)\x7d); $translate('b')".toList)) = ["$translate".toList] := by cbv
  have hstands :
      slashClass.StandsFor (aliases .translate "$translate"
        ("$translate('a', \x7bp: s.replace(".toList ++
      'r' :: ", x)\x7d); $translate('b')".toList)) "$translate('a', \x7bp: s.replace("
        ", x)\x7d); $translate('b')" := by
    rw [hnames]
    exact standsFor_slashClass
  exact ⟨hnames'.trans hnames.symm, hstands, scan_regex (hnames'.trans hnames.symm) hstands⟩

/-- A literal of a quote. -/
def quoteLiteral : Regex where
  body := ['\'']
  flags := []
  starts := rfl
  isBody := rfl
  areFlags := rfl

/-- The quote of a literal is taken for the start of a string, which hides the call behind it. -/
theorem scan_quoteLiteral_ne :
    scan .translate "$translate" ("x = ".toList ++
      (quoteLiteral.text ++ "; $translate('a')".toList)) ≠
      (scan .translate "$translate" ("x = ".toList ++ 'r' :: "; $translate('a')".toList)).map
        (·.restored "x = ".toList.length quoteLiteral.text) := by
  have hliteral :
      scan .translate "$translate" ("x = ".toList ++
        (quoteLiteral.text ++ "; $translate('a')".toList)) = [] := by
    have hnames :
        aliases .translate "$translate" ("x = ".toList ++
          (quoteLiteral.text ++ "; $translate('a')".toList)) =
        ["$translate".toList] := by cbv
    have hnone :
        occurrences "$translate".toList ("x = ".toList ++
          (quoteLiteral.text ++ "; $translate('a')".toList)) = [] :=
      rfl
    rw [scan_eq_inOrder, hnames, List.flatMap_singleton, scanName, hnone, List.filterMap_nil,
      inOrder, List.mergeSort_nil]
  have hname : scan .translate "$translate" ("x = ".toList ++ 'r' :: "; $translate('a')".toList) =
      [⟨.translate, 7, "$translate('a')".toList, [.string ['a']]⟩] := by cbv
  rw [hliteral, hname]
  exact (List.cons_ne_nil _ _).symm

end Localization.Marker
