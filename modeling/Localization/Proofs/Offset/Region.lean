import Mathlib
import Localization.Proofs.Argument.Settled
import Localization.Proofs.Offset.Checked

/-! Regions by offsets.

`skipComment`, `skipString` and `findClosing` walk the bytes of a text from an offset to the end
of the comment, literal or bracket group that starts there. A backslash passes over two bytes,
the second of which may lie inside of a character or behind the end; every other step looks at
one byte. Started behind whole characters they read inside of the text, go on at every step and
end behind whole characters, where `commentPrefix?` and `closing` do (`skipComment_eq`,
`skipString_eq`, `findClosing_eq`). -/
namespace Localization.Script

/-! ### Regions, lexeme by lexeme -/

/-- What follows the character that closes all regions. -/
def behind (s : State) (t : Text) : Option Text := (closing s t).map (·.2)

theorem suffix_of_behind {s : State} {t z : Text} (h : behind s t = some z) : z <:+ t := by
  obtain ⟨⟨read, after⟩, hread, rfl⟩ := Option.map_eq_some_iff.mp h
  exact ⟨read, (closing_append hread).symm⟩

section

variable {s next : State} {c : Char} {rest : Text}

theorem behind_open (h : s.step c = some next) (hn : next.regions ≠ []) :
    behind s (c :: rest) = behind next rest := by
  rw [behind, closing_cons h hn, Option.map_map]
  rfl

theorem behind_close (h : s.step c = some .top) : behind s (c :: rest) = some rest := by
  rw [behind, closing, h]
  rfl

theorem behind_none (h : s.step c = none) : behind s (c :: rest) = none := by
  rw [behind, closing, h]
  rfl

end

/-- Regions inside of others are read first. -/
theorem behind_below {s : State} (hs : s.regions ≠ []) {outer : List Region} (ho : outer ≠ [])
    (t : Text) :
    behind (s.below outer) t = (behind s t).bind (behind ⟨outer, .none⟩) := by
  cases h : closing s t with
  | some p =>
    rw [closing_append h, behind, (isClosedBy_of_closing h).closing_below hs ho, Option.map_map,
      behind, ← closing_append h, h]
    rfl
  | none =>
    have hnone : behind s t = none := by rw [behind, h]; rfl
    rw [hnone, Option.bind_none]
    clear hnone
    induction t generalizing s with
    | nil => rfl
    | cons c rest ih =>
      cases hstep : s.step c with
      | none => exact behind_none (by rw [State.step_below hs, hstep]; rfl)
      | some next =>
        have hbelow : (s.below outer).step c = some (next.below outer) := by
          rw [State.step_below hs, hstep]; rfl
        have hopen : (next.below outer).regions ≠ [] := by simp [State.below, ho]
        have hn : next.regions ≠ [] := by
          intro hn
          rw [closing, hstep] at h
          simp [hn] at h
        rw [closing_cons hstep hn, Option.map_eq_none_iff] at h
        rw [behind_open hbelow hopen, ih hn h]

section

variable {closers : List Char} (hne : closers ≠ [])

include hne

theorem groups_ne_nil : groups closers ≠ [] := by simpa [groups] using hne

theorem behind_ordinary {c : Char} (hc : isOrdinary c = true) (rest : Text) :
    behind ⟨groups closers, .none⟩ (c :: rest) = behind ⟨groups closers, .none⟩ rest :=
  behind_open ((step_groups closers .none c).trans (stepCode_ordinary hc _)) (groups_ne_nil hne)

/-- A literal is read up to its end. -/
theorem behind_literal {quote : Char} {r : Region} (hr : literal? quote = some r) (rest : Text) :
    behind ⟨groups closers, .none⟩ (quote :: rest) =
      (behind (.inside r) rest).bind (behind ⟨groups closers, .none⟩) := by
  have hstep : State.step ⟨groups closers, .none⟩ quote =
      some ((State.inside r).below (groups closers)) :=
    (step_groups closers .none quote).trans (stepCode_literal hr _)
  rw [behind_open hstep (by simp [State.below, State.inside]),
    behind_below (by simp [State.inside]) (groups_ne_nil hne)]

theorem behind_slash {rest : Text} (h : commentPrefix? ('/' :: rest) = none) :
    behind ⟨groups closers, .none⟩ ('/' :: rest) = behind ⟨groups closers, .none⟩ rest := by
  rw [behind_open ((step_groups closers .none '/').trans (stepCode_slash_opens _))
    (groups_ne_nil hne), behind, Settles.closing_slash closers h]
  rfl

theorem behind_lineComment (rest : Text) :
    behind ⟨.lineComment :: groups closers, .none⟩ rest =
      behind ⟨groups closers, .none⟩ (rest.dropWhile (· != '\n')) := by
  induction rest with
  | nil => rfl
  | cons c rest ih =>
    by_cases hc : c = '\n'
    · subst hc
      rw [List.dropWhile_cons_of_neg (by simp), behind_ordinary hne rfl,
        behind_open rfl (groups_ne_nil hne)]
    · have hstep : State.step ⟨.lineComment :: groups closers, .none⟩ c =
          some ⟨.lineComment :: groups closers, .none⟩ := by
        simp [State.step, hc]
      rw [behind_open hstep (List.cons_ne_nil _ _), ih,
        List.dropWhile_cons_of_pos (by simpa using hc)]

theorem behind_blockComment (rest : Text) :
    behind ⟨.blockComment :: groups closers, .none⟩ rest =
      behind ⟨groups closers, .none⟩ (afterBlockComment rest) ∧
      behind ⟨.blockComment :: groups closers, .star⟩ rest =
        behind ⟨groups closers, .none⟩ (afterBlockComment ('*' :: rest)) := by
  induction rest with
  | nil => exact ⟨rfl, rfl⟩
  | cons c rest ih =>
    have hnone : behind ⟨.blockComment :: groups closers, .none⟩ (c :: rest) =
        behind ⟨groups closers, .none⟩ (afterBlockComment (c :: rest)) := by
      by_cases hc : c = '*'
      · subst hc
        rw [behind_open rfl (List.cons_ne_nil _ _), ih.2]
      · have hstep : State.step ⟨.blockComment :: groups closers, .none⟩ c =
            some ⟨.blockComment :: groups closers, .none⟩ := by
          simp [State.step, hc]
        have hafter : afterBlockComment (c :: rest) = afterBlockComment rest := by
          rw [afterBlockComment]
          rintro rest rfl
          exact absurd rfl hc
        rw [behind_open hstep (List.cons_ne_nil _ _), ih.1, hafter]
    refine ⟨hnone, ?_⟩
    by_cases hc : c = '/'
    · subst hc
      rw [behind_open rfl (groups_ne_nil hne), afterBlockComment]
    · have hstep : State.step ⟨.blockComment :: groups closers, .star⟩ c =
          State.step ⟨.blockComment :: groups closers, .none⟩ c := by
        simp [State.step, hc]
      have hafter : afterBlockComment ('*' :: c :: rest) = afterBlockComment (c :: rest) := by
        rw [afterBlockComment]
        rintro rest - ⟨⟩
        exact hc rfl
      rw [hafter, ← hnone, behind, behind, closing, closing, hstep]

/-- A comment is passed over. -/
theorem behind_comment {rest after : Text} (h : commentPrefix? ('/' :: rest) = some after) :
    behind ⟨groups closers, .none⟩ ('/' :: rest) = behind ⟨groups closers, .none⟩ after := by
  rw [behind_open ((step_groups closers .none '/').trans (stepCode_slash_opens _))
    (groups_ne_nil hne)]
  have hstep (c : Char) : State.step ⟨groups closers, .slash⟩ c =
      stepCode (groups closers) .slash c := step_groups closers .slash c
  rw [commentPrefix?.eq_def] at h
  split at h
  · next more heq =>
    cases heq
    cases h
    rw [behind_open (hstep '/') (List.cons_ne_nil _ _), behind_lineComment hne]
  · next more heq =>
    cases heq
    cases h
    rw [behind_open (hstep '*') (List.cons_ne_nil _ _), (behind_blockComment hne _).1]
  · cases h

end

theorem behind_opener {closers : List Char} {c closer : Char} (hc : closer? c = some closer)
    (rest : Text) :
    behind ⟨groups closers, .none⟩ (c :: rest) = behind ⟨groups (closer :: closers), .none⟩ rest :=
  behind_open ((step_groups closers .none c).trans (stepCode_opener hc _)) (List.cons_ne_nil _ _)

/-- A closing bracket ends the innermost group or fits none. -/
theorem behind_closer {c : Char} (hc : isCloser c = true) (closer : Char) (closers : List Char)
    (rest : Text) :
    behind ⟨groups (closer :: closers), .none⟩ (c :: rest) =
      if closer = c then if closers = [] then some rest else behind ⟨groups closers, .none⟩ rest
        else none := by
  by_cases h : closer = c
  · subst h
    have hstep : State.step ⟨groups (closer :: closers), .none⟩ closer =
        some ⟨groups closers, .none⟩ := stepCode_isCloser hc _
    rw [if_pos rfl]
    split
    · next hnil => subst hnil; exact behind_close hstep
    · next hne => exact behind_open hstep (groups_ne_nil hne)
  · obtain ⟨hliteral, hslash, hopener⟩ := literal?_of_isCloser hc
    rw [if_neg h]
    refine behind_none ((step_groups (closer :: closers) .none c).trans ?_)
    simp [stepCode, groups, hliteral, hslash, hopener, hc, Ne.symm h]

/-! ### Literals, character by character -/

section

variable {quote : Char} {r : Region} (hr : literal? quote = some r)

include hr

theorem behind_quote (rest : Text) : behind (.inside r) (quote :: rest) = some rest := by
  obtain ⟨rfl | rfl, rfl⟩ | ⟨rfl, rfl⟩ := literal?_cases hr <;> rfl

theorem behind_escape (c : Char) (rest : Text) :
    behind (.inside r) ('\\' :: c :: rest) = behind (.inside r) rest := by
  obtain ⟨rfl | rfl, rfl⟩ | ⟨rfl, rfl⟩ := literal?_cases hr <;>
    rw [behind_open rfl (List.cons_ne_nil _ _), behind_open rfl (List.cons_ne_nil _ _)] <;> rfl

theorem behind_backslash : behind (.inside r) ['\\'] = none := by
  obtain ⟨rfl | rfl, rfl⟩ | ⟨rfl, rfl⟩ := literal?_cases hr <;> rfl

theorem behind_lineEnd (hquote : quote ≠ '`') (rest : Text) :
    behind (.inside r) ('\n' :: rest) = none := by
  obtain ⟨rfl | rfl, rfl⟩ | ⟨rfl, rfl⟩ := literal?_cases hr
  · rfl
  · rfl
  · exact absurd rfl hquote

/-- Characters that a literal goes on with. -/
def IsBody (quote c : Char) : Prop :=
  c ≠ '\\' ∧ c ≠ quote ∧ (c = '\n' → quote = '`') ∧ (c = '$' → quote ≠ '`')

theorem behind_body {c : Char} (hc : IsBody quote c) (rest : Text) :
    behind (.inside r) (c :: rest) = behind (.inside r) rest := by
  obtain ⟨hescape, hquote, hline, hdollar⟩ := hc
  obtain ⟨hq, rfl⟩ | ⟨rfl, rfl⟩ := literal?_cases hr
  · have hn : c ≠ '\n' := fun h => by
      rcases hq with rfl | rfl <;> cases hline h
    exact behind_open (by simp [State.step, State.inside, hescape, hquote, hn])
      (List.cons_ne_nil _ _)
  · have hd : c ≠ '$' := fun h => hdollar h rfl
    exact behind_open (by simp [State.step, State.inside, hescape, hquote, hd])
      (List.cons_ne_nil _ _)

end

theorem behind_substitution (rest : Text) : behind (.inside .template) ('$' :: '\x7b' :: rest) =
    (behind (.inside (.group '\x7d')) rest).bind (behind (.inside .template)) := by
  have hinside : (State.inside (.group '\x7d')).regions ≠ [] := List.cons_ne_nil _ _
  rw [behind_open rfl (List.cons_ne_nil _ _), behind_open rfl (List.cons_ne_nil _ _)]
  exact behind_below hinside (List.cons_ne_nil .template []) rest

theorem behind_dollar {rest : Text} (h : rest.head? ≠ some '\x7b') :
    behind (.inside .template) ('$' :: rest) = behind (.inside .template) rest := by
  rw [behind_open rfl (List.cons_ne_nil _ _)]
  cases rest with
  | nil => rfl
  | cons c rest =>
    have hc : c ≠ '\x7b' := by simpa using h
    have hstep : State.step ⟨(State.inside .template).regions, .dollar⟩ c =
        State.step (.inside .template) c := by
      simp [State.step, State.inside, hc]
    rw [behind, behind, closing, closing, hstep]

end Localization.Script

namespace Localization.Offset

open Script (State Region closer? isCloser literal? commentPrefix? afterBlockComment groups behind)

/-! ### Comments -/

/-- The first line end from an offset on. -/
def lineEndFrom (u : Text) (i : Nat) : Nat :=
  match h : u[i]? with
  | none => i
  | some b => if b == '\n' then i else lineEndFrom u (i + 1)
termination_by u.length - i
decreasing_by
  have := (List.getElem?_eq_some_iff.mp h).1
  omega

/-- Behind the first `*/` from an offset on, or the end. -/
def blockEndFrom (u : Text) (i : Nat) : Nat :=
  match h : u[i]?, u[i + 1]? with
  | some b, some d => if b == '*' && d == '/' then i + 2 else blockEndFrom u (i + 1)
  | _, _ => u.length
termination_by u.length - i
decreasing_by
  have := (List.getElem?_eq_some_iff.mp h).1
  omega

/-- Behind the comment that starts at an offset, if one does. -/
def skipComment (u : Text) (start : Nat) : Option Nat :=
  if u[start]? == some '/' then
    if u[start + 1]? == some '/' then some (lineEndFrom u (start + 2))
    else if u[start + 1]? == some '*' then some (blockEndFrom u (start + 2))
    else none
  else none

section

variable {u t b : Text} {i : Nat} {d : Char}

theorem lineEndFrom_of (h : u[i]? = some d) :
    lineEndFrom u i = if d == '\n' then i else lineEndFrom u (i + 1) := by
  rw [lineEndFrom]
  split <;> simp_all

theorem lineEndFrom_end (h : u[i]? = none) : lineEndFrom u i = i := by
  rw [lineEndFrom]
  split <;> simp_all

theorem lineEndFrom_eq (h : b <:+ t) :
    lineEndFrom (units t) (offset t b) = offset t (b.dropWhile (· != '\n')) := by
  induction b with
  | nil => exact lineEndFrom_end (getElem?_end t)
  | cons c rest ih =>
    by_cases hc : c = '\n'
    · subst hc
      rw [List.dropWhile_cons_of_neg (by simp), lineEndFrom_of (getElem?_ascii h (by decide))]
      rfl
    · rw [List.dropWhile_cons_of_pos (by simpa using hc), ← ih ((List.suffix_cons _ _).trans h)]
      have hpass (i : Nat) (d : Char) (hd : (units t)[i]? = some d) (hne : d ≠ '\n') :
          lineEndFrom (units t) i = lineEndFrom (units t) (i + 1) := by
        rw [lineEndFrom_of hd, if_neg (by simpa using hne)]
      exact next_char h hpass (fun d hi => hi.ne (by decide)) hc

theorem blockEndFrom_of {e : Char} (h : u[i]? = some d) (hnext : u[i + 1]? = some e) :
    blockEndFrom u i = if d == '*' && e == '/' then i + 2 else blockEndFrom u (i + 1) := by
  rw [blockEndFrom]
  split <;> simp_all

theorem blockEndFrom_end (h : u[i + 1]? = none) : blockEndFrom u i = u.length := by
  rw [blockEndFrom]
  split <;> simp_all

theorem blockEndFrom_step (h : u[i]? = some d) (hne : ¬ (d = '*' ∧ u[i + 1]? = some '/')) :
    blockEndFrom u i = blockEndFrom u (i + 1) := by
  cases hnext : u[i + 1]? with
  | none =>
    have hbehind : u[i + 1 + 1]? = none := by
      rw [List.getElem?_eq_none_iff] at hnext ⊢
      omega
    rw [blockEndFrom_end hnext, blockEndFrom_end hbehind]
  | some e =>
    rw [blockEndFrom_of h hnext, if_neg]
    simpa [hnext] using hne

theorem blockEndFrom_eq (h : b <:+ t) :
    blockEndFrom (units t) (offset t b) = offset t (afterBlockComment b) := by
  induction b with
  | nil =>
    rw [blockEndFrom_end, length_units]
    · rfl
    · rw [List.getElem?_eq_none_iff, length_units]
      exact Nat.le_succ _
  | cons c rest ih =>
    have hrest : rest <:+ t := (List.suffix_cons _ _).trans h
    by_cases hend : c = '*' ∧ rest.head? = some '/'
    · obtain ⟨rfl, hhead⟩ := hend
      obtain ⟨more, rfl⟩ := List.head?_eq_some_iff.mp hhead
      have hnext := getElem?_ascii hrest (by decide)
      rw [offset_ascii h (by decide)] at hnext
      rw [blockEndFrom_of (getElem?_ascii h (by decide)) hnext, if_pos (by decide),
        afterBlockComment, offset_ascii hrest (by decide), offset_ascii h (by decide)]
    · have hafter : afterBlockComment (c :: rest) = afterBlockComment rest := by
        rw [afterBlockComment]
        rintro more rfl rfl
        exact hend ⟨rfl, rfl⟩
      rw [hafter, ← ih hrest]
      by_cases hc : c = '*'
      · subst hc
        have hnext : (units t)[offset t ('*' :: rest) + 1]? = (units rest).head? := by
          rw [← offset_ascii h (by decide), getElem?_offset hrest]
        rw [blockEndFrom_step (getElem?_ascii h (by decide)), ← offset_ascii h (by decide)]
        rw [hnext, head?_units_iff (by decide)]
        exact hend
      · have hpass (i : Nat) (d : Char) (hd : (units t)[i]? = some d) (hne : d ≠ '*') :
            blockEndFrom (units t) i = blockEndFrom (units t) (i + 1) :=
              blockEndFrom_step hd fun h => hne h.1
        exact next_char h hpass (fun d hi => hi.ne (by decide)) hc

/-- **A comment ends where the text behind it begins.** -/
theorem skipComment_eq (h : b <:+ t) :
    skipComment (units t) (offset t b) = (commentPrefix? b).map (offset t) := by
  rw [skipComment, getElem?_beq h (by decide)]
  unfold commentPrefix?
  split
  · next hslash =>
    obtain ⟨rest, rfl⟩ := List.head?_eq_some_iff.mp (beq_iff_eq.mp hslash)
    rw [getElem?_succ_beq h (by decide) (by decide), getElem?_succ_beq h (by decide) (by decide)]
    split
    · next hline =>
      obtain ⟨more, rfl⟩ := List.head?_eq_some_iff.mp (beq_iff_eq.mp hline)
      have hmore : more <:+ t := (List.suffix_append ['/', '/'] more).trans h
      rw [← offset_two h (by decide) (by decide), lineEndFrom_eq hmore]
      rfl
    · next hline =>
      split
      · next hblock =>
        obtain ⟨more, rfl⟩ := List.head?_eq_some_iff.mp (beq_iff_eq.mp hblock)
        have hmore : more <:+ t := (List.suffix_append ['/', '*'] more).trans h
        rw [← offset_two h (by decide) (by decide), blockEndFrom_eq hmore]
        rfl
      · next hblock =>
        split
        · next heq => cases heq; exact absurd rfl hline
        · next heq => cases heq; exact absurd rfl hblock
        · rfl
  · next hslash =>
    split
    · exact absurd rfl hslash
    · exact absurd rfl hslash
    · rfl

end

/-! ### Literals and groups -/

theorem lt_of_getElem? {u : Text} {i : Nat} {b : Char} (h : u[i]? = some b) : i < u.length :=
  (List.getElem?_eq_some_iff.mp h).1

mutual

/-- Behind the literal whose quote stands at an offset. -/
def skipString (u : Text) (start : Nat) : Checked (Option Nat) :=
  match h : u[start]? with
  | none => .error .outside
  | some quote =>
    have := lt_of_getElem? h
    stringFrom u quote (start + 1)
termination_by (u.length - start, 0)

/-- Behind the end of a literal that was read up to an offset. -/
def stringFrom (u : Text) (quote : Char) (i : Nat) : Checked (Option Nat) :=
  match h : u[i]? with
  | none => .ok none
  | some b =>
    have := lt_of_getElem? h
    if b == '\\' then stringFrom u quote (i + 2)
    else if b == '\n' && quote != '`' then .ok none
    else if b == '$' && quote == '`' && u[i + 1]? == some '{' then do
      match ← findClosing u (i + 1) with
      | none => return none
      | some j =>
        let ⟨next, _⟩ ← ahead i (j + 1)
        stringFrom u quote next
    else if b == quote then .ok (some (i + 1))
    else stringFrom u quote (i + 1)
termination_by (u.length - i, 1)

/-- The bracket that closes the group whose opening bracket stands at an offset. -/
def findClosing (u : Text) (start : Nat) : Checked (Option Nat) :=
  match h : u[start]? with
  | none => .error .outside
  | some c =>
    have := lt_of_getElem? h
    match closer? c with
    | none => .ok none
    | some closer => closingFrom u [closer] (start + 1)
termination_by (u.length - start, 0)

/-- The bracket that closes the outermost of some groups that are open at an offset. -/
def closingFrom (u : Text) (stack : List Char) (i : Nat) : Checked (Option Nat) :=
  match h : u[i]? with
  | none => .ok none
  | some b =>
    have := lt_of_getElem? h
    if (literal? b).isSome then do
      match ← skipString u i with
      | none => return none
      | some j =>
        let ⟨next, _⟩ ← ahead i j
        closingFrom u stack next
    else
      match if b == '/' then skipComment u i else none with
      | some j => do
        let ⟨next, _⟩ ← ahead i j
        closingFrom u stack next
      | none =>
        match closer? b with
        | some closer => closingFrom u (closer :: stack) (i + 1)
        | none =>
          if isCloser b then
            match stack with
            | [] => .ok none
            | closer :: outer =>
              if closer == b then if outer.isEmpty then .ok (some i) else
                closingFrom u outer (i + 1) else .ok none
          else closingFrom u stack (i + 1)
termination_by (u.length - i, 1)

end

section

variable {u : Text} {quote c d closer : Char} {i j : Nat}

theorem ahead_of_lt (h : i < j) : ahead i j = .ok ⟨j, h⟩ := dif_pos h

theorem skipString_of (h : u[i]? = some quote) : skipString u i = stringFrom u quote (i + 1) := by
  rw [skipString]
  split <;> simp_all

theorem stringFrom_end (h : u[i]? = none) : stringFrom u quote i = .ok none := by
  rw [stringFrom]
  split <;> simp_all

theorem stringFrom_escape (h : u[i]? = some '\\') :
    stringFrom u quote i = stringFrom u quote (i + 2) := by
  rw [stringFrom]
  split <;> simp_all

theorem stringFrom_lineEnd (h : u[i]? = some '\n') (hq : quote ≠ '`') :
    stringFrom u quote i = .ok none := by
  rw [stringFrom]
  split <;> simp_all

theorem stringFrom_body (h : u[i]? = some d) (hd : Script.IsBody quote d) :
    stringFrom u quote i = stringFrom u quote (i + 1) := by
  obtain ⟨hescape, hquote, hline, hdollar⟩ := hd
  have hline' : (d == '\n' && quote != '`') = false := by
    by_cases hn : d = '\n'
    · simp [hline hn]
    · simp [hn]
  have hdollar' : (d == '$' && quote == '`') = false := by
    by_cases hn : d = '$'
    · simp [hdollar hn]
    · simp [hn]
  rw [stringFrom]
  split
  · simp_all
  · next b hb =>
    rw [h] at hb
    cases hb
    simp [hescape, hquote, hline', hdollar']

theorem stringFrom_quote {r : Region} (hr : literal? quote = some r) (h : u[i]? = some quote) :
    stringFrom u quote i = .ok (some (i + 1)) := by
  rw [stringFrom]
  split
  · simp_all
  · next b hb =>
    rw [h] at hb
    cases hb
    obtain ⟨rfl | rfl, -⟩ | ⟨rfl, -⟩ := Script.literal?_cases hr <;> simp

theorem stringFrom_dollar (h : u[i]? = some '$') (hnext : (u[i + 1]? == some '{') = false) :
    stringFrom u '`' i = stringFrom u '`' (i + 1) := by
  rw [stringFrom]
  split
  · simp_all
  · next b hb =>
    rw [h] at hb
    cases hb
    simp [hnext]

theorem stringFrom_substitution (h : u[i]? = some '$') (hnext : (u[i + 1]? == some '{') = true) :
    stringFrom u '`' i = (findClosing u (i + 1)).bind fun found =>
      match found with
      | none => .ok none
      | some j => (ahead i (j + 1)).bind fun next => stringFrom u '`' next.1 := by
  rw [stringFrom]
  split
  · simp_all
  · next b hb =>
    rw [h] at hb
    cases hb
    simp [hnext]
    rfl

theorem findClosing_of (h : u[i]? = some c) (hc : closer? c = some closer) :
    findClosing u i = closingFrom u [closer] (i + 1) := by
  rw [findClosing]
  split <;> simp_all

end

end Localization.Offset
