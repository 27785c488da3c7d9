import Mathlib
import Localization.Proofs.Offset.Angles
import Localization.Proofs.Script.Parts

/-! Parts and comments by offsets.

`splitTopLevel` cuts a text at the separators outside of everything and `stripComments` copies
what stands between comments, both by ranges from the offset that they last cut at. What they
read first is passed over like `behind` does it, so the ranges start and end between characters,
and their texts are those that `splitTop` and `withoutComments` say (`splitTopLevel_eq`,
`stripComments_eq`). -/
namespace Localization.Script

/-- A literal or group that does not end is not cut. -/
theorem splitFrom_eq_none {r : Region} (hr : IsEnclosing r) {s : State} {outer : List Region}
    (hs : s.regions = outer ++ [r]) {t : Text} (h : behind s t = none) (separator : Char) :
    splitFrom separator s t = none := by
  have hne : s.regions ≠ [] := by simp [hs]
  induction t generalizing s outer with
  | nil =>
    rw [splitFrom, hr.not_isSettled hs]
    rfl
  | cons c rest ih =>
    cases hstep : s.step c with
    | none => rw [splitFrom, hstep]
    | some next =>
      have hn : next.regions ≠ [] := by
        intro hn
        obtain rfl := State.step_eq_top hne hstep hn
        rw [behind_close hstep] at h
        cases h
      obtain ⟨regions, pending⟩ := s
      obtain rfl : regions = outer ++ [r] := hs
      obtain ⟨outer', hnext⟩ := exists_outer_of_step hr hstep hn
      rw [behind_open hstep hn] at h
      simp only [splitFrom, hstep, ih hnext h hn, Option.map_none, ite_self]

/-- The parts of a text behind some more of the first. -/
def partsBehind (separator : Char) (front t : Text) : Option (List Text) :=
  (splitFrom separator .top t).map (front.foldr Text.consHead)

theorem partsBehind_nil (separator : Char) (front : Text) :
    partsBehind separator front [] = some [front] := by
  rw [partsBehind, splitFrom, if_pos (show State.top.isSettled = true from rfl), Option.map_some,
    foldr_consHead, List.append_nil]

theorem partsBehind_of_eq {separator : Char} {m t z : Text}
    (h : splitFrom separator .top t = (splitFrom separator .top z).map (m.foldr Text.consHead))
    (front : Text) : partsBehind separator front t = partsBehind separator (front ++ m) z := by
  rw [partsBehind, h, Option.map_map, partsBehind]
  refine congrArg (Option.map · _) (funext fun parts => ?_)
  rw [List.foldr_append, Function.comp_apply]

section

variable {separator : Char} (front : Text)

theorem partsBehind_separator (hs : isOrdinary separator = true) (rest : Text) :
    partsBehind separator front (separator :: rest) =
      (partsBehind separator [] rest).map (front :: ·) := by
  rw [partsBehind, splitFrom_separator hs, partsBehind, Option.map_map, Option.map_map]
  refine congrArg (Option.map · _) (funext fun parts => ?_)
  rw [Function.comp_apply, foldr_consHead, List.append_nil]
  rfl

theorem partsBehind_ordinary {c : Char} (hc : isOrdinary c = true) (hne : c ≠ separator)
    (rest : Text) :
    partsBehind separator front (c :: rest) = partsBehind separator (front ++ [c]) rest :=
  partsBehind_of_eq (splitFrom_code (stepCode_ordinary hc []) hne rest) front

theorem partsBehind_closer {c : Char} (hc : isCloser c = true) (rest : Text) :
    partsBehind separator front (c :: rest) = none := by
  obtain ⟨hliteral, hslash, hopener⟩ := literal?_of_isCloser hc
  have hstep : State.top.step c = none := by
    show stepCode [] .none c = none
    simp [stepCode, hliteral, hslash, hopener, hc]
  rw [partsBehind, splitFrom, hstep]
  rfl

/-- A literal or group belongs to one part. -/
theorem partsBehind_enclosed {c : Char} {r : Region} (hr : IsEnclosing r)
    (hc : stepCode [] .none c = some (.inside r)) (hne : c ≠ separator) (rest : Text) :
    (behind (.inside r) rest = none → partsBehind separator front (c :: rest) = none) ∧
      ∀ z, behind (.inside r) rest = some z →
        ∃ m, c :: rest = m ++ z ∧ partsBehind separator front (c :: rest) =
          partsBehind separator (front ++ m) z := by
  have hsplit := splitFrom_code hc hne rest
  constructor
  · intro hnone
    have hregions : (State.inside r).regions = [] ++ [r] := rfl
    rw [partsBehind, hsplit, splitFrom_eq_none hr hregions hnone]
    rfl
  · intro z hz
    obtain ⟨⟨read, after⟩, hread, rfl⟩ := Option.map_eq_some_iff.mp hz
    have hrest := closing_append hread
    refine ⟨c :: read, by rw [hrest]; rfl, partsBehind_of_eq ?_ front⟩
    have hline : (State.inside r).regions.getLast? ≠ some .lineComment := by
      obtain ⟨quote, hquote⟩ | ⟨closer, -, rfl⟩ := hr
      · exact not_lineComment_of_literal? hquote
      · simp [State.inside]
    rw [hsplit, hrest, (isClosedBy_of_closing hread).splitFrom_append (List.cons_ne_nil _ _) hline,
      Option.map_map]
    rfl

theorem partsBehind_slash {rest : Text} (hne : '/' ≠ separator)
    (h : commentPrefix? ('/' :: rest) = none) :
    partsBehind separator front ('/' :: rest) = partsBehind separator (front ++ ['/']) rest := by
  have hsplit := splitFrom_code (stepCode_slash_opens []) hne rest
  have hslash : splitFrom separator ⟨groups [], .slash⟩ rest = splitFrom separator .top rest :=
    Settles.splitFrom_slash h separator
  exact partsBehind_of_eq (hsplit.trans (congrArg (Option.map _) hslash)) front

/-- Whether a comment up to some text belongs to one part. -/
def IsPassed (separator : Char) (s : State) (t z : Text) : Prop :=
  ∃ m, t = m ++ z ∧ splitFrom separator s t =
    (splitFrom separator .top z).map (m.foldr Text.consHead)

theorem IsPassed.cons {s next : State} {c : Char} {t z : Text} (h : IsPassed separator next t z)
    (hstep : s.step c = some next) (hkeep : s.cutsAt separator c = false) :
    IsPassed separator s (c :: t) z := by
  obtain ⟨m, rfl, hm⟩ := h
  refine ⟨c :: m, rfl, ?_⟩
  rw [splitFrom_keep hstep hkeep, hm, Option.map_map]
  rfl

theorem isPassed_top (t : Text) : IsPassed separator .top t t :=
  ⟨[], rfl, by cases splitFrom separator .top t <;> rfl⟩

/-- The line end behind a line comment is read as if nothing stood in front of it. -/
theorem isPassed_lineComment (t : Text) :
    IsPassed separator ⟨[.lineComment], .none⟩ t (t.dropWhile (· != '\n')) := by
  induction t with
  | nil => exact ⟨[], rfl, rfl⟩
  | cons c t ih =>
    by_cases hc : c = '\n'
    · subst hc
      have hsame : splitFrom separator ⟨[.lineComment], .none⟩ ('\n' :: t) =
          splitFrom separator .top ('\n' :: t) := rfl
      obtain ⟨m, hm, htop⟩ : IsPassed separator .top ('\n' :: t) ('\n' :: t) := isPassed_top _
      rw [List.dropWhile_cons_of_neg (by simp)]
      exact ⟨m, hm, hsame.trans htop⟩
    · have hstep : State.step ⟨[.lineComment], .none⟩ c = some ⟨[.lineComment], .none⟩ := by
        simp [State.step, hc]
      rw [List.dropWhile_cons_of_pos (by simpa using hc)]
      exact ih.cons hstep (State.cutsAt_of_step hstep (by simp [State.top]))

theorem isPassed_blockComment (t : Text) :
    IsPassed separator ⟨[.blockComment], .none⟩ t (afterBlockComment t) ∧
      (t.head? = some '/' → IsPassed separator ⟨[.blockComment], .star⟩ t t.tail) ∧
      (t.head? ≠ some '/' → IsPassed separator ⟨[.blockComment], .star⟩ t
        (afterBlockComment t)) := by
  induction t with
  | nil => exact ⟨⟨[], rfl, rfl⟩, fun h => (by cases h), fun _ => ⟨[], rfl, rfl⟩⟩
  | cons c t ih =>
    obtain ⟨hnone, hslash, hother⟩ := ih
    have hkeep (p : Pending) : State.cutsAt ⟨[.blockComment], p⟩ separator c = false :=
      State.cutsAt_of_open (List.cons_ne_nil _ _) (by simp)
    have hblock :
        IsPassed separator ⟨[.blockComment], .none⟩ (c :: t) (afterBlockComment (c :: t)) := by
      by_cases hend : c = '*' ∧ t.head? = some '/'
      · obtain ⟨rfl, hhead⟩ := hend
        have := hslash hhead
        obtain ⟨more, rfl⟩ := List.head?_eq_some_iff.mp hhead
        exact this.cons rfl (hkeep _)
      · have hafter : afterBlockComment (c :: t) = afterBlockComment t := by
          rw [afterBlockComment]
          rintro more rfl rfl
          exact hend ⟨rfl, rfl⟩
        rw [hafter]
        by_cases hc : c = '*'
        · subst hc
          exact (hother fun h => hend ⟨rfl, h⟩).cons rfl (hkeep _)
        · exact hnone.cons (by simp [State.step, hc]) (hkeep _)
    refine ⟨hblock, fun hhead => ?_, fun hhead => ?_⟩
    · obtain ⟨more, heq⟩ := List.head?_eq_some_iff.mp hhead
      cases heq
      exact (isPassed_top _).cons rfl (hkeep _)
    · have hc : c ≠ '/' := by simpa using hhead
      have hstep : State.step ⟨[.blockComment], .star⟩ c =
          State.step ⟨[.blockComment], .none⟩ c := by
        simp [State.step, hc]
      obtain ⟨m, hm, hsplit⟩ := hblock
      refine ⟨m, hm, ?_⟩
      rw [← hsplit, splitFrom, splitFrom, State.cutsAt, State.cutsAt, hstep]

/-- A comment belongs to one part. -/
theorem partsBehind_comment {rest after : Text} (hne : '/' ≠ separator)
    (h : commentPrefix? ('/' :: rest) = some after) :
    ∃ m, '/' :: rest = m ++ after ∧ partsBehind separator front ('/' :: rest) =
      partsBehind separator (front ++ m) after := by
  have hsplit := splitFrom_code (stepCode_slash_opens []) hne rest
  have hpassed : IsPassed separator ⟨[], .slash⟩ rest after := by
    rw [commentPrefix?.eq_def] at h
    split at h
    · next more heq =>
      cases heq
      cases h
      exact (isPassed_lineComment more).cons rfl (State.cutsAt_of_ne hne)
    · next more heq =>
      cases heq
      cases h
      have hopens : State.step ⟨[], .slash⟩ '*' = some ⟨[.blockComment], .none⟩ := rfl
      exact (isPassed_blockComment more).1.cons hopens
        (State.cutsAt_of_step hopens (by simp [State.top]))
    · cases h
  obtain ⟨m, rfl, hm⟩ := hpassed
  refine ⟨'/' :: m, rfl, partsBehind_of_eq ?_ front⟩
  rw [hsplit, hm, Option.map_map]
  rfl

end

end Localization.Script

namespace Localization.Offset

open Script (State Region closer? isCloser literal? commentPrefix? behind closing closing_append
  isOrdinary splitFrom splitTop partsBehind stripFrom withoutComments)

/-! ### Parts -/

theorem slice_offset {t m b : Text} (h : m ++ b <:+ t) :
    slice t (offset t (m ++ b)) (offset t b) = .ok m := by
  obtain ⟨a, rfl⟩ := h
  rw [offset_append, ← List.append_assoc, offset_append]
  exact slice_append a m b

theorem lt_size_of_getElem? {t : Text} {i : Nat} {b : Char} (h : (units t)[i]? = some b) :
    i < Text.size t :=
  length_units t ▸ lt_of_getElem? h

/-- The parts of a text from an offset on, the first of which starts at another. -/
def partsFrom (separator : Char) (t : Text) (start i : Nat) : Checked (Option (List Text)) :=
  match h : (units t)[i]? with
  | none => do return some [← slice t start (Text.size t)]
  | some b =>
    have := lt_size_of_getElem? h
    if (literal? b).isSome then do
      match ← skipString (units t) i with
      | none => return none
      | some j =>
        let ⟨next, _⟩ ← ahead i j
        partsFrom separator t start next
    else
      match if b == '/' then skipComment (units t) i else none with
      | some j => do
        let ⟨next, _⟩ ← ahead i j
        partsFrom separator t start next
      | none =>
        if (closer? b).isSome then do
          match ← findClosing (units t) i with
          | none => return none
          | some j =>
            let ⟨next, _⟩ ← ahead i (j + 1)
            partsFrom separator t start next
        else if isCloser b then .ok none
        else if b == separator then do
          let part ← slice t start i
          return (← partsFrom separator t (i + 1) (i + 1)).map (part :: ·)
        else partsFrom separator t start (i + 1)
termination_by Text.size t - i

/-- The parts of a text between the separators outside of everything. -/
def splitTopLevel (separator : Char) (t : Text) : Checked (Option (List Text)) :=
  partsFrom separator t 0 0

section

variable {t b : Text} {separator d : Char} {start i j : Nat}

theorem partsFrom_end (h : (units t)[i]? = none) :
    partsFrom separator t start i = (slice t start (Text.size t)).bind fun part =>
      .ok (some [part]) := by
  rw [partsFrom]
  split
  · rfl
  · simp_all

theorem partsFrom_of (h : (units t)[i]? = some d) :
    partsFrom separator t start i =
      if (literal? d).isSome then (skipString (units t) i).bind fun found =>
        match found with
        | none => .ok none
        | some j => (ahead i j).bind fun next => partsFrom separator t start next.1
      else
        match if d == '/' then skipComment (units t) i else none with
        | some j => (ahead i j).bind fun next => partsFrom separator t start next.1
        | none =>
          if (closer? d).isSome then (findClosing (units t) i).bind fun found =>
            match found with
            | none => .ok none
            | some j => (ahead i (j + 1)).bind fun next => partsFrom separator t start next.1
          else if isCloser d then .ok none
          else if d == separator then (slice t start i).bind fun part =>
            (partsFrom separator t (i + 1) (i + 1)).bind fun later => .ok (later.map (part :: ·))
          else partsFrom separator t start (i + 1) := by
  rw [partsFrom]
  split
  · simp_all
  · next b hb =>
    rw [h] at hb
    cases hb
    rfl

variable {c : Char} {rest : Text}

theorem partsFrom_literal {r : Region} (hr : literal? c = some r) (h : c :: rest <:+ t) :
    partsFrom separator t start (offset t (c :: rest)) =
      (behind (.inside r) rest).elim (.ok none) fun z =>
        partsFrom separator t start (offset t z) := by
  rw [partsFrom_of (getElem?_ascii h (not_isInert_of_literal? hr)), if_pos (by rw [hr]; rfl),
    skipString_eq hr h]
  cases hbehind : behind (.inside r) rest with
  | none => rfl
  | some z =>
    simp [Except.bind, ahead_of_lt (offset_lt_of_suffix h (Script.suffix_of_behind hbehind))]

theorem partsFrom_group {closer : Char} (hc : closer? c = some closer) (h : c :: rest <:+ t) :
    partsFrom separator t start (offset t (c :: rest)) =
      (behind (.inside (.group closer)) rest).elim (.ok none) fun z =>
        partsFrom separator t start (offset t z) := by
  obtain ⟨hliteral, hslash, -⟩ := Script.literal?_of_closer? hc
  rw [partsFrom_of (getElem?_ascii h (not_isInert_of_closer? hc).1)]
  simp only [hliteral, Option.isSome_none, Bool.false_eq_true, if_false, beq_false_of_ne hslash, hc,
    Option.isSome_some, if_true, findClosing_eq hc h]
  cases hbehind : behind (.inside (.group closer)) rest with
  | none => rfl
  | some z =>
    have hlt := offset_lt_of_suffix h (Script.suffix_of_behind hbehind)
    have hj : offset t z - 1 + 1 = offset t z := by omega
    simp [Except.bind, hj, ahead_of_lt hlt]

theorem partsFrom_slash (h : '/' :: rest <:+ t) (hne : '/' ≠ separator) :
    partsFrom separator t start (offset t ('/' :: rest)) =
      partsFrom separator t start (offset t ((commentPrefix? ('/' :: rest)).getD rest)) := by
  rw [partsFrom_of (getElem?_ascii h (by decide)), if_neg (by decide), if_pos (by decide),
    skipComment_eq h]
  cases hcomment : commentPrefix? ('/' :: rest) with
  | some after =>
    simp [Except.bind,
      ahead_of_lt (offset_lt_of_suffix h (Script.isSuffix_of_commentPrefix? hcomment))]
  | none => simp [closer?, isCloser, hne, ← offset_ascii h (by decide)]

theorem partsFrom_closer (h : (units t)[i]? = some d) (hd : isCloser d = true) :
    partsFrom separator t start i = .ok none := by
  obtain ⟨hliteral, hslash, hopener⟩ := Script.literal?_of_isCloser hd
  rw [partsFrom_of h]
  simp [hliteral, hslash, hopener, hd]

theorem partsFrom_ordinary (h : (units t)[i]? = some d) (hd : isOrdinary d = true) :
    partsFrom separator t start i =
      if d = separator then (slice t start i).bind fun part =>
        (partsFrom separator t (i + 1) (i + 1)).bind fun later => .ok (later.map (part :: ·))
      else partsFrom separator t start (i + 1) := by
  simp only [isOrdinary, Bool.and_eq_true, Option.isNone_iff_eq_none, bne_iff_ne,
    Bool.not_eq_true'] at hd
  rw [partsFrom_of h]
  simp [hd]

/-- **The parts of a text are cut in front of and behind whole characters.** -/
theorem partsFrom_eq (hsep : isOrdinary separator = true) (hascii : ¬ IsInert separator)
    {front : Text} (h : front ++ b <:+ t) :
    partsFrom separator t (offset t (front ++ b)) (offset t b) =
      .ok (partsBehind separator front b) := by
  generalize hn : b.length = n
  induction n using Nat.strongRecOn generalizing b front with
  | ind n ih =>
    subst hn
    cases b with
    | nil =>
      have hslice : slice t (offset t (front ++ [])) (Text.size t) = .ok front := slice_offset h
      rw [partsFrom_end (getElem?_end t), hslice, Script.partsBehind_nil]
      rfl
    | cons c rest =>
      have hb : c :: rest <:+ t := (List.suffix_append _ _).trans h
      have hne {d : Char} (hd : isOrdinary d = false) : d ≠ separator := by
        rintro rfl
        rw [hsep] at hd
        cases hd
      -- What a lexeme leaves is shorter, and the part goes on with the lexeme.
      have later {m z : Text} (hm : c :: rest = m ++ z) (hz : z.length ≤ rest.length) :
          partsFrom separator t (offset t (front ++ c :: rest)) (offset t z) =
            .ok (partsBehind separator (front ++ m) z) := by
        rw [hm, ← List.append_assoc] at h ⊢
        exact ih z.length (Nat.lt_succ_of_le hz) h rfl
      have enclosed {r : Region} (hr : Script.IsEnclosing r)
          (hc : Script.stepCode [] .none c = some (.inside r))
          (hordinary : isOrdinary c = false) :
          ((behind (.inside r) rest).elim (.ok none) fun z =>
            partsFrom separator t (offset t (front ++ c :: rest)) (offset t z)) =
            .ok (partsBehind separator front (c :: rest)) := by
        have hcut := Script.partsBehind_enclosed front hr hc (hne hordinary) rest
        cases hbehind : behind (.inside r) rest with
        | none => rw [hcut.1 hbehind]; rfl
        | some z =>
          obtain ⟨m, hm, hparts⟩ := hcut.2 z hbehind
          rw [hparts, ← later hm (Script.suffix_of_behind hbehind).length_le]
          rfl
      cases hliteral : literal? c with
      | some r =>
        rw [partsFrom_literal hliteral hb]
        exact enclosed (.inl ⟨c, hliteral⟩) (Script.stepCode_literal hliteral [])
          (by simp [isOrdinary, hliteral])
      | none =>
      cases hopener : closer? c with
      | some closer =>
        rw [partsFrom_group hopener hb]
        exact enclosed (.inr ⟨closer, Script.isCloser_of_closer? hopener, rfl⟩)
          (Script.stepCode_opener hopener []) (by simp [isOrdinary, hopener])
      | none =>
      by_cases hslash : c = '/'
      · subst hslash
        rw [partsFrom_slash hb (hne rfl)]
        cases hcomment : commentPrefix? ('/' :: rest) with
        | some after =>
          obtain ⟨m, hm, hparts⟩ := Script.partsBehind_comment front (hne rfl) hcomment
          rw [hparts]
          exact later hm (Script.isSuffix_of_commentPrefix? hcomment).length_le
        | none =>
          rw [Script.partsBehind_slash front (hne rfl) hcomment]
          exact later rfl (Nat.le_refl _)
      cases hcloser : isCloser c with
      | true =>
        have hc : ¬ IsInert c := fun hi => by
          have hordinary := isOrdinary_of_isInert hi
          simp [isOrdinary, hcloser] at hordinary
        rw [partsFrom_closer (getElem?_ascii hb hc) hcloser,
          Script.partsBehind_closer front hcloser]
      | false =>
      have hordinary : isOrdinary c = true := by
        simp [isOrdinary, hliteral, hopener, hcloser, hslash]
      by_cases hcut : c = separator
      · subst hcut
        have hrest : [] ++ rest <:+ t := suffix_tail hb
        have hparts : partsFrom c t (offset t rest) (offset t rest) = .ok (partsBehind c [] rest) :=
          ih rest.length (Nat.lt_succ_self _) hrest rfl
        rw [partsFrom_ordinary (getElem?_ascii hb hascii) hordinary, if_pos rfl,
          Script.partsBehind_separator front hsep, ← offset_ascii hb hascii, hparts, slice_offset h]
        rfl
      · rw [Script.partsBehind_ordinary front hordinary hcut, ← later rfl (Nat.le_refl _)]
        have hpass (i : Nat) (d : Char) (hd : (units t)[i]? = some d)
            (ho : isOrdinary d = true ∧ d ≠ separator) :
            partsFrom separator t (offset t (front ++ c :: rest)) i =
              partsFrom separator t (offset t (front ++ c :: rest)) (i + 1) := by
          rw [partsFrom_ordinary hd ho.1, if_neg ho.2]
        exact next_char hb hpass (fun d hi => ⟨isOrdinary_of_isInert hi, hi.ne hascii⟩)
          ⟨hordinary, hcut⟩

/-- A text is cut as it is read from left to right. -/
theorem splitTopLevel_eq (hsep : isOrdinary separator = true) (hascii : ¬ IsInert separator)
    (t : Text) :
    splitTopLevel separator t = .ok (splitTop separator t) := by
  have hself : [] ++ t <:+ t := List.suffix_refl t
  have hparts := partsFrom_eq hsep hascii hself
  rw [List.nil_append, offset_self] at hparts
  rw [splitTopLevel, hparts, partsBehind, splitTop]
  cases splitFrom separator .top t <;> rfl

/-! ### Comments -/

/-- The text without comments from an offset on, up to which it was copied from another. -/
def strippedFrom (t : Text) (copied i : Nat) : Checked Text :=
  match h : (units t)[i]? with
  | none => slice t copied (Text.size t)
  | some b =>
    have := lt_size_of_getElem? h
    if (literal? b).isSome then do
      match ← skipString (units t) i with
      | none => slice t copied (Text.size t)
      | some j =>
        let ⟨next, _⟩ ← ahead i j
        strippedFrom t copied next
    else
      match if b == '/' then skipComment (units t) i else none with
      | none => strippedFrom t copied (i + 1)
      | some j => do
        let front ← slice t copied i
        let ⟨next, _⟩ ← ahead i j
        return front ++ ' ' :: (← strippedFrom t next next)
termination_by Text.size t - i

/-- The text without comments outside of literals. -/
def stripComments (t : Text) : Checked Text := strippedFrom t 0 0

theorem strippedFrom_end (h : (units t)[i]? = none) :
    strippedFrom t start i = slice t start (Text.size t) := by
  rw [strippedFrom]
  split
  · rfl
  · simp_all

theorem strippedFrom_of (h : (units t)[i]? = some d) :
    strippedFrom t start i =
      if (literal? d).isSome then (skipString (units t) i).bind fun found =>
        match found with
        | none => slice t start (Text.size t)
        | some j => (ahead i j).bind fun next => strippedFrom t start next.1
      else
        match if d == '/' then skipComment (units t) i else none with
        | none => strippedFrom t start (i + 1)
        | some j => (slice t start i).bind fun front => (ahead i j).bind fun next =>
          (strippedFrom t next.1 next.1).bind fun later => .ok (front ++ ' ' :: later) := by
  rw [strippedFrom]
  split
  · simp_all
  · next b hb =>
    rw [h] at hb
    cases hb
    rfl

theorem strippedFrom_code (h : (units t)[i]? = some d) (hd : literal? d = none ∧ d ≠ '/') :
    strippedFrom t start i = strippedFrom t start (i + 1) := by
  rw [strippedFrom_of h]
  simp [hd]

/-- **The text between comments is copied in whole characters.** -/
theorem strippedFrom_eq {front : Text} (h : front ++ b <:+ t) :
    strippedFrom t (offset t (front ++ b)) (offset t b) = .ok (front ++ withoutComments b) := by
  generalize hn : b.length = n
  induction n using Nat.strongRecOn generalizing b front with
  | ind n ih =>
    subst hn
    cases b with
    | nil =>
      rw [strippedFrom_end (getElem?_end t), ← offset_nil t, slice_offset h]
      simp [withoutComments, stripFrom]
    | cons c rest =>
      have hb : c :: rest <:+ t := (List.suffix_append _ _).trans h
      have later {m z : Text} (hm : c :: rest = m ++ z) (hz : z.length ≤ rest.length) :
          strippedFrom t (offset t (front ++ c :: rest)) (offset t z) =
            .ok (front ++ (m ++ withoutComments z)) := by
        rw [hm, ← List.append_assoc] at h ⊢
        rw [← List.append_assoc]
        exact ih z.length (Nat.lt_succ_of_le hz) h rfl
      cases hliteral : literal? c with
      | some r =>
        rw [strippedFrom_of (getElem?_ascii hb (not_isInert_of_literal? hliteral)),
          if_pos (by rw [hliteral]; rfl), skipString_eq hliteral hb]
        cases hclosing : closing (.inside r) rest with
        | none =>
          have hcopy : withoutComments (c :: rest) = c :: rest := by
            rw [withoutComments, stripFrom, hliteral]
            simp only [hclosing]
          have hslice :=
            slice_offset (t := t) (m := front ++ c :: rest) (b := []) (by rwa [List.append_nil])
          rw [List.append_nil] at hslice
          rw [hcopy, behind, hclosing]
          exact hslice
        | some found =>
          obtain ⟨body, z⟩ := found
          have hz : behind (.inside r) rest = some z := by rw [behind, hclosing]; rfl
          have hrest := closing_append hclosing
          have hcopy : withoutComments (c :: rest) = (c :: body) ++ withoutComments z := by
            rw [hrest]
            exact Script.stripFrom_literal hliteral (Script.isClosedBy_of_closing hclosing) z
          rw [hcopy, ← later (by rw [hrest]; rfl) (Script.suffix_of_behind hz).length_le, hz]
          simp only [Option.map_some, Except.bind,
            ahead_of_lt (offset_lt_of_suffix hb (Script.suffix_of_behind hz))]
      | none =>
        by_cases hslash : c = '/'
        · subst hslash
          rw [strippedFrom_of (getElem?_ascii hb (by decide)), if_neg (by decide),
            if_pos (by decide), skipComment_eq hb]
          cases hcomment : commentPrefix? ('/' :: rest) with
          | none =>
            have hcopy : withoutComments ('/' :: rest) = ['/'] ++ withoutComments rest :=
              (Script.stripFrom_slash hcomment).1
            rw [hcopy, ← later rfl (Nat.le_refl _), offset_ascii hb (by decide)]
            rfl
          | some after =>
            have hafter := Script.isSuffix_of_commentPrefix? hcomment
            have hcopy : withoutComments ('/' :: rest) = ' ' :: withoutComments after :=
              Script.stripFrom_comment hcomment hafter
            have hbehind : [] ++ after <:+ t := hafter.trans (suffix_tail hb)
            have hstripped : strippedFrom t (offset t after) (offset t after) =
                .ok (withoutComments after) :=
              ih after.length (Nat.lt_succ_of_le hafter.length_le) hbehind rfl
            rw [hcopy, slice_offset h]
            simp only [Option.map_some, Except.bind,
              ahead_of_lt (offset_lt_of_suffix hb hafter), hstripped]
        · have hcopy : withoutComments (c :: rest) = [c] ++ withoutComments rest :=
            Script.stripFrom_code hliteral hslash rest
          rw [hcopy, ← later rfl (Nat.le_refl _)]
          have hinert (d : Char) (hi : IsInert d) : literal? d = none ∧ d ≠ '/' := by
            simp (disch := decide) [literal?, hi.ne]
          exact next_char hb (fun i d hd hcode => strippedFrom_code hd hcode) hinert
            ⟨hliteral, hslash⟩

theorem stripComments_eq (t : Text) : stripComments t = .ok (withoutComments t) := by
  have hself : [] ++ t <:+ t := List.suffix_refl t
  have hstripped := strippedFrom_eq hself
  rw [List.nil_append, offset_self] at hstripped
  exact hstripped

end

end Localization.Offset
