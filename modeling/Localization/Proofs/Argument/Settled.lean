import Mathlib
import Localization.Proofs.Argument.Spelled

/-! Arguments that are always read.

A list of arguments that stands in a group is read, whatever its arguments are
(`isSome_readArguments`): freed of comments it still closes what it opens (`settles_stripFrom`), and
so do its parts (`Settles.exists_splitFrom`) and what stands between the brackets of an array
(`Settles.exists_groupPrefix?`). -/
namespace Localization.Script

/-! ### Texts without comments -/

/-- Whether a text closes the groups that are open before it, the innermost first, and whatever it
opens, and holds no comment but in literals. -/
inductive Settles : List Char → Text → Prop
  | nil : Settles [] []
  | ordinary {closers : List Char} {c : Char} {rest : Text} (hc : isOrdinary c = true)
      (hrest : Settles closers rest) : Settles closers (c :: rest)
  | slash {closers : List Char} {rest : Text} (hc : commentPrefix? ('/' :: rest) = none)
      (hrest : Settles closers rest) : Settles closers ('/' :: rest)
  | literal {closers : List Char} {quote : Char} {r : Region} {body rest : Text}
      (hquote : literal? quote = some r)
      (hbody : (State.inside r).IsClosedBy body) (hrest : Settles closers rest) :
      Settles closers (quote :: (body ++ rest))
  | opener {closers : List Char} {c closer : Char} {rest : Text} (hc : closer? c = some closer)
      (hrest : Settles (closer :: closers) rest) : Settles closers (c :: rest)
  | closer {closers : List Char} {c : Char} {rest : Text} (hc : isCloser c = true)
      (hrest : Settles closers rest) :
      Settles (c :: closers) (c :: rest)

/-- The groups that are open, the innermost first. -/
def groups (closers : List Char) : List Region := closers.map .group

theorem step_groups (closers : List Char) (pending : Pending) (c : Char) :
    State.step ⟨groups closers, pending⟩ c = stepCode (groups closers) pending c := by
  cases closers <;> rfl

/-! ### Closers -/

theorem literal?_of_isCloser {c : Char} (h : isCloser c = true) :
    literal? c = none ∧ c ≠ '/' ∧ closer? c = none := by
  simp only [isCloser, Bool.or_eq_true, beq_iff_eq] at h
  rcases h with (rfl | rfl) | rfl <;> decide

theorem stepCode_isCloser {c : Char} (h : isCloser c = true) (rs : List Region) :
    stepCode (.group c :: rs) .none c = some ⟨rs, .none⟩ := by
  obtain ⟨hliteral, hslash, hopener⟩ := literal?_of_isCloser h
  simp [stepCode, hliteral, hslash, hopener, h]

theorem stepCode_group_of_isCloser {c : Char} (h : isCloser c = true) (closer : Char)
    (pending : Pending) :
    stepCode [.group closer] pending c = if c == closer then some .top else none := by
  obtain ⟨hliteral, hslash, hopener⟩ := literal?_of_isCloser h
  have hstar : c ≠ '*' := by rintro rfl; cases h
  simp [stepCode, hliteral, hslash, hstar, hopener, h, State.top]

/-- A character that is no closer acts in a group as it does outside. -/
theorem stepCode_group {c : Char} (h : isCloser c = false) (closer : Char) (pending : Pending) :
    stepCode [.group closer] pending c = (stepCode [] pending c).map (·.below [.group closer]) := by
  simp only [stepCode, h]
  repeat' split
  all_goals simp_all [State.below]

theorem not_isBlank_of_isCloser {c : Char} (h : isCloser c = true) : Text.isBlank c = false := by
  simp only [isCloser, Bool.or_eq_true, beq_iff_eq] at h
  rcases h with (rfl | rfl) | rfl <;> decide

theorem not_isBlank_of_closer? {c closer : Char} (h : closer? c = some closer) :
    Text.isBlank c = false := by
  unfold closer? at h
  repeat' split at h
  all_goals first
    | next hc => rw [beq_iff_eq.mp hc]; decide
    | cases h

theorem not_isBlank_of_literal? {quote : Char} {r : Region} (h : literal? quote = some r) :
    Text.isBlank quote = false := by
  unfold literal? at h
  repeat' split at h
  all_goals first
    | next hc => rcases Bool.or_eq_true_iff.mp hc with hc | hc <;> rw [beq_iff_eq.mp hc] <;> decide
    | next hc => rw [beq_iff_eq.mp hc]; decide
    | cases h

theorem isOrdinary_of_isBlank {c : Char} (h : Text.isBlank c = true) : isOrdinary c = true := by
  have hliteral : literal? c = none := by
    rw [Option.eq_none_iff_forall_ne_some]
    intro r hr
    rw [not_isBlank_of_literal? hr] at h
    cases h
  have hopener : closer? c = none := by
    rw [Option.eq_none_iff_forall_ne_some]
    intro closer hc
    rw [not_isBlank_of_closer? hc] at h
    cases h
  have hcloser : isCloser c = false := by
    rw [Bool.eq_false_iff]
    intro hc
    rw [not_isBlank_of_isCloser hc] at h
    cases h
  have hslash : c ≠ '/' := by rintro rfl; cases h
  simp [isOrdinary, hliteral, hopener, hcloser, hslash]

/-! ### Slashes -/

theorem commentPrefix?_slash_eq_none_iff {t : Text} :
    commentPrefix? ('/' :: t) = none ↔ t.head? ≠ some '/' ∧ t.head? ≠ some '*' := by
  cases t with
  | nil => simp [commentPrefix?]
  | cons c t =>
    by_cases h1 : c = '/'
    · simp [h1, commentPrefix?]
    · by_cases h2 : c = '*'
      · simp [h2, commentPrefix?]
      · simp [commentPrefix?, h1, h2]

/-- Where no comment starts, a slash before a character of code does not matter. -/
theorem stepCode_slash {c : Char} (h1 : c ≠ '/') (h2 : c ≠ '*') (rs : List Region) :
    stepCode rs .slash c = stepCode rs .none c := by
  simp [stepCode, h1, h2]

theorem step_slash (closers : List Char) {c : Char} {t : Text}
    (h : commentPrefix? ('/' :: c :: t) = none) :
    State.step ⟨groups closers, .slash⟩ c = State.step ⟨groups closers, .none⟩ c := by
  rw [commentPrefix?_slash_eq_none_iff] at h
  rw [step_groups, step_groups, stepCode_slash (by simpa using h.1) (by simpa using h.2)]

theorem commentPrefix?_slash_mono {t u : Text} (h : commentPrefix? ('/' :: t) = none)
    (hu : u <+: t) :
    commentPrefix? ('/' :: u) = none := by
  obtain ⟨z, rfl⟩ := hu
  cases u with
  | nil => rfl
  | cons c u =>
    rw [commentPrefix?_slash_eq_none_iff] at h ⊢
    exact h

theorem stepCode_slash_opens (rs : List Region) : stepCode rs .none '/' = some ⟨rs, .slash⟩ := by
  simp [stepCode, literal?]

/-! ### Reading up to the end of all groups -/

namespace State

theorem run_cons {s next : State} {c : Char} (h : s.step c = some next) (t : Text) :
    s.run (c :: t) = next.run t := by
  rw [run, h]

/-- A text that ends outside of everything ends the regions it starts in, one after the other. -/
theorem exists_isClosedBy_of_run {regions outer : List Region} {pending p : Pending} {t : Text}
    (hne : regions ≠ []) (h : run ⟨regions ++ outer, pending⟩ t = some ⟨[], p⟩) :
    ∃ body z, t = body ++ z ∧ IsClosedBy ⟨regions, pending⟩ body ∧
      run ⟨outer, .none⟩ z = some ⟨[], p⟩ := by
  induction t generalizing regions pending with
  | nil =>
    rw [run, Option.some.injEq, State.mk.injEq, List.append_eq_nil_iff] at h
    exact absurd h.1.1 hne
  | cons c t ih =>
    have hbelow := step_below (s := ⟨regions, pending⟩) hne outer c
    rw [below] at hbelow
    rw [run, hbelow] at h
    cases hstep : step ⟨regions, pending⟩ c with
    | none => simp [hstep] at h
    | some next =>
      simp only [hstep, Option.map_some] at h
      by_cases hn : next.regions = []
      · obtain rfl := step_eq_top (s := ⟨regions, pending⟩) hne hstep hn
        exact ⟨[c], t, rfl, isClosedBy_cons.mpr ⟨.top, hstep, .inl ⟨rfl, rfl⟩⟩, h⟩
      · obtain ⟨body, z, rfl, hbody, hz⟩ := ih hn h
        exact ⟨c :: body, z, rfl, isClosedBy_cons.mpr ⟨next, hstep, .inr ⟨hn, hbody⟩⟩, hz⟩

/-- Inside of a group, a character that does not end the group acts as it does outside. -/
theorem step_of_step_group {regions : List Region} {closer c : Char} {pending : Pending}
    {next : State} (h : step ⟨regions ++ [.group closer], pending⟩ c = some next)
    (hn : next.regions ≠ []) :
    ∃ s, step ⟨regions, pending⟩ c = some s ∧ next = s.below [.group closer] := by
  cases regions with
  | cons r rs =>
    have hbelow := step_below (s := ⟨r :: rs, pending⟩) (List.cons_ne_nil r rs) [.group closer] c
    rw [below, h] at hbelow
    obtain ⟨s, hs, rfl⟩ := Option.map_eq_some_iff.mp hbelow.symm
    exact ⟨s, hs, rfl⟩
  | nil =>
    change stepCode [.group closer] pending c = some next at h
    cases hc : isCloser c with
    | true =>
      rw [stepCode_group_of_isCloser hc] at h
      split at h
      · cases h; exact absurd rfl hn
      · cases h
    | false =>
      rw [stepCode_group hc] at h
      obtain ⟨s, hs, rfl⟩ := Option.map_eq_some_iff.mp h
      exact ⟨s, hs, rfl⟩

/-- What stands in a group settles what it opens. -/
theorem exists_run_of_isClosedBy {regions : List Region} {closer : Char} {pending : Pending}
    {inner : Text} (h : IsClosedBy ⟨regions ++ [.group closer], pending⟩ (inner ++ [closer])) :
    ∃ p, run ⟨regions, pending⟩ inner = some ⟨[], p⟩ := by
  induction inner generalizing regions pending with
  | nil =>
    obtain ⟨next, hstep, ⟨hn, -⟩ | ⟨-, hnil⟩⟩ := isClosedBy_cons.mp h
    · cases regions with
      | nil => exact ⟨pending, rfl⟩
      | cons r rs =>
        have hbelow :=
          step_below (s := ⟨r :: rs, pending⟩) (List.cons_ne_nil r rs) [.group closer] closer
        rw [below, hstep] at hbelow
        obtain ⟨s, -, rfl⟩ := Option.map_eq_some_iff.mp hbelow.symm
        simp [below] at hn
    · exact absurd hnil (not_isClosedBy_nil next)
  | cons c inner ih =>
    obtain ⟨next, hstep, ⟨-, hnil⟩ | ⟨hn, hrest⟩⟩ := isClosedBy_cons.mp h
    · simp at hnil
    · obtain ⟨s, hs, rfl⟩ := step_of_step_group hstep hn
      obtain ⟨p, hp⟩ := ih hrest
      exact ⟨p, by rw [run_cons hs]; exact hp⟩

/-- A line comment goes up to a line end. -/
theorem run_lineComment {outer : List Region} {pending p : Pending} {t : Text}
    (h : run ⟨.lineComment :: outer, pending⟩ t = some ⟨[], p⟩) :
    ∃ z, t.dropWhile (· != '\n') = '\n' :: z ∧ run ⟨outer, .none⟩ z = some ⟨[], p⟩ := by
  induction t generalizing pending with
  | nil => cases h
  | cons c t ih =>
    by_cases hc : c = '\n'
    · subst hc
      exact ⟨t, rfl, h⟩
    · have hstep : step ⟨.lineComment :: outer, pending⟩ c =
          some ⟨.lineComment :: outer, .none⟩ := by
        simp [step, hc]
      rw [run, hstep] at h
      rw [List.dropWhile_cons_of_pos (by simpa using hc)]
      exact ih h

/-- A block comment goes up to its end. -/
theorem run_blockComment {outer : List Region} {p : Pending} {t : Text} :
    (run ⟨.blockComment :: outer, .none⟩ t = some ⟨[], p⟩ →
        run ⟨outer, .none⟩ (afterBlockComment t) = some ⟨[], p⟩) ∧
      (run ⟨.blockComment :: outer, .star⟩ t = some ⟨[], p⟩ →
        run ⟨outer, .none⟩ (afterBlockComment ('*' :: t)) = some ⟨[], p⟩) := by
  induction t with
  | nil =>
    constructor
    · intro h
      cases h
    · intro h
      cases h
  | cons c t ih =>
    have hnone : run ⟨.blockComment :: outer, .none⟩ (c :: t) = some ⟨[], p⟩ →
        run ⟨outer, .none⟩ (afterBlockComment (c :: t)) = some ⟨[], p⟩ := by
      intro h
      by_cases hc : c = '*'
      · subst hc
        exact ih.2 h
      · have hstep : step ⟨.blockComment :: outer, .none⟩ c =
            some ⟨.blockComment :: outer, .none⟩ := by
          simp [step, hc]
        have hafter : afterBlockComment (c :: t) = afterBlockComment t := by
          rw [afterBlockComment]
          rintro rest rfl
          exact absurd rfl hc
        rw [run, hstep] at h
        rw [hafter]
        exact ih.1 h
    refine ⟨hnone, fun h => ?_⟩
    by_cases hc : c = '/'
    · subst hc
      exact h
    · have hafter : afterBlockComment ('*' :: c :: t) = afterBlockComment (c :: t) := by
        rw [afterBlockComment]
        rintro rest - ⟨⟩
        exact hc rfl
      rw [hafter]
      refine hnone ?_
      have hstep : step ⟨.blockComment :: outer, .star⟩ c =
          step ⟨.blockComment :: outer, .none⟩ c := by
        simp [step, hc]
      rwa [run, hstep] at h

end State

/-! ### The last character of a literal -/

namespace State

/-- A character leads out of a literal only if it is the quote of it. -/
theorem step_inside_literal {regions : List Region} {quote c : Char} {r : Region}
    (hr : literal? quote = some r) {pending : Pending} {next : State}
    (h : step ⟨regions ++ [r], pending⟩ c = some next) :
    (next.regions = [] ∧ c = quote) ∨ ∃ inner, next.regions = inner ++ [r] := by
  cases regions with
  | cons r' rs =>
    have hbelow := step_below (s := ⟨r' :: rs, pending⟩) (List.cons_ne_nil r' rs) [r] c
    rw [below, h] at hbelow
    obtain ⟨s, -, rfl⟩ := Option.map_eq_some_iff.mp hbelow.symm
    exact .inr ⟨s.regions, rfl⟩
  | nil =>
    rcases literal?_cases hr with ⟨-, rfl⟩ | ⟨rfl, rfl⟩
    all_goals
      simp only [List.nil_append, step] at h
      repeat' split at h
      all_goals first
        | cases h; done
        | cases h; exact .inr ⟨[], rfl⟩
        | cases h; exact .inr ⟨[_], rfl⟩
        | next hc => cases h; exact .inl ⟨rfl, by simpa using hc⟩

theorem IsClosedBy.getLast?_literal {regions : List Region} {quote : Char} {r : Region}
    (hr : literal? quote = some r) {t : Text} {pending : Pending}
    (h : IsClosedBy ⟨regions ++ [r], pending⟩ t) : t.getLast? = some quote := by
  induction t generalizing regions pending with
  | nil => exact absurd h (not_isClosedBy_nil _)
  | cons c rest ih =>
    obtain ⟨next, hstep, hnext⟩ := isClosedBy_cons.mp h
    rcases step_inside_literal hr hstep with ⟨hn, rfl⟩ | ⟨inner, hn⟩
    · rcases hnext with ⟨-, rfl⟩ | ⟨hne, -⟩
      · rfl
      · exact absurd hn hne
    · rcases hnext with ⟨hnil, -⟩ | ⟨-, hrest⟩
      · rw [hn] at hnil
        cases inner <;> cases hnil
      · obtain ⟨regions, pending⟩ := next
        obtain rfl : regions = inner ++ [r] := hn
        rw [List.getLast?_cons, ih hrest]
        rfl

end State

/-! ### Comments -/

theorem stripFrom_kept (read z : Text) :
    stripFrom read.length 0 (read ++ z) = read ++ stripFrom 0 0 z := by
  induction read with
  | nil => rfl
  | cons c read ih => simp only [List.length_cons, List.cons_append, stripFrom, ih]

theorem stripFrom_dropped (n : Nat) (t : Text) : stripFrom 0 n t = stripFrom 0 0 (t.drop n) := by
  induction t generalizing n with
  | nil => cases n <;> simp [stripFrom]
  | cons c t ih =>
    cases n with
    | zero => rfl
    | succ n => rw [stripFrom, ih, List.drop_succ_cons]

/-- A comment becomes a space, and what follows it is freed of comments. -/
theorem stripFrom_comment {rest after : Text} (h : commentPrefix? ('/' :: rest) = some after)
    (hs : after <:+ rest) :
    stripFrom 0 0 ('/' :: rest) = ' ' :: stripFrom 0 0 after := by
  obtain ⟨front, rfl⟩ := hs
  have hliteral : literal? '/' = none := rfl
  rw [stripFrom, hliteral, h]
  simp only
  rw [stripFrom_dropped, List.length_append, Nat.add_sub_cancel, List.drop_left]

theorem stripFrom_literal {quote : Char} {r : Region} (h : literal? quote = some r) {body : Text}
    (hbody : (State.inside r).IsClosedBy body) (z : Text) :
    stripFrom 0 0 (quote :: (body ++ z)) = quote :: (body ++ stripFrom 0 0 z) := by
  simp only [stripFrom, h, hbody.closing_append, stripFrom_kept]

theorem stripFrom_slash {t : Text} (h : commentPrefix? ('/' :: t) = none) :
    stripFrom 0 0 ('/' :: t) = '/' :: stripFrom 0 0 t ∧
      commentPrefix? ('/' :: stripFrom 0 0 t) = none := by
  refine ⟨by rw [stripFrom, show literal? '/' = none from rfl, h], ?_⟩
  rw [commentPrefix?_slash_eq_none_iff] at h ⊢
  cases t with
  | nil => exact h
  | cons c t =>
    have hcomment : commentPrefix? (c :: t) = none := by
      rw [commentPrefix?.eq_def]
      split
      · next heq => cases heq; exact absurd rfl h.1
      · next heq => cases heq; exact absurd rfl h.1
      · rfl
    have hhead : (stripFrom 0 0 (c :: t)).head? = some c := by
      rw [stripFrom]
      split
      · split <;> rfl
      · rw [hcomment]; rfl
    rw [hhead]
    exact h

theorem isSuffix_afterBlockComment (t : Text) : afterBlockComment t <:+ t := by
  fun_induction afterBlockComment t with
  | case1 rest => exact (List.suffix_cons _ _).trans (List.suffix_cons _ _)
  | case2 c rest _ ih => exact ih.trans (List.suffix_cons _ _)
  | case3 => exact List.suffix_rfl

theorem isSuffix_of_commentPrefix? {rest after : Text}
    (h : commentPrefix? ('/' :: rest) = some after) : after <:+ rest := by
  rw [commentPrefix?.eq_def] at h
  split at h
  · next heq =>
    cases heq
    cases h
    exact (List.dropWhile_suffix _).trans (List.suffix_cons _ _)
  · next heq =>
    cases heq
    cases h
    exact (isSuffix_afterBlockComment _).trans (List.suffix_cons _ _)
  · cases h

/-- A character of code that is no slash and opens no literal settles what the text behind it
settles. -/
theorem exists_settles_cons {closers : List Char} {c : Char} {next : State}
    (hliteral : literal? c = none) (hslash : c ≠ '/')
    (h : stepCode (groups closers) .none c = some next) :
    ∃ closers', next = ⟨groups closers', .none⟩ ∧ ∀ {rest}, Settles closers' rest →
      Settles closers (c :: rest) := by
  cases hopener : closer? c with
  | some closer =>
    rw [stepCode_opener hopener] at h
    exact ⟨closer :: closers, (Option.some.inj h).symm, .opener hopener⟩
  | none =>
    by_cases hcloser : isCloser c = true
    · cases closers with
      | nil => simp [stepCode, hliteral, hslash, hopener, hcloser, groups] at h
      | cons closer closers =>
        by_cases he : c = closer
        · subst he
          have hstep : stepCode (groups (c :: closers)) .none c = some ⟨groups closers, .none⟩ :=
            stepCode_isCloser hcloser _
          rw [hstep] at h
          exact ⟨closers, (Option.some.inj h).symm, .closer hcloser⟩
        · simp [stepCode, hliteral, hslash, hopener, hcloser, groups, he] at h
    · have hordinary : isOrdinary c = true := by
        simp [isOrdinary, hliteral, hopener, hcloser, hslash]
      rw [stepCode_ordinary hordinary] at h
      exact ⟨closers, (Option.some.inj h).symm, .ordinary hordinary⟩

/-- A text that closes what is open still does so without its comments. -/
theorem settles_stripFrom {closers : List Char} {t : Text} {p : Pending}
    (h : State.run ⟨groups closers, .none⟩ t = some ⟨[], p⟩) :
    Settles closers (stripFrom 0 0 t) := by
  generalize hn : t.length = n
  induction n using Nat.strongRecOn generalizing t closers with
  | ind n ih =>
    subst hn
    cases t with
    | nil =>
      rw [State.run, Option.some.injEq, State.mk.injEq, groups, List.map_eq_nil_iff] at h
      rw [h.1]
      exact .nil
    | cons c rest =>
      have hlater {z : Text} (hz : z.length ≤ rest.length) {closers : List Char}
          (h : State.run ⟨groups closers, .none⟩ z = some ⟨[], p⟩) :
            Settles closers (stripFrom 0 0 z) :=
        ih z.length (Nat.lt_succ_of_le hz) h rfl
      have hstep {next : State} (hc : stepCode (groups closers) .none c = some next) :
          next.run rest = some ⟨[], p⟩ := by
        rwa [State.run_cons ((step_groups closers .none c).trans hc)] at h
      by_cases hslash : c = '/'
      · subst hslash
        have hopen := hstep (stepCode_slash_opens _)
        cases hcomment : commentPrefix? ('/' :: rest) with
        | none =>
          obtain ⟨hstrip, hhead⟩ := stripFrom_slash hcomment
          rw [hstrip]
          refine .slash hhead ?_
          cases rest with
          | nil =>
            rw [State.run, Option.some.injEq, State.mk.injEq, groups, List.map_eq_nil_iff] at hopen
            rw [hopen.1]
            exact .nil
          | cons d rest =>
            rw [State.run, step_slash closers hcomment] at hopen
            exact hlater (Nat.le_refl _) hopen
        | some after =>
          have hsuffix := isSuffix_of_commentPrefix? hcomment
          rw [stripFrom_comment hcomment hsuffix]
          refine .ordinary rfl (hlater hsuffix.length_le ?_)
          rw [commentPrefix?.eq_def] at hcomment
          split at hcomment
          · next rest heq =>
            cases heq
            cases hcomment
            have hline : State.run ⟨.lineComment :: groups closers, .none⟩ rest = some ⟨[], p⟩ := by
              rwa [State.run_cons (step_groups closers .slash '/')] at hopen
            obtain ⟨z, hz, hrun⟩ := State.run_lineComment hline
            rw [hz,
              State.run_cons ((step_groups closers .none '\n').trans (stepCode_ordinary rfl _))]
            exact hrun
          · next rest heq =>
            cases heq
            cases hcomment
            have hblock : State.run ⟨.blockComment :: groups closers, .none⟩ rest =
                some ⟨[], p⟩ := by
              rwa [State.run_cons (step_groups closers .slash '*')] at hopen
            exact State.run_blockComment.1 hblock
          · cases hcomment
      cases hliteral : literal? c with
      | some r =>
        obtain ⟨body, z, rfl, hbody, hz⟩ :=
          State.exists_isClosedBy_of_run (List.cons_ne_nil r [])
            (hstep (stepCode_literal hliteral _))
        rw [stripFrom_literal hliteral hbody]
        exact .literal hliteral hbody (hlater (by simp) hz)
      | none =>
        rw [stripFrom_code hliteral hslash]
        rw [State.run, step_groups] at h
        cases hnext : stepCode (groups closers) .none c with
        | none => simp [hnext] at h
        | some next =>
          obtain ⟨closers', rfl, hsettles⟩ := exists_settles_cons hliteral hslash hnext
          exact hsettles (hlater (Nat.le_refl _) (hstep hnext))

namespace Settles

variable {closers : List Char} {t : Text}

/-- Nothing is taken from a text without comments. -/
theorem stripFrom_eq (h : Settles closers t) : stripFrom 0 0 t = t := by
  induction h with
  | nil => rfl
  | ordinary hc _ ih =>
    simp only [isOrdinary, Bool.and_eq_true, Option.isNone_iff_eq_none, bne_iff_ne, ne_eq] at hc
    rw [stripFrom_code hc.1.1.1 hc.2, ih]
  | slash hc _ ih => rw [(stripFrom_slash hc).1, ih]
  | literal hquote hbody _ ih => rw [stripFrom_literal hquote hbody, ih]
  | opener hc _ ih =>
    rw [stripFrom_code (literal?_of_closer? hc).1 (literal?_of_closer? hc).2.1, ih]
  | closer hc _ ih =>
    rw [stripFrom_code (literal?_of_isCloser hc).1 (literal?_of_isCloser hc).2.1, ih]

/-! ### Parts -/

theorem splitFrom_slash {closers : List Char} {t : Text} (h : commentPrefix? ('/' :: t) = none)
    (separator : Char) :
    splitFrom separator ⟨groups closers, .slash⟩ t =
      splitFrom separator ⟨groups closers, .none⟩ t := by
  cases t with
  | nil => rfl
  | cons c t => rw [splitFrom, splitFrom, State.cutsAt, State.cutsAt, step_slash closers h]

theorem foldr_consHead (body first : Text) (others : List Text) :
    body.foldr Text.consHead (first :: others) = (body ++ first) :: others := by
  induction body with
  | nil => rfl
  | cons c body ih => rw [List.foldr_cons, ih]; rfl

/-- The parts of a text between separators close what they open, and so does all that stands
behind the first separator. -/
structure HasParts (separator : Char) (closers : List Char) (t first : Text) (others : List Text) :
    Prop where
  split : splitFrom separator ⟨groups closers, .none⟩ t = some (first :: others)
  isPrefix : first <+: t
  settles_first : Settles closers first
  settles_others : ∀ part ∈ others, Settles [] part
  settles_behind : others ≠ [] → ∃ behind, t = first ++ separator :: behind ∧ Settles [] behind

/-- A lexeme in front of a text goes to its first part. -/
theorem HasParts.after {separator : Char} {closers' : List Char} {first : Text}
    {others : List Text} (h : HasParts separator closers t first others) {m : Text}
    (hsplit : splitFrom separator ⟨groups closers', .none⟩ (m ++ t) = some ((m ++ first) :: others))
    (hfirst : Settles closers' (m ++ first)) :
    HasParts separator closers' (m ++ t) (m ++ first) others where
  split := hsplit
  isPrefix := (List.prefix_append_right_inj m).mpr h.isPrefix
  settles_first := hfirst
  settles_others := h.settles_others
  settles_behind hne := by
    obtain ⟨behind, rfl, hb⟩ := h.settles_behind hne
    exact ⟨behind, (List.append_assoc m first _).symm, hb⟩

/-- A character that leads to groups again, and is no separator, goes to the first part. -/
theorem HasParts.cons {separator : Char} {closers' : List Char} {first : Text}
    {others : List Text} (h : HasParts separator closers t first others) {c : Char}
    (hstep : State.step ⟨groups closers', .none⟩ c = some ⟨groups closers, .none⟩)
    (hkeep : State.cutsAt ⟨groups closers', .none⟩ separator c = false)
    (hfirst : Settles closers' (c :: first)) :
    HasParts separator closers' (c :: t) (c :: first) others := by
  refine h.after (m := [c]) ?_ hfirst
  rw [List.singleton_append, splitFrom_keep hstep hkeep, h.split]
  rfl

section

variable {separator : Char} (hs : isOrdinary separator = true)

include hs

/-- A separator outside of all groups ends the first part. -/
theorem HasParts.cut {first : Text} {others : List Text} (ht : Settles [] t)
    (h : HasParts separator [] t first others) :
    HasParts separator [] (separator :: t) [] (first :: others) where
  split := by
    have hsplit := splitFrom_separator hs t
    rwa [show splitFrom separator .top t = some (first :: others) from h.split] at hsplit
  isPrefix := List.nil_prefix
  settles_first := .nil
  settles_others := List.forall_mem_cons.mpr ⟨h.settles_first, h.settles_others⟩
  settles_behind _ := ⟨t, rfl, ht⟩

/-- An ordinary character is a separator outside of all groups, or goes to the first part. -/
theorem HasParts.ordinary {first : Text} {others : List Text} (ht : Settles closers t)
    (h : HasParts separator closers t first others) {c : Char} (hc : isOrdinary c = true) :
    ∃ first others, HasParts separator closers (c :: t) first others := by
  by_cases hcut : closers = [] ∧ c = separator
  · obtain ⟨rfl, rfl⟩ := hcut
    exact ⟨[], first :: others, h.cut hs ht⟩
  · have hstep : State.step ⟨groups closers, .none⟩ c = some ⟨groups closers, .none⟩ :=
      (step_groups closers .none c).trans (stepCode_ordinary hc _)
    refine ⟨c :: first, others, h.cons hstep ?_ (.ordinary hc h.settles_first)⟩
    rw [Bool.eq_false_iff]
    intro he
    obtain ⟨hsame, htop, -⟩ := State.of_cutsAt he
    rw [hstep] at htop
    exact hcut ⟨List.map_eq_nil_iff.mp (congrArg State.regions (Option.some.inj htop)), hsame⟩

/-- A text that settles what is open has parts. -/
theorem exists_splitFrom (h : Settles closers t) :
    ∃ first others, HasParts separator closers t first others := by
  obtain ⟨⟨⟨hliteral, hopener⟩, hcloser⟩, hslash⟩ :
    ((literal? separator = none ∧ closer? separator = none) ∧
      isCloser separator = false) ∧ separator ≠ '/' := by
    simpa only [isOrdinary, Bool.and_eq_true, Option.isNone_iff_eq_none, Bool.not_eq_true',
      bne_iff_ne, ne_eq] using hs
  induction h with
  | nil =>
    exact ⟨[], [], rfl, List.prefix_rfl, .nil, fun _ h => (by cases h), fun h => absurd rfl h⟩
  | ordinary hc hrest ih =>
    obtain ⟨first, others, hparts⟩ := ih
    exact hparts.ordinary hs hrest hc
  | @slash closers rest hc _ ih =>
    obtain ⟨first, others, hparts⟩ := ih
    have hstep : State.step ⟨groups closers, .none⟩ '/' = some ⟨groups closers, .slash⟩ :=
      (step_groups closers .none '/').trans (stepCode_slash_opens _)
    refine ⟨'/' :: first, others, hparts.after (m := ['/']) ?_
      (.slash (commentPrefix?_slash_mono hc hparts.isPrefix) hparts.settles_first)⟩
    rw [List.singleton_append, splitFrom_keep hstep (State.cutsAt_of_ne (Ne.symm hslash)),
      splitFrom_slash hc, hparts.split]
    rfl
  | @literal closers quote r body rest hquote hbody _ ih =>
    obtain ⟨first, others, hparts⟩ := ih
    have hstep : State.step ⟨groups closers, .none⟩ quote =
        some ((State.inside r).below (groups closers)) :=
      (step_groups closers .none quote).trans (stepCode_literal hquote _)
    have hne : quote ≠ separator := by rintro rfl; rw [hliteral] at hquote; cases hquote
    have hbelow :=
      hbody.splitFrom_below (List.cons_ne_nil r []) (not_lineComment_of_literal? hquote)
        (groups closers) separator rest
    refine ⟨quote :: (body ++ first), others, hparts.after (m := quote :: body) ?_
      (.literal hquote hbody hparts.settles_first)⟩
    rw [List.cons_append, splitFrom_keep hstep (State.cutsAt_of_ne hne), hbelow, hparts.split,
      Option.map_some, Option.map_some, foldr_consHead]
    rfl
  | @opener closers c closer rest hc _ ih =>
    obtain ⟨first, others, hparts⟩ := ih
    have hne : c ≠ separator := by rintro rfl; rw [hopener] at hc; cases hc
    exact ⟨c :: first, others, hparts.cons ((step_groups closers .none c).trans
      (stepCode_opener hc _)) (State.cutsAt_of_ne hne) (.opener hc hparts.settles_first)⟩
  | @closer closers c rest hc _ ih =>
    obtain ⟨first, others, hparts⟩ := ih
    have hne : c ≠ separator := by rintro rfl; rw [hcloser] at hc; cases hc
    exact ⟨c :: first, others, hparts.cons ((step_groups (c :: closers) .none c).trans
      (stepCode_isCloser hc _)) (State.cutsAt_of_ne hne) (.closer hc hparts.settles_first)⟩

end

/-! ### Outer blanks -/

theorem of_blank {c : Char} (hc : Text.isBlank c = true) (h : Settles closers (c :: t)) :
    Settles closers t := by
  cases h with
  | ordinary _ hrest => exact hrest
  | slash => cases hc
  | literal hquote => rw [not_isBlank_of_literal? hquote] at hc; cases hc
  | opener ho => rw [not_isBlank_of_closer? ho] at hc; cases hc
  | closer ho => rw [not_isBlank_of_isCloser ho] at hc; cases hc

theorem dropWhile_isBlank (h : Settles closers t) : Settles closers (t.dropWhile Text.isBlank) := by
  induction t with
  | nil => exact h
  | cons c t ih =>
    rw [List.dropWhile_cons]
    split
    · next hc => exact ih (h.of_blank hc)
    · exact h

theorem of_blank_concat {c : Char} (hc : Text.isBlank c = true) (h : Settles closers (t ++ [c])) :
    Settles closers t := by
  generalize hu : t ++ [c] = u at h
  -- Where the text goes on, the blank is the last character of the rest.
  have hrest {d : Char} {rest t : Text} (hu : t ++ [c] = d :: rest) (hd : Text.isBlank d = false) :
      ∃ t', t = d :: t' ∧ t' ++ [c] = rest := by
    cases t with
    | nil => cases hu; rw [hc] at hd; cases hd
    | cons e t => cases hu; exact ⟨t, rfl, rfl⟩
  induction h generalizing t with
  | nil => simp at hu
  | @ordinary closers d rest hd hsettles ih =>
    cases t with
    | nil =>
      cases hu
      exact hsettles
    | cons e t =>
      cases hu
      exact .ordinary hd (ih rfl)
  | @slash closers rest hcomment _ ih =>
    obtain ⟨t, rfl, rfl⟩ := hrest hu rfl
    exact .slash (commentPrefix?_slash_mono hcomment (List.prefix_append t [c])) (ih rfl)
  | @literal closers quote r body rest hquote hbody _ ih =>
    obtain ⟨t, rfl, ht⟩ := hrest hu (not_isBlank_of_literal? hquote)
    rcases List.eq_nil_or_concat rest with rfl | ⟨front, d, rfl⟩
    · have hbody : State.IsClosedBy ⟨[] ++ [r], .none⟩ body := hbody
      have hlast := hbody.getLast?_literal hquote
      rw [List.append_nil] at ht
      rw [← ht, List.getLast?_concat] at hlast
      cases hlast
      rw [not_isBlank_of_literal? hquote] at hc
      cases hc
    · rw [List.concat_eq_append, ← List.append_assoc] at ht
      obtain ⟨rfl, hcd⟩ := List.append_inj' ht rfl
      cases hcd
      exact .literal hquote hbody (ih List.concat_eq_append.symm)
  | @opener closers d closer rest hd _ ih =>
    obtain ⟨t, rfl, rfl⟩ := hrest hu (not_isBlank_of_closer? hd)
    exact .opener hd (ih rfl)
  | @closer closers d rest hd _ ih =>
    obtain ⟨t, rfl, rfl⟩ := hrest hu (not_isBlank_of_isCloser hd)
    exact .closer hd (ih rfl)

theorem trim (h : Settles closers t) : Settles closers (Text.trim t) := by
  have hback {u : Text} (h : Settles closers u.reverse) :
      Settles closers (u.dropWhile Text.isBlank).reverse := by
    induction u with
    | nil => exact h
    | cons c u ih =>
      rw [List.dropWhile_cons]
      split
      · next hc =>
        rw [List.reverse_cons] at h
        exact ih (h.of_blank_concat hc)
      · exact h
  refine hback ?_
  rw [List.reverse_reverse]
  exact h.dropWhile_isBlank

/-! ### Groups -/

theorem closing_slash (closers : List Char) {t : Text} (h : commentPrefix? ('/' :: t) = none) :
    closing ⟨groups closers, .slash⟩ t = closing ⟨groups closers, .none⟩ t := by
  cases t with
  | nil => rfl
  | cons c t => rw [closing, closing, step_slash closers h]

/-- A text settles what is open in two parts, up to the closer of the outermost group and behind
it. -/
theorem exists_closing {closer : Char} (h : Settles (closers ++ [closer]) t) :
    ∃ inner z, t = inner ++ closer :: z ∧ Settles closers inner ∧ Settles [] z ∧
      closing ⟨groups (closers ++ [closer]), .none⟩ t = some (inner ++ [closer], z) := by
  generalize hall : closers ++ [closer] = all at h
  have hopen {closers : List Char} : groups (closers ++ [closer]) ≠ [] := by simp [groups]
  induction h generalizing closers with
  | nil => simp at hall
  | @ordinary all c rest hc _ ih =>
    subst hall
    obtain ⟨inner, z, rfl, hinner, hz, hclosing⟩ := ih rfl
    have hstep := (step_groups (closers ++ [closer]) .none c).trans (stepCode_ordinary hc _)
    refine ⟨c :: inner, z, rfl, .ordinary hc hinner, hz, ?_⟩
    rw [closing_cons hstep hopen, hclosing]
    rfl
  | @slash all rest hc _ ih =>
    subst hall
    obtain ⟨inner, z, rfl, hinner, hz, hclosing⟩ := ih rfl
    have hstep := (step_groups (closers ++ [closer]) .none '/').trans (stepCode_slash_opens _)
    refine ⟨'/' :: inner, z, rfl, .slash (commentPrefix?_slash_mono hc (List.prefix_append _ _))
      hinner, hz, ?_⟩
    rw [closing_cons hstep hopen, closing_slash _ hc, hclosing]
    rfl
  | @literal all quote r body rest hquote hbody _ ih =>
    subst hall
    obtain ⟨inner, z, rfl, hinner, hz, hclosing⟩ := ih rfl
    have hstep : State.step ⟨groups (closers ++ [closer]), .none⟩ quote =
        some ((State.inside r).below (groups (closers ++ [closer]))) :=
      (step_groups (closers ++ [closer]) .none quote).trans (stepCode_literal hquote _)
    refine ⟨quote :: (body ++ inner), z, by simp, .literal hquote hbody hinner, hz, ?_⟩
    rw [closing_cons hstep (by simp [State.below, State.inside]),
      hbody.closing_below (List.cons_ne_nil r []) hopen, hclosing]
    simp
  | @opener all c closer' rest hc _ ih =>
    subst hall
    have hall : closer' :: closers ++ [closer] = closer' :: (closers ++ [closer]) := rfl
    obtain ⟨inner, z, rfl, hinner, hz, hclosing⟩ := ih hall
    have hstep := (step_groups (closers ++ [closer]) .none c).trans (stepCode_opener hc _)
    refine ⟨c :: inner, z, rfl, .opener hc hinner, hz, ?_⟩
    rw [closing_cons hstep (by simp)]
    exact congrArg (Option.map _) hclosing
  | @closer all c rest hc hrest ih =>
    cases closers with
    | nil =>
      cases hall
      refine ⟨[], rest, rfl, .nil, hrest, ?_⟩
      have hstep : State.step ⟨[.group closer], .none⟩ closer = some .top := stepCode_isCloser hc []
      show closing ⟨[.group closer], .none⟩ (closer :: rest) = _
      rw [closing, hstep]
      rfl
    | cons c' closers =>
      cases hall
      obtain ⟨inner, z, rfl, hinner, hz, hclosing⟩ := ih rfl
      have hstep :=
        (step_groups (c :: (closers ++ [closer])) .none c).trans (stepCode_isCloser hc _)
      refine ⟨c :: inner, z, rfl, .closer hc hinner, hz, ?_⟩
      refine (closing_cons hstep hopen _).trans ?_
      exact congrArg (Option.map _) hclosing

theorem of_opener {c closer : Char} (hc : closer? c = some closer) (h : Settles closers (c :: t)) :
    Settles (closer :: closers) t := by
  have hopener := literal?_of_closer? hc
  cases h with
  | ordinary hordinary => simp [isOrdinary, hc] at hordinary
  | slash => exact absurd rfl hopener.2.1
  | literal hquote => rw [hopener.1] at hquote; cases hquote
  | opener ho hrest => rw [hc] at ho; cases ho; exact hrest
  | closer ho => rw [(literal?_of_isCloser ho).2.2] at hc; cases hc

/-- A bracket that settles opens a group, and what stands in the group settles. -/
theorem exists_groupPrefix? {c closer : Char} (hc : closer? c = some closer)
    (h : Settles [] (c :: t)) :
    ∃ inner z, t = inner ++ closer :: z ∧ Settles [] inner ∧
      groupPrefix? (c :: t) = some (c :: (inner ++ [closer]), z) := by
  have hopened : Settles ([] ++ [closer]) t := h.of_opener hc
  obtain ⟨inner, z, ht, hinner, -, hclosing⟩ := exists_closing hopened
  have hgroup : closing (.inside (.group closer)) t = some (inner ++ [closer], z) := hclosing
  exact ⟨inner, z, ht, hinner, by rw [groupPrefix?, hc]; simp only [hgroup, Option.map_some]⟩

/-- A quote that settles opens a literal that ends. -/
theorem isSome_literalPrefix? {c : Char} (hc : (literal? c).isSome = true)
    (h : Settles closers (c :: t)) :
    (literalPrefix? (c :: t)).isSome = true := by
  cases h with
  | literal hquote hbody _ =>
    rw [literalPrefix?, hquote]
    simp only [hbody.closing_append, Option.map_some, Option.isSome_some]
  | ordinary hordinary => simp [isOrdinary] at hordinary; simp [hordinary] at hc
  | slash => cases hc
  | opener ho => rw [(literal?_of_closer? ho).1] at hc; cases hc
  | closer ho => rw [(literal?_of_isCloser ho).1] at hc; cases hc

end Settles

end Localization.Script

namespace Localization

open Script

/-- A text that settles is read as an argument if the shorter lists that settle are read. -/
theorem isSome_readArgument {text : Text} (h : Settles [] text)
    (hlists : ∀ inner : Text, inner.length < text.length → Settles [] inner →
      (readArguments inner).isSome = true) :
    (readArgument text).isSome = true := by
  cases text with
  | nil => rw [readArgument]; rfl
  | cons c rest =>
    rw [readArgument.eq_def]
    simp only
    split
    · next hliteral =>
      obtain ⟨found, hfound⟩ := Option.isSome_iff_exists.mp (h.isSome_literalPrefix? hliteral)
      rw [hfound]
      split
      · next heq => cases heq
      · rfl
      · rfl
    split
    · next hc =>
      rw [beq_iff_eq] at hc
      subst hc
      obtain ⟨inner, z, rfl, hinner, hgroup⟩ :=
        h.exists_groupPrefix? (show closer? '[' = some ']' from rfl)
      rw [hgroup]
      split
      · next heq => cases heq
      · next heq =>
        cases heq
        rw [List.dropLast_concat, Option.isSome_map]
        exact hlists inner (by simp only [List.length_cons, List.length_append]; omega) hinner
      · rfl
    split
    · next hc =>
      rw [beq_iff_eq] at hc
      subst hc
      obtain ⟨inner, z, rfl, -, hgroup⟩ :=
        h.exists_groupPrefix? (show closer? '{' = some '}' from rfl)
      rw [hgroup]
      split
      · next heq => cases heq
      · split <;> rfl
      · rfl
    · rfl

theorem isSome_mapM {α β : Type} {f : α → Option β} {l : List α}
    (h : ∀ a ∈ l, (f a).isSome = true) :
    (l.mapM f).isSome = true := by
  induction l with
  | nil => rfl
  | cons a l ih =>
    obtain ⟨b, hb⟩ := Option.isSome_iff_exists.mp (h a List.mem_cons_self)
    obtain ⟨bs, hbs⟩ := Option.isSome_iff_exists.mp (ih fun x hx => h x (List.mem_cons_of_mem _ hx))
    simp [List.mapM_cons, hb, hbs]

/-- What stands in a group settles without its comments. -/
theorem settles_withoutComments {src : Text} {closer : Char}
    (h : (State.inside (.group closer)).IsClosedBy (src ++ [closer])) :
    Settles [] (withoutComments src) := by
  have hclosed : State.IsClosedBy ⟨[] ++ [.group closer], .none⟩ (src ++ [closer]) := h
  obtain ⟨p, hp⟩ := State.exists_run_of_isClosedBy hclosed
  have hrun : State.run ⟨groups [], .none⟩ src = some ⟨[], p⟩ := hp
  exact settles_stripFrom hrun

/-- A list that settles is cut into texts that do. -/
theorem exists_argumentTexts? {src : Text} (h : Settles [] (withoutComments src)) :
    ∃ texts, argumentTexts? src = some texts ∧ ∀ text ∈ texts, Settles [] text ∧
      text.length ≤ src.length := by
  have hcomma : isOrdinary ',' = true := rfl
  obtain ⟨first, others, hsplit, -, hfirst, hothers, -⟩ := h.exists_splitFrom hcomma
  have hparts : splitTop ',' (withoutComments src) = some (first :: others) := hsplit
  have hshort := length_le_of_mem_splitFrom hparts
  refine ⟨_, by rw [argumentTexts?, hparts, Option.map_some], fun text htext => ?_⟩
  obtain ⟨part, hpart, rfl⟩ := List.mem_map.mp (List.mem_of_mem_filter htext)
  have hsettles : Settles [] part := by
    rcases List.mem_cons.mp hpart with rfl | hpart
    · exact hfirst
    · exact hothers part hpart
  exact ⟨hsettles.trim, (Text.length_trim_le part).trans
    ((hshort part hpart).trans (length_stripFrom_le 0 0 src))⟩

/-- A list that settles without its comments is read. -/
theorem isSome_readArguments_of_settles {src : Text} (h : Settles [] (withoutComments src)) :
    (readArguments src).isSome = true := by
  generalize hn : src.length = n
  induction n using Nat.strongRecOn generalizing src with
  | ind n ih =>
    subst hn
    obtain ⟨texts, htexts, hsettles⟩ := exists_argumentTexts? h
    rw [readArguments_eq_mapM, htexts, Option.bind_some]
    refine isSome_mapM fun text htext => ?_
    obtain ⟨hs, hlen⟩ := hsettles text htext
    refine isSome_readArgument hs fun inner hinner hs =>
      ih inner.length (Nat.lt_of_lt_of_le hinner hlen) ?_ rfl
    rwa [withoutComments, hs.stripFrom_eq]

/-- **A list of arguments that stands in a group is read.** -/
theorem isSome_readArguments {src : Text} {closer : Char}
    (h : (State.inside (.group closer)).IsClosedBy (src ++ [closer])) :
    (readArguments src).isSome = true :=
  isSome_readArguments_of_settles (settles_withoutComments h)

end Localization
