import Mathlib
import Localization.Proofs.Argument.Settled
import Localization.Proofs.Script.Lexeme
import Localization.Proofs.Script.Passage

/-! Literals of regular expressions.

The walk does not know regular expressions: it reads a literal as slashes, brackets, quotes and
names. A literal is tame (`Regex.IsTame`) if nothing in it is mistaken: it spells no quotes and
no comment, opens no element, and closes its brackets. The walk passes through a tame literal as
through one name (`Regex.exists_passage`), its surroundings close around it as around one
(`Regex.endsAlike`), and what stands behind it is walked alike
(`exists_occurrencesFrom_behind`). -/
namespace Localization.Script

/-! ### Literals -/

/-- Whether a text is the rest of the body of a regular expression, in a class or outside of
one. A class may hold slashes, and no line ends in the body. -/
def isRegexBody : (inClass : Bool) → Text → Bool
  | inClass, [] => !inClass
  | _, ['\\'] => false
  | inClass, '\\' :: c :: rest => !isLineEnd c && isRegexBody inClass rest
  | true, c :: rest => !isLineEnd c && isRegexBody (c != ']') rest
  | false, c :: rest => !isLineEnd c && c != '/' && isRegexBody (c == '[') rest

/-- The flags of regular expressions. -/
def regexFlags : List Char := ['d', 'g', 'i', 'm', 's', 'u', 'v', 'y']

/-- A literal of a regular expression. -/
structure Regex where
  body : Text
  flags : Text
  /-- A body that is empty or starts with an asterisk makes a comment. -/
  starts : body.head?.any (· != '*') = true
  isBody : isRegexBody false body = true
  areFlags : flags.all regexFlags.contains = true

namespace Regex

def text (l : Regex) : Text := '/' :: (l.body ++ '/' :: l.flags)

/-- Whether nothing in a literal is mistaken for something else. -/
structure IsTame (l : Regex) : Prop where
  /-- It spells no quotes and no backticks. -/
  noLiteral (c : Char) (h : c ∈ l.body) : literal? c = none
  noLineComment : ¬ ['/', '/'] <:+: l.text
  noBlockComment : ¬ ['/', '*'] <:+: l.text
  noSubstitution : ¬ ['$', '{'] <:+: l.body
  /-- No `<` of it opens an element. -/
  noTag (c d : Char) (h : [c, '<', d] <:+: l.text) (hc : startsOperand c = true ∨
    Text.isAsciiBlank c = true) :
    isNameStart d = false ∧ d ≠ '>'
  /-- It closes its brackets. -/
  closes : ∃ p, State.top.run l.text = some ⟨[], p⟩

/-- The texts that may follow a literal: they do not go on with its flags, and start neither a
string nor, behind a literal without flags, a comment. -/
structure MayPrecede (l : Regex) (after : Text) : Prop where
  noName (c : Char) (h : after.head? = some c) : isNameChar c = false
  noQuote (c : Char) (h : after.head? = some c) : c ≠ '\'' ∧ c ≠ '"'
  noComment (h : l.flags = []) : commentPrefix? ('/' :: after) = none

end Regex

/-! ### The readers of groups and literals -/

namespace State

/-- Whether a text leads from one state to another without closing everything. -/
inductive Leads : State → Text → State → Prop
  | nil {s : State} : Leads s [] s
  | cons {s next last : State} {c : Char} {t : Text} (hstep : s.step c = some next)
      (hne : next.regions ≠ [])
      (ht : Leads next t last) : Leads s (c :: t) last

namespace Leads

variable {s next last : State} {t u : Text}

theorem single {c : Char} (hstep : s.step c = some next) (hne : next.regions ≠ []) :
    Leads s [c] next :=
  .cons hstep hne .nil

theorem append (h : Leads s t next) (h' : Leads next u last) : Leads s (t ++ u) last := by
  induction h with
  | nil => exact h'
  | cons hstep hne _ ih => exact .cons hstep hne (ih h')

theorem closing_append (h : Leads s t last) (z : Text) :
    closing s (t ++ z) = (closing last z).map fun (read, after) => (t ++ read, after) := by
  induction h with
  | nil => simp
  | cons hstep hne _ ih =>
    rw [List.cons_append, closing_cons hstep hne, ih, Option.map_map]
    rfl

/-- Texts that lead to one state are closed alike by what follows. -/
theorem endsAlike (h : Leads s t last) (h' : Leads s u last) (z : Text) :
    s.EndsAlike (t ++ z) (u ++ z) := by
  rw [EndsAlike, h.closing_append, h'.closing_append, Option.map_map, Option.map_map]
  rfl

end Leads

/-- A character of code acts alike in a group and outside. -/
theorem step_below_group {regions : List Region} {pending : Pending} {c : Char} {next : State}
    (h : step ⟨regions, pending⟩ c = some next) (closer : Char) (outer : List Region) :
    step ⟨regions ++ .group closer :: outer, pending⟩ c =
      some (next.below (.group closer :: outer)) := by
  cases regions with
  | cons r rs =>
    have hbelow :=
      step_below (s := ⟨r :: rs, pending⟩) (List.cons_ne_nil r rs) (.group closer :: outer) c
    rw [h] at hbelow
    exact hbelow
  | nil =>
    have hc : isCloser c = false := by
      by_contra hc
      obtain ⟨hliteral, hslash, hopener⟩ := literal?_of_isCloser (by simpa using hc)
      have hstar : c ≠ '*' := by
        rintro rfl
        exact hc rfl
      simp [step, stepCode, hliteral, hslash, hopener, hstar, hc] at h
    have hbelow := stepCode_below closer [] outer pending c
    rw [stepCode_group hc, show stepCode [] pending c = some next from h] at hbelow
    refine hbelow.trans ?_
    simp [below]

/-- In a group, a text that closes what it opens leads back to the group. -/
theorem leads_of_run {regions : List Region} {pending p : Pending} {t : Text}
    (h : run ⟨regions, pending⟩ t = some ⟨[], p⟩) (closer : Char) (outer : List Region) :
    Leads ⟨regions ++ .group closer :: outer, pending⟩ t ⟨.group closer :: outer, p⟩ := by
  induction t generalizing regions pending with
  | nil => cases h; exact .nil
  | cons c t ih =>
    cases hstep : step ⟨regions, pending⟩ c with
    | none => rw [run, hstep] at h; cases h
    | some next =>
      rw [run, hstep] at h
      exact .cons (step_below_group hstep closer outer) (by simp [below]) (ih h)

/-- A slash waits for the next character only where it was read last. -/
theorem eq_slash_of_step {s : State} {c : Char} {regions : List Region}
    (h : s.step c = some ⟨regions, .slash⟩) : c = '/' := by
  obtain ⟨rs, pending⟩ := s
  cases rs with
  | nil =>
    simp only [step, stepCode] at h
    repeat' split at h
    all_goals first
      | next hc => exact beq_iff_eq.mp hc
      | cases h
  | cons r rs =>
    cases r with
    | group closer =>
      simp only [step, stepCode] at h
      repeat' split at h
      all_goals first
        | next hc => exact beq_iff_eq.mp hc
        | cases h
    | _ =>
      simp only [step] at h
      repeat' split at h
      all_goals cases h

theorem getLast?_of_run {s : State} {t : Text} {regions : List Region}
    (h : s.run t = some ⟨regions, .slash⟩) (ht : t ≠ []) :
    t.getLast? = some '/' := by
  induction t generalizing s with
  | nil => exact absurd rfl ht
  | cons c t ih =>
    cases hstep : s.step c with
    | none => rw [run, hstep] at h; cases h
    | some next =>
      rw [run, hstep] at h
      cases t with
      | nil =>
        cases h
        rw [eq_slash_of_step hstep]
        rfl
      | cons d t =>
        rw [List.getLast?_cons_cons]
        exact ih h (List.cons_ne_nil d t)

end State

/-! ### Closing around a literal -/

namespace State

/-- In a group, only a slash that may start a comment matters to what follows. -/
theorem closing_pending {closer : Char} {outer : List Region} {p : Pending} {t : Text}
    (h : p = .slash → commentPrefix? ('/' :: t) = none) :
    closing ⟨.group closer :: outer, p⟩ t = closing ⟨.group closer :: outer, .none⟩ t := by
  cases t with
  | nil => rfl
  | cons c t =>
    have hstep : stepCode (.group closer :: outer) p c =
        stepCode (.group closer :: outer) .none c := by
      by_cases hp : p = .slash
      · subst hp
        have := commentPrefix?_slash_eq_none_iff.mp (h rfl)
        exact stepCode_slash (by simpa using this.1) (by simpa using this.2) _
      · simp [stepCode, hp]
    simp only [closing, step, hstep]

theorem quoted_of_literal? {c q : Char} (h : literal? c = some (.quoted q)) :
    q = '\'' ∨ q = '"' := by
  unfold literal? at h
  repeat' split at h
  · next hc => cases h; simpa using hc
  · cases h
  · cases h

theorem quoted_of_stepCode {rs : List Region} {pending : Pending} {c q : Char} {next : State}
    (h : stepCode rs pending c = some next) (hq : .quoted q ∈ next.regions) :
    .quoted q ∈ rs ∨ q = '\'' ∨ q = '"' := by
  simp only [stepCode] at h
  repeat' split at h
  all_goals first
    | cases h; done
    | cases h
      rcases List.mem_cons.mp hq with heq | hq
      · cases heq; done
      · exact .inl hq
    | next r hliteral =>
      cases h
      rcases List.mem_cons.mp hq with heq | hq
      · exact .inr (quoted_of_literal? (heq ▸ hliteral))
      · exact .inl hq
    | cases h; exact .inl (List.mem_cons_of_mem _ hq)
    | cases h; exact .inl hq

theorem quoted_of_step {s next : State} {c q : Char} (h : s.step c = some next)
    (hq : .quoted q ∈ next.regions) :
    .quoted q ∈ s.regions ∨ q = '\'' ∨ q = '"' := by
  obtain ⟨regions, pending⟩ := s
  cases regions with
  | nil => exact quoted_of_stepCode h hq
  | cons r rs =>
    cases r with
    | group closer => exact quoted_of_stepCode h hq
    | _ =>
      simp only [step] at h
      repeat' split at h
      all_goals first
        | cases h; done
        | cases h; exact .inl hq
        | cases h; exact .inl (List.mem_cons_of_mem _ hq)
        | cases h
          rcases List.mem_cons.mp hq with heq | hq
          · cases heq
          · exact .inl hq

/-- The strings that are open have quotes. -/
theorem quoted_of_run {s s' : State} {t : Text} (h : s.run t = some s') {q : Char}
    (hq : .quoted q ∈ s'.regions) :
    .quoted q ∈ s.regions ∨ q = '\'' ∨ q = '"' := by
  induction t generalizing s with
  | nil => cases h; exact .inl hq
  | cons c t ih =>
    cases hstep : s.step c with
    | none => rw [run, hstep] at h; cases h
    | some next =>
      rw [run, hstep] at h
      rcases ih h with hnext | hquote
      · exact quoted_of_step hstep hnext
      · exact .inr hquote

end State

/-- The regions in which a literal is nothing but text. -/
def isInert (r : Region) : Prop :=
  r = .quoted '\'' ∨ r = .quoted '"' ∨ r = .template ∨ r = .lineComment

namespace State

variable {r : Region} (hr : isInert r) (outer : List Region)

include hr

theorem step_inert {p : Pending} (hp : p = .none ∨ p = .dollar) {c : Char} (hc : c ≠ '\\')
    (hl : literal? c = none) (hline : isLineEnd c = false) (hd : p = .dollar → c ≠ '{') :
    ∃ q, (q = .none ∨ q = .dollar ∧ c = '$') ∧ step ⟨r :: outer, p⟩ c = some ⟨r :: outer, q⟩ := by
  have hquotes : c ≠ '\'' ∧ c ≠ '"' ∧ c ≠ '`' := by
    refine ⟨?_, ?_, ?_⟩ <;> rintro rfl <;> cases hl
  have hn : c ≠ '\n' := by
    rintro rfl
    cases hline
  obtain ⟨h1, h2, h3⟩ := hquotes
  rcases hr with rfl | rfl | rfl | rfl
  · rcases hp with rfl | rfl <;> exact ⟨.none, .inl rfl, by simp [step, hc, hn, h1]⟩
  · rcases hp with rfl | rfl <;> exact ⟨.none, .inl rfl, by simp [step, hc, hn, h2]⟩
  · by_cases hdollar : c = '$'
    · refine ⟨.dollar, .inr ⟨rfl, hdollar⟩, ?_⟩
      subst hdollar
      rcases hp with rfl | rfl <;> rfl
    · refine ⟨.none, .inl rfl, ?_⟩
      rcases hp with rfl | rfl
      · simp [step, hc, h3, hdollar]
      · simp [step, hc, h3, hdollar, hd rfl]
  · exact ⟨.none, .inl rfl, by simp [step, hn]⟩

theorem leads_escape {p : Pending} (hp : p = .none ∨ p = .dollar) {c : Char}
    (hline : isLineEnd c = false) :
    Leads ⟨r :: outer, p⟩ ['\\', c] ⟨r :: outer, .none⟩ := by
  have hn : c ≠ '\n' := by
    rintro rfl
    cases hline
  have hquoted (hopen : step ⟨r :: outer, p⟩ '\\' = some ⟨r :: outer, .escape⟩)
      (hpassed : step ⟨r :: outer, .escape⟩ c = some ⟨r :: outer, .none⟩) :
      Leads ⟨r :: outer, p⟩ ['\\', c] ⟨r :: outer, .none⟩ :=
    .cons hopen (List.cons_ne_nil r outer) (.single hpassed (List.cons_ne_nil r outer))
  rcases hr with rfl | rfl | rfl | rfl
  · exact hquoted (by rcases hp with rfl | rfl <;> rfl) rfl
  · exact hquoted (by rcases hp with rfl | rfl <;> rfl) rfl
  · exact hquoted (by rcases hp with rfl | rfl <;> rfl) rfl
  · have hopen : step ⟨.lineComment :: outer, p⟩ '\\' = some ⟨.lineComment :: outer, .none⟩ := rfl
    exact .cons hopen (by simp) (.single (by simp [step, hn]) (by simp))

/-- Any character but a quote, a backslash and a line end leaves a region of text as it is, and
so does the next. -/
theorem step_inert_of {p : Pending} {c : Char} (hc : c = '/' ∨ c = 'r') :
    step ⟨r :: outer, p⟩ c = some ⟨r :: outer, .none⟩ := by
  rcases hc with rfl | rfl <;> rcases hr with rfl | rfl | rfl | rfl <;> cases p <;> rfl

theorem leads_body {inClass : Bool} {t : Text} (hb : isRegexBody inClass t = true)
    (hl : ∀ c ∈ t, literal? c = none) (hs : ¬ ['$', '{'] <:+: t) {p : Pending}
    (hp : p = .none ∨ p = .dollar) (hd : p = .dollar → t.head? ≠ some '{') :
    ∃ q, (q = .none ∨ q = .dollar) ∧ Leads ⟨r :: outer, p⟩ t ⟨r :: outer, q⟩ := by
  -- A character that is no backslash, and what follows it.
  have hplain {c : Char} {t : Text} (hc : c ≠ '\\') (hl : ∀ d ∈ c :: t, literal? d = none)
      (hs : ¬ ['$', '{'] <:+: c :: t)
      {p : Pending} (hp : p = .none ∨ p = .dollar) (hd : p = .dollar → (c :: t).head? ≠ some '{')
      (hline : isLineEnd c = false)
      (ih : (∀ d ∈ t, literal? d = none) → (¬ ['$', '{'] <:+: t) →
        ∀ {p : Pending}, (p = .none ∨ p = .dollar) →
        (p = .dollar → t.head? ≠ some '{') →
        ∃ q, (q = .none ∨ q = .dollar) ∧ Leads ⟨r :: outer, p⟩ t ⟨r :: outer, q⟩) :
      ∃ q, (q = .none ∨ q = .dollar) ∧ Leads ⟨r :: outer, p⟩ (c :: t) ⟨r :: outer, q⟩ := by
    obtain ⟨q, hq, hstep⟩ := step_inert hr outer hp hc (hl c List.mem_cons_self) hline fun h => by
      simpa using hd h
    have hbrace : q = .dollar → t.head? ≠ some '{' := by
      rintro rfl hhead
      obtain ⟨rest, rfl⟩ := List.head?_eq_some_iff.mp hhead
      rcases hq with hq | ⟨-, rfl⟩
      · cases hq
      · exact hs ⟨[], rest, rfl⟩
    obtain ⟨q', hq', hleads⟩ := ih (fun d hd => hl d (List.mem_cons_of_mem _ hd))
      (fun h => hs (h.trans (List.suffix_cons c t).isInfix)) (hq.imp_right And.left) hbrace
    exact ⟨q', hq', .cons hstep (by simp) hleads⟩
  fun_induction isRegexBody inClass t generalizing p with
  | case1 => exact ⟨p, hp, .nil⟩
  | case2 => cases hb
  | case3 inClass c rest ih =>
    rw [Bool.and_eq_true, Bool.not_eq_true'] at hb
    have hinfix : rest <:+: '\\' :: c :: rest :=
      ((List.suffix_cons c rest).trans (List.suffix_cons _ _)).isInfix
    obtain ⟨q, hq, hleads⟩ :=
      ih hb.2 (fun d hd => hl d (List.mem_cons_of_mem _ (List.mem_cons_of_mem _ hd)))
      (fun h => hs (h.trans hinfix)) (.inl rfl) (fun h => by cases h)
    exact ⟨q, hq, (leads_escape hr outer hp hb.1).append hleads⟩
  | case4 c rest h1 h2 ih =>
    rw [Bool.and_eq_true, Bool.not_eq_true'] at hb
    have hc : c ≠ '\\' := by
      rintro rfl
      cases rest with
      | nil => exact h1 rfl rfl
      | cons d rest => exact h2 d rest rfl rfl
    exact hplain hc hl hs hp hd hb.1 (ih hb.2)
  | case5 c rest h1 h2 ih =>
    simp only [Bool.and_eq_true, Bool.not_eq_true'] at hb
    have hc : c ≠ '\\' := by
      rintro rfl
      cases rest with
      | nil => exact h1 rfl rfl
      | cons d rest => exact h2 d rest rfl rfl
    exact hplain hc hl hs hp hd hb.1.1 (ih hb.2)

end State

namespace Regex

variable {l : Regex}

theorem of_mem_flags {c : Char} (h : c ∈ l.flags) :
    c.isAlpha = true ∧ isOrdinary c = true ∧ isLineEnd c = false ∧
    c ≠ '\\' ∧ c ≠ '$' ∧ c ≠ 'n' := by
  have hall : (regexFlags.all fun c => c.isAlpha && isOrdinary c && !isLineEnd c && c != '\\' &&
      c != '$' && c != 'n') = true :=
    rfl
  have hc : c ∈ regexFlags := by simpa using List.all_eq_true.mp l.areFlags c h
  simpa [and_assoc] using List.all_eq_true.mp hall c hc

theorem of_isOrdinary {c : Char} (h : isOrdinary c = true) : literal? c = none ∧ c ≠ '/' := by
  simp only [isOrdinary, Bool.and_eq_true, Option.isNone_iff_eq_none, bne_iff_ne] at h
  exact ⟨h.1.1.1, h.2⟩

/-- In a region of text, a literal is nothing but text. -/
theorem leads_inert (hl : l.IsTame) {r : Region} (hr : isInert r) (outer : List Region)
    (p : Pending) :
    State.Leads ⟨r :: outer, p⟩ l.text ⟨r :: outer, .none⟩ := by
  have hflags {flags : Text} (h : ∀ c ∈ flags, c ∈ l.flags) :
      State.Leads ⟨r :: outer, .none⟩ flags ⟨r :: outer, .none⟩ := by
    induction flags with
    | nil => exact .nil
    | cons c flags ih =>
      obtain ⟨-, hordinary, hline, hescape, hdollar, -⟩ := of_mem_flags (h c List.mem_cons_self)
      obtain ⟨q, hq, hstep⟩ :=
        State.step_inert hr outer (.inl rfl) hescape (of_isOrdinary hordinary).1 hline
          (fun h => by cases h)
      obtain rfl : q = .none := hq.resolve_right fun h => hdollar h.2
      exact .cons hstep (by simp) (ih fun d hd => h d (List.mem_cons_of_mem _ hd))
  obtain ⟨q, -, hbody⟩ :=
    State.leads_body hr outer l.isBody hl.noLiteral hl.noSubstitution (.inl rfl)
      (fun h => by cases h)
  refine .cons (State.step_inert_of hr outer (.inl rfl)) (by simp) (hbody.append ?_)
  exact .cons (State.step_inert_of hr outer (.inl rfl)) (by simp) (hflags fun c hc => hc)

theorem getLast?_text : l.text.getLast? = some (l.flags.getLast?.getD '/') := by
  rw [text, List.getLast?_cons, List.getLast?_append, List.getLast?_cons]
  rfl

/-- A literal that ends with a slash has no flags. -/
theorem flags_eq_nil (h : l.text.getLast? = some '/') : l.flags = [] := by
  rw [getLast?_text, Option.some.injEq] at h
  cases hflags : l.flags.getLast? with
  | none => exact List.getLast?_eq_none_iff.mp hflags
  | some c =>
    rw [hflags] at h
    exact absurd h (of_isOrdinary (of_mem_flags (List.mem_of_getLast? hflags)).2.1).2

/-- **A region is closed alike around a literal and around a name**, unless it is a block
comment. -/
theorem endsAlike (hl : l.IsTame) {after : Text} (ha : l.MayPrecede after) {s : State}
    (hs : s.regions ≠ []) (hcomment : s.regions.head? ≠ some .blockComment)
    (hp : s.pending ≠ .slash)
    (hquoted : ∀ q, s.regions.head? = some (.quoted q) → q = '\'' ∨ q = '"') :
    s.EndsAlike ('r' :: after) (l.text ++ after) := by
  obtain ⟨regions, p⟩ := s
  cases regions with
  | nil => exact absurd rfl hs
  | cons r outer =>
    have hinert (hr : isInert r) :
        State.EndsAlike ⟨r :: outer, p⟩ ('r' :: after) (l.text ++ after) :=
      (State.Leads.single (State.step_inert_of hr outer (.inr rfl)) (by simp)).endsAlike
        (leads_inert hl hr outer p) after
    cases r with
    | quoted q =>
      rcases hquoted q rfl with rfl | rfl
      · exact hinert (.inl rfl)
      · exact hinert (.inr (.inl rfl))
    | template => exact hinert (.inr (.inr (.inl rfl)))
    | lineComment => exact hinert (.inr (.inr (.inr rfl)))
    | blockComment => exact absurd rfl hcomment
    | group closer =>
      obtain ⟨q, hrun⟩ := hl.closes
      have hname :
          State.Leads ⟨.group closer :: outer, p⟩ ['r'] ⟨.group closer :: outer, .none⟩ := by
        refine .single ?_ (by simp)
        have : (p == .slash) = false := by simpa using hp
        simp [State.step, stepCode, this, literal?, closer?, isCloser]
      have hliteral :
          State.Leads ⟨.group closer :: outer, p⟩ l.text ⟨.group closer :: outer, q⟩ := by
        have hslash : State.step ⟨.group closer :: outer, p⟩ '/' =
            some ⟨.group closer :: outer, .slash⟩ := by
          have : (p == .slash) = false := by simpa using hp
          simp [State.step, stepCode, this, literal?]
        rw [text, State.run, show State.top.step '/' = some ⟨[], .slash⟩ from rfl] at hrun
        exact .cons hslash (by simp) (State.leads_of_run hrun closer outer)
      have hpending : closing ⟨.group closer :: outer, q⟩ after =
          closing ⟨.group closer :: outer, .none⟩ after := by
        refine State.closing_pending ?_
        rintro rfl
        exact ha.noComment (flags_eq_nil (State.getLast?_of_run hrun (List.cons_ne_nil _ _)))
      have hfirst : closing ⟨.group closer :: outer, p⟩ ('r' :: after) =
          (closing ⟨.group closer :: outer, .none⟩ after).map
          fun (read, after) => (['r'] ++ read, after) := hname.closing_append after
      rw [State.EndsAlike, hliteral.closing_append, hpending, hfirst, Option.map_map,
        Option.map_map]
      rfl

end Regex

/-! ### The walk through a literal -/

/-- The words of a text: its runs of name characters. -/
def words (t : Text) : List Text := (t.splitOnP (!isNameChar ·)).filter (!·.isEmpty)

theorem words_cons {c : Char} (hc : isNameChar c = false) (t : Text) :
    words (c :: t) = words t := by
  rw [words, words, List.splitOnP_cons_eq_if_modifyHead]
  simp [hc]

theorem words_append {w t : Text} (hw : w.all isNameChar = true) (hne : w ≠ [])
    (ht : isOutsideName t = true) :
    words (w ++ t) = w :: words t := by
  have hall : ∀ c ∈ w, (!isNameChar c) = false :=
    fun c hc => by simpa using List.all_eq_true.mp hw c hc
  cases t with
  | nil =>
    have hself : w.splitOnP (!isNameChar ·) = [w] := List.splitOnP_eq_singleton hall
    simp [words, hself, hne]
  | cons d t =>
    have hd : (!isNameChar d) = true := ht
    rw [words_cons (by simpa using hd), words, List.splitOnP_append_cons_of_forall_mem hall d hd]
    simp [words, hne]

/-- The frames of the braces among the groups that are open. -/
def blocks (closers : List Char) : List Frame := (closers.filter (· == '}')).map fun _ => .block

theorem inCode_blocks {frames : List Frame} (h : inCode frames = true) (closers : List Char) :
    inCode (blocks closers ++ frames) = true := by
  rw [blocks]
  cases closers.filter (· == '}') with
  | nil => exact h
  | cons => rfl

/-- A piece in which nothing is found is passed over. -/
theorem occurrencesFrom_piece {name : Text} {frames next : List Frame} {before a z : Text}
    {c : Char} (hp : piece frames before c (a ++ z) = ⟨a.length + 1, next⟩)
    (ho : isOccurrence name frames ⟨before, c :: (a ++ z)⟩ = false) :
    occurrencesFrom name 0 frames before (c :: (a ++ z)) =
      occurrencesFrom name 0 next (a.reverse ++ c :: before) z := by
  rw [occurrencesFrom]
  simp only [hp, Nat.add_sub_cancel, ho, Bool.false_eq_true, if_false,
    occurrencesFrom_append name a z a.length rfl]

theorem piece_word {frames : List Frame} (hf : inCode frames = true) (before : Text) {c : Char}
    {a z : Text} (hc : isNameChar c = true)
    (hword : (c :: (a ++ z)).takeWhile isNameChar = c :: a) :
    piece frames before c (a ++ z) = ⟨a.length + 1, frames⟩ := by
  have hne : ∀ d, isNameChar d = false → c ≠ d := by
    rintro d hd rfl
    rw [hc] at hd
    cases hd
  rw [piece_code hf]
  simp [codePiece, hword, hc, hne '\'' rfl, hne '"' rfl, hne '`' rfl, hne '/' rfl, hne '<' rfl,
    hne '{' rfl, hne '}' rfl]

theorem isOrdinary_of_isNameChar {c : Char} (h : isNameChar c = true) : isOrdinary c = true := by
  have hne {d : Char} (hd : isNameChar d = false) : c ≠ d := by
    rintro rfl
    rw [h] at hd
    cases hd
  simp [isOrdinary, literal?, closer?, isCloser, hne (d := '\'') rfl, hne (d := '"') rfl,
    hne (d := '`') rfl, hne (d := '(') rfl, hne (d := '[') rfl, hne (d := '{') rfl,
    hne (d := ')') rfl, hne (d := ']') rfl, hne (d := '}') rfl, hne (d := '/') rfl]

theorem run_names (closers : List Char) {w : Text} (hw : w.all isNameChar = true) (t : Text) :
    State.run ⟨groups closers, .none⟩ (w ++ t) = State.run ⟨groups closers, .none⟩ t := by
  induction w with
  | nil => rfl
  | cons c w ih =>
    rw [List.all_cons, Bool.and_eq_true] at hw
    have hstep :=
      (step_groups closers .none c).trans (stepCode_ordinary (isOrdinary_of_isNameChar hw.1) _)
    rw [List.cons_append, State.run_cons hstep, ih hw.2]

namespace Regex

variable {l : Regex}

theorem MayPrecede.isOutsideName {after : Text} (ha : l.MayPrecede after) :
    isOutsideName after = true := by
  cases after with
  | nil => rfl
  | cons c after => simpa [Script.isOutsideName] using ha.noName c rfl

theorem literal?_of_mem (hl : l.IsTame) {c : Char} (h : c ∈ l.text) : literal? c = none := by
  rw [text, List.mem_cons, List.mem_append, List.mem_cons] at h
  rcases h with rfl | h | rfl | h
  · rfl
  · exact hl.noLiteral c h
  · rfl
  · exact (of_isOrdinary (of_mem_flags h).2.1).1

theorem getLast?_ne {c : Char} (hc : isNameChar c = false) (hs : c ≠ '/') :
    l.text.getLast? ≠ some c := by
  rw [getLast?_text, ne_eq, Option.some.injEq]
  cases hflags : l.flags.getLast? with
  | none => exact Ne.symm hs
  | some d =>
    rintro rfl
    have := (of_mem_flags (List.mem_of_getLast? hflags)).1
    simp [isNameChar, Char.isAlphanum, this] at hc

/-- No `<` of a tame literal opens an element. -/
theorem opensElement_eq_false (hl : l.IsTame) {u t : Text} (ht : u ++ '<' :: t = l.text)
    (before after : Text) :
    opensElement (u.reverse ++ before) (t ++ after) = false := by
  rcases List.eq_nil_or_concat u with rfl | ⟨u, e, rfl⟩
  · cases ht
  cases t with
  | nil =>
    exfalso
    refine getLast?_ne (l := l) (c := '<') rfl (by decide) ?_
    rw [← ht, List.getLast?_append]
    rfl
  | cons d t =>
    have hinfix : [e, '<', d] <:+: l.text := ⟨u, t, by rw [← ht]; simp⟩
    rw [List.concat_eq_append, List.reverse_append, List.reverse_singleton, List.singleton_append,
      List.cons_append]
    by_cases hoperand : startsOperand e = true ∨ Text.isAsciiBlank e = true
    · obtain ⟨hname, hclose⟩ := hl.noTag e d hinfix hoperand
      have : looksLikeTag (d :: t ++ after) = false := by
        rw [List.cons_append, looksLikeTag_cons hclose, hname, Bool.false_and]
      rw [opensElement, this, Bool.false_and]
    · rw [not_or, Bool.not_eq_true, Bool.not_eq_true] at hoperand
      rw [opensElement, skipBlanks_cons hoperand.2, precededBy_cons, hoperand.2]
      simp [hoperand.1]

/-- A place in a literal: the text before it and the rest behind it, which closes the brackets that
are open there, is read alike behind a slash, and has no word that is a name. -/
structure IsRest (l : Regex) (name : Text) (closers : List Char) (pending : Pending)
    (u t : Text) : Prop where
  isText : u ++ t = l.text
  closes : ∃ p, State.run ⟨groups closers, pending⟩ t = some ⟨[], p⟩
  pending : pending = .none ∨ pending = .slash ∧ u.getLast? = some '/'
  notNamed : name ∉ words t

namespace IsRest

variable {name : Text} {closers : List Char} {pending : Pending} {u t : Text} {c : Char}

theorem literal?_eq_none (h : IsRest l name closers pending u (c :: t)) (hl : l.IsTame) :
    literal? c = none :=
  literal?_of_mem hl (h.isText ▸ List.mem_append_right u List.mem_cons_self)

/-- A slash in front of a place starts no comment there. -/
theorem step_eq (h : IsRest l name closers pending u (c :: t)) (hl : l.IsTame) :
    State.step ⟨groups closers, pending⟩ c = stepCode (groups closers) .none c := by
  rw [step_groups]
  rcases h.pending with hp | ⟨hp, hlast⟩
  · rw [hp]
  · obtain ⟨v, rfl⟩ := List.getLast?_eq_some_iff.mp hlast
    have hinfix : ['/', c] <:+: l.text := ⟨v, t, by rw [← h.isText]; simp⟩
    rw [hp]
    refine stepCode_slash ?_ ?_ _
    · rintro rfl
      exact hl.noLineComment hinfix
    · rintro rfl
      exact hl.noBlockComment hinfix

/-- Behind a character that is in no name. -/
theorem tail (h : IsRest l name closers pending u (c :: t)) (hl : l.IsTame)
    (hc : isNameChar c = false) {next : List Char} {pending' : Pending}
    (hstep : stepCode (groups closers) .none c = some ⟨groups next, pending'⟩)
    (hpending : pending' = .none ∨ pending' = .slash ∧ c = '/') :
    IsRest l name next pending' (u ++ [c]) t where
  isText := by rw [← h.isText, List.append_assoc, List.singleton_append]
  closes := by
    obtain ⟨p, hrun⟩ := h.closes
    exact ⟨p, (State.run_cons ((h.step_eq hl).trans hstep) t).symm.trans hrun⟩
  pending := hpending.imp_right fun hslash => ⟨hslash.1, by rw [List.getLast?_concat, hslash.2]⟩
  notNamed := words_cons hc t ▸ h.notNamed

/-- A run of name characters is a word other than the name, and the place behind it is one more. -/
theorem behind_word {a z : Text} (h : IsRest l name closers pending u (c :: (a ++ z)))
    (hl : l.IsTame) (hall : (c :: a).all isNameChar = true) (hz : isOutsideName z = true) :
    name ≠ c :: a ∧ IsRest l name closers .none (u ++ c :: a) z := by
  have hwords : words (c :: (a ++ z)) = (c :: a) :: words z :=
    words_append (w := c :: a) hall (List.cons_ne_nil c a) hz
  have hname := h.notNamed
  rw [hwords, List.mem_cons, not_or] at hname
  rw [List.all_cons, Bool.and_eq_true] at hall
  have hstep := (h.step_eq hl).trans (stepCode_ordinary (isOrdinary_of_isNameChar hall.1) _)
  refine ⟨hname.1, by rw [← h.isText]; simp, ?_, .inl rfl, hname.2⟩
  obtain ⟨p, hrun⟩ := h.closes
  rw [State.run_cons hstep, run_names closers hall.2] at hrun
  exact ⟨p, hrun⟩

/-- A closing bracket closes the innermost group. -/
theorem exists_outer (h : IsRest l name closers pending u (c :: t)) (hl : l.IsTame)
    (hc : isCloser c = true) : ∃ outer, closers = c :: outer := by
  obtain ⟨hliteral, hslash, hopener⟩ := literal?_of_isCloser hc
  obtain ⟨p, hrun⟩ := h.closes
  rw [State.run, h.step_eq hl] at hrun
  cases closers with
  | nil => simp [stepCode, hliteral, hslash, hopener, hc, groups] at hrun
  | cons closer outer =>
    by_cases he : c = closer
    · exact ⟨outer, by rw [he]⟩
    · simp [stepCode, hliteral, hslash, hopener, hc, groups, he] at hrun

/-- A slash in a literal starts no comment, nor does the one at its end. -/
theorem commentPrefix?_eq_none (h : IsRest l name closers pending u ('/' :: t)) (hl : l.IsTame)
    {after : Text} (ha : l.MayPrecede after) : commentPrefix? ('/' :: (t ++ after)) = none := by
  cases t with
  | nil =>
    refine ha.noComment (flags_eq_nil ?_)
    rw [← h.isText, List.getLast?_concat]
  | cons d t =>
    have hinfix : ['/', d] <:+: l.text := ⟨u, t, by rw [← h.isText]; simp⟩
    refine commentPrefix?_slash_eq_none_iff.mpr ⟨?_, ?_⟩
    · rintro ⟨⟩
      exact hl.noLineComment hinfix
    · rintro ⟨⟩
      exact hl.noBlockComment hinfix

/-- A character that is in no name is one piece of the walk, in which the frames change with the
brackets. -/
theorem exists_codePiece (h : IsRest l name closers pending u (c :: t)) (hl : l.IsTame)
    {after : Text} (ha : l.MayPrecede after) (hc : isNameChar c = false) (frames : List Frame)
    (before : Text) :
    ∃ next pending', stepCode (groups closers) .none c = some ⟨groups next, pending'⟩ ∧
      (pending' = .none ∨ pending' = .slash ∧ c = '/') ∧
      codePiece (blocks closers ++ frames) (u.reverse ++ before) c (t ++ after) =
        ⟨1, blocks next ++ frames⟩ := by
  have hliteral := h.literal?_eq_none hl
  by_cases hslash : c = '/'
  · subst hslash
    refine ⟨closers, .slash, stepCode_slash_opens _, .inr ⟨rfl, rfl⟩, ?_⟩
    simp [codePiece, h.commentPrefix?_eq_none hl ha]
  by_cases htag : c = '<'
  · subst htag
    refine ⟨closers, .none, stepCode_ordinary rfl _, .inl rfl, ?_⟩
    simp [codePiece, opensElement_eq_false hl h.isText, hc]
  by_cases hopen : c = '{'
  · subst hopen
    exact ⟨'}' :: closers, .none, rfl, .inl rfl, rfl⟩
  by_cases hclose : c = '}'
  · subst hclose
    obtain ⟨outer, rfl⟩ := h.exists_outer hl rfl
    exact ⟨outer, .none, stepCode_isCloser rfl _, .inl rfl, rfl⟩
  -- Brackets other than braces open no frame.
  have hquotes : c ≠ '\'' ∧ c ≠ '"' ∧ c ≠ '`' := by
    refine ⟨?_, ?_, ?_⟩ <;> rintro rfl <;> cases hliteral
  have hplain {next : List Char} (hblocks : blocks next = blocks closers) :
      codePiece (blocks closers ++ frames) (u.reverse ++ before) c (t ++ after) =
        ⟨1, blocks next ++ frames⟩ := by
    simp [codePiece, hquotes, hslash, htag, hopen, hclose, hc, hblocks]
  cases hopener : closer? c with
  | some closer =>
    refine ⟨closer :: closers, .none, stepCode_opener hopener _, .inl rfl, hplain ?_⟩
    have hne : closer ≠ '}' := by
      rintro rfl
      unfold closer? at hopener
      repeat' split at hopener
      · cases hopener
      · cases hopener
      · next hbrace => exact hopen (by simpa using hbrace)
      · cases hopener
    simp [blocks, hne]
  | none =>
    by_cases hcloser : isCloser c = true
    · obtain ⟨outer, rfl⟩ := h.exists_outer hl hcloser
      refine ⟨outer, .none, stepCode_isCloser hcloser _, .inl rfl, hplain ?_⟩
      simp [blocks, hclose]
    · have hordinary : isOrdinary c = true := by
        simp [isOrdinary, hliteral, hopener, hcloser, hslash]
      exact ⟨closers, .none, stepCode_ordinary hordinary _, .inl rfl, hplain rfl⟩

/-- The walk goes one piece on and reports nothing: a run of name characters, or a character that
is in no name. -/
theorem exists_next (h : IsRest l name closers pending u (c :: t)) (hl : l.IsTame)
    {after : Text} (ha : l.MayPrecede after) {frames : List Frame} (hf : inCode frames = true)
    (before : Text) :
    ∃ next pending' u' t', t'.length ≤ t.length ∧ IsRest l name next pending' u' t' ∧
      occurrencesFrom name 0 (blocks closers ++ frames) (u.reverse ++ before) (c :: t ++ after) =
        occurrencesFrom name 0 (blocks next ++ frames) (u'.reverse ++ before) (t' ++ after) := by
  have hcode := inCode_blocks hf closers
  by_cases hc : isNameChar c = true
  · obtain ⟨a, z, rfl, ha', hz⟩ : ∃ a z, t = a ++ z ∧ a.all isNameChar = true ∧
        isOutsideName z = true :=
      ⟨_, _, List.takeWhile_append_dropWhile.symm, List.all_takeWhile, isOutsideName_dropWhile t⟩
    have hall : (c :: a).all isNameChar = true := by simpa [hc] using ha'
    obtain ⟨hname, hnext⟩ := h.behind_word hl hall hz
    have hbehind : isOutsideName (z ++ after) = true := by
      cases z with
      | nil => exact ha.isOutsideName
      | cons d z => exact hz
    have htake : (c :: (a ++ (z ++ after))).takeWhile isNameChar = c :: a :=
      takeWhile_word (w := c :: a) hall hbehind
    have hown : isOccurrence name (blocks closers ++ frames)
        ⟨u.reverse ++ before, c :: (a ++ (z ++ after))⟩ = false := by
      simp [isOccurrence, htake, hname.symm]
    refine ⟨closers, .none, u ++ c :: a, z, by simp, hnext, ?_⟩
    rw [List.cons_append, List.append_assoc,
      occurrencesFrom_piece (piece_word hcode _ hc htake) hown]
    simp
  · rw [Bool.not_eq_true] at hc
    obtain ⟨next, pending', hstep, hpending, hpiece⟩ :=
      h.exists_codePiece hl ha hc frames before
    have hown : isOccurrence name (blocks closers ++ frames)
        ⟨u.reverse ++ before, c :: (t ++ after)⟩ = false := by
      simp [isOccurrence, isNameStart_eq_false hc]
    rw [← piece_code hcode] at hpiece
    refine ⟨next, pending', u ++ [c], t, le_rfl, h.tail hl hc hstep hpending, ?_⟩
    have hover := occurrencesFrom_piece (a := []) (z := t ++ after) hpiece hown
    rw [List.cons_append, List.reverse_append]
    exact hover

/-- The walk passes over the rest of a tame literal. -/
theorem occurrencesFrom_eq (h : IsRest l name closers pending u t) (hl : l.IsTame) {after : Text}
    (ha : l.MayPrecede after) {frames : List Frame} (hf : inCode frames = true) (before : Text) :
    occurrencesFrom name 0 (blocks closers ++ frames) (u.reverse ++ before) (t ++ after) =
      occurrencesFrom name 0 frames (l.text.reverse ++ before) after := by
  induction hn : t.length using Nat.strongRecOn generalizing closers pending u t with
  | ind n ih =>
    subst hn
    cases t with
    | nil =>
      obtain ⟨p, hrun⟩ := h.closes
      rw [State.run, Option.some.injEq, State.mk.injEq, groups, List.map_eq_nil_iff] at hrun
      rw [hrun.1, ← h.isText, List.append_nil]
      rfl
    | cons c t =>
      obtain ⟨next, pending', u', t', hshorter, hnext, hover⟩ := h.exists_next hl ha hf before
      exact hover.trans (ih t'.length (Nat.lt_succ_of_le hshorter) hnext rfl)

end IsRest

end Regex

/-! ### The walk behind a literal -/

/-- Whether nothing that the walk looks back for ends with a character, and it is no blank. -/
def isQuiet (c : Char) : Bool := !Text.isAsciiBlank c && !startsOperand c && c != 'n' && c != '.'

/-- A place, with more text in front of what stands before it. -/
def Cursor.behind (x : Text) (place : Cursor) : Cursor := ⟨place.before ++ x, place.after⟩

section

variable {d d' : Char} (hd : isQuiet d = true) (hd' : isQuiet d' = true) (x y : Text) {w : Text}
  (hw : ∀ c, w.getLast? = some c → isNameChar c = false)

include hd hd' hw

theorem precededBy_behind {word : Text} (hword : word.all isNameChar = true)
    (hlast : word.getLast? = some 'n') :
    precededBy word (w ++ d :: x) = precededBy word (w ++ d' :: y) := by
  have hquiet {e : Char} (he : isQuiet e = true) (v : Text) : Text.isAsciiBlank e = false ∧
      isWordAt word (e :: v) = false := by
    simp only [isQuiet, Bool.and_eq_true, Bool.not_eq_true', bne_iff_ne] at he
    refine ⟨he.1.1.1, ?_⟩
    obtain ⟨u, rfl⟩ := List.getLast?_eq_some_iff.mp hlast
    have hne : ('n' == e) = false := beq_eq_false_iff_ne.mpr (Ne.symm he.1.2)
    rw [isWordAt, List.reverse_append, List.reverse_singleton, List.singleton_append,
      List.isPrefixOf, hne]
    rfl
  cases w with
  | nil => rw [List.nil_append, List.nil_append, precededBy_cons, precededBy_cons, (hquiet hd x).1,
    (hquiet hd' y).1]; rfl
  | cons c w =>
    rw [List.cons_append, List.cons_append, precededBy_cons, precededBy_cons, ← List.cons_append,
      ← List.cons_append, skipBlanks_append (hquiet hd x).1, skipBlanks_append (hquiet hd' y).1]
    congr 1
    rcases List.eq_nil_or_concat (skipBlanks (c :: w)) with hnil | ⟨k, e, hk⟩
    · rw [hnil, List.nil_append, List.nil_append, (hquiet hd x).2, (hquiet hd' y).2]
    · rw [List.concat_eq_append] at hk
      have he : isNameChar e = false := by
        refine hw e ?_
        obtain ⟨front, hfront⟩ := List.dropWhile_suffix (l := c :: w) Text.isAsciiBlank
        rw [← hfront, List.getLast?_append, show (c :: w).dropWhile Text.isAsciiBlank = k ++ [e]
          from hk, List.getLast?_concat]
        rfl
      rw [hk, List.append_assoc, List.append_assoc]
      exact isWordAt_append hword he k (d :: x) (d' :: y)

theorem callableAfter_quiet : callableAfter (w ++ d :: x) = callableAfter (w ++ d' :: y) := by
  have hne {e : Char} (he : isQuiet e = true) : '.' ≠ e := by
    simp only [isQuiet, Bool.and_eq_true, Bool.not_eq_true', bne_iff_ne] at he
    exact Ne.symm he.2
  have hpoints {e : Char} (he : isQuiet e = true) : e ∉ ['.', '.', '.'] := by
    simp [Ne.symm (hne he)]
  rw [callableAfter, callableAfter, bne, bne, head?_stop (hne hd), head?_stop (hne hd'),
    isPrefixOf_stop (hpoints hd), isPrefixOf_stop (hpoints hd'),
    precededBy_behind hd hd' x y hw rfl rfl]

theorem opensElement_quiet (rest : Text) :
    opensElement (w ++ d :: x) rest = opensElement (w ++ d' :: y) rest := by
  have hquiet {e : Char} (he : isQuiet e = true) : Text.isAsciiBlank e = false ∧
      startsOperand e = false := by
    simp only [isQuiet, Bool.and_eq_true, Bool.not_eq_true', bne_iff_ne] at he
    exact he.1.1
  rw [opensElement, opensElement, precededBy_behind hd hd' x y hw rfl rfl,
    skipBlanks_append (hquiet hd).1, skipBlanks_append (hquiet hd').1]
  cases skipBlanks w with
  | nil => simp [(hquiet hd).2, (hquiet hd').2]
  | cons c k => rfl

omit hd hd' in
theorem opensString_quiet (hne : w ≠ []) (x y : Text) :
    opensString (w ++ x) = opensString (w ++ y) := by
  obtain ⟨v, e, rfl⟩ := List.eq_nil_or_concat w |>.resolve_left hne
  have he := hw e (by rw [List.concat_eq_append, List.getLast?_concat])
  rw [opensString, opensString, List.concat_eq_append, List.append_assoc, List.append_assoc,
    List.singleton_append, List.singleton_append, takeWhile_stop he, takeWhile_stop he]

theorem piece_quiet (frames : List Frame) {c : Char} (hc : w = [] → c ≠ '\'' ∧ c ≠ '"')
    (rest : Text) :
    piece frames (w ++ d :: x) c rest = piece frames (w ++ d' :: y) c rest := by
  have hcode : codePiece frames (w ++ d :: x) c rest = codePiece frames (w ++ d' :: y) c rest := by
    by_cases hnil : w = []
    · have hquote : (c == '\'' || c == '"') = false := by simpa using hc hnil
      simp only [codePiece, hquote, Bool.false_eq_true, if_false,
        opensElement_quiet hd hd' x y hw rest]
    · simp only [codePiece, opensString_quiet hw hnil (d :: x) (d' :: y),
        opensElement_quiet hd hd' x y hw rest]
  cases frames with
  | nil => exact hcode
  | cons frame frames =>
    cases frame with
    | children | tag => rfl
    | block | substitution | elementCode => exact hcode

end

/-- **What is found behind a text does not depend on it**, as far as nothing in it goes on. -/
theorem exists_occurrencesFrom_behind (name : Text) {d d' : Char} (hd : isQuiet d = true)
    (hd' : isQuiet d' = true) (x y : Text) (skip : Nat) (frames : List Frame) {w t : Text}
    (hhead : ∀ c, (w.reverse ++ t).head? = some c → isNameChar c = false ∧ c ≠ '\'' ∧ c ≠ '"') :
    ∃ places : List Cursor, occurrencesFrom name skip frames (w ++ d :: x) t =
      places.map (·.behind (d :: x)) ∧
      occurrencesFrom name skip frames (w ++ d' :: y) t = places.map (·.behind (d' :: y)) := by
  induction t generalizing skip frames w with
  | nil => exact ⟨[], by simp [occurrencesFrom]⟩
  | cons c t ih =>
    have hhead' : ∀ e, ((c :: w).reverse ++ t).head? = some e → isNameChar e = false ∧ e ≠ '\'' ∧
        e ≠ '"' := by
      simpa using hhead
    cases skip with
    | succ skip => exact ih skip frames hhead'
    | zero =>
      have hw : ∀ e, w.getLast? = some e → isNameChar e = false := by
        intro e he
        refine (hhead e ?_).1
        rw [List.head?_append, List.head?_reverse, he]
        rfl
      have hquote : w = [] → c ≠ '\'' ∧ c ≠ '"' := by
        rintro rfl
        exact (hhead c rfl).2
      have hpiece := piece_quiet hd hd' x y hw frames hquote t
      have hown : isOccurrence name frames ⟨w ++ d' :: y, c :: t⟩ =
          isOccurrence name frames ⟨w ++ d :: x, c :: t⟩ := by
        simp only [isOccurrence, callableAfter_quiet hd hd' x y hw]
      obtain ⟨places, hplaces, hplaces'⟩ := ih ((piece frames (w ++ d :: x) c t).length - 1)
        (piece frames (w ++ d :: x) c t).frames hhead'
      rw [occurrencesFrom, occurrencesFrom, ← hpiece, hown]
      by_cases ho : isOccurrence name frames ⟨w ++ d :: x, c :: t⟩ = true
      · refine ⟨⟨w, c :: t⟩ :: places, ?_, ?_⟩
        · simp only [ho, if_true, List.map_cons, Cursor.behind]
          exact congrArg _ hplaces
        · simp only [ho, if_true, List.map_cons, Cursor.behind]
          exact congrArg _ hplaces'
      · refine ⟨places, ?_, ?_⟩
        · simp only [ho]
          exact hplaces
        · simp only [ho]
          exact hplaces'

/-! ### A literal in place of a name -/

namespace Regex

variable {l : Regex}

/-- A literal ends like a name: nothing behind it takes its end for something else. -/
theorem exists_reverse_text (l : Regex) : ∃ c x, l.text.reverse = c :: x ∧ isQuiet c = true := by
  have hlast := getLast?_text (l := l)
  rw [← List.head?_reverse] at hlast
  obtain ⟨x, hx⟩ := List.head?_eq_some_iff.mp hlast
  refine ⟨_, x, hx, ?_⟩
  cases hflags : l.flags.getLast? with
  | none => rfl
  | some c =>
    have hall : (regexFlags.all isQuiet) = true := rfl
    have hc :
        c ∈ regexFlags := by
          simpa using List.all_eq_true.mp l.areFlags c (List.mem_of_getLast? hflags)
    exact List.all_eq_true.mp hall c hc

theorem interchangeable (hl : l.IsTame) (after : Text) :
    Interchangeable ('r' :: after) (l.text ++ after) where
  head := ⟨'r', after, rfl, rfl⟩
  head' := ⟨'/', l.body ++ '/' :: l.flags ++ after, rfl, rfl⟩
  notTag := rfl
  tag _ := rfl
  quoted quote hq pending := by
    have hr : isInert (.quoted quote) := hq.imp (congrArg _) fun h => .inl (congrArg _ h)
    exact (State.Leads.single (State.step_inert_of hr [] (.inr rfl)) (by simp)).endsAlike
      (leads_inert hl hr [] pending) after

/-- The texts behind which a literal stands as an operand. -/
structure MayFollow (before : Text) : Prop where
  /-- The literal does not go on with a name or a slash. -/
  last (c : Char) (h : before.getLast? = some c) : c ≠ '/' ∧ isNameChar c = false
  /-- No group takes it for the text of a block comment. -/
  noComment (u : Text) (h : '(' :: u <:+
    before) (s : State) (hs : (State.inside (.group ')')).run u = some s) :
    s.regions.head? ≠ some .blockComment

theorem MayFollow.allowsExchange {before after : Text} (h : MayFollow before) (hl : l.IsTame)
    (ha : l.MayPrecede after) :
    AllowsExchange ('r' :: after) (l.text ++ after) before where
  last := h.last
  groups u hu s hs hne := by
    refine endsAlike hl ha hne (h.noComment u hu s hs) ?_ ?_
    · intro hslash
      obtain ⟨regions, pending⟩ := s
      obtain rfl : pending = .slash := hslash
      by_cases hnil : u = []
      · subst hnil
        cases hs
      · have hlast := State.getLast?_of_run hs hnil
        obtain ⟨front, rfl⟩ := hu
        refine (h.last '/' ?_).1 rfl
        rw [List.getLast?_append, List.getLast?_cons, hlast]
        rfl
    · intro q hq
      rcases State.quoted_of_run hs (List.mem_of_mem_head? hq) with hmem | hquote
      · simp [State.inside] at hmem
      · exact hquote

/-- **A name is found around a literal where it is found around a name**: in front of it with
the one or the other behind, and behind it with the one or the other in front. -/
theorem exists_occurrences (hl : l.IsTame) {before after : Text} (ha : l.MayPrecede after)
    (hb : MayFollow before)
    (hr : ⟨before.reverse, 'r' :: after⟩ ∈ occurrences ['r'] (before ++ 'r' :: after)) {name : Text}
    (hname : name ≠ ['r']) (hwords : name ∉ words l.text) :
    ∃ front behind : List Cursor, (∀ place ∈ front, place.after <:+ before ∧ place.after ≠ [] ∧
        place.before.reverse ++ place.after = before) ∧
      occurrences name (before ++ 'r' :: after) =
        front.map (·.followedBy ('r' :: after)) ++ behind.map (·.behind ('r' :: before.reverse)) ∧
      occurrences name (before ++ (l.text ++ after)) =
        front.map (·.followedBy (l.text ++ after)) ++
          behind.map (·.behind (l.text.reverse ++ before.reverse)) := by
  obtain ⟨starts, last, hpassage, hown⟩ := exists_passage hr (List.append_nil _).symm
  have hcode : inCode last = true := by
    simp only [isOccurrence, Bool.and_eq_true] at hown
    exact hown.1.1.1
  have hexchange := hb.allowsExchange hl ha
  have hpassage' := Passage.exchange (interchangeable hl after) hexchange hcode hpassage
  obtain ⟨p, hrun⟩ := hl.closes
  obtain ⟨c, x, hreverse, hquiet⟩ := exists_reverse_text l
  have hhead : ∀ c, (([] : Text).reverse ++ after).head? = some c → isNameChar c = false ∧
      c ≠ '\'' ∧ c ≠ '"' :=
    fun c hc => ⟨ha.noName c hc, ha.noQuote c hc⟩
  obtain ⟨behind, hbehind, hbehind'⟩ :=
    exists_occurrencesFrom_behind name (d := 'r') rfl hquiet before.reverse
    (x ++ before.reverse) 0 last hhead
  refine ⟨(starts.filter fun s => isOccurrence name s.1 (s.2.followedBy ('r' :: after))).map (·.2),
    behind, ?_, ?_, ?_⟩
  · intro place hplace
    obtain ⟨s, hs, rfl⟩ := List.mem_map.mp hplace
    exact hpassage.suffix_of_mem_starts (List.mem_of_mem_filter hs)
  · have htake : ('r' :: after).takeWhile isNameChar = ['r'] :=
      takeWhile_word (w := ['r']) rfl ha.isOutsideName
    have hpiece := piece_word (a := []) hcode before.reverse (by decide) htake
    have hnone : isOccurrence name last ⟨before.reverse, 'r' :: after⟩ = false := by
      simp [isOccurrence, htake, Ne.symm hname]
    have hover := occurrencesFrom_piece (a := []) hpiece hnone
    rw [occurrences, hpassage.occurrencesFrom_eq, List.append_nil, List.map_map]
    exact congrArg _ (hover.trans hbehind)
  · have hopen : State.run ⟨groups [], .none⟩ l.text = some ⟨[], p⟩ := hrun
    have hrest : IsRest l name [] .none [] l.text :=
      ⟨List.nil_append _, ⟨p, hopen⟩, .inl rfl, hwords⟩
    have hover := hrest.occurrencesFrom_eq hl ha hcode before.reverse
    have hfilter :
        (starts.filter fun s => isOccurrence name s.1 (s.2.followedBy (l.text ++ after))) =
        starts.filter fun s => isOccurrence name s.1 (s.2.followedBy ('r' :: after)) := by
      refine List.filter_congr fun s hs => ?_
      obtain ⟨hsuffix, hne, -⟩ := hpassage.suffix_of_mem_starts hs
      exact hexchange.isOccurrence_eq hsuffix hne name s.1
    rw [hreverse] at hover ⊢
    rw [occurrences, hpassage'.occurrencesFrom_eq, List.append_nil, List.map_map, hfilter]
    exact congrArg _ (hover.trans hbehind')

end Regex

end Localization.Script
