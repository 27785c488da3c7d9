import Mathlib
import Localization.Proofs.Argument.Settled
import Localization.Proofs.Script.Lexeme

/-! The grammar of bracket groups.

A group is an opening bracket, items and the closer of that bracket. `Within` is the grammar of
items, and of the text of templates, which may enclose groups again. The reader of groups accepts
exactly this grammar: a text that it reads to the end of a region is an enclosed text of the grammar
(`exists_within`), and it reads every such text from one end to the other (`Within.passesOver`).

`closingPlace?_eq_some_iff` says so of the places of a text: the bracket at a place is closed at
another one exactly if a group stands between the two, which are no two places for one bracket, and
what stands behind the group has no part in that. -/
namespace Localization.Script

/-! ### The grammar -/

/-- Whether a text may stand between two quotes: a backslash escapes one character, and neither a
quote nor a line end stands in it without one. -/
inductive IsQuoted (quote : Char) : Text → Prop
  | nil : IsQuoted quote []
  | char {c : Char} {rest : Text} (hquote : c ≠ quote) (hescape : c ≠ '\\') (hline : c ≠ '\n')
      (hrest : IsQuoted quote rest) : IsQuoted quote (c :: rest)
  | escape {c : Char} {rest : Text} (hrest : IsQuoted quote rest) :
      IsQuoted quote ('\\' :: c :: rest)

/-- What encloses a text. -/
inductive Enclosure where
  | brackets
  | backticks

/-- Whether a text may stand in an enclosure: between brackets a list of items, between backticks
characters, escapes and substitutions. -/
inductive Within : Enclosure → Text → Prop
  | nil {e : Enclosure} : Within e []
  | ordinary {c : Char} {rest : Text} (hc : isOrdinary c = true) (hrest : Within .brackets rest) :
      Within .brackets (c :: rest)
  /-- A slash that starts no comment. -/
  | slash {rest : Text} (hc : commentPrefix? ('/' :: rest) = none) (hrest : Within .brackets rest) :
      Within .brackets ('/' :: rest)
  | string {quote : Char} {body rest : Text} (hquote : quote = '\'' ∨ quote = '"')
      (hbody : IsQuoted quote body)
      (hrest : Within .brackets rest) : Within .brackets (quote :: (body ++ quote :: rest))
  | template {body rest : Text} (hbody : Within .backticks body) (hrest : Within .brackets rest) :
      Within .brackets ('`' :: (body ++ '`' :: rest))
  | lineComment {body rest : Text} (hbody : '\n' ∉ body) (hrest : Within .brackets rest) :
      Within .brackets ('/' :: '/' :: (body ++ '\n' :: rest))
  | blockComment {body rest : Text} (hbody : Text.occursIn "*/" body = false)
      (hrest : Within .brackets rest) :
      Within .brackets ('/' :: '*' :: (body ++ '*' :: '/' :: rest))
  | group {opener closer : Char} {inner rest : Text} (hopener : closer? opener = some closer)
      (hinner : Within .brackets inner) (hrest : Within .brackets rest) :
      Within .brackets (opener :: (inner ++ closer :: rest))
  | char {c : Char} {rest : Text} (hescape : c ≠ '\\') (htick : c ≠ '`')
      (hdollar : c = '$' → rest.head? ≠ some '{') (hrest : Within .backticks rest) :
        Within .backticks (c :: rest)
  | escape {c : Char} {rest : Text} (hrest : Within .backticks rest) :
      Within .backticks ('\\' :: c :: rest)
  | substitution {inner rest : Text} (hinner : Within .brackets inner)
      (hrest : Within .backticks rest) :
      Within .backticks ('$' :: '{' :: (inner ++ '}' :: rest))

/-- An opening bracket, items, and its closer. -/
inductive IsGroup : Text → Prop
  | mk {opener closer : Char} {inner : Text} (hopener : closer? opener = some closer)
      (hinner : Within .brackets inner) : IsGroup (opener :: (inner ++ [closer]))

/-- The region of an enclosure and the character that ends it. -/
inductive Ends : Enclosure → Region → Char → Prop
  | closer {c : Char} (hc : isCloser c = true) : Ends .brackets (.group c) c
  | backtick : Ends .backticks .template '`'

/-! ### Reading what the grammar has -/

section

variable {closer : Char} {rs : List Region} {t z : Text}

/-- Where no comment starts, a slash does not matter to what follows it. -/
theorem closing_behind_slash (h : commentPrefix? ('/' :: t) = none) :
    closing ⟨.group closer :: rs, .slash⟩ t = closing ⟨.group closer :: rs, .none⟩ t := by
  cases t with
  | nil => rfl
  | cons c t =>
    rw [commentPrefix?_slash_eq_none_iff] at h
    have hstep : State.step ⟨.group closer :: rs, .slash⟩ c =
        State.step ⟨.group closer :: rs, .none⟩ c :=
      stepCode_slash (by simpa using h.1) (by simpa using h.2) _
    rw [closing, closing, hstep]

theorem closing_lineComment {body : Text} (h : '\n' ∉ body) (hrs : rs ≠ []) (z : Text) :
    closing ⟨.lineComment :: rs, .none⟩ (body ++ '\n' :: z) =
      (closing ⟨rs, .none⟩ z).map fun (read, after) => (body ++ '\n' :: read, after) := by
  induction body with
  | nil =>
    have hend : State.step ⟨.lineComment :: rs, .none⟩ '\n' = some ⟨rs, .none⟩ := rfl
    exact closing_cons hend hrs z
  | cons c body ih =>
    rw [List.mem_cons, not_or] at h
    have hstep : State.step ⟨.lineComment :: rs, .none⟩ c = some ⟨.lineComment :: rs, .none⟩ := by
      simp [State.step, Ne.symm h.1]
    rw [List.cons_append, closing_cons hstep (List.cons_ne_nil _ _), ih h.2, Option.map_map]
    rfl

theorem closing_blockComment {body : Text} (h : Text.occursIn "*/" body = false) (hrs : rs ≠ [])
    {pending : Pending} (hp : pending = .star → body.head? ≠ some '/') (z : Text) :
    closing ⟨.blockComment :: rs, pending⟩ (body ++ '*' :: '/' :: z) =
      (closing ⟨rs, .none⟩ z).map fun (read, after) => (body ++ '*' :: '/' :: read, after) := by
  have hstar (pending : Pending) : State.step ⟨.blockComment :: rs, pending⟩ '*' =
      some ⟨.blockComment :: rs, .star⟩ := by
    simp [State.step]
  induction body generalizing pending with
  | nil =>
    have hslash : State.step ⟨.blockComment :: rs, .star⟩ '/' = some ⟨rs, .none⟩ := rfl
    rw [List.nil_append, closing_cons (hstar pending) (List.cons_ne_nil _ _),
      closing_cons hslash hrs, Option.map_map]
    rfl
  | cons c body ih =>
    rw [Text.occursIn, Bool.or_eq_false_iff] at h
    have hend : (pending == .star && c == '/') = false := by
      rw [Bool.and_eq_false_iff, beq_eq_false_iff_ne, beq_eq_false_iff_ne]
      by_cases hc : c = '/'
      · exact .inl fun he => hp he (by rw [hc]; rfl)
      · exact .inr hc
    by_cases hc : c = '*'
    · subst hc
      have hhead : body.head? ≠ some '/' := by
        intro hhead
        obtain ⟨rest, rfl⟩ : ∃ rest, body = '/' :: rest := by
          cases body with
          | nil => cases hhead
          | cons d rest => cases hhead; exact ⟨rest, rfl⟩
        exact absurd h.1 (by simp)
      rw [List.cons_append, closing_cons (hstar pending) (List.cons_ne_nil _ _), ih h.2 fun _ =>
        hhead, Option.map_map]
      rfl
    · have hstep : State.step ⟨.blockComment :: rs, pending⟩ c =
          some ⟨.blockComment :: rs, .none⟩ := by
        simp [State.step, hend, hc]
      rw [List.cons_append, closing_cons hstep (List.cons_ne_nil _ _), ih h.2 fun he =>
        (by cases he), Option.map_map]
      rfl

theorem IsQuoted.isClosedBy {quote : Char} (hquote : quote = '\'' ∨ quote = '"') {body : Text}
    (h : IsQuoted quote body) :
    (State.inside (.quoted quote)).IsClosedBy (body ++ [quote]) := by
  have hback : quote ≠ '\\' := by rcases hquote with rfl | rfl <;> decide
  have hline : quote ≠ '\n' := by rcases hquote with rfl | rfl <;> decide
  induction h with
  | nil =>
    exact State.isClosedBy_cons.mpr ⟨.top, by simp [State.step, State.inside, State.top, hback,
      hline], .inl ⟨rfl, rfl⟩⟩
  | @char c rest hq he hl _ ih =>
    have hstep : (State.inside (.quoted quote)).step c = some (State.inside (.quoted quote)) := by
      simp [State.step, State.inside, hq, he, hl]
    exact State.isClosedBy_cons.mpr ⟨_, hstep, .inr ⟨List.cons_ne_nil _ _, ih⟩⟩
  | @escape c rest _ ih =>
    have hstep : (State.inside (.quoted quote)).step '\\' = some ⟨[.quoted quote], .escape⟩ := rfl
    have hnext : State.step ⟨[.quoted quote], .escape⟩ c = some (State.inside (.quoted quote)) :=
      rfl
    exact State.isClosedBy_cons.mpr ⟨_, hstep, .inr ⟨List.cons_ne_nil _ _,
      State.isClosedBy_cons.mpr ⟨_, hnext, .inr ⟨List.cons_ne_nil _ _, ih⟩⟩⟩⟩

/-- In a template a dollar sign does not matter to what follows it but for a brace. -/
theorem closing_behind_dollar (h : t.head? ≠ some '{') :
    closing ⟨.template :: rs, .dollar⟩ t = closing ⟨.template :: rs, .none⟩ t := by
  cases t with
  | nil => rfl
  | cons c t =>
    have hc : c ≠ '{' := fun he => h (by rw [he]; rfl)
    have hstep : State.step ⟨.template :: rs, .dollar⟩ c =
        State.step ⟨.template :: rs, .none⟩ c := by
      simp [State.step, hc]
    rw [closing, closing, hstep]

end

/-- The reader passes over a text in a region: what is behind the text is read as if it stood there
alone. -/
abbrev PassesOver (r : Region) (rs : List Region) (t z : Text) : Prop :=
  closing ⟨r :: rs, .none⟩ (t ++ z) =
    (closing ⟨r :: rs, .none⟩ z).map fun (read, after) => (t ++ read, after)

namespace PassesOver

variable {closer : Char} {rs : List Region} {rest z : Text}

theorem nil {r : Region} : PassesOver r rs [] z := by
  simp [PassesOver]

/-! Between brackets, one piece after the other. -/

theorem ordinary {c : Char} (hc : isOrdinary c = true)
    (hrest : PassesOver (.group closer) rs rest z) :
    PassesOver (.group closer) rs (c :: rest) z := by
  rw [PassesOver, List.cons_append, closing_code (stepCode_ordinary hc _) (List.cons_ne_nil _ _),
    hrest, Option.map_map]
  rfl

theorem slash (hc : commentPrefix? ('/' :: (rest ++ z)) = none)
    (hrest : PassesOver (.group closer) rs rest z) :
    PassesOver (.group closer) rs ('/' :: rest) z := by
  have hstep : State.step ⟨.group closer :: rs, .none⟩ '/' = some ⟨.group closer :: rs, .slash⟩ :=
    stepCode_slash_opens _
  rw [PassesOver, List.cons_append, closing_cons hstep (List.cons_ne_nil _ _),
    closing_behind_slash hc, hrest, Option.map_map]
  rfl

theorem string {quote : Char} (hquote : quote = '\'' ∨ quote = '"') {body : Text}
    (hbody : IsQuoted quote body) (hrest : PassesOver (.group closer) rs rest z) :
    PassesOver (.group closer) rs (quote :: (body ++ quote :: rest)) z := by
  have hliteral : literal? quote = some (.quoted quote) := by
    rcases hquote with rfl | rfl <;> rfl
  have hin := (hbody.isClosedBy hquote).closing_below (List.cons_ne_nil _ _)
    (List.cons_ne_nil (.group closer) rs) (rest ++ z)
  rw [List.append_assoc, List.singleton_append] at hin
  rw [PassesOver, List.cons_append, List.append_assoc, List.cons_append,
    closing_code (stepCode_literal hliteral _) (List.cons_ne_nil _ _)]
  refine (congrArg _ hin).trans ?_
  rw [hrest, Option.map_map, Option.map_map]
  simp [Function.comp_def]

theorem template {body : Text}
    (hbody : PassesOver .template (.group closer :: rs) body ('`' :: (rest ++ z)))
    (hrest : PassesOver (.group closer) rs rest z) :
    PassesOver (.group closer) rs ('`' :: (body ++ '`' :: rest)) z := by
  have hliteral : literal? '`' = some .template := rfl
  have hend : State.step ⟨.template :: .group closer :: rs, .none⟩ '`' =
      some ⟨.group closer :: rs, .none⟩ := rfl
  rw [PassesOver, List.cons_append, List.append_assoc, List.cons_append,
    closing_code (stepCode_literal hliteral _) (List.cons_ne_nil _ _), hbody,
    closing_cons hend (List.cons_ne_nil _ _), hrest]
  simp [Function.comp_def]

theorem lineComment {body : Text} (hbody : '\n' ∉ body)
    (hrest : PassesOver (.group closer) rs rest z) :
    PassesOver (.group closer) rs ('/' :: '/' :: (body ++ '\n' :: rest)) z := by
  have hfirst : State.step ⟨.group closer :: rs, .none⟩ '/' =
      some ⟨.group closer :: rs, .slash⟩ := stepCode_slash_opens _
  have hsecond : State.step ⟨.group closer :: rs, .slash⟩ '/' =
      some ⟨.lineComment :: .group closer :: rs, .none⟩ := rfl
  simp only [PassesOver, List.cons_append, List.append_assoc]
  rw [closing_cons hfirst (List.cons_ne_nil _ _), closing_cons hsecond (List.cons_ne_nil _ _),
    closing_lineComment hbody (List.cons_ne_nil _ _), hrest]
  simp [Function.comp_def]

theorem blockComment {body : Text} (hbody : Text.occursIn "*/" body = false)
    (hrest : PassesOver (.group closer) rs rest z) :
    PassesOver (.group closer) rs ('/' :: '*' :: (body ++ '*' :: '/' :: rest)) z := by
  have hfirst : State.step ⟨.group closer :: rs, .none⟩ '/' =
      some ⟨.group closer :: rs, .slash⟩ := stepCode_slash_opens _
  have hsecond : State.step ⟨.group closer :: rs, .slash⟩ '*' =
      some ⟨.blockComment :: .group closer :: rs, .none⟩ := rfl
  simp only [PassesOver, List.cons_append, List.append_assoc]
  rw [closing_cons hfirst (List.cons_ne_nil _ _), closing_cons hsecond (List.cons_ne_nil _ _),
    closing_blockComment hbody (List.cons_ne_nil _ _) (fun h => by cases h), hrest]
  simp [Function.comp_def]

theorem group {opener inside : Char} {inner : Text} (hopener : closer? opener = some inside)
    (hinner : PassesOver (.group inside) (.group closer :: rs) inner (inside :: (rest ++ z)))
    (hrest : PassesOver (.group closer) rs rest z) :
    PassesOver (.group closer) rs (opener :: (inner ++ inside :: rest)) z := by
  rw [PassesOver, List.cons_append, List.append_assoc, List.cons_append,
    closing_code (stepCode_opener hopener _) (List.cons_ne_nil _ _), hinner,
    closing_code (stepCode_closer hopener _) (List.cons_ne_nil _ _), hrest]
  simp [Function.comp_def]

/-! Between backticks. -/

theorem char {c : Char} (hescape : c ≠ '\\') (htick : c ≠ '`')
    (hdollar : c = '$' → (rest ++ z).head? ≠ some '{') (hrest : PassesOver .template rs rest z) :
    PassesOver .template rs (c :: rest) z := by
  rw [PassesOver, List.cons_append]
  by_cases hc : c = '$'
  · subst hc
    have hstep : State.step ⟨.template :: rs, .none⟩ '$' = some ⟨.template :: rs, .dollar⟩ := rfl
    rw [closing_cons hstep (List.cons_ne_nil _ _), closing_behind_dollar (hdollar rfl), hrest,
      Option.map_map]
    rfl
  · have hstep : State.step ⟨.template :: rs, .none⟩ c = some ⟨.template :: rs, .none⟩ := by
      simp [State.step, hescape, htick, hc]
    rw [closing_cons hstep (List.cons_ne_nil _ _), hrest, Option.map_map]
    rfl

theorem escape {c : Char} (hrest : PassesOver .template rs rest z) :
    PassesOver .template rs ('\\' :: c :: rest) z := by
  have hfirst : State.step ⟨.template :: rs, .none⟩ '\\' = some ⟨.template :: rs, .escape⟩ := rfl
  have hsecond : State.step ⟨.template :: rs, .escape⟩ c = some ⟨.template :: rs, .none⟩ := rfl
  rw [PassesOver, List.cons_append, List.cons_append, closing_cons hfirst (List.cons_ne_nil _ _),
    closing_cons hsecond (List.cons_ne_nil _ _), hrest]
  simp [Function.comp_def]

theorem substitution {inner : Text}
    (hinner : PassesOver (.group '}') (.template :: rs) inner ('}' :: (rest ++ z)))
    (hrest : PassesOver .template rs rest z) :
    PassesOver .template rs ('$' :: '{' :: (inner ++ '}' :: rest)) z := by
  have hbrace : closer? '{' = some '}' := rfl
  have hfirst : State.step ⟨.template :: rs, .none⟩ '$' = some ⟨.template :: rs, .dollar⟩ := rfl
  have hsecond : State.step ⟨.template :: rs, .dollar⟩ '{' =
      some ⟨.group '}' :: .template :: rs, .none⟩ := rfl
  simp only [PassesOver, List.cons_append, List.append_assoc]
  rw [closing_cons hfirst (List.cons_ne_nil _ _), closing_cons hsecond (List.cons_ne_nil _ _),
    hinner, closing_code (stepCode_closer hbrace _) (List.cons_ne_nil _ _), hrest]
  simp [Function.comp_def]

end PassesOver

/-- **What the grammar has is read from one end to the other.** -/
theorem Within.passesOver {e : Enclosure} {t : Text} (h : Within e t) {r : Region} {c : Char}
    (he : Ends e r c) (rs : List Region) (z : Text) : PassesOver r rs t (c :: z) := by
  induction h generalizing r c rs z with
  | nil => exact .nil
  | ordinary hc _ ih =>
    cases he with
    | closer hcloser => exact .ordinary hc (ih (.closer hcloser) _ _)
  | @slash rest hc _ ih =>
    cases he with
    | closer hcloser =>
      refine .slash ?_ (ih (.closer hcloser) _ _)
      cases rest with
      | nil =>
        have hne := (literal?_of_isCloser hcloser).2.1
        have hstar : c ≠ '*' := by rintro rfl; cases hcloser
        exact commentPrefix?_slash_eq_none_iff.mpr ⟨by simpa using hne, by simpa using hstar⟩
      | cons d rest =>
        rw [commentPrefix?_slash_eq_none_iff] at hc ⊢
        exact hc
  | string hquote hbody _ ih =>
    cases he with
    | closer hcloser => exact .string hquote hbody (ih (.closer hcloser) _ _)
  | template _ _ ihbody ih =>
    cases he with
    | closer hcloser => exact .template (ihbody .backtick _ _) (ih (.closer hcloser) _ _)
  | lineComment hbody _ ih =>
    cases he with
    | closer hcloser => exact .lineComment hbody (ih (.closer hcloser) _ _)
  | blockComment hbody _ ih =>
    cases he with
    | closer hcloser => exact .blockComment hbody (ih (.closer hcloser) _ _)
  | group hopener _ _ ihinner ih =>
    cases he with
    | closer hcloser =>
      have hinside := Ends.closer (isCloser_of_closer? hopener)
      exact .group hopener (ihinner hinside _ _) (ih (.closer hcloser) _ _)
  | @char d rest hescape htick hdollar _ ih =>
    cases he with
    | backtick =>
      refine .char hescape htick (fun hd => ?_) (ih .backtick _ _)
      cases rest with
      | nil => exact fun he => by cases he
      | cons e rest => exact hdollar hd
  | escape _ ih =>
    cases he with
    | backtick => exact .escape (ih .backtick _ _)
  | substitution _ _ ihinner ih =>
    cases he with
    | backtick => exact .substitution (ihinner (.closer rfl) _ _) (ih .backtick _ _)

/-! ### What is read is in the grammar -/

namespace State

/-- Regions are left from the inside: a text closes the inner ones first, and what follows
closes the others. -/
theorem IsClosedBy.exists_append {regions outer : List Region} {pending : Pending} {t : Text}
    (hne : regions ≠ []) (ho : outer ≠ []) (h : IsClosedBy ⟨regions ++ outer, pending⟩ t) :
    ∃ body z, t = body ++ z ∧ IsClosedBy ⟨regions, pending⟩ body ∧ IsClosedBy ⟨outer, .none⟩ z := by
  induction t generalizing regions pending with
  | nil => exact absurd h (not_isClosedBy_nil _)
  | cons c t ih =>
    obtain ⟨next, hstep, hnext⟩ := isClosedBy_cons.mp h
    have hbelow := step_below (s := ⟨regions, pending⟩) hne outer c
    rw [below, hstep] at hbelow
    obtain ⟨s, hs, rfl⟩ := Option.map_eq_some_iff.mp hbelow.symm
    have hrest : (s.below outer).IsClosedBy t := by
      rcases hnext with ⟨hnil, -⟩ | ⟨-, hrest⟩
      · exact absurd (List.append_eq_nil_iff.mp hnil).2 ho
      · exact hrest
    by_cases hn : s.regions = []
    · obtain rfl := step_eq_top (s := ⟨regions, pending⟩) hne hs hn
      exact ⟨[c], t, rfl, isClosedBy_cons.mpr ⟨.top, hs, .inl ⟨rfl, rfl⟩⟩, hrest⟩
    · obtain ⟨body, z, rfl, hbody, hz⟩ := ih hn hrest
      exact ⟨c :: body, z, rfl, isClosedBy_cons.mpr ⟨s, hs, .inr ⟨hn, hbody⟩⟩, hz⟩

/-- What is read to the end of a region, and what is left for the others. -/
theorem IsClosedBy.exists_behind {r : Region} {outer : List Region} {pending : Pending} {t : Text}
    (h : IsClosedBy ⟨r :: outer, pending⟩ t) (ho : outer ≠ []) :
    ∃ body z, t = body ++ z ∧ IsClosedBy ⟨[r], pending⟩ body ∧ IsClosedBy ⟨outer, .none⟩ z :=
  exists_append (List.cons_ne_nil r []) ho h

/-- Behind a character that leaves a region open, the rest of the text closes it. -/
theorem IsClosedBy.of_cons {s next : State} {c : Char} {t : Text} (h : s.IsClosedBy (c :: t))
    (hstep : s.step c = some next) (hn : next.regions ≠ []) : next.IsClosedBy t := by
  obtain ⟨s', hs', hnext⟩ := isClosedBy_cons.mp h
  obtain rfl : next = s' := Option.some.inj (hstep.symm.trans hs')
  exact (hnext.resolve_left fun hnil => hn hnil.1).2

/-- Behind a character that leads out of everything there is nothing. -/
theorem IsClosedBy.eq_nil_of_cons {s next : State} {c : Char} {t : Text} (h : s.IsClosedBy (c :: t))
    (hstep : s.step c = some next) (hn : next.regions = []) : t = [] := by
  obtain ⟨s', hs', hnext⟩ := isClosedBy_cons.mp h
  obtain rfl : next = s' := Option.some.inj (hstep.symm.trans hs')
  exact (hnext.resolve_right fun hne => hne.1 hn).2

theorem IsClosedBy.exists_lineComment {t : Text} {pending : Pending}
    (h : IsClosedBy ⟨[.lineComment], pending⟩ t) :
    ∃ body, t = body ++ ['\n'] ∧ '\n' ∉ body := by
  induction t generalizing pending with
  | nil => exact absurd h (not_isClosedBy_nil _)
  | cons c t ih =>
    by_cases hc : c = '\n'
    · subst hc
      obtain rfl := h.eq_nil_of_cons rfl rfl
      exact ⟨[], rfl, List.not_mem_nil⟩
    · have hstep : step ⟨[.lineComment], pending⟩ c = some ⟨[.lineComment], .none⟩ := by
        simp [step, hc]
      obtain ⟨body, rfl, hbody⟩ := ih (h.of_cons hstep (List.cons_ne_nil _ _))
      exact ⟨c :: body, rfl, by simp [Ne.symm hc, hbody]⟩

/-- Behind a star a block comment may end at once. -/
theorem IsClosedBy.exists_blockComment {t : Text} {pending : Pending}
    (h : IsClosedBy ⟨[.blockComment], pending⟩ t) :
    (pending = .star ∧ t = ['/']) ∨
      ∃ body, t = body ++ ['*', '/'] ∧ Text.occursIn "*/" body = false ∧
        (pending = .star → body.head? ≠ some '/') := by
  induction t generalizing pending with
  | nil => exact absurd h (not_isClosedBy_nil _)
  | cons c t ih =>
    by_cases hend : pending = .star ∧ c = '/'
    · obtain ⟨rfl, rfl⟩ := hend
      obtain rfl := h.eq_nil_of_cons rfl rfl
      exact .inl ⟨rfl, rfl⟩
    · right
      have hhead : pending = .star → c ≠ '/' := fun hp hc => hend ⟨hp, hc⟩
      by_cases hc : c = '*'
      · subst hc
        have hstep : step ⟨[.blockComment], pending⟩ '*' =
            some ⟨[.blockComment], .star⟩ := by simp [step]
        rcases ih (h.of_cons hstep (List.cons_ne_nil _ _)) with ⟨-, rfl⟩
          | ⟨body, rfl, hbody, hslash⟩
        · exact ⟨[], rfl, rfl, fun _ => by simp⟩
        · refine ⟨'*' :: body, rfl, ?_, fun _ => by simp⟩
          rw [Text.occursIn, hbody, Bool.or_false]
          cases body with
          | nil => rfl
          | cons d body =>
            have hd : d ≠ '/' := by simpa using hslash rfl
            simp [List.isPrefixOf, Ne.symm hd]
      · have hstep : step ⟨[.blockComment], pending⟩ c = some ⟨[.blockComment], .none⟩ := by
          have hnot : (pending == .star && c == '/') = false := by simpa using hhead
          simp [step, hnot, hc]
        rcases ih (h.of_cons hstep (List.cons_ne_nil _ _)) with ⟨hp, -⟩ | ⟨body, rfl, hbody, -⟩
        · cases hp
        · refine ⟨c :: body, rfl, ?_, fun hp => by simpa using hhead hp⟩
          rw [Text.occursIn, hbody, Bool.or_false]
          simp [List.isPrefixOf, Ne.symm hc]

theorem IsClosedBy.exists_quoted {quote : Char} {t : Text}
    (h : (State.inside (.quoted quote)).IsClosedBy t) :
    ∃ body, t = body ++ [quote] ∧ IsQuoted quote body := by
  generalize hn : t.length = n
  induction n using Nat.strongRecOn generalizing t with
  | ind n ih =>
    subst hn
    cases t with
    | nil => exact absurd h (not_isClosedBy_nil _)
    | cons c t =>
      by_cases hescape : c = '\\'
      · subst hescape
        have hopen : IsClosedBy ⟨[.quoted quote], .escape⟩ t := h.of_cons rfl (List.cons_ne_nil _ _)
        cases t with
        | nil => exact absurd hopen (not_isClosedBy_nil _)
        | cons d t =>
          have hrest : (State.inside (.quoted quote)).IsClosedBy t :=
            hopen.of_cons rfl (List.cons_ne_nil _ _)
          obtain ⟨body, rfl, hbody⟩ := ih t.length (by simp) hrest rfl
          exact ⟨'\\' :: d :: body, rfl, .escape hbody⟩
      · by_cases hline : c = '\n'
        · subst hline
          obtain ⟨next, hstep, -⟩ := isClosedBy_cons.mp h
          cases hstep
        · by_cases hquote : c = quote
          · subst hquote
            have hstep : (State.inside (.quoted c)).step c = some .top := by
              simp [step, inside, top, hescape, hline]
            obtain rfl := h.eq_nil_of_cons hstep rfl
            exact ⟨[], rfl, .nil⟩
          · have hstep : (State.inside (.quoted quote)).step c =
                some (State.inside (.quoted quote)) := by
              simp [step, inside, hescape, hline, hquote]
            obtain ⟨body, rfl, hbody⟩ :=
              ih t.length (by simp) (h.of_cons hstep (List.cons_ne_nil _ _)) rfl
            exact ⟨c :: body, rfl, .char hquote hescape hline hbody⟩

end State

/-- What a character of code can do in a group. -/
theorem char_cases (c : Char) :
    c = '/' ∨ (∃ r, literal? c = some r) ∨ (∃ closer, closer? c = some closer) ∨ isCloser c = true ∨
      isOrdinary c = true := by
  by_cases hslash : c = '/'
  · exact .inl hslash
  · cases hliteral : literal? c with
    | some r => exact .inr (.inl ⟨r, rfl⟩)
    | none =>
      cases hopener : closer? c with
      | some closer => exact .inr (.inr (.inl ⟨closer, rfl⟩))
      | none =>
        cases hcloser : isCloser c with
        | true => exact .inr (.inr (.inr (.inl rfl)))
        | false =>
          exact .inr (.inr (.inr (.inr (by simp [isOrdinary, hliteral, hopener, hcloser, hslash]))))

/-- Whether all that a text can be read to the end of is in the grammar. -/
def IsParsed (t : Text) : Prop :=
  ∀ {e : Enclosure} {r : Region} {c : Char}, Ends e r c → State.IsClosedBy ⟨[r], .none⟩ t →
    ∃ inner, t = inner ++ [c] ∧ Within e inner

section

variable {c d : Char} {rest : Text} (hlater : ∀ z, z <:+: rest → IsParsed z)
include hlater

/-- What stands behind an item is in the grammar of the same group. -/
theorem exists_within_behind (hcloser : isCloser c = true) {z : Text} (hz : z <:+ rest)
    (h : State.IsClosedBy ⟨[.group c], .none⟩ z) :
    ∃ inner, z = inner ++ [c] ∧ Within .brackets inner :=
  hlater z hz.isInfix (.closer hcloser) h

/-- A slash in a group, which starts a comment or none. -/
theorem exists_within_slash (hcloser : isCloser c = true)
    (h : State.IsClosedBy ⟨[.group c], .none⟩ ('/' :: rest)) :
    ∃ inner, '/' :: rest = inner ++ [c] ∧ Within .brackets inner := by
  have hbehind {z : Text} := exists_within_behind hlater hcloser (z := z)
  have hslash : State.IsClosedBy ⟨[.group c], .slash⟩ rest :=
    h.of_cons (stepCode_slash_opens _) (List.cons_ne_nil _ _)
  cases hcomment : commentPrefix? ('/' :: rest) with
  | none =>
    rw [State.IsClosedBy, closing_behind_slash hcomment] at hslash
    obtain ⟨inner, rfl, hinner⟩ := hbehind List.suffix_rfl hslash
    exact ⟨'/' :: inner, rfl,
      .slash (commentPrefix?_slash_mono hcomment (List.prefix_append _ _)) hinner⟩
  | some after =>
    rw [commentPrefix?.eq_def] at hcomment
    split at hcomment
    · next rest heq =>
      cases heq
      obtain ⟨comment, z, rfl, hline, hz⟩ :=
        (hslash.of_cons rfl (List.cons_ne_nil _ _)).exists_behind (List.cons_ne_nil _ _)
      obtain ⟨body, rfl, hbody⟩ := hline.exists_lineComment
      obtain ⟨inner, rfl, hinner⟩ :=
        hbehind ((List.suffix_append _ _).trans (List.suffix_cons _ _)) hz
      exact ⟨'/' :: '/' :: (body ++ '\n' :: inner), by simp, .lineComment hbody hinner⟩
    · next rest heq =>
      cases heq
      obtain ⟨comment, z, rfl, hblock, hz⟩ :=
        (hslash.of_cons rfl (List.cons_ne_nil _ _)).exists_behind (List.cons_ne_nil _ _)
      obtain ⟨hstar, -⟩ | ⟨body, rfl, hbody, -⟩ := hblock.exists_blockComment
      · cases hstar
      · obtain ⟨inner, rfl, hinner⟩ :=
          hbehind ((List.suffix_append _ _).trans (List.suffix_cons _ _)) hz
        exact ⟨'/' :: '*' :: (body ++ '*' :: '/' :: inner), by simp, .blockComment hbody hinner⟩
    · cases hcomment

/-- One item of a group. -/
theorem exists_within_item (hcloser : isCloser c = true)
    (h : State.IsClosedBy ⟨[.group c], .none⟩ (d :: rest)) :
    ∃ inner, d :: rest = inner ++ [c] ∧ Within .brackets inner := by
  have hopen {rs : List Region} {pending : Pending} (hne : rs ≠ [])
      (hd : stepCode [.group c] .none d = some ⟨rs, pending⟩) :
        State.IsClosedBy ⟨rs, pending⟩ rest :=
    h.of_cons hd hne
  have hbehind {z : Text} := exists_within_behind hlater hcloser (z := z)
  rcases char_cases d with rfl | ⟨r, hliteral⟩ | ⟨closer, hopener⟩ | hd | hordinary
  · exact exists_within_slash hlater hcloser h
  · have hopened := hopen (List.cons_ne_nil _ _) (stepCode_literal hliteral _)
    obtain ⟨literal, z, rfl, hread, hz⟩ := hopened.exists_behind (List.cons_ne_nil _ _)
    obtain ⟨inner, rfl, hinner⟩ := hbehind (List.suffix_append _ _) hz
    rcases literal?_cases hliteral with ⟨hquote, rfl⟩ | ⟨rfl, rfl⟩
    · obtain ⟨body, rfl, hbody⟩ := State.IsClosedBy.exists_quoted hread
      exact ⟨d :: (body ++ d :: inner), by simp, .string hquote hbody hinner⟩
    · obtain ⟨body, rfl, hbody⟩ := hlater literal (List.prefix_append _ _).isInfix .backtick hread
      exact ⟨'`' :: (body ++ '`' :: inner), by simp, .template hbody hinner⟩
  · have hopened := hopen (List.cons_ne_nil _ _) (stepCode_opener hopener _)
    obtain ⟨group, z, rfl, hread, hz⟩ := hopened.exists_behind (List.cons_ne_nil _ _)
    obtain ⟨inner, rfl, hinner⟩ := hbehind (List.suffix_append _ _) hz
    obtain ⟨items, rfl, hitems⟩ :=
      hlater group (List.prefix_append _ _).isInfix (.closer (isCloser_of_closer? hopener)) hread
    exact ⟨d :: (items ++ closer :: inner), by simp, .group hopener hitems hinner⟩
  · obtain ⟨next, hstep, -⟩ := State.isClosedBy_cons.mp h
    have hcode : State.step ⟨[.group c], .none⟩ d = if d == c then some .top else none :=
      stepCode_group_of_isCloser hd c .none
    by_cases hdc : d = c
    · subst hdc
      rw [beq_self_eq_true, if_pos rfl] at hcode
      obtain rfl := h.eq_nil_of_cons hcode rfl
      exact ⟨[], rfl, .nil⟩
    · rw [beq_eq_false_iff_ne.mpr hdc, hstep] at hcode
      cases hcode
  · obtain ⟨inner, rfl, hinner⟩ :=
      hbehind List.suffix_rfl (hopen (List.cons_ne_nil _ _) (stepCode_ordinary hordinary _))
    exact ⟨d :: inner, rfl, .ordinary hordinary hinner⟩

/-- One part of a template. -/
theorem exists_within_part (h : State.IsClosedBy ⟨[.template], .none⟩ (d :: rest)) :
    ∃ inner, d :: rest = inner ++ ['`'] ∧ Within .backticks inner := by
  have hbehind {z : Text} (hz : z <:+ rest) (hclosed : State.IsClosedBy ⟨[.template], .none⟩ z) :
      ∃ inner, z = inner ++ ['`'] ∧ Within .backticks inner :=
    hlater z hz.isInfix .backtick hclosed
  by_cases hescape : d = '\\'
  · subst hescape
    have hopen : State.IsClosedBy ⟨[.template], .escape⟩ rest :=
      h.of_cons rfl (List.cons_ne_nil _ _)
    cases rest with
    | nil => exact absurd hopen (State.not_isClosedBy_nil _)
    | cons escaped rest =>
      obtain ⟨inner, rfl, hinner⟩ :=
        hbehind (List.suffix_cons _ _) (hopen.of_cons rfl (List.cons_ne_nil _ _))
      exact ⟨'\\' :: escaped :: inner, rfl, .escape hinner⟩
  by_cases htick : d = '`'
  · subst htick
    obtain rfl := h.eq_nil_of_cons rfl rfl
    exact ⟨[], rfl, .nil⟩
  by_cases hdollar : d = '$'
  · subst hdollar
    have hopen : State.IsClosedBy ⟨[.template], .dollar⟩ rest :=
      h.of_cons rfl (List.cons_ne_nil _ _)
    by_cases hbrace : rest.head? = some '{'
    · obtain ⟨z, rfl⟩ : ∃ z, rest = '{' :: z := List.head?_eq_some_iff.mp hbrace
      obtain ⟨group, z, rfl, hread, hz⟩ :=
        (hopen.of_cons rfl (List.cons_ne_nil _ _)).exists_behind (List.cons_ne_nil _ _)
      obtain ⟨items, rfl, hitems⟩ :=
        hlater group ((List.prefix_append _ _).isInfix.trans (List.suffix_cons _ _).isInfix)
          (.closer rfl) hread
      obtain ⟨inner, rfl, hinner⟩ :=
        hbehind ((List.suffix_append _ _).trans (List.suffix_cons _ _)) hz
      exact ⟨'$' :: '{' :: (items ++ '}' :: inner), by simp, .substitution hitems hinner⟩
    · rw [State.IsClosedBy, closing_behind_dollar hbrace] at hopen
      obtain ⟨inner, rfl, hinner⟩ := hbehind List.suffix_rfl hopen
      refine ⟨'$' :: inner, rfl, .char hescape htick (fun _ he => hbrace ?_) hinner⟩
      rw [List.head?_append, he]
      rfl
  · have hstep : State.step ⟨[.template], .none⟩ d = some ⟨[.template], .none⟩ := by
      simp [State.step, hescape, htick, hdollar]
    obtain ⟨inner, rfl, hinner⟩ := hbehind List.suffix_rfl (h.of_cons hstep (List.cons_ne_nil _ _))
    exact ⟨d :: inner, rfl, .char hescape htick (fun he => absurd he hdollar) hinner⟩

end

/-- **What is read to the end of a group or a template is in the grammar.** -/
theorem exists_within {e : Enclosure} {r : Region} {c : Char} (he : Ends e r c) {t : Text}
    (h : State.IsClosedBy ⟨[r], .none⟩ t) : ∃ inner, t = inner ++ [c] ∧ Within e inner := by
  have hparsed : IsParsed t := by
    clear h
    generalize hn : t.length = n
    induction n using Nat.strongRecOn generalizing t with
    | ind n ih =>
      subst hn
      intro e r c he h
      cases t with
      | nil => exact absurd h (State.not_isClosedBy_nil _)
      | cons d rest =>
        have hlater (z : Text) (hz : z <:+: rest) : IsParsed z :=
          ih z.length (Nat.lt_succ_of_le hz.length_le) rfl
        cases he with
        | closer hcloser => exact exists_within_item hlater hcloser h
        | backtick => exact exists_within_part hlater h
  exact hparsed he h

/-! ### Groups at a place -/

/-- A group is read where one stands, whatever follows it. -/
theorem groupPrefix?_eq_some_iff {t group after : Text} :
    groupPrefix? t = some (group, after) ↔ t = group ++ after ∧ IsGroup group := by
  constructor
  · intro h
    refine ⟨groupPrefix?_append h, ?_⟩
    cases t with
    | nil => cases h
    | cons opener rest =>
      simp only [groupPrefix?] at h
      split at h
      · cases h
      · next closer hopener =>
        obtain ⟨⟨read, behind⟩, hread, he⟩ := Option.map_eq_some_iff.mp h
        cases he
        obtain ⟨inner, rfl, hinner⟩ :=
          exists_within (.closer (isCloser_of_closer? hopener)) (isClosedBy_of_closing hread)
        exact .mk hopener hinner
  · rintro ⟨rfl, ⟨hopener, hinner⟩⟩
    rename_i opener closer inner
    have hcloser := isCloser_of_closer? hopener
    have hstep : State.step ⟨[.group closer], .none⟩ closer = some .top :=
      stepCode_closer hopener []
    have hread : closing (.inside (.group closer)) (inner ++ closer :: after) =
        some (inner ++ [closer], after) := by
      rw [State.inside, hinner.passesOver (.closer hcloser), closing, hstep]
      rfl
    simp [groupPrefix?, hopener, hread]

/-- The place of the bracket that closes the one at a place. -/
def closingPlace? (t : Text) (opening : Nat) : Option Nat :=
  (groupPrefix? (t.drop opening)).map fun (group, _) => opening + group.length - 1

theorem closingPlace?_eq_some {t group after : Text} {opening : Nat}
    (h : t.drop opening = group ++ after) (hg : IsGroup group) :
    closingPlace? t opening = some (opening + group.length - 1) := by
  rw [closingPlace?, groupPrefix?_eq_some_iff.mpr ⟨h, hg⟩]
  rfl

theorem exists_of_closingPlace? {t : Text} {opening c : Nat}
    (h : closingPlace? t opening = some c) :
    ∃ group after, t.drop opening = group ++ after ∧ IsGroup group ∧
      opening + group.length = c + 1 := by
  obtain ⟨⟨group, after⟩, hread, hc⟩ := Option.map_eq_some_iff.mp h
  obtain ⟨ht, hg⟩ := groupPrefix?_eq_some_iff.mp hread
  have hlength : 0 < group.length := by cases hg; exact Nat.succ_pos _
  have hplace : opening + group.length - 1 = c := hc
  exact ⟨group, after, ht, hg, by omega⟩

theorem IsGroup.ne_nil {t : Text} (h : IsGroup t) : t ≠ [] := by
  cases h
  exact List.cons_ne_nil _ _

/-- The text between two places starts where the text behind the first one does. -/
theorem drop_eq_append {t : Text} {opening c : Nat} (h : (t.take (c + 1)).drop opening ≠ []) :
    t.drop opening = (t.take (c + 1)).drop opening ++ t.drop (c + 1) := by
  have hlength : opening ≤ (t.take (c + 1)).length := by
    by_contra hlong
    exact h (List.drop_eq_nil_of_le (by omega))
  rw [← List.drop_append_of_le_length hlength, List.take_append_drop]

theorem closingPlace?_eq_of_isGroup {t : Text} {opening c : Nat} (hc : c < t.length)
    (hg : IsGroup ((t.take (c + 1)).drop opening)) :
    opening ≤ c ∧ closingPlace? t opening = some c := by
  have hlength := List.length_pos_of_ne_nil hg.ne_nil
  rw [List.length_drop, List.length_take] at hlength
  have hplace : opening + ((t.take (c + 1)).drop opening).length - 1 = c := by
    rw [List.length_drop, List.length_take]
    omega
  exact ⟨by omega, (closingPlace?_eq_some (drop_eq_append hg.ne_nil) hg).trans
    (congrArg some hplace)⟩

/-- **The bracket at a place is closed at another one exactly if a group stands between the two**,
brackets included. A place is closed at one place at most, and this depends on no text behind it. -/
theorem closingPlace?_eq_some_iff (t : Text) (opening : Nat) :
    (∀ c, closingPlace? t opening = some c ↔
        opening ≤ c ∧ c < t.length ∧ IsGroup ((t.take (c + 1)).drop opening)) ∧
      (∀ c₁ c₂, c₁ < t.length ∧ IsGroup ((t.take (c₁ + 1)).drop opening) →
        c₂ < t.length ∧ IsGroup ((t.take (c₂ + 1)).drop opening) → c₁ = c₂) ∧
      ∀ c t', closingPlace? t opening = some c → t'.take (c + 1) = t.take (c + 1) →
        closingPlace? t' opening = some c := by
  have hiff (t : Text) (c : Nat) : closingPlace? t opening = some c ↔
      opening ≤ c ∧ c < t.length ∧ IsGroup ((t.take (c + 1)).drop opening) := by
    constructor
    · intro h
      obtain ⟨group, after, ht, hg, hc⟩ := exists_of_closingPlace? h
      have hlength := congrArg List.length ht
      rw [List.length_drop, List.length_append] at hlength
      have hpos := List.length_pos_of_ne_nil hg.ne_nil
      have hgroup : (t.take (c + 1)).drop opening = group := by
        rw [List.drop_take, ht, ← hc, Nat.add_sub_cancel_left, List.take_left]
      exact ⟨by omega, by omega, hgroup ▸ hg⟩
    · rintro ⟨-, hc, hg⟩
      exact (closingPlace?_eq_of_isGroup hc hg).2
  refine ⟨hiff t, ?_, ?_⟩
  · rintro c₁ c₂ ⟨h₁, hg₁⟩ ⟨h₂, hg₂⟩
    exact Option.some.inj
      ((closingPlace?_eq_of_isGroup h₁ hg₁).2.symm.trans (closingPlace?_eq_of_isGroup h₂ hg₂).2)
  · intro c t' h ht
    obtain ⟨hle, hc, hg⟩ := (hiff t c).mp h
    have hc' : c < t'.length := by
      have hlength := congrArg List.length ht
      rw [List.length_take, List.length_take] at hlength
      omega
    exact (hiff t' c).mpr ⟨hle, hc', ht ▸ hg⟩

example : closingPlace? "f([')', `${a}`]).b".toList 1 = some 15 := by decide

end Localization.Script
