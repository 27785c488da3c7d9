import Mathlib
import Localization.Proofs.Script.Group

/-! Literals and comments of a text.

Where only literals and comments count, a text is cut into `Stretch`es: whole literals, whole
comments and single characters of code. `areCut` says when some stretches are what a text
consists of. A text has one such cut at most (`eq_of_areCut`), and it has one up to the first
literal that does not end (`exists_areCut`). Freeing a text of comments puts a space in the
place of every comment (`stripFrom_textOf`), and what comes of that is cut just so
(`areCut_bare`). -/
namespace Localization.Script

/-! ### Literals -/

/-- Whether a text is a literal with its quotes. -/
inductive IsLiteral : Text → Prop
  | string {quote : Char} {body : Text} (hquote : quote = '\'' ∨ quote = '"')
      (hbody : IsQuoted quote body) :
      IsLiteral (quote :: (body ++ [quote]))
  | template {body : Text} (hbody : Within .backticks body) : IsLiteral ('`' :: (body ++ ['`']))

/-- A literal is read where one stands, whatever follows it. -/
theorem literalPrefix?_eq_some_iff {t literal after : Text} :
    literalPrefix? t = some (literal, after) ↔ t = literal ++ after ∧ IsLiteral literal := by
  constructor
  · intro h
    refine ⟨literalPrefix?_append h, ?_⟩
    cases t with
    | nil => cases h
    | cons quote rest =>
      simp only [literalPrefix?] at h
      split at h
      · cases h
      · next r hr =>
        obtain ⟨⟨read, behind⟩, hread, he⟩ := Option.map_eq_some_iff.mp h
        cases he
        have hclosed := isClosedBy_of_closing hread
        obtain ⟨hquote, rfl⟩ | ⟨rfl, rfl⟩ := literal?_cases hr
        · obtain ⟨body, rfl, hbody⟩ := hclosed.exists_quoted
          exact .string hquote hbody
        · obtain ⟨body, rfl, hbody⟩ := exists_within .backtick hclosed
          exact .template hbody
  · rintro ⟨rfl, hliteral⟩
    cases hliteral with
    | @string quote body hquote hbody =>
      have hr : literal? quote = some (.quoted quote) := by rcases hquote with rfl | rfl <;> rfl
      have hread := (hbody.isClosedBy hquote).closing_append after
      simp only [List.cons_append, literalPrefix?, hr, hread, Option.map_some]
    | @template body hbody =>
      have hread : closing (.inside .template) (body ++ '`' :: after) =
          some (body ++ ['`'], after) := by
        rw [State.inside, hbody.passesOver .backtick]
        rfl
      rw [List.cons_append, List.append_assoc, List.singleton_append]
      simp only [literalPrefix?, show literal? '`' = some .template from rfl, hread,
        Option.map_some]

theorem IsLiteral.exists_isClosedBy {t : Text} (h : IsLiteral t) :
    ∃ quote body r, t = quote :: body ∧ literal? quote = some r ∧
      (State.inside r).IsClosedBy body := by
  cases h with
  | @string quote body hquote hbody =>
    exact ⟨quote, _, .quoted quote, rfl, by rcases hquote with rfl | rfl <;> rfl,
      hbody.isClosedBy hquote⟩
  | @template body hbody =>
    refine ⟨'`', _, .template, rfl, rfl, ?_⟩
    rw [State.IsClosedBy, State.inside, hbody.passesOver .backtick]
    rfl

/-! ### Comments -/

/-- Whether a text is a comment in front of `behind`: a line comment goes on to the end of the
line, a block comment to the first `*/` or else to the end of the text. -/
inductive IsComment : (behind : Text) → Text → Prop
  | line {behind body : Text} (hbody : '\n' ∉ body) (hend : ∀ c, behind.head? = some c → c = '\n') :
      IsComment behind ('/' :: '/' :: body)
  | block {behind body : Text} (hbody : Text.occursIn "*/" body = false) :
      IsComment behind ('/' :: '*' :: (body ++ ['*', '/']))
  | unended {body : Text} (hbody : Text.occursIn "*/" body = false) :
      IsComment [] ('/' :: '*' :: body)

theorem afterBlockComment_cons {c : Char} {rest : Text} (h : ¬ (c = '*' ∧ rest.head? = some '/')) :
    afterBlockComment (c :: rest) = afterBlockComment rest := by
  cases rest with
  | nil => rw [afterBlockComment]; simp
  | cons d rest =>
    rw [afterBlockComment]
    rintro more rfl he
    cases he
    exact h ⟨rfl, rfl⟩

theorem not_head_of_occursIn {c : Char} {body : Text} (h : Text.occursIn "*/" (c :: body) = false) :
    ¬ (c = '*' ∧ body.head? = some '/') ∧ Text.occursIn "*/" body = false := by
  rw [Text.occursIn, Bool.or_eq_false_iff] at h
  refine ⟨?_, h.2⟩
  rintro ⟨rfl, hhead⟩
  obtain ⟨more, rfl⟩ := List.head?_eq_some_iff.mp hhead
  exact absurd h.1 (by simp)

theorem afterBlockComment_of_not_occursIn {body : Text} (h : Text.occursIn "*/" body = false) :
    afterBlockComment body = [] := by
  induction body with
  | nil => rfl
  | cons c body ih =>
    obtain ⟨hhead, hbody⟩ := not_head_of_occursIn h
    rw [afterBlockComment_cons hhead, ih hbody]

theorem afterBlockComment_cases (t : Text) :
    (∃ body, t = body ++ '*' :: '/' :: afterBlockComment t ∧ Text.occursIn "*/" body = false) ∨
      afterBlockComment t = [] ∧ Text.occursIn "*/" t = false := by
  induction t with
  | nil => exact .inr ⟨rfl, rfl⟩
  | cons c t ih =>
    by_cases hend : c = '*' ∧ t.head? = some '/'
    · obtain ⟨rfl, hhead⟩ := hend
      obtain ⟨more, rfl⟩ := List.head?_eq_some_iff.mp hhead
      exact .inl ⟨[], by rw [List.nil_append, afterBlockComment], rfl⟩
    · have hkeep {body : Text} (hhead : body.head? = some '/' → t.head? = some '/')
          (hbody : Text.occursIn "*/" body = false) :
          Text.occursIn "*/" (c :: body) = false := by
        rw [Text.occursIn, hbody, Bool.or_false]
        rw [Bool.eq_false_iff, ne_eq, List.isPrefixOf_iff_prefix]
        rintro ⟨more, hmore⟩
        have hopen : c :: body = '*' :: '/' :: more := hmore.symm
        rw [List.cons.injEq] at hopen
        exact hend ⟨hopen.1, hhead (by rw [hopen.2]; rfl)⟩
      rw [afterBlockComment_cons hend]
      rcases ih with ⟨body, ht, hbody⟩ | ⟨hafter, hbody⟩
      · refine .inl ⟨c :: body, by rw [List.cons_append, ← ht], hkeep (fun hhead => ?_) hbody⟩
        rw [ht]
        cases body with
        | nil => cases hhead
        | cons d body => exact hhead
      · exact .inr ⟨hafter, hkeep id hbody⟩

/-- A comment is passed over where one stands. -/
theorem commentPrefix?_eq_some_iff {t after : Text} :
    commentPrefix? t = some after ↔ ∃ comment, t = comment ++ after ∧ IsComment after comment := by
  constructor
  · intro h
    rw [commentPrefix?.eq_def] at h
    split at h
    · next rest =>
      cases h
      refine ⟨'/' :: '/' :: rest.takeWhile (· != '\n'), by simp, .line ?_ fun c hc => ?_⟩
      · intro hmem
        simpa using List.mem_takeWhile_imp hmem
      · have hnot := List.head?_dropWhile_not (· != '\n') rest
        rw [hc] at hnot
        simpa using hnot
    · next rest =>
      cases h
      rcases afterBlockComment_cases rest with ⟨body, hrest, hbody⟩ | ⟨hafter, hbody⟩
      · exact ⟨'/' :: '*' :: (body ++ ['*', '/']), by simp [← hrest], .block hbody⟩
      · rw [hafter]
        exact ⟨'/' :: '*' :: rest, by simp, .unended hbody⟩
    · cases h
  · rintro ⟨comment, rfl, hcomment⟩
    cases hcomment with
    | @line _ body hbody hend =>
      have hdrop : (body ++ after).dropWhile (· != '\n') = after := by
        have hall : ∀ c ∈ body, (c != '\n') = true := fun c hc => by
          rw [bne_iff_ne]
          rintro rfl
          exact hbody hc
        rw [List.dropWhile_append_of_pos hall]
        cases after with
        | nil => rfl
        | cons c after => rw [hend c rfl]; rfl
      simp only [List.cons_append, commentPrefix?, hdrop]
    | @block _ body hbody =>
      have hdrop : afterBlockComment (body ++ ['*', '/'] ++ after) = after := by
        rw [List.append_assoc]
        exact afterBlockComment_append hbody after
      simp only [List.cons_append, commentPrefix?, hdrop]
    | @unended body hbody =>
      simp only [List.append_nil, commentPrefix?, afterBlockComment_of_not_occursIn hbody]

theorem IsComment.exists_eq_cons {behind t : Text} (h : IsComment behind t) :
    ∃ rest, t = '/' :: rest := by
  cases h <;> exact ⟨_, rfl⟩

/-! ### Stretches -/

/-- A stretch of a text where only literals and comments count. -/
inductive Stretch where
  | code (c : Char)
  | literal (text : Text)
  | comment (text : Text)
  deriving DecidableEq, Repr

namespace Stretch

def text : Stretch → Text
  | code c => [c]
  | literal text => text
  | comment text => text

/-- The stretch, or a space for a comment. -/
def bare : Stretch → Stretch
  | comment _ => code ' '
  | stretch => stretch

/-- Whether a text starts with this stretch and goes on with `behind`. -/
def isCut (behind : Text) : Stretch → Prop
  | code c => literal? c = none ∧ (c = '/' → behind.head? ≠ some '/' ∧ behind.head? ≠ some '*')
  | literal text => IsLiteral text
  | comment text => IsComment behind text

end Stretch

/-- The text that stretches make up. -/
def textOf (stretches : List Stretch) : Text := stretches.flatMap Stretch.text

/-- Whether stretches are what a text consists of that goes on with `behind`. -/
def areCut (behind : Text) : List Stretch → Prop
  | [] => True
  | stretch :: rest => stretch.isCut (textOf rest ++ behind) ∧ areCut behind rest

@[simp] theorem textOf_nil : textOf [] = [] := rfl

theorem textOf_cons (stretch : Stretch) (rest : List Stretch) :
    textOf (stretch :: rest) = stretch.text ++ textOf rest :=
  List.flatMap_cons

theorem textOf_append (a b : List Stretch) : textOf (a ++ b) = textOf a ++ textOf b :=
  List.flatMap_append

theorem areCut_append {behind : Text} {a b : List Stretch} :
    areCut behind (a ++ b) ↔ areCut (textOf b ++ behind) a ∧ areCut behind b := by
  induction a with
  | nil => exact ⟨fun h => ⟨trivial, h⟩, fun h => h.2⟩
  | cons stretch a ih =>
    rw [List.cons_append, areCut, areCut, ih, textOf_append, List.append_assoc, and_assoc]

/-! ### One stretch -/

/-- The stretch that a text starts with, and what follows it; none if nothing is left or a
literal opens that does not end. -/
def stretch? (t : Text) : Option (Stretch × Text) :=
  match t with
  | [] => none
  | c :: rest =>
    if (literal? c).isSome then (literalPrefix? (c :: rest)).map fun (read, after) =>
      (.literal read, after)
    else match commentPrefix? (c :: rest) with
      | some after => some (.comment ((c :: rest).take ((c :: rest).length - after.length)), after)
      | none => some (.code c, rest)

theorem commentPrefix?_eq_none_iff {c : Char} {rest : Text} :
    commentPrefix? (c :: rest) = none ↔
      (c = '/' → rest.head? ≠ some '/' ∧ rest.head? ≠ some '*') := by
  by_cases hc : c = '/'
  · subst hc
    rw [commentPrefix?_slash_eq_none_iff]
    exact ⟨fun h _ => h, fun h => h rfl⟩
  · refine iff_of_true ?_ fun h => absurd h hc
    rw [commentPrefix?.eq_def]
    split <;> simp_all

theorem stretch?_eq_some_iff {t behind : Text} {stretch : Stretch} :
    stretch? t = some (stretch, behind) ↔ t = stretch.text ++ behind ∧ stretch.isCut behind := by
  constructor
  · intro h
    cases t with
    | nil => cases h
    | cons c rest =>
      simp only [stretch?] at h
      split at h
      · obtain ⟨⟨read, after⟩, hread, he⟩ := Option.map_eq_some_iff.mp h
        cases he
        exact literalPrefix?_eq_some_iff.mp hread
      · next hliteral =>
        have hcode : literal? c = none := by simpa using hliteral
        split at h
        · next hcomment =>
          cases h
          obtain ⟨comment, ht, hc⟩ := commentPrefix?_eq_some_iff.mp hcomment
          have htake : (c :: rest).take ((c :: rest).length - behind.length) = comment := by
            rw [ht, List.length_append, Nat.add_sub_cancel, List.take_left]
          rw [htake]
          exact ⟨ht, hc⟩
        · next hcomment =>
          cases h
          exact ⟨rfl, hcode, commentPrefix?_eq_none_iff.mp hcomment⟩
  · rintro ⟨rfl, hcut⟩
    cases stretch with
    | code c =>
      have hcomment := commentPrefix?_eq_none_iff.mpr hcut.2
      simp only [Stretch.text, List.singleton_append, stretch?, hcut.1, Option.isSome_none,
        Bool.false_eq_true, if_false, hcomment]
    | literal text =>
      have hread : literalPrefix? (text ++ behind) = some (text, behind) :=
        literalPrefix?_eq_some_iff.mpr ⟨rfl, hcut⟩
      obtain ⟨quote, body, r, rfl, hr, -⟩ := IsLiteral.exists_isClosedBy hcut
      simp only [Stretch.text, List.cons_append] at hread ⊢
      simp only [stretch?, hr, Option.isSome_some, if_true, hread, Option.map_some]
    | comment text =>
      have hread : commentPrefix? (text ++ behind) = some behind :=
        commentPrefix?_eq_some_iff.mpr ⟨text, rfl, hcut⟩
      obtain ⟨rest, rfl⟩ := IsComment.exists_eq_cons hcut
      have htake : ('/' :: rest ++ behind).take (('/' :: rest ++ behind).length - behind.length) =
          '/' :: rest := by
        rw [List.length_append, Nat.add_sub_cancel, List.take_left]
      simp only [Stretch.text, List.cons_append] at hread htake ⊢
      simp only [stretch?, show literal? '/' = none from rfl, Option.isSome_none,
        Bool.false_eq_true, if_false, hread, htake]

instance (behind : Text) (stretch : Stretch) : Decidable (stretch.isCut behind) :=
  decidable_of_iff (stretch? (stretch.text ++ behind) = some (stretch, behind)) <| by
    rw [stretch?_eq_some_iff, eq_self_iff_true, true_and]

instance (behind : Text) : (stretches : List Stretch) → Decidable (areCut behind stretches)
  | [] => isTrue trivial
  | stretch :: rest =>
    have := instDecidableAreCut behind rest
    inferInstanceAs (Decidable (stretch.isCut (textOf rest ++ behind) ∧ areCut behind rest))

theorem Stretch.isCut.text_ne_nil {stretch : Stretch} {behind : Text} (h : stretch.isCut behind) :
    stretch.text ≠ [] := by
  cases stretch with
  | code c => exact List.cons_ne_nil _ _
  | literal text =>
    obtain ⟨_, _, _, rfl, -, -⟩ := IsLiteral.exists_isClosedBy h
    exact List.cons_ne_nil _ _
  | comment text =>
    obtain ⟨_, rfl⟩ := IsComment.exists_eq_cons h
    exact List.cons_ne_nil _ _

/-! ### The cut of a text -/

/-- **A text is cut in one way only.** -/
theorem eq_of_areCut {a b : List Stretch} {y z : Text} (ha : areCut y a) (hb : areCut z b)
    (hy : stretch? y = none) (hz : stretch? z = none) (h : textOf a ++ y = textOf b ++ z) :
    a = b ∧ y = z := by
  have hfirst {rest : List Stretch} {stretch : Stretch} {z : Text}
      (hcut : areCut z (stretch :: rest)) :
      stretch? (textOf (stretch :: rest) ++ z) = some (stretch, textOf rest ++ z) := by
    rw [textOf_cons, List.append_assoc]
    exact stretch?_eq_some_iff.mpr ⟨rfl, hcut.1⟩
  induction a generalizing b with
  | nil =>
    cases b with
    | nil => exact ⟨rfl, h⟩
    | cons stretch rest =>
      have hnone := hfirst hb
      rw [← h, textOf_nil, List.nil_append, hy] at hnone
      cases hnone
  | cons stretch a ih =>
    cases b with
    | nil =>
      have hnone := hfirst ha
      rw [h, textOf_nil, List.nil_append, hz] at hnone
      cases hnone
    | cons other b =>
      have hsame := (hfirst ha).symm.trans ((congrArg stretch? h).trans (hfirst hb))
      rw [Option.some.injEq, Prod.mk.injEq] at hsame
      obtain ⟨rfl, hrest⟩ := hsame
      obtain ⟨rfl, hend⟩ := ih ha.2 hb.2 hrest
      exact ⟨rfl, hend⟩

/-- Every text is cut up to its end, or to a literal that does not end. -/
theorem exists_areCut (t : Text) :
    ∃ stretches rest, t = textOf stretches ++ rest ∧ areCut rest stretches ∧
      stretch? rest = none := by
  generalize hn : t.length = n
  induction n using Nat.strongRecOn generalizing t with
  | ind n ih =>
    subst hn
    cases hfirst : stretch? t with
    | none => exact ⟨[], t, rfl, trivial, hfirst⟩
    | some p =>
      obtain ⟨stretch, behind⟩ := p
      obtain ⟨rfl, hcut⟩ := stretch?_eq_some_iff.mp hfirst
      have hshort : behind.length < (stretch.text ++ behind).length := by
        have := List.length_pos_of_ne_nil hcut.text_ne_nil
        rw [List.length_append]
        omega
      obtain ⟨stretches, rest, rfl, hlater, hend⟩ := ih behind.length hshort behind rfl
      exact ⟨stretch :: stretches, rest, by rw [textOf_cons, List.append_assoc],
        ⟨hcut, hlater⟩, hend⟩

/-! ### The text without comments -/

/-- A stretch is copied, or a space is put in its place. -/
theorem stripFrom_text {stretch : Stretch} {behind : Text} (h : stretch.isCut behind) :
    stripFrom 0 0 (stretch.text ++ behind) = stretch.bare.text ++ stripFrom 0 0 behind := by
  cases stretch with
  | code c =>
    by_cases hc : c = '/'
    · subst hc
      exact (stripFrom_slash (commentPrefix?_slash_eq_none_iff.mpr (h.2 rfl))).1
    · exact stripFrom_code h.1 hc behind
  | literal text =>
    obtain ⟨quote, body, r, rfl, hr, hbody⟩ := IsLiteral.exists_isClosedBy h
    exact stripFrom_literal hr hbody behind
  | comment text =>
    have hread : commentPrefix? (text ++ behind) = some behind :=
      commentPrefix?_eq_some_iff.mpr ⟨text, rfl, h⟩
    obtain ⟨rest, rfl⟩ := IsComment.exists_eq_cons h
    exact stripFrom_comment hread (List.suffix_append rest behind)

/-- From a literal on that does not end a text is kept. -/
theorem stripFrom_of_stretch?_eq_none {rest : Text} (h : stretch? rest = none) :
    stripFrom 0 0 rest = rest := by
  cases rest with
  | nil => rfl
  | cons c rest =>
    simp only [stretch?] at h
    split at h
    · next hliteral =>
      obtain ⟨r, hr⟩ := Option.isSome_iff_exists.mp hliteral
      simp only [literalPrefix?, hr, Option.map_eq_none_iff] at h
      simp only [stripFrom, hr, h]
    · split at h <;> cases h

theorem stripFrom_textOf {stretches : List Stretch} {behind : Text} (h : areCut behind stretches) :
    stripFrom 0 0 (textOf stretches ++ behind) =
      textOf (stretches.map Stretch.bare) ++ stripFrom 0 0 behind := by
  induction stretches with
  | nil => rfl
  | cons stretch rest ih =>
    rw [textOf_cons, List.append_assoc, stripFrom_text h.1, ih h.2, List.map_cons, textOf_cons,
      List.append_assoc]

/-- What stands in the place of a comment is a space. -/
theorem head?_bare {stretches : List Stretch} {behind : Text} (h : areCut behind stretches) :
    (textOf (stretches.map Stretch.bare) ++ behind).head? = (textOf stretches ++ behind).head? ∨
      (textOf (stretches.map Stretch.bare) ++ behind).head? = some ' ' := by
  cases stretches with
  | nil => exact .inl rfl
  | cons stretch rest =>
    cases stretch with
    | code c => exact .inl rfl
    | literal text =>
      left
      rw [List.map_cons, textOf_cons, textOf_cons, List.append_assoc, List.append_assoc]
      exact (List.head?_append_of_ne_nil _ h.1.text_ne_nil).trans
        (List.head?_append_of_ne_nil _ h.1.text_ne_nil).symm
    | comment text => exact .inr rfl

/-- **Spaces in the place of comments make no new literal and no new comment.** -/
theorem areCut_bare {stretches : List Stretch} {behind : Text} (h : areCut behind stretches) :
    areCut behind (stretches.map Stretch.bare) := by
  induction stretches with
  | nil => exact trivial
  | cons stretch rest ih =>
    refine ⟨?_, ih h.2⟩
    cases stretch with
    | code c =>
      refine ⟨h.1.1, fun hc => ?_⟩
      rcases head?_bare h.2 with hhead | hhead
      · rw [hhead]
        exact h.1.2 hc
      · rw [hhead]
        exact ⟨by decide, by decide⟩
    | literal text => exact h.1
    | comment text => exact ⟨rfl, fun hc => absurd hc (by decide)⟩

theorem map_bare_bare (stretches : List Stretch) :
    (stretches.map Stretch.bare).map Stretch.bare = stretches.map Stretch.bare := by
  rw [List.map_map]
  refine List.map_congr_left fun stretch _ => ?_
  cases stretch <;> rfl

/-- **A text without comments stays as it is.** -/
theorem withoutComments_idempotent (t : Text) :
    withoutComments (withoutComments t) = withoutComments t := by
  obtain ⟨stretches, rest, rfl, hcut, hend⟩ := exists_areCut t
  rw [withoutComments, withoutComments, stripFrom_textOf hcut, stripFrom_of_stretch?_eq_none hend,
    stripFrom_textOf (areCut_bare hcut), map_bare_bare, stripFrom_of_stretch?_eq_none hend]

end Localization.Script
