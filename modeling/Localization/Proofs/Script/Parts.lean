import Mathlib
import Localization.Proofs.Argument.Settled

/-! Parts of a text.

`splitTop` cuts a text at every separator outside of literals, groups and comments. Nothing gets
lost: joined with the separator the parts are the text again (`join_splitFrom`). And no part is
cut again, because what is open where a part starts and ends is what is open at the ends of a
text (`exists_isUncut`), nor is it cut without its outer blanks (`IsUncut.trim`). -/
namespace Localization.Script

/-! ### What may be open at the end -/

/-- The regions that no separator cuts and no text may end in. -/
def IsEnclosing (r : Region) : Prop :=
  (∃ quote, literal? quote = some r) ∨ ∃ closer, isCloser closer = true ∧ r = .group closer

section

variable {r : Region} {inner outer : List Region} {pending : Pending} {c : Char} {s next : State}

theorem exists_outer_of_step (hr : IsEnclosing r)
    (h : State.step ⟨outer ++ [r], pending⟩ c = some next) (hn : next.regions ≠ []) :
    ∃ outer, next.regions = outer ++ [r] := by
  obtain ⟨quote, hquote⟩ | ⟨closer, -, rfl⟩ := hr
  · exact (State.step_inside_literal hquote h).resolve_left fun hnil => hn hnil.1
  · exact (State.step_inside_group h).resolve_left fun hnil => hn hnil.1

/-- No blank ends a literal or a group. -/
theorem exists_outer_of_step_blank (hr : IsEnclosing r)
    (h : State.step ⟨outer ++ [r], pending⟩ c = some next) (hc : Text.isBlank c = true) :
    ∃ outer, next.regions = outer ++ [r] := by
  have hnot {d : Char} (hd : Text.isBlank d = false) : ¬ (next.regions = [] ∧ c = d) := by
    rintro ⟨-, rfl⟩
    rw [hc] at hd
    cases hd
  obtain ⟨quote, hquote⟩ | ⟨closer, hcloser, rfl⟩ := hr
  · exact (State.step_inside_literal hquote h).resolve_left (hnot (not_isBlank_of_literal? hquote))
  · exact (State.step_inside_group h).resolve_left (hnot (not_isBlank_of_isCloser hcloser))

theorem IsEnclosing.not_isSettled (hr : IsEnclosing r) (hs : s.regions = inner ++ r :: outer) :
    s.isSettled = false := by
  have hcomment : r ≠ .lineComment ∧ r ≠ .blockComment := by
    obtain ⟨quote, hquote⟩ | ⟨closer, -, rfl⟩ := hr
    · rcases literal?_cases hquote with ⟨-, rfl⟩ | ⟨-, rfl⟩ <;> simp
    · simp
  rw [State.isSettled, hs]
  rcases inner with _ | ⟨first, _ | ⟨second, inner⟩⟩ <;> split <;> simp_all

/-- A text without anything open around it is in a literal or a group, or it may end. -/
def State.IsOrderly (s : State) : Prop :=
  s.isSettled = true ∨ ∃ outer r, s.regions = outer ++ [r] ∧ IsEnclosing r

theorem State.IsOrderly.step (hs : s.IsOrderly) (h : s.step c = some next) : next.IsOrderly := by
  obtain ⟨regions, pending⟩ := s
  rcases hs with hsettled | ⟨outer, r, hregions, hr⟩
  · have hcases : regions = [] ∨ regions = [.lineComment] ∨ regions = [.blockComment] := by
      rw [isSettled] at hsettled
      split at hsettled <;> simp_all
    rcases hcases with rfl | rfl | rfl
    · simp only [State.step, stepCode] at h
      repeat' split at h
      all_goals first
        | cases h; done
        | cases h; exact .inl rfl
        | next r hquote => cases h; exact .inr ⟨[], r, rfl, .inl ⟨c, hquote⟩⟩
        | next closer hopener =>
          cases h; exact .inr ⟨[], _, rfl, .inr ⟨closer, isCloser_of_closer? hopener, rfl⟩⟩
    · simp only [State.step] at h
      split at h <;> cases h <;> exact .inl rfl
    · simp only [State.step] at h
      repeat' split at h
      all_goals cases h; exact .inl rfl
  · obtain rfl : regions = outer ++ [r] := hregions
    by_cases hn : next.regions = []
    · exact .inl (by rw [isSettled, hn])
    · obtain ⟨outer, hnext⟩ := exists_outer_of_step hr h hn
      exact .inr ⟨outer, r, hnext, hr⟩

end

theorem State.IsOrderly.run {s last : State} {t : Text} (hs : s.IsOrderly)
    (h : s.run t = some last) : last.IsOrderly := by
  induction t generalizing s with
  | nil => cases h; exact hs
  | cons c t ih =>
    rw [State.run] at h
    split at h
    · next next hstep => exact ih (hs.step hstep) h
    · cases h

/-- Where a text may end behind blanks, it may end in front of them. -/
theorem State.IsOrderly.isSettled_of_run {s last : State} {blanks : Text} (hs : s.IsOrderly)
    (hblanks : ∀ c ∈ blanks, Text.isBlank c = true) (h : s.run blanks = some last)
    (hlast : last.isSettled = true) :
    s.isSettled = true := by
  rcases hs with hsettled | ⟨outer, r, hregions, hr⟩
  · exact hsettled
  · exfalso
    induction blanks generalizing s outer with
    | nil =>
      cases h
      rw [hr.not_isSettled hregions] at hlast
      cases hlast
    | cons c blanks ih =>
      rw [State.run] at h
      split at h
      · next next hstep =>
        obtain ⟨regions, pending⟩ := s
        obtain rfl : regions = outer ++ [r] := hregions
        obtain ⟨outer', hnext⟩ := exists_outer_of_step_blank hr hstep (hblanks c List.mem_cons_self)
        exact ih (fun d hd => hblanks d (List.mem_cons_of_mem _ hd)) h outer' hnext
      · cases h

/-- A text that can be cut may end where it does. -/
theorem exists_run_of_splitFrom {separator : Char} {s : State} {t : Text} {parts : List Text}
    (h : splitFrom separator s t = some parts) :
    ∃ last, s.run t = some last ∧ last.isSettled = true := by
  induction t generalizing s parts with
  | nil =>
    rw [splitFrom] at h
    split at h
    · next hsettled => exact ⟨s, rfl, hsettled⟩
    · cases h
  | cons c rest ih =>
    obtain ⟨next, first, others, hstep, hsplit, -⟩ := splitFrom_cons_cases h
    rw [State.run_cons hstep]
    exact ih hsplit

/-! ### Texts that are not cut -/

/-- Whether no separator cuts a text. -/
def IsUncut (separator : Char) (s : State) (t : Text) : Prop := splitFrom separator s t = some [t]

section

variable {separator : Char} {s next : State} {t : Text}

theorem isUncut_nil : IsUncut separator s [] ↔ s.isSettled = true := by
  rw [IsUncut, splitFrom]
  split
  · next h => exact ⟨fun _ => h, fun _ => rfl⟩
  · next h => exact ⟨fun hn => (by cases hn), fun hn => absurd hn h⟩

theorem isUncut_cons {c : Char} (hstep : s.step c = some next) :
    IsUncut separator s (c :: t) ↔ s.cutsAt separator c = false ∧ IsUncut separator next t := by
  constructor
  · intro h
    obtain ⟨next', first, others, hstep', hsplit, ⟨-, hparts⟩ | ⟨hkeep, hparts⟩⟩ :=
      splitFrom_cons_cases h
    · cases hparts
    · cases hparts
      rw [hstep] at hstep'
      cases hstep'
      exact ⟨hkeep, hsplit⟩
  · rintro ⟨hkeep, h⟩
    rw [IsUncut, splitFrom_keep hstep hkeep, h]
    rfl

/-- What a text is cut into is not cut again. -/
theorem exists_isUncut {parts : List Text} (h : splitFrom separator s t = some parts) :
    ∃ first others, parts = first :: others ∧ IsUncut separator s first ∧ ∀ part ∈ others,
      IsUncut separator .top part := by
  induction t generalizing s parts with
  | nil =>
    rw [splitFrom] at h
    split at h
    · next hs =>
      cases h
      exact ⟨[], [], rfl, isUncut_nil.mpr hs, fun _ hp => by cases hp⟩
    · cases h
  | cons c rest ih =>
    obtain ⟨next, first, others, hstep, hsplit, hparts⟩ := splitFrom_cons_cases h
    obtain ⟨_, _, hcons, hfirst, hothers⟩ := ih hsplit
    cases hcons
    rcases hparts with ⟨hcut, rfl⟩ | ⟨hkeep, rfl⟩
    · obtain ⟨-, htop, hsettled⟩ := State.of_cutsAt hcut
      rw [hstep] at htop
      cases htop
      exact ⟨[], _, rfl, isUncut_nil.mpr hsettled, List.forall_mem_cons.mpr ⟨hfirst, hothers⟩⟩
    · exact ⟨c :: first, others, rfl, (isUncut_cons hstep).mpr ⟨hkeep, hfirst⟩, hothers⟩

/-- The parts of a text that is not cut are not cut either, if nothing is open between them. -/
theorem IsUncut.of_append {a b : Text} (hrun : s.run a = some next)
    (h : IsUncut separator s (a ++ b)) :
    IsUncut separator next b ∧ (next.isSettled = true → IsUncut separator s a) := by
  induction a generalizing s with
  | nil =>
    cases hrun
    exact ⟨h, isUncut_nil.mpr⟩
  | cons c a ih =>
    rw [State.run] at hrun
    split at hrun
    · next next hstep =>
      obtain ⟨hkeep, hrest⟩ := (isUncut_cons hstep).mp h
      obtain ⟨hb, ha⟩ := ih hrun hrest
      exact ⟨hb, fun hnext => (isUncut_cons hstep).mpr ⟨hkeep, ha hnext⟩⟩
    · cases hrun

/-- Behind a text that is cut and may end, a separator cuts once more. -/
theorem splitFrom_append_separator {parts : List Text} (h : splitFrom separator s t = some parts)
    (hrun : s.run t = some next) (hcut : next.cutsAt separator separator = true) (z : Text) :
    splitFrom separator s (t ++ separator :: z) =
      (splitFrom separator .top z).map (parts ++ ·) := by
  induction t generalizing s parts with
  | nil =>
    cases hrun
    rw [splitFrom, (State.of_cutsAt hcut).2.2] at h
    cases h
    exact splitFrom_cut hcut z
  | cons c t ih =>
    obtain ⟨next', first, others, hstep, hsplit, hparts⟩ := splitFrom_cons_cases h
    rw [State.run_cons hstep] at hrun
    rcases hparts with ⟨hcut', rfl⟩ | ⟨hkeep, rfl⟩
    · obtain ⟨-, htop, -⟩ := State.of_cutsAt hcut'
      rw [hstep] at htop
      cases htop
      rw [List.cons_append, splitFrom_cut hcut', ih hsplit hrun, Option.map_map]
      rfl
    · rw [List.cons_append, splitFrom_keep hstep hkeep, ih hsplit hrun, Option.map_map]
      rfl

end


/-! ### The parts and the text -/

/-- Joined with the separator the parts are the text. -/
theorem join_splitFrom {separator : Char} {s : State} {t : Text} {parts : List Text}
    (h : splitFrom separator s t = some parts) :
    Text.join [separator] parts = t := by
  induction t generalizing s parts with
  | nil =>
    rw [splitFrom] at h
    split at h
    · cases h
      rfl
    · cases h
  | cons c rest ih =>
    obtain ⟨next, first, others, -, hsplit, ⟨hcut, rfl⟩ | ⟨-, rfl⟩⟩ := splitFrom_cons_cases h
    · obtain ⟨rfl, -, -⟩ := State.of_cutsAt hcut
      rw [Text.join_cons (List.cons_ne_nil _ _), ih hsplit]
      rfl
    · have hjoin := Text.join_consHead [separator] c (first :: others)
      rw [ih hsplit] at hjoin
      exact hjoin

/-- Without its outer blanks a text is not cut either. -/
theorem IsUncut.trim {separator : Char} {t : Text} (h : IsUncut separator .top t) :
    IsUncut separator .top (Text.trim t) := by
  obtain ⟨front, back, ht, hfront, hback⟩ := Text.exists_trim t
  have hblank : State.top.run front = some .top := by
    clear ht
    induction front with
    | nil => rfl
    | cons c front ih =>
      have hstep : State.top.step c = some .top :=
        stepCode_ordinary (isOrdinary_of_isBlank (hfront c List.mem_cons_self)) []
      rw [State.run_cons hstep]
      exact ih fun d hd => hfront d (List.mem_cons_of_mem _ hd)
  rw [ht] at h
  have hbehind := (h.of_append hblank).1
  obtain ⟨last, hrun, hlast⟩ := exists_run_of_splitFrom hbehind
  rw [State.run_append] at hrun
  obtain ⟨mid, hmid, hrest⟩ := Option.bind_eq_some_iff.mp hrun
  have horderly : mid.IsOrderly := State.IsOrderly.run (.inl rfl) hmid
  exact (hbehind.of_append hmid).2 (horderly.isSettled_of_run hback hrest hlast)

/-- What stands behind the first separator is the other parts joined. -/
theorem join_others_of_splitTop {separator : Char} {t first : Text} {others : List Text}
    (h : splitTop separator t = some (first :: others)) (hne : others ≠ []) :
    Text.join [separator] others = t.drop (first.length + 1) := by
  rw [← join_splitFrom h, Text.join_cons hne, List.append_assoc, List.singleton_append,
    List.append_cons]
  exact (List.drop_left' (by simp)).symm

/-- **A text is cut without loss and as far as it can be.** Joined with the separator the parts
are the text again, and so what stands behind the first separator is the other parts joined. No
part is cut again, with its outer blanks or without them. -/
theorem splitTop_exact {separator : Char} {t : Text} {parts : List Text}
    (h : splitTop separator t = some parts) :
    Text.join [separator] parts = t ∧
      (∀ part ∈ parts, splitTop separator part = some [part] ∧ splitTop separator (Text.trim part) =
        some [Text.trim part]) ∧
      ∀ first others,
        parts =
          first :: others → others ≠ [] → Text.join [separator] others = t.drop (first.length +
            1) := by
  have hjoin := join_splitFrom h
  obtain ⟨first, others, rfl, hfirst, hothers⟩ := exists_isUncut h
  have huncut : ∀ part ∈ first :: others, IsUncut separator .top part :=
    List.forall_mem_cons.mpr ⟨hfirst, hothers⟩
  refine ⟨hjoin, fun part hpart => ⟨huncut part hpart, (huncut part hpart).trim⟩, ?_⟩
  rintro first others ⟨⟩ hne
  exact join_others_of_splitTop h hne

/-- The value of a property may have colons of its own. -/
theorem splitTop_exact_value :
    splitTop ':' "key: [a ? b : c] ? 'd:e' : f(g) /* : */" =
        some ["key".toList, " [a ? b : c] ? 'd:e' ".toList, " f(g) /* : */".toList] ∧
      Text.join [':'] [" [a ? b : c] ? 'd:e' ".toList, " f(g) /* : */".toList] =
        " [a ? b : c] ? 'd:e' : f(g) /* : */" ∧
      splitTop ':' " f(g) /* : */" = some [" f(g) /* : */".toList] := by
  have hparts : splitTop ':' "key: [a ? b : c] ? 'd:e' : f(g) /* : */" =
      some ["key".toList, " [a ? b : c] ? 'd:e' ".toList, " f(g) /* : */".toList] := by decide
  obtain ⟨-, huncut, hvalue⟩ := splitTop_exact hparts
  exact ⟨hparts, (hvalue _ _ rfl (List.cons_ne_nil _ _)).trans rfl,
    (huncut " f(g) /* : */".toList (by simp)).1⟩

end Localization.Script
