import Mathlib
import Localization.Proofs.Argument.Settled
import Localization.Proofs.Marker.Place
import Localization.Proofs.Script.Group
import Localization.Proofs.Script.Parts

/-! Balanced calls are reported.

Arguments are read in many steps, each of which may give up: the comments are taken out, what is
left is cut at its commas, and every part is read on its own, brackets within brackets. Only the
first cut can fail (`readArguments_eq_none_iff`), because a text without comments that can be
cut settles whatever it opens (`settles_of_splitTop`), and so do its parts at every depth. It
never fails on what stands between a bracket and the one that closes it, so a name that is
followed by a list in balance is always reported as a call (`exists_call_iff`). -/
namespace Localization.Script

/-! ### Texts that can be cut -/

/-- Where a text is cut, nothing is open. -/
theorem step_separator {separator : Char} (hs : isOrdinary separator = true)
    (hstar : separator ≠ '*') {s : State} (h : s.regions = []) : s.step separator = some .top := by
  obtain ⟨regions, pending⟩ := s
  obtain rfl : regions = [] := h
  have hnone : stepCode [] .none separator = some .top := stepCode_ordinary hs []
  simp only [isOrdinary, Bool.and_eq_true, bne_iff_ne, ne_eq] at hs
  have hstep : stepCode [] pending separator = stepCode [] .none separator := by
    simp [stepCode, hs.2, hstar]
  exact hstep.trans hnone

/-- A literal that does not end is open to the end of the text. -/
theorem not_isSettled_of_closing {quote : Char} {r : Region} (hr : literal? quote = some r)
    {regions outer : List Region} {pending : Pending} {t : Text} {last : State}
    (hopen : closing ⟨regions ++ [r], pending⟩ t = none)
    (h : State.run ⟨regions ++ [r] ++ outer, pending⟩ t = some last) : last.isSettled = false := by
  induction t generalizing regions pending with
  | nil =>
    obtain rfl := Option.some.inj h
    rw [List.append_assoc]
    exact IsEnclosing.not_isSettled (.inl ⟨quote, hr⟩) rfl
  | cons c t ih =>
    have hne : regions ++ [r] ≠ [] := by simp
    have hbelow := State.step_below (s := ⟨regions ++ [r], pending⟩) hne outer c
    rw [State.below] at hbelow
    rw [State.run, hbelow] at h
    cases hstep : State.step ⟨regions ++ [r], pending⟩ c with
    | none => simp [hstep] at h
    | some next =>
      simp only [hstep, Option.map_some] at h
      rw [closing, hstep] at hopen
      rcases State.step_inside_literal hr hstep with ⟨hn, -⟩ | ⟨inner, hn⟩
      · simp [hn] at hopen
      · obtain ⟨regions', pending'⟩ := next
        obtain rfl : regions' = inner ++ [r] := hn
        refine ih (by simpa using hopen) h

/-- What a closed text leaves is read as if it had not been there. -/
theorem State.IsClosedBy.run_append {s : State} {body : Text} (hs : s.regions ≠ [])
    (h : s.IsClosedBy body) (outer : List Region) (z : Text) :
    (s.below outer).run (body ++ z) = State.run ⟨outer, .none⟩ z := by
  induction body generalizing s with
  | nil => exact absurd h s.not_isClosedBy_nil
  | cons c body ih =>
    obtain ⟨next, hstep, hnext⟩ := isClosedBy_cons.mp h
    have hbelow : (s.below outer).step c = some (next.below outer) := by
      rw [step_below hs, hstep, Option.map_some]
    rw [List.cons_append, run_cons hbelow]
    rcases hnext with ⟨hn, rfl⟩ | ⟨hn, hrest⟩
    · rw [step_eq_top hs hstep hn]
      rfl
    · exact ih hn hrest

/-- A text without its comments that may end where it does settles what is open. -/
theorem settles_of_run_stripFrom {closers : List Char} {t : Text} {last : State}
    (h : State.run ⟨groups closers, .none⟩ (stripFrom 0 0 t) = some last)
    (hlast : last.isSettled = true) :
    Settles closers (stripFrom 0 0 t) := by
  have hend {pending : Pending} (hs : State.isSettled ⟨groups closers, pending⟩ = true) :
      closers = [] := by
    cases closers with
    | nil => rfl
    | cons closer closers => cases hs
  generalize hn : t.length = n
  induction n using Nat.strongRecOn generalizing t closers with
  | ind n ih =>
    subst hn
    cases t with
    | nil =>
      obtain rfl := Option.some.inj h
      rw [hend hlast]
      exact .nil
    | cons c rest =>
      have hlater {z : Text} (hz : z.length ≤ rest.length) {closers : List Char}
          (h : State.run ⟨groups closers, .none⟩ (stripFrom 0 0 z) = some last) :
            Settles closers (stripFrom 0 0 z) :=
        ih z.length (Nat.lt_succ_of_le hz) h
          (fun hs => by cases closers <;> first | rfl | cases hs) rfl
      by_cases hslash : c = '/'
      · subst hslash
        cases hcomment : commentPrefix? ('/' :: rest) with
        | none =>
          obtain ⟨hstrip, hhead⟩ := stripFrom_slash hcomment
          rw [hstrip] at h ⊢
          rw [State.run_cons ((step_groups closers .none '/').trans (stepCode_slash_opens _))] at h
          refine .slash hhead ?_
          cases hbehind : stripFrom 0 0 rest with
          | nil =>
            rw [hbehind] at h
            obtain rfl := Option.some.inj h
            rw [hend hlast]
            exact .nil
          | cons d behind =>
            rw [hbehind] at h hhead
            rw [State.run, step_slash closers hhead] at h
            rw [← hbehind]
            exact hlater (Nat.le_refl _) (by rw [hbehind, State.run]; exact h)
        | some after =>
          have hsuffix := isSuffix_of_commentPrefix? hcomment
          rw [stripFrom_comment hcomment hsuffix] at h ⊢
          rw [State.run_cons ((step_groups closers .none ' ').trans (stepCode_ordinary rfl _))] at h
          exact .ordinary rfl (hlater hsuffix.length_le h)
      cases hliteral : literal? c with
      | some r =>
        have hopen : State.step ⟨groups closers, .none⟩ c = some ⟨[r] ++ groups closers, .none⟩ :=
          (step_groups closers .none c).trans (stepCode_literal hliteral _)
        cases hclosing : closing (.inside r) rest with
        | some found =>
          obtain ⟨body, z⟩ := found
          obtain rfl := closing_append hclosing
          have hbody := isClosedBy_of_closing hclosing
          rw [stripFrom_literal hliteral hbody] at h ⊢
          rw [State.run_cons hopen] at h
          rw [show (⟨[r] ++ groups closers, .none⟩ : State) =
            (State.inside r).below (groups closers) from rfl,
            hbody.run_append (List.cons_ne_nil r [])] at h
          exact .literal hliteral hbody (hlater (by simp) h)
        | none =>
          have hcopy : stripFrom 0 0 (c :: rest) = c :: rest := by
            rw [stripFrom, hliteral]; simp only [hclosing]
          rw [hcopy, State.run_cons hopen] at h
          have hnot := not_isSettled_of_closing hliteral (show closing ⟨[] ++ [r], .none⟩ rest =
            none from hclosing) h
          rw [hlast] at hnot
          cases hnot
      | none =>
        rw [stripFrom_code hliteral hslash] at h ⊢
        rw [State.run, step_groups] at h
        cases hstep : stepCode (groups closers) .none c with
        | none => simp [hstep] at h
        | some next =>
          obtain ⟨closers', rfl, hsettles⟩ := exists_settles_cons hliteral hslash hstep
          rw [hstep] at h
          exact hsettles (hlater (Nat.le_refl _) h)

/-- A text without its comments that can be cut settles what it opens. -/
theorem settles_of_splitTop {separator : Char} {t : Text} {parts : List Text}
    (h : splitTop separator (withoutComments t) = some parts) : Settles [] (withoutComments t) := by
  obtain ⟨last, hrun, hlast⟩ := exists_run_of_splitFrom h
  exact settles_of_run_stripFrom (show State.run ⟨groups [], .none⟩ _ = some last from hrun) hlast

end Localization.Script

namespace Localization

open Script

/-! ### Lists that are not read -/

/-- A list of arguments is not read exactly if it cannot be cut at its commas. -/
theorem readArguments_eq_none_iff (src : Text) :
    readArguments src = none ↔ splitTop ',' (withoutComments src) = none := by
  constructor
  · intro h
    by_contra hcut
    obtain ⟨parts, hparts⟩ := Option.ne_none_iff_exists'.mp hcut
    have hread := isSome_readArguments_of_settles (settles_of_splitTop hparts)
    rw [h] at hread
    cases hread
  · intro h
    rw [readArguments_eq_mapM, argumentTexts?, h]
    rfl

/-- What stands between the brackets of a group is read as a list of arguments. -/
theorem exists_inner_of_groupPrefix? {t group after : Text}
    (h : groupPrefix? t = some (group, after)) :
    ∃ opener inner closer, group = opener :: (inner ++ [closer]) ∧
      (readArguments inner).isSome = true := by
  cases t with
  | nil => cases h
  | cons opener rest =>
    rw [groupPrefix?] at h
    split at h
    · cases h
    · next closer hopener =>
      obtain ⟨⟨read, behind⟩, hclosing, he⟩ := Option.map_eq_some_iff.mp h
      cases he
      have hclosed := isClosedBy_of_closing hclosing
      have hlast : read.getLast? = some closer :=
        State.IsClosedBy.getLast?_group (show State.IsClosedBy ⟨[] ++ [.group closer], .none⟩ read
          from hclosed)
      obtain ⟨inner, rfl⟩ := List.getLast?_eq_some_iff.mp hlast
      exact ⟨opener, inner, closer, rfl, isSome_readArguments hclosed⟩

/-- What stands between a bracket and the one that closes it is read as a list of arguments. -/
theorem isSome_readArguments_of_closingPlace? {t : Text} {opening last : Nat}
    (h : closingPlace? t opening = some last) :
    (readArguments ((t.take last).drop (opening + 1))).isSome = true := by
  obtain ⟨⟨group, after⟩, hread, hlast⟩ := Option.map_eq_some_iff.mp h
  obtain ⟨opener, inner, closer, rfl, hinner⟩ := exists_inner_of_groupPrefix? hread
  have hbehind : t.drop (opening + 1) = inner ++ (closer :: after) := by
    rw [← List.drop_drop, groupPrefix?_append hread]
    simp
  have hlength : last - (opening + 1) = inner.length := by
    simp only [List.length_cons, List.length_append, List.length_nil] at hlast
    omega
  rwa [List.drop_take, hbehind, hlength, List.take_left' rfl]

end Localization

namespace Localization.Marker

open Script

/-- The list of arguments behind a name, as a place of the text. -/
theorem closingPlace?_of_isSuffix {code opening : Text} (h : opening <:+ code) :
    closingPlace? code (code.length - opening.length) =
      (groupPrefix? opening).map fun (group, _) =>
        code.length - opening.length + group.length - 1 := by
  rw [closingPlace?, ← List.suffix_iff_eq_drop.mp h]

/-- **Every balanced call is reported**, and nothing else is. A name that may be called, with
type arguments or blanks behind it and then a parenthesis, is a call up to the parenthesis that
closes that one, whatever stands between them: a list of arguments is not read exactly if it
cannot be cut at its commas, and what stands between a bracket and the one that closes it always
can. -/
theorem exists_call_iff (family : Family) (name code : Text) :
    (∀ first last, (∃ call ∈ scanName family name code, call.start = first ∧ call.stop = last + 1) ↔
        ∃ place ∈ occurrences name code, place.position = first ∧
          ∃ opening, afterCallee? (place.after.drop name.length) = some opening ∧
            opening.head? = some '(' ∧
            closingPlace? code (code.length - opening.length) = some last) ∧
      (∀ src, readArguments src = none ↔ splitTop ',' (withoutComments src) = none) ∧
      ∀ t opening last, closingPlace? t opening = some last →
        (readArguments ((t.take last).drop (opening + 1))).isSome = true := by
  refine ⟨fun first last => ?_, readArguments_eq_none_iff, fun t opening last =>
    isSome_readArguments_of_closingPlace?⟩
  have hplaces {place : Cursor} {opening : Text} (hplace : place ∈ occurrences name code)
      (hopening : afterCallee? (place.after.drop name.length) = some opening) :
      code.length = place.position + place.after.length ∧ opening <:+ place.after ∧
      opening <:+ code := by
    obtain ⟨hcode, -⟩ := isPlace_of_mem_occurrencesFrom hplace
    have hcode : place.before.reverse ++ place.after = code := hcode
    obtain ⟨gap, hgap⟩ := afterCallee?_append hopening
    have hsuffix : opening <:+ place.after :=
      List.IsSuffix.trans ⟨gap, hgap.symm⟩ (List.drop_suffix _ _)
    refine ⟨?_, hsuffix, hsuffix.trans ⟨place.before.reverse, hcode⟩⟩
    rw [← hcode, List.length_append, List.length_reverse, Cursor.position]
  -- Up to what is behind the list, a call's text is as long as the way to the end of its list.
  have hstop {place : Cursor} {opening group rest : Text} {last : Nat}
      (hplace : place ∈ occurrences name code)
      (hopening : afterCallee? (place.after.drop name.length) = some opening)
      (hgroup : groupPrefix? opening = some (group, rest)) :
      place.position + (place.after.take (place.after.length - rest.length)).length = last + 1 ↔
        closingPlace? code (code.length - opening.length) = some last := by
    obtain ⟨hlength, hafter, hcode⟩ := hplaces hplace hopening
    obtain ⟨opener, inner, closer, rfl, -⟩ := exists_inner_of_groupPrefix? hgroup
    have hparts : opening.length = inner.length + 2 + rest.length := by
      rw [groupPrefix?_append hgroup]
      simp only [List.length_cons, List.length_append, List.length_nil]
    have hle := hafter.length_le
    rw [closingPlace?_of_isSuffix hcode, hgroup, Option.map_some, Option.some.injEq,
      List.length_take]
    simp only [List.length_cons, List.length_append, List.length_nil]
    omega
  constructor
  · rintro ⟨call, hcall, hstart, hend⟩
    obtain ⟨place, hplace, hcall⟩ := List.mem_filterMap.mp hcall
    obtain ⟨⟨raw, arguments⟩, hat, rfl⟩ := Option.map_eq_some_iff.mp hcall
    obtain ⟨opening, group, rest, hopening, hhead, hgroup, -, rfl⟩ := callAt?_eq_some_iff.mp hat
    exact ⟨place, hplace, hstart, opening, hopening, hhead, (hstop hplace hopening hgroup).mp hend⟩
  · rintro ⟨place, hplace, hfirst, opening, hopening, hhead, hlast⟩
    have hread := hlast
    rw [closingPlace?_of_isSuffix (hplaces hplace hopening).2.2] at hread
    obtain ⟨⟨group, rest⟩, hgroup, -⟩ := Option.map_eq_some_iff.mp hread
    obtain ⟨opener, inner, closer, hshape, hinner⟩ := exists_inner_of_groupPrefix? hgroup
    obtain ⟨arguments, harguments⟩ := Option.isSome_iff_exists.mp hinner
    have hat : callAt? name place = some (place.after.take (place.after.length - rest.length),
        arguments) :=
      callAt?_eq_some_iff.mpr ⟨opening, group, rest, hopening, hhead,
        hgroup, by simpa [hshape] using harguments, rfl⟩
    refine ⟨⟨family, place.position, _, arguments⟩,
      List.mem_filterMap.mpr ⟨place, hplace, by rw [hat]; rfl⟩, hfirst, ?_⟩
    exact (hstop hplace hopening hgroup).mpr hlast

end Localization.Marker
