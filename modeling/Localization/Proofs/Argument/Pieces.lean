import Mathlib
import Localization.Proofs.Argument.Enclosed
import Localization.Proofs.Marker.Reported
import Localization.Proofs.Script.Parts

/-! Pieces of lists.

A text that settles is a piece if it has no outer blanks and no comma cuts it. The parts of a
list that settles are pieces (`isPiece_trim`), and so is what stands behind the colon of a
property (`IsPiece.behind_colon`). A list joined from pieces is cut into them again
(`splitTop_joinPieces`), and brackets around it make a piece (`isPiece_group`), so pieces are
closed under all that is written for an argument. -/
namespace Localization

namespace Script

/-! ### Texts that settle -/

namespace Settles

variable {closers outer : List Char} {t u : Text}

/-- What settles may stand behind what settles, unless a comment starts where they meet. -/
theorem append (ht : Settles closers t) (hu : Settles outer u)
    (hslash : commentPrefix? ('/' :: u) = none) :
    Settles (closers ++ outer) (t ++ u) := by
  induction ht with
  | nil => exact hu
  | ordinary hc _ ih => exact .ordinary hc ih
  | @slash closers rest hc _ ih =>
    refine .slash ?_ ih
    cases rest with
    | nil => exact hslash
    | cons d rest =>
      rw [commentPrefix?_slash_eq_none_iff] at hc ⊢
      exact hc
  | literal hquote hbody _ ih =>
    rw [List.cons_append, List.append_assoc]
    exact .literal hquote hbody ih
  | opener hc _ ih => exact .opener hc ih
  | closer hc _ ih => exact .closer hc ih

/-- A bracket closes behind what settles. -/
theorem append_closer {closer : Char} (hcloser : isCloser closer = true) (ht : Settles [] t)
    (hu : Settles [] u) :
    Settles [closer] (t ++ closer :: u) := by
  have hbehind : Settles [closer] (closer :: u) := .closer hcloser hu
  refine ht.append hbehind ?_
  rw [commentPrefix?_slash_eq_none_iff]
  constructor <;> rintro ⟨⟩ <;> cases hcloser

/-- Nothing is open behind a text that settles, though a slash may be pending. -/
theorem exists_run (h : Settles closers t) :
    ∃ p, State.run ⟨groups closers, .none⟩ t = some ⟨[], p⟩ := by
  induction h with
  | nil => exact ⟨.none, rfl⟩
  | ordinary hc _ ih =>
    obtain ⟨p, hp⟩ := ih
    exact ⟨p, by rwa [State.run_cons ((step_groups _ .none _).trans (stepCode_ordinary hc _))]⟩
  | @slash closers rest hc hrest ih =>
    obtain ⟨p, hp⟩ := ih
    have hstep := (step_groups closers .none '/').trans (stepCode_slash_opens _)
    cases rest with
    | nil =>
      cases hrest
      exact ⟨.slash, State.run_cons hstep []⟩
    | cons d rest =>
      refine ⟨p, ?_⟩
      rw [State.run_cons hstep, State.run, step_slash closers hc]
      exact hp
  | @literal closers quote r body rest hquote hbody _ ih =>
    obtain ⟨p, hp⟩ := ih
    refine ⟨p, ?_⟩
    rw [State.run_cons ((step_groups closers .none quote).trans (stepCode_literal hquote _))]
    exact (hbody.run_append (List.cons_ne_nil r []) (groups closers) rest).trans hp
  | @opener closers c closer rest hc _ ih =>
    obtain ⟨p, hp⟩ := ih
    exact ⟨p, by rwa [State.run_cons ((step_groups closers .none c).trans (stepCode_opener hc _))]⟩
  | @closer closers c rest hc _ ih =>
    obtain ⟨p, hp⟩ := ih
    exact ⟨p, by rwa [State.run_cons ((step_groups (c :: closers) .none c).trans
      (stepCode_isCloser hc _))]⟩

end Settles

theorem Balanced.settles {avoided : List Char} {t : Text} (h : Balanced avoided t) :
    Settles [] t := by
  induction h with
  | nil => exact .nil
  | ordinary hc _ _ ih => exact .ordinary hc ih
  | literal hquote _ hbody _ ih => exact .literal hquote hbody ih
  | group hopener _ _ _ ihinner ih =>
    exact .opener hopener (ihinner.append_closer (isCloser_of_closer? hopener) ih)

end Script

open Script

/-! ### Pieces -/

/-- A text that settles, has no outer blanks and is not cut at commas. -/
structure IsPiece (t : Text) : Prop where
  settles : Settles [] t
  uncut : IsUncut ',' .top t
  trimmed : Text.IsTrimmed t

theorem isPiece_of_balanced {t : Text} (h : Balanced [','] t) (ht : Text.IsTrimmed t) : IsPiece t :=
  ⟨h.settles, splitTop_last h, ht⟩

/-- What is left of a part without its outer blanks. -/
theorem isPiece_trim {t : Text} (h : Settles [] t) (huncut : IsUncut ',' .top t)
    (hne : Text.trim t ≠ []) :
    IsPiece (Text.trim t) := ⟨h.trim, huncut.trim, Text.isTrimmed_trim hne⟩

/-- A piece in front of a comma is the first part of a list. -/
theorem IsPiece.splitTop_comma {t : Text} (h : IsPiece t) (z : Text) :
    splitTop ',' (t ++ ',' :: z) = (splitTop ',' z).map (t :: ·) := by
  obtain ⟨p, hp⟩ := h.settles.exists_run
  exact splitFrom_append_separator h.uncut hp (by cases p <;> rfl) z

/-- A list is cut into the pieces that it was joined from. -/
theorem splitTop_joinPieces {part : Text} {rest : List Text} (h : ∀ p ∈ part :: rest, IsPiece p) :
    splitTop ',' (Text.join ", " (part :: rest)) = some (part :: rest.map (' ' :: ·)) := by
  induction rest generalizing part with
  | nil =>
    rw [Text.join_singleton]
    exact (h part List.mem_cons_self).uncut
  | cons next rest ih =>
    have htext : Text.join ", " (part :: next :: rest) =
        part ++ ',' :: ' ' :: Text.join ", " (next :: rest) := by
      rw [Text.join_cons (List.cons_ne_nil _ _), List.append_assoc]
      rfl
    rw [htext, (h part List.mem_cons_self).splitTop_comma, splitTop_blank (by decide),
      ih fun p hp => h p (List.mem_cons_of_mem _ hp)]
    rfl

theorem settles_joinPieces {parts : List Text} (h : ∀ p ∈ parts, IsPiece p) :
    Settles [] (Text.join ", " parts) := by
  induction parts with
  | nil => exact .nil
  | cons part rest ih =>
    have hpart := (h part List.mem_cons_self).settles
    have hrest := ih fun p hp => h p (List.mem_cons_of_mem _ hp)
    cases rest with
    | nil => rwa [Text.join_singleton]
    | cons next rest =>
      rw [Text.join_cons (List.cons_ne_nil _ _), List.append_assoc]
      have hbehind : Settles [] (", ".toList ++ Text.join ", " (next :: rest)) :=
        .ordinary rfl (.ordinary rfl hrest)
      exact hpart.append hbehind rfl

/-- What settles is closed by the bracket behind it. -/
theorem isClosedBy_of_settles {inner : Text} {closer : Char} (hcloser : isCloser closer = true)
    (h : Settles [] inner) :
    (State.inside (.group closer)).IsClosedBy (inner ++ [closer]) := by
  have hstep : State.step ⟨[.group closer], .none⟩ closer = some .top :=
    stepCode_isCloser hcloser []
  have hend : closing ⟨[.group closer], .none⟩ [closer] = some ([closer], []) := by
    rw [closing, hstep]
    rfl
  rw [State.IsClosedBy, State.inside, h.within.passesOver (.closer hcloser), hend]
  rfl

theorem groupPrefix?_of_settles {opener closer : Char} (hopener : closer? opener = some closer)
    {inner : Text} (h : Settles [] inner) :
    groupPrefix? (opener :: (inner ++ [closer])) = some (opener :: (inner ++ [closer]), []) := by
  have hclosing := (isClosedBy_of_settles (isCloser_of_closer? hopener) h).closing_append []
  rw [List.append_nil] at hclosing
  simp only [groupPrefix?, hopener, hclosing, Option.map_some]

/-- Brackets around what settles make a piece. -/
theorem isPiece_group {opener closer : Char} (hopener : closer? opener = some closer) {inner : Text}
    (h : Settles [] inner) :
    IsPiece (opener :: (inner ++ [closer])) := by
  have hcloser := isCloser_of_closer? hopener
  have hclosed := isClosedBy_of_settles hcloser h
  refine ⟨?_, ?_, Text.isTrimmed_between (not_isBlank_of_closer? hopener)
    (not_isBlank_of_isCloser hcloser) inner⟩
  · exact .opener hopener (h.append_closer hcloser .nil)
  · have hstep : State.top.step opener = some (.inside (.group closer)) :=
      stepCode_opener hopener []
    have hne : opener ≠ ',' := by rintro rfl; cases hopener
    refine (isUncut_cons hstep).mpr ⟨State.cutsAt_of_ne hne, ?_⟩
    have hsplit := hclosed.splitFrom_append (List.cons_ne_nil _ _) (by simp [State.inside]) ',' []
    rw [List.append_nil] at hsplit
    rw [IsUncut, hsplit]
    exact congrArg some ((foldr_consHead _ [] []).trans (by rw [List.append_nil]))

/-- A property whose value is a piece. -/
theorem isPiece_property (key : Text) {value : Text} (h : IsPiece value) :
    IsPiece (keyScript key ++ ':' :: ' ' :: value) := by
  have hkey := balanced_keyScript key
  have hvalue : Settles [] (':' :: ' ' :: value) := .ordinary rfl (.ordinary rfl h.settles)
  refine ⟨hkey.settles.append hvalue rfl, ?_, isTrimmed_property key h.trimmed⟩
  have hcolon : State.top.step ':' = some .top := rfl
  have hblank : State.top.step ' ' = some .top := rfl
  have huncut : IsUncut ',' .top (':' :: ' ' :: value) :=
    (isUncut_cons hcolon).mpr ⟨rfl, (isUncut_cons hblank).mpr ⟨rfl, h.uncut⟩⟩
  rw [IsUncut, hkey.splitFrom_append (by simp), show splitFrom ',' .top (':' :: ' ' :: value) = _
    from huncut]
  exact congrArg some (foldr_consHead _ _ [])

/-- What stands behind the first colon of a piece. -/
theorem IsPiece.behind_colon {t key second : Text} {others : List Text} (h : IsPiece t)
    (hsplit : splitTop ':' t = some (key :: second :: others))
    (hne : Text.trim (t.drop (key.length + 1)) ≠ []) :
    IsPiece (Text.trim (t.drop (key.length + 1))) := by
  have hcolon : isOrdinary ':' = true := rfl
  obtain ⟨first, others', hfirst, -, hkey, -, hbehind⟩ := h.settles.exists_splitFrom hcolon
  have hsame :
      first :: others' = key :: second :: others := Option.some.inj (hfirst.symm.trans hsplit)
  cases hsame
  obtain ⟨behind, rfl, hsettles⟩ := hbehind (List.cons_ne_nil _ _)
  have hdrop : (key ++ ':' :: behind).drop (key.length + 1) = behind := by
    rw [List.append_cons, List.drop_left' (by simp)]
  rw [hdrop] at hne ⊢
  refine isPiece_trim hsettles ?_ hne
  obtain ⟨p, hp⟩ := hkey.exists_run
  have hp : State.top.run key = some ⟨[], p⟩ := hp
  have hrun : State.top.run (key ++ [':']) = some .top := by
    rw [State.run_append, hp, Option.bind_some, State.run, step_separator hcolon (by decide) rfl]
    rfl
  have huncut := h.uncut
  rw [List.append_cons] at huncut
  exact (huncut.of_append hrun).1

/-- The texts of a list that settles are pieces. -/
theorem isPiece_of_mem_argumentTexts {src : Text} (h : Settles [] (withoutComments src))
    {texts : List Text} (htexts : argumentTexts? src = some texts) :
    ∀ text ∈ texts, IsPiece text := by
  obtain ⟨parts, hsplit, rfl⟩ := Option.map_eq_some_iff.mp htexts
  have hcomma : isOrdinary ',' = true := rfl
  obtain ⟨first, others, hfirst, -, hs, hothers, -⟩ := h.exists_splitFrom hcomma
  have hparts : first :: others = parts := Option.some.inj (hfirst.symm.trans hsplit)
  have hcut : splitFrom ',' .top (withoutComments src) = some parts := hsplit
  obtain ⟨first', others', hsame, hu, hothersUncut⟩ := exists_isUncut hcut
  cases hparts
  cases hsame
  have hall : ∀ part ∈ first :: others, IsUncut ',' .top part ∧ Settles [] part :=
    List.forall_mem_cons.mpr ⟨⟨hu, hs⟩, fun part hpart =>
      ⟨hothersUncut part hpart, hothers part hpart⟩⟩
  intro text htext
  rw [List.mem_filter, List.mem_map] at htext
  obtain ⟨⟨part, hpart, rfl⟩, hne⟩ := htext
  exact isPiece_trim (hall part hpart).2 (hall part hpart).1 (by simpa using hne)

end Localization
