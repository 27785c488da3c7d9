import Mathlib
import Localization.Proofs.Argument.Pieces
import Localization.Proofs.Script.Stretch

/-! Lists without their comments.

A list of arguments is freed of comments before it is read, and so is every list in it. That is
done again and again for the lists inside, but once is enough: a text without comments stays as
it is, its literals and its names are those of the text that it was made of
(`withoutComments_exact`), and so a list is read the same however often it was freed of
comments, and inside of others as on its own (`readArguments_framed`). -/
namespace Localization

namespace Script

/-! ### Literals, comments and names -/

def literals (stretches : List Stretch) : List Text :=
  stretches.filterMap fun
    | .literal text => some text
    | _ => none

def comments (stretches : List Stretch) : List Text :=
  stretches.filterMap fun
    | .comment text => some text
    | _ => none

/-- The names in the code, `read` being what was read of the first. Whatever is no character of
a name ends one. -/
def namesFrom (read : Text) : List Stretch → List Text
  | [] => if read.isEmpty then [] else [read]
  | .code c :: rest =>
    if isNameChar c then namesFrom (read ++ [c]) rest
    else (if read.isEmpty then [] else [read]) ++ namesFrom [] rest
  | _ :: rest => (if read.isEmpty then [] else [read]) ++ namesFrom [] rest

def names (stretches : List Stretch) : List Text := namesFrom [] stretches

theorem literals_bare (stretches : List Stretch) :
    literals (stretches.map Stretch.bare) = literals stretches := by
  rw [literals, List.filterMap_map, literals]
  refine List.filterMap_congr fun stretch _ => ?_
  cases stretch <;> rfl

theorem comments_bare (stretches : List Stretch) : comments (stretches.map Stretch.bare) = [] := by
  rw [comments, List.filterMap_map, List.filterMap_eq_nil_iff]
  intro stretch _
  cases stretch <;> rfl

theorem namesFrom_bare (read : Text) (stretches : List Stretch) :
    namesFrom read (stretches.map Stretch.bare) = namesFrom read stretches := by
  induction stretches generalizing read with
  | nil => rfl
  | cons stretch rest ih =>
    cases stretch with
    | code c =>
      rw [List.map_cons, Stretch.bare, namesFrom, namesFrom, ih, ih]
      rintro _ ⟨⟩
    | literal text =>
      rw [List.map_cons, Stretch.bare, namesFrom, namesFrom, ih]
      all_goals rintro _ ⟨⟩
    | comment text =>
      rw [List.map_cons, Stretch.bare, namesFrom, if_neg (by decide), namesFrom, ih]
      all_goals rintro _ ⟨⟩

/-! ### Texts that are cut up to their end -/

/-- Whether every literal that opens outside of the others and of comments ends. -/
def HasEndedLiterals (t : Text) : Prop :=
  ∀ stretches quote rest, t = textOf stretches ++ quote :: rest → areCut (quote :: rest) stretches →
    (literal? quote).isSome = true →
    ∃ literal, IsLiteral literal ∧ literal <+: quote :: rest

/-- Whether some stretches are the only ones that a text consists of. -/
def IsCutInto (t : Text) (stretches : List Stretch) : Prop :=
  t = textOf stretches ∧ areCut [] stretches ∧ ∀ others, t = textOf others → areCut [] others →
    others = stretches

theorem isCutInto_textOf {stretches : List Stretch} (h : areCut [] stretches) :
    IsCutInto (textOf stretches) stretches := by
  refine ⟨rfl, h, fun others heq hothers => ?_⟩
  exact (eq_of_areCut (y := []) (z := []) hothers h rfl rfl
    (by rw [List.append_nil, List.append_nil, heq])).1

/-- The stretch that starts with a quote is a literal. -/
theorem Stretch.isCut.isLiteral {stretch : Stretch} {quote : Char} {rest behind : Text}
    (h : stretch.isCut behind) (htext : quote :: rest = stretch.text ++ behind)
    (hquote : (literal? quote).isSome = true) : IsLiteral stretch.text := by
  cases stretch with
  | code c =>
    obtain ⟨rfl, -⟩ := List.cons.inj htext
    rw [h.1] at hquote
    cases hquote
  | literal text => exact h
  | comment text =>
    obtain ⟨more, rfl⟩ := IsComment.exists_eq_cons h
    obtain ⟨rfl, -⟩ := List.cons.inj htext
    cases hquote

theorem hasEndedLiterals_iff {t : Text} :
    HasEndedLiterals t ↔ ∃ stretches, IsCutInto t stretches := by
  constructor
  · intro h
    obtain ⟨stretches, rest, rfl, hcut, hend⟩ := exists_areCut t
    cases rest with
    | nil =>
      rw [List.append_nil]
      exact ⟨stretches, isCutInto_textOf hcut⟩
    | cons quote rest =>
      exfalso
      by_cases hquote : (literal? quote).isSome = true
      · obtain ⟨literal, hliteral, after, hafter⟩ := h stretches quote rest rfl hcut hquote
        have hread : stretch? (quote :: rest) = some (.literal literal, after) :=
          stretch?_eq_some_iff.mpr ⟨hafter.symm, hliteral⟩
        rw [hend] at hread
        cases hread
      · rw [stretch?, if_neg hquote] at hend
        split at hend <;> cases hend
  · rintro ⟨cut, rfl, hcut, -⟩ stretches quote rest heq hstretches hquote
    obtain ⟨more, last, hrest, hmore, hlast⟩ := exists_areCut (quote :: rest)
    rw [hrest] at hstretches heq
    have hall : areCut last (stretches ++ more) := areCut_append.mpr ⟨hstretches, hmore⟩
    rw [← List.append_assoc, ← textOf_append] at heq
    obtain ⟨-, rfl⟩ := eq_of_areCut (y := []) hcut hall rfl hlast (by rw [List.append_nil, heq])
    cases more with
    | nil => cases hrest
    | cons stretch more =>
      rw [textOf_cons, List.append_assoc] at hrest
      exact ⟨stretch.text, hmore.1.isLiteral hrest hquote, _, hrest.symm⟩

/-! ### Texts that end where code does -/

/-- Whether all literals and comments of a text end in it, so that code may follow. -/
def IsEnded (t : Text) : Prop := ∃ stretches, t = textOf stretches ∧ areCut [','] stretches

/-- In front of a comma a stretch does not end otherwise than in front of other code. -/
theorem Stretch.isCut.behind {stretch : Stretch} {t behind : Text} (h : stretch.isCut (t ++ [',']))
    (hbehind : behind.head? ≠ some '/' ∧ behind.head? ≠ some '*') :
    stretch.isCut (t ++ behind) := by
  cases stretch with
  | code c =>
    refine ⟨h.1, fun hc => ?_⟩
    cases t with
    | nil => exact hbehind
    | cons d t => exact h.2 hc
  | literal text => exact h
  | comment text =>
    cases t with
    | nil =>
      have hcomment : IsComment [','] text := h
      cases hcomment with
      | line _ hend => cases hend ',' rfl
      | block hbody => exact .block hbody
    | cons d t =>
      have hcomment : IsComment (d :: (t ++ [','])) text := h
      cases hcomment with
      | line hbody hend => exact .line hbody hend
      | block hbody => exact .block hbody

theorem areCut_behind {stretches : List Stretch} {behind : Text} (h : areCut [','] stretches)
    (hbehind : behind.head? ≠ some '/' ∧ behind.head? ≠ some '*') : areCut behind stretches := by
  induction stretches with
  | nil => exact trivial
  | cons stretch rest ih => exact ⟨h.1.behind hbehind, ih h.2⟩

namespace IsEnded

variable {t u : Text} {c : Char}

theorem nil : IsEnded [] := ⟨[], rfl, trivial⟩

theorem cons (hliteral : literal? c = none) (hslash : c ≠ '/') (h : IsEnded t) :
    IsEnded (c :: t) := by
  obtain ⟨stretches, rfl, hcut⟩ := h
  exact ⟨.code c :: stretches, rfl, ⟨hliteral, fun hc => absurd hc hslash⟩, hcut⟩

theorem append (ht : IsEnded t) (hu : IsEnded (c :: u)) (hslash : c ≠ '/') (hstar : c ≠ '*') :
    IsEnded (t ++ c :: u) := by
  obtain ⟨a, rfl, ha⟩ := ht
  obtain ⟨b, hb, hcut⟩ := hu
  refine ⟨a ++ b, by rw [textOf_append, hb], areCut_append.mpr ⟨areCut_behind ha ?_, hcut⟩⟩
  rw [← hb]
  exact ⟨by simpa using hslash, by simpa using hstar⟩

/-- What follows is freed of comments on its own. -/
theorem withoutComments_append (ht : IsEnded t) (hu : u.head? ≠ some '/' ∧ u.head? ≠ some '*') :
    withoutComments (t ++ u) = withoutComments t ++ withoutComments u := by
  obtain ⟨stretches, rfl, hcut⟩ := ht
  have hend : areCut [] stretches := areCut_behind hcut ⟨by simp, by simp⟩
  have hself := stripFrom_textOf hend
  rw [List.append_nil] at hself
  rw [withoutComments, stripFrom_textOf (areCut_behind hcut hu), withoutComments, hself]
  exact (congrArg (· ++ stripFrom 0 0 u) (List.append_nil _)).symm

end IsEnded

theorem isEnded_of_isName {name : Text} (h : isName name = true) : IsEnded name := by
  have hall : ∀ c ∈ name, isPathChar c = true := (of_accepts (isPath_of_isName h)).1
  clear h
  induction name with
  | nil => exact .nil
  | cons c name ih =>
    have hmark := not_mem_punctuation (hall c List.mem_cons_self)
    simp only [punctuation, List.mem_cons, List.not_mem_nil, or_false, not_or] at hmark
    exact .cons (by simp [literal?, hmark]) (by simp [hmark]) (ih fun d hd =>
      hall d (List.mem_cons_of_mem _ hd))

end Script

open Script

/-! ### Lists in lists -/

/-- What may stand around a list of arguments: the brackets of an array, those of a call, or further
arguments on one of its sides. -/
inductive Frame where
  | array
  | call (name : Text)
  | behind (front : Text) (others : List Argument)
  | before (back : Text) (others : List Argument)

namespace Frame

/-- A list in its frame. -/
def around (t : Text) : Frame → Text
  | array => arrayOf t
  | call name => name ++ '(' :: (t ++ [')'])
  | behind front _ => front ++ ',' :: t
  | before back _ => t ++ ',' :: back

/-- The arguments of a list in its frame. -/
def arguments (t : Text) (inner : List Argument) : Frame → List Argument
  | array => [.array inner]
  | call name => [.call name inner ((call name).around (withoutComments t))]
  | behind _ others => others ++ inner
  | before _ others => inner ++ others

def IsSound : Frame → Prop
  | array => True
  | call name => isName name = true
  | behind front others => IsEnded front ∧ readArguments front = some others
  | before back others => IsEnded back ∧ readArguments back = some others

end Frame

/-- A list does not change by being freed of comments once more. -/
theorem readArguments_withoutComments (t : Text) :
    readArguments (withoutComments t) = readArguments t := by
  rw [readArguments_eq_mapM, readArguments_eq_mapM, argumentTexts?, argumentTexts?,
    withoutComments_idempotent]

theorem settles_of_readArguments {t : Text} {list : List Argument}
    (h : readArguments t = some list) :
    Settles [] (withoutComments t) := by
  obtain ⟨parts, hparts⟩ : ∃ parts, splitTop ',' (withoutComments t) = some parts := by
    rw [← Option.isSome_iff_exists, Option.isSome_iff_ne_none, ne_eq,
      ← readArguments_eq_none_iff, h]
    simp
  exact settles_of_splitTop hparts

/-- One piece is read as one argument. -/
theorem readArguments_of_isPiece {t text : Text} (hstrip : withoutComments t = text)
    (h : IsPiece text) :
    readArguments t = (readArgument text).map ([·]) := by
  have htexts : argumentTexts? t = some [text] := by
    have hsplit : splitTop ',' text = some [text] := h.uncut
    have hne : text.isEmpty = false := by simpa using h.trimmed.1
    rw [argumentTexts?, hstrip, hsplit, Option.map_some, List.map_singleton, h.trimmed.trim]
    simp [hne]
  rw [readArguments_eq_mapM, htexts, Option.bind_some, List.mapM_cons, List.mapM_nil]
  cases readArgument text <;> rfl

/-- Lists on two sides of a comma are read on their own. -/
theorem readArguments_comma {front t : Text} {others inner : List Argument} (hfront : IsEnded front)
    (hothers : readArguments front = some others) (hinner : readArguments t = some inner) :
    readArguments (front ++ ',' :: t) = some (others ++ inner) := by
  have hstrip : withoutComments (front ++ ',' :: t) =
      withoutComments front ++ ',' :: withoutComments t :=
    (hfront.withoutComments_append ⟨by simp, by simp⟩).trans
      (congrArg _ (stripFrom_code rfl (by decide) t))
  obtain ⟨p, hp⟩ := (settles_of_readArguments hothers).exists_run
  have hp : State.top.run (withoutComments front) = some ⟨[], p⟩ := hp
  rw [readArguments_eq_mapM] at hothers hinner ⊢
  obtain ⟨_, hfrontTexts, hothers⟩ := Option.bind_eq_some_iff.mp hothers
  obtain ⟨_, htexts, hinner⟩ := Option.bind_eq_some_iff.mp hinner
  obtain ⟨frontParts, hfrontSplit, rfl⟩ := Option.map_eq_some_iff.mp hfrontTexts
  obtain ⟨parts, hsplit, rfl⟩ := Option.map_eq_some_iff.mp htexts
  have hall : splitTop ',' (withoutComments (front ++ ',' :: t)) = some (frontParts ++ parts) := by
    rw [hstrip, splitTop, splitFrom_append_separator hfrontSplit hp (by cases p <;> rfl)]
    exact congrArg (Option.map _) hsplit
  rw [argumentTexts?, hall, Option.map_some, Option.bind_some, List.map_append, List.filter_append,
    List.mapM_append, hothers, hinner]
  rfl

/-- A name with a list in parentheses is a call. -/
theorem callParts?_of_isName {name inner : Text} (hname : isName name = true)
    (hinner : Settles [] inner) :
    callParts? (name ++ '(' :: (inner ++ [')'])) = some (name, inner) := by
  have hword {word : Text} (hword : word.all isNameChar = true) (z : Text) :
      pathFrom .inName [] (word ++ '(' :: z) = some (word, '(' :: z) := by
    induction word with
    | nil => rfl
    | cons c word ih =>
      rw [List.all_cons, Bool.and_eq_true] at hword
      simp [pathFrom, hword.1, ih hword.2]
  have hgroup : groupPrefix? ('(' :: (inner ++ [')'])) = some ('(' :: (inner ++ [')']), []) :=
    groupPrefix?_of_settles rfl hinner
  cases name with
  | nil => cases hname
  | cons c word =>
    rw [isName, Bool.and_eq_true] at hname
    have hpath : pathPrefix? (c :: word ++ '(' :: (inner ++ [')'])) =
        some (c :: word, '(' :: (inner ++ [')'])) := by
      simp [pathPrefix?, pathFrom, hname.1, hword hname.2]
    have hblank : skipBlanks ('(' :: (inner ++ [')'])) = '(' :: (inner ++ [')']) := rfl
    rw [List.cons_append] at hpath ⊢
    simp [callParts?, hpath, hblank, hgroup, isWhole]

theorem readArgument_call {name inner : Text} {list : List Argument} (hname : isName name = true)
    (hinner : Settles [] inner) (hlist : readArguments inner = some list) :
    readArgument (name ++ '(' :: (inner ++ [')'])) =
      some (.call name list (name ++ '(' :: (inner ++ [')']))) := by
  have hcall := callParts?_of_isName hname hinner
  have hpath : isPath (name ++ '(' :: (inner ++ [')'])) = false := by
    rw [Bool.eq_false_iff]
    intro hpath
    exact absurd ((of_accepts hpath).1 '(' (by simp)) (by decide)
  cases name with
  | nil => cases hname
  | cons c word =>
    rw [isName, Bool.and_eq_true] at hname
    rw [List.cons_append] at hcall hpath ⊢
    rw [readArgument_of_isNameStart hname.1, readPlain.eq_def]
    simp only [ofScript?_of_isNameStart hname.1, hpath, Bool.false_eq_true, if_false]
    split
    · simp_all
    · next callee text heq =>
      rw [hcall] at heq
      cases heq
      simp only [hlist]

/-- A call is a piece. -/
theorem isPiece_call {name inner : Text} (hname : isName name = true) (hinner : Settles [] inner) :
    IsPiece (name ++ '(' :: (inner ++ [')'])) := by
  have hpath := isPath_of_isName hname
  have hbalanced := balanced_of_isPath hpath
  have hgroup : IsPiece ('(' :: (inner ++ [')'])) := isPiece_group rfl hinner
  refine ⟨hbalanced.settles.append hgroup.settles rfl, ?_,
    (isTrimmed_of_isPath hpath).append hgroup.trimmed []⟩
  rw [IsUncut, hbalanced.splitFrom_append (by simp),
    show splitFrom ',' .top ('(' :: (inner ++ [')'])) = _ from hgroup.uncut]
  exact congrArg some (foldr_consHead _ _ [])

namespace Frame

/-- A frame ends where the list in it does. -/
theorem isEnded_around {f : Frame} (hf : f.IsSound) {t : Text} (ht : IsEnded t) :
    IsEnded (f.around t) := by
  have hcloser {c : Char} (hc : isCloser c = true) : IsEnded [c] :=
    .cons (literal?_of_isCloser hc).1 (literal?_of_isCloser hc).2.1 .nil
  cases f with
  | array => exact .cons rfl (by decide) (ht.append (hcloser rfl) (by decide) (by decide))
  | call name =>
    exact (isEnded_of_isName hf).append
      (.cons rfl (by decide) (ht.append (hcloser rfl) (by decide) (by decide)))
        (by decide) (by decide)
  | behind front others => exact hf.1.append (.cons rfl (by decide) ht) (by decide) (by decide)
  | before back others => exact ht.append (.cons rfl (by decide) hf.1) (by decide) (by decide)

/-- A list in its frame is read as it is on its own. -/
theorem readArguments_around {f : Frame} (hf : f.IsSound) {t : Text} (ht : IsEnded t)
    {inner : List Argument} (h : readArguments t = some inner) :
    readArguments (f.around t) = some (f.arguments t inner) := by
  have hsettles := settles_of_readArguments h
  have hinner : readArguments (withoutComments t) = some inner :=
    (readArguments_withoutComments t).trans h
  have hbehind {opener closer : Char} (hopener : closer? opener = some closer) :
      withoutComments (opener :: (t ++ [closer])) = opener :: (withoutComments t ++ [closer]) := by
    obtain ⟨hliteral, hslash, hliteral', hslash', -, -⟩ := literal?_of_closer? hopener
    have hcloser : withoutComments [closer] = [closer] := stripFrom_code hliteral' hslash' []
    have hstar : closer ≠ '*' := by rintro rfl; cases isCloser_of_closer? hopener
    rw [withoutComments, stripFrom_code hliteral hslash]
    refine congrArg (opener :: ·) ?_
    exact (ht.withoutComments_append ⟨by simpa using hslash', by simpa using hstar⟩).trans
      (by rw [hcloser])
  cases f with
  | array =>
    have hstrip : withoutComments ('[' :: (t ++ [']'])) = arrayOf (withoutComments t) := hbehind rfl
    have hread := readArgument_arrayOf (isClosedBy_of_settles rfl hsettles)
    show readArguments ('[' :: (t ++ [']'])) = some [.array inner]
    rw [readArguments_of_isPiece hstrip (isPiece_group rfl hsettles), hread, hinner]
    rfl
  | call name =>
    have hstrip : withoutComments (name ++ '(' :: (t ++ [')'])) =
        name ++ '(' :: (withoutComments t ++ [')']) := by
      rw [(isEnded_of_isName hf).withoutComments_append ⟨by simp, by simp⟩, hbehind rfl,
        (balanced_of_isPath (isPath_of_isName hf)).withoutComments_eq]
    show readArguments (name ++ '(' :: (t ++ [')'])) = _
    rw [readArguments_of_isPiece hstrip (isPiece_call hf hsettles),
      readArgument_call hf hsettles hinner]
    rfl
  | behind front others => exact readArguments_comma hf.1 hf.2 h
  | before back others => exact readArguments_comma ht h hf.2

end Frame

/-! ### Lists at every depth -/

/-- A list in frames, the outermost first. -/
def framed : List Frame → Text → Text
  | [], t => t
  | f :: rest, t => f.around (framed rest t)

/-- The arguments of a list in frames. -/
def framedArguments : List Frame → Text → List Argument → List Argument
  | [], _, inner => inner
  | f :: rest, t, inner => f.arguments (framed rest t) (framedArguments rest t inner)

theorem isEnded_framed {frames : List Frame} (hframes : ∀ f ∈ frames, f.IsSound) {t : Text}
    (ht : IsEnded t) :
    IsEnded (framed frames t) := by
  induction frames with
  | nil => exact ht
  | cons f rest ih =>
    rw [List.forall_mem_cons] at hframes
    exact Frame.isEnded_around hframes.1 (ih hframes.2)

/-- **A list is read the same at every depth.** -/
theorem readArguments_framed {frames : List Frame} (hframes : ∀ f ∈ frames, f.IsSound) {t : Text}
    (ht : IsEnded t) {inner : List Argument} (h : readArguments t = some inner) :
    readArguments (framed frames t) = some (framedArguments frames t inner) := by
  induction frames with
  | nil => exact h
  | cons f rest ih =>
    rw [List.forall_mem_cons] at hframes
    exact Frame.readArguments_around hframes.1 (isEnded_framed hframes.2 ht) (ih hframes.2)

/-- **Comments are taken out once and leave all else.** A text without comments stays as it is.
Where every literal ends, a text consists of code, literals and comments in one way, and with a
space for each comment that is the way in which the text without comments does: it has the same
literals and names, and no comment. So a list is read the same however often it was freed of
comments, and in whatever frames it stands. -/
theorem withoutComments_exact :
    (∀ t, withoutComments (withoutComments t) = withoutComments t) ∧
      (∀ t, HasEndedLiterals t → ∃ stretches, IsCutInto t stretches ∧
        IsCutInto (withoutComments t) (stretches.map Stretch.bare) ∧
        literals (stretches.map Stretch.bare) = literals stretches ∧
        names (stretches.map Stretch.bare) = names stretches ∧
        comments (stretches.map Stretch.bare) = []) ∧
      (∀ t, readArguments (withoutComments t) = readArguments t) ∧
      ∀ frames t inner, (∀ f ∈ frames, f.IsSound) → IsEnded t → readArguments t = some inner →
        readArguments (framed frames t) = some (framedArguments frames t inner) := by
  refine ⟨withoutComments_idempotent, fun t ht => ?_, readArguments_withoutComments,
      fun frames t inner hframes ht h =>
    readArguments_framed hframes ht h⟩
  obtain ⟨stretches, rfl, hcut, honly⟩ := hasEndedLiterals_iff.mp ht
  refine ⟨stretches, ⟨rfl, hcut, honly⟩, ?_, literals_bare stretches, namesFrom_bare [] stretches,
    comments_bare stretches⟩
  have hstrip := stripFrom_textOf hcut
  rw [List.append_nil] at hstrip
  rw [withoutComments, hstrip]
  exact (List.append_nil (textOf (stretches.map Stretch.bare))).symm ▸
    isCutInto_textOf (areCut_bare hcut)

/-- A path among comments is read as a name. -/
theorem readArguments_of_isPath {t path : Text} (htexts : argumentTexts? t = some [path])
    (hpath : isPath path = true) (hconstant : isConstant path = false) :
    readArguments t = some [.name path] := by
  rw [readArguments_eq_mapM, htexts, Option.bind_some, List.mapM_cons,
    readArgument_of_isPath hpath, hconstant]
  rfl

/-- A template with a comment in its substitution, a name, and comments that spell quotes, commas
and brackets. -/
def commentedList : Text := "`a$\x7b/* ' */b\x7d` /* , */, n // ]'\n"

/-- What the list consists of. -/
def commentedStretches : List Stretch :=
  [.literal "`a$\x7b/* ' */b\x7d`", .code ' ', .comment "/* , */", .code ',', .code ' ', .code 'n',
    .code ' ', .comment "// ]'", .code '\n']

/-- Arguments on both sides, with comments of their own, in a call in an array. -/
def commentedFrames : List Frame :=
  [.array, .call "f", .behind "x // a,b'\n" [.name "x"], .before " /*,*/ y" [.name "y"]]

/-- A list with both kinds of comments, on its own and inside of others. -/
theorem withoutComments_exact_commentedList :
    HasEndedLiterals commentedList ∧
      withoutComments commentedList = "`a$\x7b/* ' */b\x7d`  , n  \n".toList ∧
      (∃ stretches, IsCutInto commentedList stretches ∧
        IsCutInto (withoutComments commentedList) (stretches.map Stretch.bare) ∧
        literals (stretches.map Stretch.bare) = ["`a$\x7b/* ' */b\x7d`".toList] ∧
        names (stretches.map Stretch.bare) = ["n".toList] ∧
        comments stretches = ["/* , */".toList, "// ]'".toList]) ∧
      (∀ f ∈ commentedFrames, f.IsSound) ∧ IsEnded commentedList ∧
      readArguments commentedList = some [.string "a$\x7b/* ' */b\x7d", .name "n"] ∧
      readArguments (framed commentedFrames commentedList) =
        some (framedArguments commentedFrames commentedList
          [.string "a$\x7b/* ' */b\x7d", .name "n"]) := by
  have hcut : IsCutInto (textOf commentedStretches) commentedStretches :=
    isCutInto_textOf (by decide)
  have hliterals : HasEndedLiterals commentedList := hasEndedLiterals_iff.mpr ⟨_, hcut⟩
  obtain ⟨-, hexact, -, hframes⟩ := withoutComments_exact
  obtain ⟨stretches, hstretches, hbare, -⟩ := hexact commentedList hliterals
  obtain rfl : commentedStretches = stretches := hstretches.2.2 _ hcut.1 hcut.2.1
  have hended : IsEnded commentedList := ⟨commentedStretches, rfl, by decide⟩
  have htemplate : readArgument "`a$\x7b/* ' */b\x7d`" = some (.string "a$\x7b/* ' */b\x7d") := by
    have hliteral : literalPrefix? "`a$\x7b/* ' */b\x7d`" =
        some ("`a$\x7b/* ' */b\x7d`".toList, []) := by decide
    refine (readArgument_of_literalPrefix? hliteral).trans ?_
    rw [decode_of_not_mem (by decide)]
    rfl
  have hread : readArguments commentedList =
      some [.string "a$\x7b/* ' */b\x7d", .name "n"] := by
    have htexts : argumentTexts? commentedList =
        some ["`a$\x7b/* ' */b\x7d`".toList, "n".toList] := by decide
    rw [readArguments_eq_mapM, htexts, Option.bind_some, List.mapM_cons, htemplate, List.mapM_cons,
      readArgument_of_isPath (by decide)]
    rfl
  have hsound : ∀ f ∈ commentedFrames, f.IsSound := by
    simp only [commentedFrames, List.forall_mem_cons, List.not_mem_nil, false_implies,
      implies_true, and_true]
    refine ⟨trivial, show isName "f" = true by decide, ⟨?_, ?_⟩, ?_, ?_⟩
    · exact ⟨[.code 'x', .code ' ', .comment "// a,b'", .code '\n'], rfl, by decide⟩
    · exact readArguments_of_isPath (by decide) (by decide) (by decide)
    · exact ⟨[.code ' ', .comment "/*,*/", .code ' ', .code 'y'], rfl, by decide⟩
    · exact readArguments_of_isPath (by decide) (by decide) (by decide)
  exact ⟨hliterals, by decide, ⟨_, hstretches, hbare, rfl, rfl, rfl⟩, hsound, hended, hread,
    hframes commentedFrames commentedList _ hsound hended hread⟩

end Localization
