import Mathlib
import Localization.Proofs.Script.Balanced
import Localization.Proofs.Script.Behind
import Localization.Script.Code

/-! The walk through an expression in a substitution.

`embedded` says that an expression is walked alike when it stands alone and when it stands in a
substitution of a template: the same names are found, as long as the walk meets no `}` in the
expression that would end the substitution (`staysInside`). What stands in front of the expression
ends with `{`, and what stands behind it is `ending`. Neither makes a literal, a comment or an
element of the expression longer, and a piece that the expression leaves open reaches up to its
end in both. -/
namespace Localization.Script

/-- What stands behind the expression: the ends of the substitution, the template, an object and
a list of arguments. -/
def ending : Text := ['}', '`', '}', ')']

/-! ### Pieces that end in the expression -/

/-- A character of a string leaves the string, goes on in it, or must not stand there. -/
theorem step_quoted (quote : Char) (pending : Pending) (c : Char) :
    (⟨[.quoted quote], pending⟩ : State).step c = none ∨
      (⟨[.quoted quote], pending⟩ : State).step c = some .top ∨
      ∃ p, (⟨[.quoted quote], pending⟩ : State).step c = some ⟨[.quoted quote], p⟩ := by
  simp only [State.step]
  repeat' split
  all_goals first
    | exact .inl rfl
    | exact .inr (.inl rfl)
    | exact .inr (.inr ⟨_, rfl⟩)

/-- The ending closes no string. -/
theorem closing_quoted_ending {quote : Char} (hq : quote = '\'' ∨ quote = '"') {pending : Pending}
    {t : Text} (h : closing ⟨[.quoted quote], pending⟩ t = none) :
    closing ⟨[.quoted quote], pending⟩ (t ++ ending) = none := by
  induction t generalizing pending with
  | nil =>
    rcases hq with rfl | rfl <;> cases pending <;> rfl
  | cons c rest ih =>
    rcases step_quoted quote pending c with hstep | hstep | ⟨p, hstep⟩
    · simp only [closing, List.cons_append, hstep]
    · simp [closing, hstep, State.top] at h
    · simp only [closing, List.cons_append, hstep, List.isEmpty_cons, Bool.false_eq_true, if_false,
        Option.map_eq_none_iff] at h ⊢
      exact ih h

theorem stringLength_ending {quote : Char} (hq : quote = '\'' ∨ quote = '"') (rest : Text) :
    stringLength quote (rest ++ ending) = stringLength quote rest := by
  simp only [stringLength]
  cases h : closing (.inside (.quoted quote)) rest with
  | none =>
    rw [show closing (.inside (.quoted quote)) (rest ++ ending) = none from
      closing_quoted_ending hq h]
  | some p => rw [closing_append_of h]

/-- The text of a template ends in the expression, or goes up to its end. -/
theorem templateText_ending {rest : Text} (h : '\\' ∉ rest) :
    templateText (rest ++ ending) = templateText rest ∨
      (rest.length ≤ (templateText rest).1 ∧ rest.length ≤ (templateText (rest ++ ending)).1 ∧
        (templateText rest).2 = false ∧ (templateText (rest ++ ending)).2 = false) := by
  fun_induction templateText rest with
  | case1 => exact .inr ⟨Nat.zero_le _, Nat.zero_le _, rfl, rfl⟩
  | case2 => exact absurd List.mem_cons_self h
  | case3 => exact absurd List.mem_cons_self h
  | case4 => exact .inl rfl
  | case5 => exact .inl rfl
  | case6 c rest hb hbs hq hd n more hrest ih =>
    rw [List.mem_cons, not_or] at h
    have hstep : templateText (c :: (rest ++ ending)) =
        ((templateText (rest ++ ending)).1 + 1, (templateText (rest ++ ending)).2) := by
      rw [templateText.eq_def]
      split
      · simp_all
      · simp_all
      · simp_all
      · simp_all
      · next heq =>
        exfalso
        cases rest with
        | nil => cases heq
        | cons d rest => cases heq; exact hd _ rfl rfl
      · next heq => cases heq; rfl
    have := ih h.2
    rw [List.cons_append, hstep]
    rw [hrest] at this
    rcases this with he | ⟨h1, h2, h3, h4⟩
    · rw [he]; exact .inl rfl
    · refine .inr ⟨?_, ?_, h3, h4⟩
      · rw [List.length_cons]; simp only at h1; omega
      · rw [List.length_cons]; simp only; omega

/-- A block comment ends in the expression, or goes up to the end of all. -/
theorem afterBlockComment_ending (rest : Text) :
    afterBlockComment (rest ++ ending) = afterBlockComment rest ++ ending ∨
      (afterBlockComment rest = [] ∧ afterBlockComment (rest ++ ending) = []) := by
  fun_induction afterBlockComment rest with
  | case1 => exact .inl rfl
  | case2 c rest h ih =>
    have hstep : afterBlockComment (c :: (rest ++ ending)) =
        afterBlockComment (rest ++ ending) := by
      rw [afterBlockComment.eq_def]
      split
      · next heq =>
        exfalso
        cases rest with
        | nil => cases heq
        | cons d rest => cases heq; exact h _ rfl rfl
      · next heq => cases heq; rfl
      · next heq => cases heq
    rw [List.cons_append, hstep]
    exact ih
  | case3 => exact .inr ⟨rfl, rfl⟩

/-- A comment ends in the expression, or goes up to the end of all. -/
theorem commentPrefix?_ending {t : Text} (h : '\n' ∉ t) :
    commentPrefix? (t ++ ending) = (commentPrefix? t).map (· ++ ending) ∨
      (commentPrefix? t = some [] ∧ commentPrefix? (t ++ ending) = some []) := by
  fun_cases commentPrefix? t with
  | case1 rest =>
    have hall : ∀ u : Text, '\n' ∉ u → u.dropWhile (· != '\n') = [] := by
      intro u hu
      rw [List.dropWhile_eq_nil_iff]
      intro c hc
      simp only [bne_iff_ne, ne_eq]
      rintro rfl
      exact hu hc
    have hrest : '\n' ∉ rest := fun hr => h (List.mem_cons_of_mem _ (List.mem_cons_of_mem _ hr))
    refine .inr ⟨congrArg some (hall rest hrest), congrArg some (hall (rest ++ ending) ?_)⟩
    rw [List.mem_append, not_or]
    exact ⟨hrest, by decide⟩
  | case2 rest =>
    rcases afterBlockComment_ending rest with he | ⟨h1, h2⟩
    · exact .inl (congrArg some he)
    · exact .inr ⟨congrArg some h1, congrArg some h2⟩
  | case3 _ h1 h2 =>
    refine .inl ?_
    rw [commentPrefix?.eq_def]
    split
    · next heq =>
      exfalso
      match t, heq with
      | [], heq => cases heq
      | [c], heq => cases heq
      | c :: d :: t, heq => cases heq; exact h1 _ rfl
    · next heq =>
      exfalso
      match t, heq with
      | [], heq => cases heq
      | [c], heq => cases heq
      | c :: d :: t, heq => cases heq; exact h2 _ rfl
    · rfl

/-! ### Elements -/

/-- What the expression leaves open is closed in the ending, if at all. -/
theorem suffix_of_closing {s : State} {t z read after : Text} (hopen : closing s t = none)
    (h : closing s (t ++ z) = some (read, after)) : after <:+ z := by
  rcases List.append_eq_append_iff.mp (closing_append h) with ⟨u, -, hz⟩ | ⟨u, ht, -⟩
  · exact ⟨u, hz.symm⟩
  · have := (isClosedBy_of_closing h).closing_append u
    rw [← ht, hopen] at this
    cases this

/-- Whether an arrow or a colon follows, as behind the parameters of a function. -/
def followsParameters (t : Text) : Bool :=
  ['=', '>'].isPrefixOf (skipBlanks t) || (skipBlanks t).head? == some ':'

theorem followsParameters_ending (t : Text) :
    followsParameters (t ++ ending) = followsParameters t := by
  rw [followsParameters, ending, skipBlanks_stop (by decide), isPrefixOf_stop (by decide),
    head?_stop (by decide), followsParameters]

theorem followsParameters_suffix {t : Text} (h : t <:+ ending) : followsParameters t = false := by
  have hall : (ending.tails.all fun u => !followsParameters u) = true := rfl
  simpa using List.all_eq_true.mp hall t ((List.mem_tails _ _).mpr h)

/-- Whether a text starts with no parameters of a function. -/
def startsNoParameters (t : Text) : Bool :=
  match groupPrefix? t with
  | some (_, behind) => !followsParameters behind
  | none => true

/-- No group that the expression leaves open holds parameters. -/
theorem startsNoParameters_ending (t : Text) :
    startsNoParameters (t ++ ending) = startsNoParameters t := by
  cases t with
  | nil => rfl
  | cons c rest =>
    simp only [List.cons_append, startsNoParameters, groupPrefix?]
    cases closer? c with
    | none => rfl
    | some closer =>
      simp only
      cases h : closing (.inside (.group closer)) rest with
      | some p =>
        rw [closing_append_of h]
        simp only [Option.map_some, followsParameters_ending]
      | none =>
        cases hz : closing (.inside (.group closer)) (rest ++ ending) with
        | none => rfl
        | some p => simp [followsParameters_suffix (suffix_of_closing h hz)]

/-- Whether what stands behind the name of an element does not make it the type parameter of an
arrow function. -/
def mayFollowTagName : Text → Bool
  | '>' :: more =>
    match more with
    | '(' :: _ => startsNoParameters more
    | _ => true
  | _ => true

theorem mayFollowTagName_ending (t : Text) :
    mayFollowTagName (t ++ ending) = mayFollowTagName t := by
  rcases t with _ | ⟨c, more⟩
  · rfl
  by_cases hc : c = '>'
  · subst hc
    rcases more with _ | ⟨d, more⟩
    · rfl
    by_cases hd : d = '('
    · subst hd
      exact startsNoParameters_ending ('(' :: more)
    · simp [mayFollowTagName, hd]
  · simp [mayFollowTagName, hc]

theorem looksLikeTag_cons {c : Char} (hc : c ≠ '>') (t : Text) :
    looksLikeTag (c :: t) = (isNameStart c &&
      (!((skipBlanks ((c :: t).dropWhile isNameChar)).head? == some ',' ||
          "extends ".toList.isPrefixOf (skipBlanks ((c :: t).dropWhile isNameChar))) &&
        mayFollowTagName (skipBlanks ((c :: t).dropWhile isNameChar)))) := by
  rw [looksLikeTag.eq_def]
  split
  · next heq => cases heq
  · next heq => cases heq; exact absurd rfl hc
  · next heq => cases heq; rfl

/-- What follows the expression does not tell whether an element starts at its end. -/
theorem looksLikeTag_ending (t : Text) : looksLikeTag (t ++ ending) = looksLikeTag t := by
  cases t with
  | nil => rfl
  | cons c rest =>
    by_cases hc : c = '>'
    · subst hc
      rfl
    rw [List.cons_append, looksLikeTag_cons hc, looksLikeTag_cons hc, ← List.cons_append, ending,
      dropWhile_stop (by decide), skipBlanks_stop (by decide), head?_stop (by decide),
      isPrefixOf_stop (by decide)]
    congr 2
    exact mayFollowTagName_ending _

/-! ### What stands in front -/

/-- The characters behind which code starts anew: nothing that the walk looks back for goes on
in front of them. -/
def isBoundary (c : Char) : Bool := c == '{' || c == '}' || c == '>' || c == '`'

/-- A property that is checked boundary by boundary. -/
theorem of_isBoundary {p : Char → Bool} (hall : ['{', '}', '>', '`'].all p = true) {c : Char}
    (h : isBoundary c = true) :
    p c = true := by
  simp only [isBoundary, Bool.or_eq_true, beq_iff_eq] at h
  refine List.all_eq_true.mp hall c ?_
  rcases h with ((rfl | rfl) | rfl) | rfl <;> decide

section

variable {d : Char} (hd : isBoundary d = true) (before base : Text)

include hd

theorem isNameChar_eq_false_of_isBoundary : isNameChar d = false := by
  simpa using of_isBoundary (p := fun c => !isNameChar c) (by decide) hd

theorem isAsciiBlank_eq_false_of_isBoundary : Text.isAsciiBlank d = false := by
  simpa using of_isBoundary (p := fun c => !Text.isAsciiBlank c) (by decide) hd

theorem opensString_stop : opensString (before ++ d :: base) = opensString before := by
  rw [opensString, takeWhile_stop (isNameChar_eq_false_of_isBoundary hd), opensString]

theorem precededBy_stop {word : Text} (hword : word.all isNameChar = true) :
    precededBy word (before ++ d :: base) = precededBy word before := by
  have hname := isNameChar_eq_false_of_isBoundary hd
  have hblank := isAsciiBlank_eq_false_of_isBoundary hd
  have hmem : d ∉ word.reverse := by
    rw [List.mem_reverse]
    intro hmem
    rw [List.all_eq_true.mp hword d hmem] at hname
    cases hname
  cases before with
  | nil => rw [List.nil_append, precededBy_cons, hblank, Bool.false_and, precededBy]
  | cons c rest =>
    have hskip := skipBlanks_stop hblank (c :: rest) base
    rw [precededBy_cons, List.cons_append, precededBy_cons, ← List.cons_append, hskip]
    congr 1
    rw [isWordAt, isWordAt, isPrefixOf_stop hmem]
    cases hword : word.reverse.isPrefixOf (skipBlanks (c :: rest)) with
    | false => rfl
    | true =>
      have hlen : word.length ≤ (skipBlanks (c :: rest)).length := by
        simpa using (List.isPrefixOf_iff_prefix.mp hword).length_le
      rw [List.drop_append_of_le_length hlen]
      cases (skipBlanks (c :: rest)).drop word.length with
      | nil => simp [isOutsideName, hname]
      | cons e t => rfl

theorem callableAfter_stop : callableAfter (before ++ d :: base) = callableAfter before := by
  have hne : '.' ≠ d := by
    rintro rfl
    cases hd
  have hhead := head?_stop hne before base
  have hpoints : d ∉ ['.', '.', '.'] := by simp [Ne.symm hne]
  rw [callableAfter, callableAfter, bne, hhead, isPrefixOf_stop hpoints, precededBy_stop hd _ _ rfl]
  rfl

end

theorem opensElement_stop (before base rest : Text) :
    opensElement (before ++ '{' :: base) (rest ++ ending) = opensElement before rest := by
  rw [opensElement, opensElement, looksLikeTag_ending, skipBlanks_stop (by decide),
    precededBy_stop rfl _ _ rfl]
  cases skipBlanks before <;> rfl

/-! ### The walk -/

/-- Whether the walk meets no `}` of a brace that was opened before it set out; `skip` characters
belong to a piece already read. -/
def staysInsideFrom : (skip : Nat) → List Frame → (before : Text) → Text → Bool
  | _, _, _, [] => true
  | skip + 1, frames, before, c :: rest => staysInsideFrom skip frames (c :: before) rest
  | 0, frames, before, c :: rest =>
    !(frames.isEmpty && c == '}') &&
      let p := piece frames before c rest
      staysInsideFrom (p.length - 1) p.frames (c :: before) rest

/-- Whether the walk through a text meets no `}` but those of its own braces. -/
def staysInside (t : Text) : Bool := staysInsideFrom 0 [] [] t

/-- Two pieces that end at the same place, or both not before the end of a text of `n` characters,
and differ in the frames below those of the first. -/
def AlikeUpTo (n : Nat) (outer : List Frame) (p q : Piece) : Prop :=
  q.frames = p.frames ++ outer ∧ (q.length = p.length ∨ n ≤ p.length ∧ n ≤ q.length)

section

variable {rest : Text} (hescape : '\\' ∉ rest) (outer : List Frame)

include hescape

theorem templatePiece_ending (frames : List Frame) :
    AlikeUpTo (rest.length + 1) outer (templatePiece frames rest)
      (templatePiece (frames ++ outer) (rest ++ ending)) := by
  rcases templateText_ending hescape with he | ⟨h1, h2, h3, h4⟩
  · rw [templatePiece, templatePiece, he]
    refine ⟨?_, .inl rfl⟩
    simp only
    split <;> rfl
  · simp only [AlikeUpTo, templatePiece, h3, h4]
    exact ⟨rfl, .inr ⟨by omega, by omega⟩⟩

end

theorem tagPiece_ending (frames : List Frame) {outer : List Frame}
    (ho : outer.head? ≠ some .children) (rest : Text) :
    AlikeUpTo (rest.length + 1) outer (tagPiece frames rest)
      (tagPiece (frames ++ outer) (rest ++ ending)) := by
  match rest with
  | [] => exact ⟨rfl, .inl rfl⟩
  | c :: rest =>
    by_cases h1 : c = '/'
    · subst h1
      refine ⟨?_, ?_⟩
      · match frames with
        | [] =>
          cases outer with
          | nil => rfl
          | cons f outer =>
            cases f <;> first | rfl | exact absurd rfl ho
        | f :: frames => cases f <;> rfl
      · have hall : ending.takeWhile (· != '>') = ending := rfl
        simp only [tagPiece, List.cons_append]
        rw [← List.cons_append, List.takeWhile_append, hall, List.length_append]
        have hle := (List.takeWhile_prefix (l := '/' :: rest) (· != '>')).length_le
        split
        · next h =>
          rw [List.length_append]
          right
          omega
        · next h =>
          left
          omega
    by_cases h2 : c = '>'
    · subst h2
      exact ⟨rfl, .inl rfl⟩
    · have htag (frames : List Frame) (u : Text) :
          tagPiece frames (c :: u) = ⟨1, .tag :: frames⟩ := by
        simp [tagPiece, h1, h2]
      rw [List.cons_append, htag, htag]
      exact ⟨rfl, .inl rfl⟩

theorem codePiece_ending {frames outer : List Frame} (ho : outer.head? = some .substitution)
    {before base : Text} {c : Char} {rest : Text} (hescape : '\\' ∉ rest) (hline : '\n' ∉ c :: rest)
    (hstay : frames = [] → c ≠ '}') :
    AlikeUpTo (rest.length + 1) outer (codePiece frames before c rest)
      (codePiece (frames ++ outer) (before ++ '{' :: base) c (rest ++ ending)) := by
  by_cases hq : c = '\'' ∨ c = '"'
  · have hquote : (c == '\'' || c == '"') = true := by simpa using hq
    have hbrace : isBoundary '{' = true := rfl
    simp only [codePiece, hquote, if_true, opensString_stop hbrace, stringLength_ending hq]
    exact ⟨rfl, .inl rfl⟩
  have hquote : (c == '\'' || c == '"') = false := by simpa using hq
  by_cases ht : c = '`'
  · subst ht
    exact templatePiece_ending hescape outer frames
  by_cases hs : c = '/'
  · subst hs
    have hcode (frames : List Frame) (before u : Text) : codePiece frames before '/' u =
        ⟨((commentPrefix? ('/' :: u)).map fun after => 1 + u.length - after.length).getD 1,
          frames⟩ := by
      cases h : commentPrefix? ('/' :: u) <;> simp [codePiece, h]
    rw [hcode, hcode, ← List.cons_append]
    rcases commentPrefix?_ending hline with he | ⟨h1, h2⟩
    · rw [he]
      cases commentPrefix? ('/' :: rest) with
      | none => exact ⟨rfl, .inl rfl⟩
      | some after =>
        refine ⟨rfl, .inl ?_⟩
        simp only [Option.map_some, Option.getD_some, List.length_append]
        omega
    · rw [h1, h2]
      refine ⟨rfl, .inr ⟨?_, ?_⟩⟩
      · simp only [Option.map_some, Option.getD_some, List.length_nil]
        omega
      · simp only [Option.map_some, Option.getD_some, List.length_nil, List.length_append]
        omega
  have htake : (c :: (rest ++ ending)).takeWhile isNameChar = (c :: rest).takeWhile isNameChar :=
    takeWhile_stop (by decide) (c :: rest) _
  simp only [codePiece, hquote, beq_eq_false_iff_ne.mpr ht, beq_eq_false_iff_ne.mpr hs,
    Bool.false_eq_true, if_false, opensElement_stop, htake]
  split
  · exact tagPiece_ending frames (by rw [ho]; simp) rest
  split
  · exact ⟨rfl, .inl rfl⟩
  split
  · next hc =>
    cases frames with
    | nil => exact absurd (by simpa using hc) (hstay rfl)
    | cons f frames =>
      cases f with
      | substitution => exact templatePiece_ending hescape outer frames
      | block | elementCode | tag | children => exact ⟨rfl, .inl rfl⟩
  split
  · exact ⟨rfl, .inl rfl⟩
  · exact ⟨rfl, .inl rfl⟩

/-- A piece of the expression is read alike in the substitution. -/
theorem piece_ending {frames outer : List Frame} (ho : outer.head? = some .substitution)
    {before base : Text} {c : Char} {rest : Text} (hescape : '\\' ∉ rest) (hline : '\n' ∉ c :: rest)
    (hstay : frames = [] → c ≠ '}') :
    AlikeUpTo (rest.length + 1) outer (piece frames before c rest)
      (piece (frames ++ outer) (before ++ '{' :: base) c (rest ++ ending)) := by
  have hcode : AlikeUpTo (rest.length + 1) outer (codePiece frames before c rest)
      (codePiece (frames ++ outer) (before ++ '{' :: base) c (rest ++ ending)) :=
    codePiece_ending ho hescape hline hstay
  match frames with
  | [] =>
    match outer, ho with
    | .substitution :: outer, _ => exact hcode
  | .block :: frames => exact hcode
  | .substitution :: frames => exact hcode
  | .elementCode :: frames => exact hcode
  | .children :: frames =>
    simp only [piece, List.cons_append]
    split
    · exact ⟨rfl, .inl rfl⟩
    split
    · exact tagPiece_ending (.children :: frames) (by rw [ho]; simp) rest
    · exact ⟨rfl, .inl rfl⟩
  | .tag :: frames =>
    have hhead := head?_stop (c := '>') (d := '}') (by decide) rest ['`', '}', ')']
    simp only [piece, List.cons_append]
    rw [show ((rest ++ ending).head? == some '>') = (rest.head? == some '>') from hhead]
    split
    · next hq => exact ⟨rfl, .inl (stringLength_ending (by simpa using hq) rest)⟩
    split
    · exact ⟨rfl, .inl rfl⟩
    split
    · exact ⟨rfl, .inl rfl⟩
    split
    · exact ⟨rfl, .inl rfl⟩
    · exact ⟨rfl, .inl rfl⟩

/-! ### Occurrences -/

/-- A place in the expression, as a place of the text it is embedded in. -/
def Cursor.embed (base : Text) (place : Cursor) : Cursor :=
  ⟨place.before ++ base, place.after ++ ending⟩

theorem isOccurrence_embed {outer : List Frame} (ho : outer.head? = some .substitution)
    (name : Text) (frames : List Frame) (before base : Text) (c : Char) (rest : Text) :
    isOccurrence name (frames ++ outer) ⟨before ++ '{' :: base, (c :: rest) ++ ending⟩ =
      isOccurrence name frames ⟨before, c :: rest⟩ := by
  have hin : inCode (frames ++ outer) = inCode frames := by
    match frames with
    | [] =>
      match outer, ho with
      | .substitution :: outer, _ => rfl
    | f :: frames => cases f <;> rfl
  have htake : ((c :: rest) ++ ending).takeWhile isNameChar = (c :: rest).takeWhile isNameChar :=
    takeWhile_stop (by decide) (c :: rest) _
  have hbrace : isBoundary '{' = true := rfl
  simp only [isOccurrence, hin, htake, callableAfter_stop hbrace]
  rfl

/-- Behind the expression no name is found. -/
theorem occurrencesFrom_ending (name : Text) (skip : Nat) (frames : List Frame) (before : Text) :
    occurrencesFrom name skip frames before ending = [] := by
  suffices h : ∀ t : Text, (∀ c ∈ t, isNameStart c = false) → ∀ skip frames before,
      occurrencesFrom name skip frames before t = [] from
    h ending (fun c hc => by
      simpa using List.all_eq_true.mp (show (ending.all fun c => !isNameStart c) = true from
        rfl) c hc) skip frames before
  intro t ht
  induction t with
  | nil => intros; simp [occurrencesFrom]
  | cons c t ih =>
    have hc := ht c List.mem_cons_self
    have hrest := ih fun d hd => ht d (List.mem_cons_of_mem _ hd)
    intro skip frames before
    cases skip with
    | succ skip => rw [occurrencesFrom, hrest]
    | zero =>
      have hnone : isOccurrence name frames ⟨before, c :: t⟩ = false := by simp [isOccurrence, hc]
      rw [occurrencesFrom, hrest, hnone]
      rfl

theorem occurrencesFrom_embedded {outer : List Frame} (ho : outer.head? = some .substitution)
    (name base : Text) {skip skip' : Nat} {frames : List Frame} {before t : Text}
    (hescape : '\\' ∉ t) (hline : '\n' ∉ t) (hstays : staysInsideFrom skip frames before t = true)
    (hskip : skip' = skip ∨ t.length ≤ skip ∧ t.length ≤ skip') :
    occurrencesFrom name skip' (frames ++ outer) (before ++ '{' :: base) (t ++ ending) =
      (occurrencesFrom name skip frames before t).map (·.embed ('{' :: base)) := by
  induction t generalizing skip skip' frames before with
  | nil =>
    rw [List.nil_append, occurrencesFrom_ending]
    simp [occurrencesFrom]
  | cons c t ih =>
    rw [List.mem_cons, not_or] at hescape
    have hline' : '\n' ∉ t := fun ht => hline (List.mem_cons_of_mem _ ht)
    rcases hskip with rfl | ⟨hlen, hlen'⟩
    · cases skip' with
      | succ skip =>
        rw [staysInsideFrom] at hstays
        rw [List.cons_append, occurrencesFrom, occurrencesFrom]
        exact ih hescape.2 hline' hstays (.inl rfl)
      | zero =>
        rw [staysInsideFrom, Bool.and_eq_true] at hstays
        have hstay : frames = [] → c ≠ '}' := by
          rintro rfl rfl
          cases hstays.1
        obtain ⟨hframes, hlength⟩ :=
          @piece_ending frames outer ho before base c t hescape.2 hline hstay
        have hlater :=
          ih hescape.2 hline' hstays.2 (hlength.imp (congrArg (· - 1)) fun h =>
            ⟨by omega, by omega⟩)
        have hown := isOccurrence_embed ho name frames before base c t
        rw [List.cons_append] at hown
        rw [List.cons_append, occurrencesFrom, occurrencesFrom, hown, hframes,
          ← @List.cons_append _ c before ('{' :: base), hlater]
        split <;> rfl
    · rw [List.length_cons] at hlen hlen'
      obtain ⟨n, rfl⟩ : ∃ n, skip = n + 1 := ⟨skip - 1, by omega⟩
      obtain ⟨n', rfl⟩ : ∃ n', skip' = n' + 1 := ⟨skip' - 1, by omega⟩
      rw [staysInsideFrom] at hstays
      rw [List.cons_append, occurrencesFrom, occurrencesFrom]
      exact ih hescape.2 hline' hstays (.inr ⟨by omega, by omega⟩)

/-- **An expression is walked in a substitution as it is alone.** -/
theorem occurrencesFrom_substitution {outer : List Frame} (ho : outer.head? = some .substitution)
    (name base : Text) {t : Text} (hescape : '\\' ∉ t) (hline : '\n' ∉ t)
    (hstays : staysInside t = true) :
    occurrencesFrom name 0 outer ('{' :: base) (t ++ ending) =
      (occurrences name t).map (·.embed ('{' :: base)) :=
  @occurrencesFrom_embedded outer ho name base 0 0 [] [] t hescape hline hstays (.inl rfl)

end Localization.Script
