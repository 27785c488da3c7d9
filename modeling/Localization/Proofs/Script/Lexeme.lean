import Mathlib
import Localization.Proofs.Script.Balanced
import Localization.Proofs.Script.Behind
import Localization.Script.Code

/-! How the walk for a name reads one token.

`found` lists the bytes before each place that the walk finds. Each lemma on it says
what the walk finds in the text of one kind of token, and that it goes on behind the
token: nothing is found in literals and comments (`found_string`,
`found_template_text`, `found_blockComment`, `found_lineComment`), and a run of word
characters is found as a whole (`found_run`). -/
namespace Localization.Script

/-- The bytes before each place from here on where the walk finds a name. -/
def found (name : Text) (frames : List Frame) (before t : Text) : List Nat :=
  (occurrencesFrom name 0 frames before t).map fun place => Text.size place.before

variable {name : Text} {frames : List Frame}

/-- The walk reads one piece and goes on behind it. -/
theorem found_piece {outer : List Frame} {before a z : Text} {c : Char}
    (hp : piece frames before c (a ++ z) = ⟨a.length + 1, outer⟩) :
    found name frames before (c :: (a ++ z)) =
      (if isOccurrence name frames ⟨before, c :: (a ++ z)⟩ then [Text.size before] else []) ++
        found name outer (a.reverse ++ c :: before) z := by
  have hlater : occurrencesFrom name (a.length + 1 - 1) outer (c :: before) (a ++ z) =
      occurrencesFrom name 0 outer (a.reverse ++ c :: before) z :=
    occurrencesFrom_append name a z _ rfl outer (c :: before)
  simp only [found, occurrencesFrom, hp, hlater]
  by_cases ho : isOccurrence name frames ⟨before, c :: (a ++ z)⟩ = true
  · rw [if_pos ho, if_pos ho]
    rfl
  · rw [if_neg ho, if_neg ho]
    rfl

/-- Nothing is found in a piece that does not start like a name. -/
theorem found_silent {outer : List Frame} {before a z : Text} {c : Char}
    (hc : isNameStart c = false) (hp : piece frames before c (a ++ z) = ⟨a.length + 1, outer⟩) :
    found name frames before (c :: (a ++ z)) = found name outer (a.reverse ++ c :: before) z := by
  have ho : isOccurrence name frames ⟨before, c :: (a ++ z)⟩ = false := by
    simp [isOccurrence, hc]
  rw [found_piece hp, ho]
  rfl

theorem found_char {outer : List Frame} {before z : Text} {c : Char} (hc : isNameStart c = false)
    (hp : piece frames before c z = ⟨1, outer⟩) :
    found name frames before (c :: z) = found name outer (c :: before) z :=
  found_silent (a := []) hc hp

theorem piece_code (hf : inCode frames = true) (before : Text) (c : Char) (rest : Text) :
    piece frames before c rest = codePiece frames before c rest := by
  cases frames with
  | nil => rfl
  | cons f outer =>
    cases f with
    | tag => cases hf
    | children => cases hf
    | _ => rfl

theorem isNameStart_eq_false {c : Char} (h : isNameChar c = false) : isNameStart c = false := by
  rw [Bool.eq_false_iff]
  intro hs
  rw [isNameChar_of_isNameStart hs] at h
  cases h

/-! ### Single characters -/

/-- The characters that stand for themselves: no part of a name, and nothing starts or ends with
them. A slash is one where no comment starts. -/
def isPlain (c : Char) : Bool :=
  !isNameChar c && !(['\'', '"', '`', '/', '<', '{', '}'].contains c)

theorem found_plain (hf : inCode frames = true) {c : Char} (hc : isPlain c = true)
    (before z : Text) :
    found name frames before (c :: z) = found name frames (c :: before) z := by
  simp only [isPlain, Bool.and_eq_true, Bool.not_eq_true'] at hc
  obtain ⟨hn, hother⟩ := hc
  refine found_char (isNameStart_eq_false hn) ?_
  rw [piece_code hf]
  simp only [List.contains_cons, List.contains_nil, Bool.or_false, Bool.or_eq_false_iff] at hother
  simp [codePiece, hother, hn]

theorem found_slash (hf : inCode frames = true) {z : Text} (hz : commentPrefix? ('/' :: z) = none)
    (before : Text) :
    found name frames before ('/' :: z) = found name frames ('/' :: before) z := by
  refine found_char rfl ?_
  rw [piece_code hf]
  simp [codePiece, hz]

theorem found_blanks (hf : inCode frames = true) {w : Text} (hw : w.all isPlain = true)
    (before z : Text) :
    found name frames before (w ++ z) = found name frames (w.reverse ++ before) z := by
  induction w generalizing before with
  | nil => rfl
  | cons c rest ih =>
    rw [List.all_cons, Bool.and_eq_true] at hw
    rw [List.cons_append, found_plain hf hw.1, ih hw.2, List.reverse_cons, List.append_assoc]
    rfl

theorem isPlain_of_isScriptBlank {c : Char} (h : isScriptBlank c = true) : isPlain c = true := by
  rw [isPlain, not_isNameChar_of_isScriptBlank h, Bool.not_false, Bool.true_and, Bool.not_eq_true',
    Bool.eq_false_iff]
  intro hc
  simp only [List.contains_cons, List.contains_nil, Bool.or_false, Bool.or_eq_true,
    beq_iff_eq] at hc
  rcases hc with rfl | rfl | rfl | rfl | rfl | rfl | rfl <;> revert h <;> decide

theorem isPlain_of_isMark {c : Char} (h : isMark c = true) (hc : c ≠ '/') : isPlain c = true := by
  have := of_isMark (p := fun c => c == '/' || isPlain c) (by decide) h
  simpa [hc] using this

/-! ### Runs of word characters -/

/-- A run of word characters is read at once, and found if it is the name and may be called. -/
theorem found_run (hf : inCode frames = true) {c : Char} {a z : Text} (hc : isNameChar c = true)
    (ha : a.all isNameChar = true) (hz : isOutsideName z = true) (before : Text) :
    found name frames before (c :: (a ++ z)) =
      (if isNameStart c && (c :: a == name) && callableAfter before then
        [Text.size before] else []) ++
        found name frames (a.reverse ++ c :: before) z := by
  have hrun : (c :: (a ++ z)).takeWhile isNameChar = c :: a :=
    takeWhile_word (w := c :: a) (by simpa [hc] using ha) hz
  have hp : piece frames before c (a ++ z) = ⟨a.length + 1, frames⟩ := by
    have hne : ∀ d, isNameChar d = false → c ≠ d := by
      rintro d hd rfl
      rw [hc] at hd
      cases hd
    rw [piece_code hf]
    simp [codePiece, hrun, hc, hne '\'' rfl, hne '"' rfl, hne '`' rfl, hne '/' rfl, hne '<' rfl,
      hne '{' rfl, hne '}' rfl]
  rw [found_piece hp]
  simp only [isOccurrence, hf, hrun, Bool.true_and]

/-- A run that does not start like a name is passed over. -/
theorem found_digits (hf : inCode frames = true) {w z : Text} (hw : w.all isNameChar = true)
    (hs : ∀ c ∈ w.head?, isNameStart c = false) (hz : isOutsideName z = true) (before : Text) :
    found name frames before (w ++ z) = found name frames (w.reverse ++ before) z := by
  cases w with
  | nil => rfl
  | cons c a =>
    rw [List.all_cons, Bool.and_eq_true] at hw
    rw [List.cons_append, found_run hf hw.1 hw.2 hz, hs c rfl, List.reverse_cons, List.append_assoc]
    rfl

/-- A run behind a point that is no spread is passed over. -/
theorem found_member (hf : inCode frames = true) {w z before : Text} (hw : w.all isNameChar = true)
    (hp : callableAfter before = false) (hz : isOutsideName z = true) :
    found name frames before (w ++ z) = found name frames (w.reverse ++ before) z := by
  cases w with
  | nil => rfl
  | cons c a =>
    rw [List.all_cons, Bool.and_eq_true] at hw
    rw [List.cons_append, found_run hf hw.1 hw.2 hz, hp, Bool.and_false, List.reverse_cons,
      List.append_assoc]
    rfl

/-! ### Literals -/

/-- A string is read up to the quote that closes it. -/
theorem closing_string {quote : Char} (hq : quote = '\'' ∨ quote = '"') {body : Text}
    (h : isStringBody quote body = true) (z : Text) :
    closing (.inside (.quoted quote)) (body ++ quote :: z) = some (body ++ [quote], z) := by
  have hesc : quote ≠ '\\' := by rcases hq with rfl | rfl <;> decide
  have hline : quote ≠ '\n' := by rcases hq with rfl | rfl <;> decide
  fun_induction isStringBody quote body with
  | case1 => simp [closing, State.step, State.inside, hesc, hline]
  | case2 => cases h
  | case3 c rest ih =>
    have hback : (State.inside (.quoted quote)).step '\\' = some ⟨[.quoted quote], .escape⟩ := rfl
    have hnext : (⟨[.quoted quote], .escape⟩ : State).step c = some (.inside (.quoted quote)) := rfl
    rw [List.cons_append, List.cons_append, closing_cons hback (by simp),
      closing_cons hnext (by simp [State.inside]), ih h]
    rfl
  | case4 c rest _ hb ih =>
    simp only [Bool.and_eq_true, bne_iff_ne, ne_eq] at h
    obtain ⟨⟨⟨hcq, hcl⟩, -⟩, hrest⟩ := h
    have hc : c ≠ '\\' := by
      rintro rfl
      cases rest with
      | nil => simp_all
      | cons d rest => exact hb d rest rfl rfl
    have hnext : (State.inside (.quoted quote)).step c = some (.inside (.quoted quote)) := by
      simp [State.step, State.inside, hc, hcl, hcq]
    rw [List.cons_append, closing_cons hnext (by simp [State.inside]), ih hrest]
    rfl

theorem found_string (hf : inCode frames = true) {quote : Char} (hq : quote = '\'' ∨ quote = '"')
    {body before : Text} (hb : isStringBody quote body = true) (ho : opensString before = true)
    (z : Text) :
    found name frames before ((Token.string quote body).text ++ z) =
      found name frames ((Token.string quote body).text.reverse ++ before) z := by
  have htext : (Token.string quote body).text ++ z = quote :: ((body ++ [quote]) ++ z) := rfl
  have hbefore : (Token.string quote body).text.reverse ++ before =
      (body ++ [quote]).reverse ++ quote :: before := by
    simp [Token.text]
  rw [htext, hbefore]
  refine found_silent (by rcases hq with rfl | rfl <;> rfl) ?_
  have hlength : stringLength quote ((body ++ [quote]) ++ z) = (body ++ [quote]).length + 1 := by
    rw [stringLength, List.append_assoc, List.singleton_append, closing_string hq hb]
    exact Nat.add_comm ..
  have hquote : (quote == '\'' || quote == '"') = true := by rcases hq with rfl | rfl <;> rfl
  rw [piece_code hf]
  simp only [codePiece, hquote, ho, if_true, hlength]

/-- The text of a template is read up to what ends it. -/
theorem templateText_append {head : Text} (h : isTemplateText head = true) {z : Text}
    (hz : (∃ z', z = '`' :: z') ∨ ∃ z', z = '$' :: '{' :: z') :
    templateText (head ++ z) = (head.length + (templateText z).1, (templateText z).2) := by
  fun_induction isTemplateText head with
  | case1 => simp
  | case2 => cases h
  | case3 c rest ih =>
    rw [List.cons_append, List.cons_append, templateText, ih h]
    simp only [List.length_cons, Prod.mk.injEq, and_true]
    omega
  | case4 => cases h
  | case5 => cases h
  | case6 c rest hb hb' htick hdollar ih =>
    have hstep : templateText (c :: (rest ++ z)) =
        ((templateText (rest ++ z)).1 + 1, (templateText (rest ++ z)).2) := by
      rw [templateText]
      · intro hc hnil
        exact hb hc (List.append_eq_nil_iff.mp hnil).1
      · intro d tail hc htail
        cases rest with
        | nil => exact hb hc rfl
        | cons e rest => exact hb' e rest hc rfl
      · exact htick
      · intro tail hc htail
        cases rest with
        | nil => rcases hz with ⟨z', rfl⟩ | ⟨z', rfl⟩ <;> cases htail
        | cons e rest =>
          cases htail
          exact hdollar rest hc rfl
    rw [List.cons_append, hstep, ih h]
    simp only [List.length_cons, Prod.mk.injEq, and_true]
    omega

section

variable {outer : List Frame} {before head : Text} {opener : Char}

/-- The last text of a template is passed over with the backtick behind it. -/
theorem found_template_end (ho : isNameStart opener = false)
    (hp : ∀ rest, piece frames before opener rest = templatePiece outer rest)
    (hh : isTemplateText head = true) (z : Text) :
    found name frames before (opener :: (head ++ '`' :: z)) =
      found name outer ('`' :: (head.reverse ++ opener :: before)) z := by
  have hend : templateText (head ++ '`' :: z) = (head.length + 1, false) :=
    templateText_append hh (.inl ⟨z, rfl⟩)
  have hpiece : piece frames before opener ((head ++ ['`']) ++ z) =
      ⟨(head ++ ['`']).length + 1, outer⟩ := by
    rw [hp, templatePiece, List.append_assoc]
    show Piece.mk (1 + (templateText (head ++ '`' :: z)).1) _ = _
    simp [hend, Nat.add_comm]
  have := @found_silent name _ _ _ _ _ _ ho hpiece
  simpa using this

/-- The text of a template before a substitution is passed over, and code starts behind it. -/
theorem found_template_code (ho : isNameStart opener = false)
    (hp : ∀ rest, piece frames before opener rest = templatePiece outer rest)
    (hh : isTemplateText head = true) (z : Text) :
    found name frames before (opener :: (head ++ '$' :: '{' :: z)) =
      found name (.substitution :: outer) ('{' :: '$' :: (head.reverse ++ opener :: before)) z := by
  have hend : templateText (head ++ '$' :: '{' :: z) = (head.length + 2, true) :=
    templateText_append hh (.inr ⟨z, rfl⟩)
  have hpiece : piece frames before opener ((head ++ ['$', '{']) ++ z) =
      ⟨(head ++ ['$', '{']).length + 1, .substitution :: outer⟩ := by
    rw [hp, templatePiece, List.append_assoc]
    show Piece.mk (1 + (templateText (head ++ '$' :: '{' :: z)).1) _ = _
    simp [hend, Nat.add_comm]
  have := @found_silent name _ _ _ _ _ _ ho hpiece
  simpa using this

end

/-! ### Comments -/

/-- The comment before the first `*/` is read with it. -/
theorem afterBlockComment_append {body : Text} (h : Text.occursIn "*/" body = false) (z : Text) :
    afterBlockComment (body ++ '*' :: '/' :: z) = z := by
  induction body with
  | nil => rfl
  | cons c rest ih =>
    rw [Text.occursIn, Bool.or_eq_false_iff] at h
    rw [List.cons_append, afterBlockComment, ih h.2]
    intro tail hc htail
    subst hc
    cases rest with
    | nil => cases htail
    | cons d rest =>
      cases htail
      exact absurd h.1 (by simp)

theorem found_blockComment (hf : inCode frames = true) {body : Text}
    (hb : Text.occursIn "*/" body = false) (before z : Text) :
    found name frames before ((Token.blockComment body).text ++ z) =
      found name frames ((Token.blockComment body).text.reverse ++ before) z := by
  have hcomment : commentPrefix? ('/' :: '*' :: (body ++ '*' :: '/' :: z)) = some z :=
    congrArg some (afterBlockComment_append hb z)
  have hpiece : piece frames before '/' (('*' :: (body ++ ['*', '/'])) ++ z) =
      ⟨('*' :: (body ++ ['*', '/'])).length + 1, frames⟩ := by
    have htext : ('*' :: (body ++ ['*', '/'])) ++ z = '*' :: (body ++ '*' :: '/' :: z) := by simp
    rw [piece_code hf, htext]
    simp [codePiece, hcomment]
    omega
  have := @found_silent name _ _ _ _ _ _ rfl hpiece
  simpa [Token.text] using this

/-- Whether a text has only plain characters up to the end of its first line. -/
def EndsLine (t : Text) : Prop :=
  ∃ w z : Text, t = w ++ z ∧ w.all isPlain = true ∧ '\n' ∉ w ∧ (z = [] ∨ z.head? = some '\n')

/-- A line comment is passed over, and so are blanks between it and the line feed. -/
theorem found_lineComment (hf : inCode frames = true) {body : Text} (hb : '\n' ∉ body) {z : Text}
    (hz : EndsLine z) (before : Text) :
    found name frames before ((Token.lineComment body).text ++ z) =
      found name frames ((Token.lineComment body).text.reverse ++ before) z := by
  obtain ⟨w, z, rfl, hw, hline, hend⟩ := hz
  have hbehind : (body ++ w ++ z).dropWhile (· != '\n') = z := by
    have hall : ∀ c ∈ body ++ w, (c != '\n') = true := by
      intro c hc
      rw [bne_iff_ne]
      rintro rfl
      exact (List.mem_append.mp hc).elim hb hline
    rw [List.dropWhile_append_of_pos hall]
    rcases hend with rfl | hend
    · rfl
    · cases z with
      | nil => rfl
      | cons c rest =>
        cases hend
        rfl
  have hcomment : commentPrefix? ('/' :: '/' :: (body ++ w ++ z)) = some z := congrArg some hbehind
  have hpiece : piece frames before '/' (('/' :: (body ++ w)) ++ z) =
      ⟨('/' :: (body ++ w)).length + 1, frames⟩ := by
    rw [piece_code hf, List.cons_append]
    simp only [codePiece, hcomment]
    simp
    omega
  have hskip := @found_silent name _ _ _ _ _ _ rfl hpiece
  rw [found_blanks hf hw]
  simpa [Token.text] using hskip

end Localization.Script
