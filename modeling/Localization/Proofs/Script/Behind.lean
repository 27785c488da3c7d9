import Mathlib
import Localization.Proofs.Script.Token

/-! What the text before a token says of the tokens before it.

Whether a name is called, and whether a quote opens a string, is judged from the
characters before it. Here that judgement is put in terms of the tokens before:
`opensString_behind` for quotes and `callableAfter_behind` for names. The second shows
where characters mislead, `isMisread`. -/
namespace Localization.Script

open Token (mayStandBehind mayTouch endsInWord)

/-! ### Texts at whose head no name goes on -/

/-- Whether a text does not go on with a character of a name. -/
def isOutsideName : Text → Bool
  | [] => true
  | c :: _ => !isNameChar c

theorem isOutsideName_dropWhile (t : Text) : isOutsideName (t.dropWhile isNameChar) = true := by
  have hhead := List.head?_dropWhile_not isNameChar t
  cases hdrop : t.dropWhile isNameChar with
  | nil => rfl
  | cons c rest =>
    rw [hdrop] at hhead
    simpa [isOutsideName] using hhead

/-- The text before a place, from the nearest character on, that follows some tokens from the
nearest on and what stands before them. -/
def textBehind (base : Text) : List Token → Text
  | [] => base
  | t :: left => t.text.reverse ++ textBehind base left

/-- Whether a text before a place starts where tokens may start: nowhere or behind a brace. -/
def IsOpening (base : Text) : Prop := base = [] ∨ base.head? = some '{'

/-- Tokens, from the nearest on, that have the shape of their kind and may stand where they do. -/
def AreSettled : List Token → Prop
  | [] => True
  | t :: left => t.isShaped = true ∧ t.mayStandBehind left = true ∧ AreSettled left

theorem tokensText_append (a b : List Token) :
    tokensText (a ++ b) = tokensText a ++ tokensText b := by
  induction a with
  | nil => rfl
  | cons t rest ih => simp only [List.cons_append, tokensText, ih, List.append_assoc]

theorem textBehind_eq (base : Text) (left : List Token) :
    textBehind base left = (tokensText left.reverse).reverse ++ base := by
  induction left with
  | nil => rfl
  | cons t rest ih =>
    rw [textBehind, ih, List.reverse_cons, tokensText_append]
    simp [tokensText]

/-! ### The last characters of tokens -/

theorem mayTouch_of_mayStandBehind {left : List Token} {t : Token}
    (h : t.mayStandBehind left = true) (hb : ∀ c, t ≠ .blank c) : t.mayTouch left = true := by
  unfold mayStandBehind at h
  split at h
  · exact absurd rfl (hb _)
  · cases h
  · exact h

theorem isNameChar_of_isNameStart {c : Char} (h : isNameStart c = true) : isNameChar c = true := by
  simp only [isNameStart, isNameChar, Char.isAlphanum, Bool.or_eq_true] at h ⊢
  rcases h with (h | h) | h <;> simp [h]

theorem isNameChar_of_isDigit {c : Char} (h : c.isDigit = true) : isNameChar c = true := by
  simp [isNameChar, Char.isAlphanum, h]

theorem all_of_isName {w : Text} (h : isName w = true) : w.all isNameChar = true := by
  cases w with
  | nil => rfl
  | cons c rest =>
    rw [isName, Bool.and_eq_true] at h
    rw [List.all_cons, Bool.and_eq_true]
    exact ⟨isNameChar_of_isNameStart h.1, h.2⟩

/-- The last character of a token that is no word and no line comment. -/
def lastChar : Token → Char
  | .string quote _ => quote
  | .template _ _ => '`'
  | .blockComment _ => '/'
  | .blank c => c
  | .mark c => c
  | .spread => '.'
  | .block _ => '}'
  | _ => ' '

def isLineComment : Token → Bool
  | .lineComment _ => true
  | _ => false

theorem partsText_getLast (parts : List (List Token × Text)) :
    ∃ init, partsText parts = init ++ ['`'] := by
  induction parts with
  | nil => exact ⟨[], rfl⟩
  | cons part rest ih =>
    obtain ⟨code, behind⟩ := part
    obtain ⟨init, h⟩ := ih
    exact ⟨'$' :: '{' :: (tokensText code ++ '}' :: (behind ++ init)), by simp [partsText, h]⟩

theorem text_eq_append_lastChar {t : Token} (hw : t.isWord = false) (hc : isLineComment t = false) :
    ∃ init, t.text = init ++ [lastChar t] := by
  cases t with
  | word name => cases hw
  | number whole fraction exponent => cases hw
  | lineComment body => cases hc
  | string quote body => exact ⟨quote :: body, by simp [Token.text, lastChar]⟩
  | template head parts =>
    obtain ⟨init, h⟩ := partsText_getLast parts
    exact ⟨'`' :: (head ++ init), by simp [Token.text, lastChar, h]⟩
  | blockComment body => exact ⟨'/' :: '*' :: (body ++ ['*']), by simp [Token.text, lastChar]⟩
  | blank c => exact ⟨[], rfl⟩
  | mark c => exact ⟨[], rfl⟩
  | spread => exact ⟨['.', '.'], rfl⟩
  | block inner => exact ⟨'{' :: tokensText inner, by simp [Token.text, lastChar]⟩

theorem toNat_of_isNameChar {c : Char} (h : isNameChar c = true) :
    36 ≤ c.toNat ∧ c.toNat ≤ 122 := by
  simp only [isNameChar, Char.isAlphanum, Char.isAlpha, Char.isUpper, Char.isLower, Char.isDigit,
    Bool.or_eq_true, Bool.and_eq_true, decide_eq_true_eq, beq_iff_eq, ge_iff_le,
    UInt32.le_iff_toNat_le] at h
  have ht : c.toNat = c.val.toNat := rfl
  rcases h with (((⟨h1, h2⟩ | ⟨h1, h2⟩) | ⟨h1, h2⟩) | rfl) | rfl
  · simp at h1 h2; omega
  · simp at h1 h2; omega
  · simp at h1 h2; omega
  · decide
  · decide

theorem not_isNameChar_of_isScriptBlank {c : Char} (h : isScriptBlank c = true) :
    isNameChar c = false := by
  rw [Bool.eq_false_iff]
  intro hn
  obtain ⟨h1, h2⟩ := toNat_of_isNameChar hn
  simp only [isScriptBlank, Text.isBlank, Bool.or_eq_true, Bool.and_eq_true, decide_eq_true_eq,
    beq_iff_eq] at h
  rcases h with ⟨h, -⟩ | rfl
  · omega
  · exact absurd h2 (by decide)

/-- A property that is checked mark by mark. -/
theorem of_isMark {p : Char → Bool} (hall : "()[];,:?=+-*%&|^!~>./@".toList.all p = true) {c : Char}
    (h : isMark c = true) : p c = true := by
  rw [isMark, List.contains_iff_mem] at h
  exact List.all_eq_true.mp hall c h

theorem not_isNameChar_lastChar {t : Token} (hs : t.isShaped = true) (hw : t.isWord = false) :
    isNameChar (lastChar t) = false := by
  cases t with
  | word name => cases hw
  | number whole fraction exponent => cases hw
  | string quote body =>
    simp only [Token.isShaped, Bool.and_eq_true, Bool.or_eq_true, beq_iff_eq] at hs
    rcases hs.1 with rfl | rfl <;> rfl
  | blank c => exact not_isNameChar_of_isScriptBlank hs
  | mark c =>
    show isNameChar c = false
    simpa using of_isMark (p := fun c => !isNameChar c) (by decide) hs
  | template head parts => rfl
  | lineComment body => rfl
  | blockComment body => rfl
  | spread => rfl
  | block inner => rfl

/-! ### Tokens that touch -/

def endsInComment : List Token → Bool
  | [] => false
  | t :: _ => isLineComment t

theorem endsInComment_of_mayStandBehind {left : List Token} {t : Token}
    (h : t.mayStandBehind left = true) (hb : ∀ c, t ≠ .blank c) : endsInComment left = false := by
  cases left with
  | nil => rfl
  | cons first rest =>
    cases first with
    | lineComment body =>
      cases t with
      | blank c => exact absurd rfl (hb c)
      | _ => cases h
    | _ => rfl

/-- Behind what is neither a word nor a line comment no name goes on. -/
theorem isOutsideName_behind {base : Text} {left : List Token} (hb : IsOpening base)
    (hs : AreSettled left) (hw : endsInWord left = false) (hc : endsInComment left = false) :
    isOutsideName (textBehind base left) = true := by
  cases left with
  | nil =>
    rcases hb with rfl | hb
    · rfl
    · cases base with
      | nil => rfl
      | cons c rest =>
        cases hb
        rfl
  | cons t rest =>
    obtain ⟨init, ht⟩ := text_eq_append_lastChar hw hc
    have hn := not_isNameChar_lastChar hs.1 hw
    simp [textBehind, ht, isOutsideName, hn]

/-! ### Quotes -/

theorem takeWhile_word {w x : Text} (hw : w.all isNameChar = true) (hx : isOutsideName x = true) :
    (w ++ x).takeWhile isNameChar = w := by
  induction w with
  | nil =>
    cases x with
    | nil => rfl
    | cons c rest =>
      rw [isOutsideName, Bool.not_eq_true'] at hx
      rw [List.nil_append, List.takeWhile_cons_of_neg (by simp [hx])]
  | cons c rest ih =>
    rw [List.all_cons, Bool.and_eq_true] at hw
    rw [List.cons_append, List.takeWhile_cons_of_pos hw.1, ih hw.2]

/-- A quote opens a string wherever a string may stand. -/
theorem opensString_behind {base : Text} {left : List Token} {quote : Char} {body : Text}
    (hb : IsOpening base) (hs : AreSettled left)
    (ht : (Token.string quote body).mayStandBehind left = true) :
    opensString (textBehind base left) = true := by
  have hc := endsInComment_of_mayStandBehind ht (by rintro c ⟨⟩)
  have htouch := mayTouch_of_mayStandBehind ht (by rintro c ⟨⟩)
  by_cases hw : endsInWord left = false
  · have hout := isOutsideName_behind hb hs hw hc
    have hnone : (textBehind base left).takeWhile isNameChar = [] := by
      simpa using takeWhile_word (w := []) rfl hout
    simp [opensString, hnone]
  · cases left with
    | nil => exact absurd rfl hw
    | cons first rest =>
      cases first with
      | word name =>
        have hfirst := mayTouch_of_mayStandBehind hs.2.1 (by rintro c ⟨⟩)
        have hname := all_of_isName hs.1
        have hout := isOutsideName_behind hb hs.2.2 (by simpa [mayTouch] using hfirst)
          (endsInComment_of_mayStandBehind hs.2.1 (by rintro c ⟨⟩))
        have htake : (textBehind base (.word name :: rest)).takeWhile isNameChar = name.reverse :=
          takeWhile_word (by simpa [Token.text] using hname) hout
        simp only [opensString, htake, List.reverse_reverse]
        rw [mayTouch] at htouch
        rw [htouch, Bool.or_true]
      | number whole fraction exponent => cases htouch
      | _ => exact absurd rfl hw

/-! ### Words before a place -/

/-- Whether a text before a place starts with a word as a whole. -/
def isWordAt (word before : Text) : Bool :=
  word.reverse.isPrefixOf before && isOutsideName (before.drop word.length)

theorem precededBy_cons (word : Text) (c : Char) (rest : Text) :
    precededBy word (c :: rest) = (Text.isAsciiBlank c &&
      isWordAt word (skipBlanks (c :: rest))) := by
  rw [precededBy, isWordAt, Bool.and_assoc]
  rfl

/-- Before a whole word stands that word and no other. -/
theorem isWordAt_word {word w x : Text} (hword : word.all isNameChar = true)
    (hw : w.all isNameChar = true) (hx : isOutsideName x = true) :
    isWordAt word (w.reverse ++ x) = (w == word) := by
  suffices h : ∀ v u : Text, v.all isNameChar = true → u.all isNameChar = true →
      (v.isPrefixOf (u ++ x) && isOutsideName ((u ++ x).drop v.length)) = (u == v) by
    have := h word.reverse w.reverse (by simpa using hword) (by simpa using hw)
    rw [List.length_reverse] at this
    rw [isWordAt, this]
    by_cases he : w = word
    · simp [he]
    · rw [beq_eq_false_iff_ne.mpr he, beq_eq_false_iff_ne]
      exact fun h => he (List.reverse_inj.mp h)
  intro v
  induction v with
  | nil =>
    intro u _ hu
    cases u with
    | nil => simp [hx]
    | cons c rest =>
      rw [List.all_cons, Bool.and_eq_true] at hu
      simp [isOutsideName, hu.1]
  | cons d v ih =>
    intro u hv hu
    rw [List.all_cons, Bool.and_eq_true] at hv
    cases u with
    | nil =>
      cases x with
      | nil => rfl
      | cons c rest =>
        have hne : (d == c) = false := by
          rw [beq_eq_false_iff_ne]
          rintro rfl
          rw [isOutsideName, hv.1] at hx
          cases hx
        show (((d == c) && v.isPrefixOf rest) && _) = false
        rw [hne]
        rfl
    | cons c rest =>
      rw [List.all_cons, Bool.and_eq_true] at hu
      show (((d == c) && v.isPrefixOf (rest ++ x)) && isOutsideName ((rest ++ x).drop v.length)) =
        ((c == d) && rest == v)
      rw [Bool.and_assoc, ih rest hv.2 hu.2, Bool.beq_comm]

/-- A character of no word hides what stands before it. -/
theorem isWordAt_append {word : Text} (hword : word.all isNameChar = true) {c : Char}
    (hc : isNameChar c = false) (z x y : Text) :
    isWordAt word (z ++ c :: x) = isWordAt word (z ++ c :: y) := by
  suffices h : ∀ v z : Text, v.all isNameChar = true →
      (v.isPrefixOf (z ++ c :: x) && isOutsideName ((z ++ c :: x).drop v.length)) =
        (v.isPrefixOf (z ++ c :: y) && isOutsideName ((z ++ c :: y).drop v.length)) by
    simpa only [isWordAt, List.length_reverse] using h word.reverse z (by simpa using hword)
  intro v
  induction v with
  | nil =>
    intro z _
    cases z <;> simp [isOutsideName]
  | cons d v ih =>
    intro z hv
    rw [List.all_cons, Bool.and_eq_true] at hv
    cases z with
    | nil =>
      have hne : (d == c) = false := by
        rw [beq_eq_false_iff_ne]
        rintro rfl
        rw [hv.1] at hc
        cases hc
      show (((d == c) && _) && _) = (((d == c) && _) && _)
      rw [hne]
      rfl
    | cons e z =>
      show (((d == e) && v.isPrefixOf (z ++ c :: x)) &&
        isOutsideName ((z ++ c :: x).drop v.length)) =
        (((d == e) && v.isPrefixOf (z ++ c :: y)) && isOutsideName ((z ++ c :: y).drop v.length))
      rw [Bool.and_assoc, Bool.and_assoc, ih z hv.2]

/-- Whether a text ends in a word, blanks aside. -/
def endsInName (word t : Text) : Bool := isWordAt word (skipBlanks t.reverse)

theorem skipBlanks_cons {c : Char} (h : Text.isAsciiBlank c = false) (rest : Text) :
    skipBlanks (c :: rest) = c :: rest := by
  rw [skipBlanks, List.dropWhile_cons_of_neg (by simp [h])]

theorem skipBlanks_append {c : Char} (h : Text.isAsciiBlank c = false) (a rest : Text) :
    skipBlanks (a ++ c :: rest) = skipBlanks a ++ c :: rest := by
  induction a with
  | nil => exact skipBlanks_cons h rest
  | cons d a ih =>
    by_cases hd : Text.isAsciiBlank d = true
    · simpa [skipBlanks, hd] using ih
    · rw [Bool.not_eq_true] at hd
      rw [List.cons_append, skipBlanks_cons hd, skipBlanks_cons hd, List.cons_append]

theorem isScriptBlank_of_isAsciiBlank {c : Char} (h : Text.isAsciiBlank c = true) :
    isScriptBlank c = true := by
  simp only [Text.isAsciiBlank, Bool.or_eq_true, beq_iff_eq] at h
  rcases h with (((rfl | rfl) | rfl) | rfl) | rfl <;> decide

theorem not_isAsciiBlank_of_isNameChar {c : Char} (h : isNameChar c = true) :
    Text.isAsciiBlank c = false := by
  rw [Bool.eq_false_iff]
  intro hb
  rw [not_isNameChar_of_isScriptBlank (isScriptBlank_of_isAsciiBlank hb)] at h
  cases h

/-- No blanks are skipped before a word. -/
theorem skipBlanks_word {w : Text} (hw : w.all isNameChar = true) (hne : w ≠ []) (x : Text) :
    skipBlanks (w.reverse ++ x) = w.reverse ++ x := by
  obtain ⟨init, c, rfl⟩ := (List.eq_nil_or_concat w).resolve_left hne
  have hc : isNameChar c = true := List.all_eq_true.mp hw c (by simp)
  rw [List.concat_eq_append, List.reverse_append, List.reverse_singleton, List.append_assoc]
  exact skipBlanks_cons (not_isAsciiBlank_of_isNameChar hc) _

theorem isWordAt_function_cons {c : Char} (h : c ≠ 'n') (rest : Text) :
    isWordAt "function" (c :: rest) = false := by
  have hne : ('n' == c) = false := beq_eq_false_iff_ne.mpr (Ne.symm h)
  show ((('n' == c) && _) && _) = false
  rw [hne]
  rfl

/-- A number is not the keyword, nor does it end in it. -/
theorem isWordAt_numeral {whole : Text} {fraction : Option Text} {exponent : Option (Char × Text)}
    (h : isNumeral whole fraction exponent = true) {x : Text} (hx : isOutsideName x = true) :
    isWordAt "function" (skipBlanks ((numeral whole fraction exponent).reverse ++ x)) = false := by
  have hlast : ∀ (init : Text) (c : Char), numeral whole fraction exponent = init ++ [c] → c ≠ 'n' →
      Text.isAsciiBlank c = false →
      isWordAt "function" (skipBlanks ((numeral whole fraction exponent).reverse ++ x)) =
        false := by
    intro init c he hc hb
    rw [he, List.reverse_append, List.reverse_singleton, List.append_assoc, List.singleton_append,
      skipBlanks_cons hb]
    exact isWordAt_function_cons hc _
  have hdigit : ∀ c : Char, c.isDigit = true → c ≠ 'n' ∧ Text.isAsciiBlank c = false := by
    intro c hc
    refine ⟨?_, not_isAsciiBlank_of_isNameChar (isNameChar_of_isDigit hc)⟩
    rintro rfl
    cases hc
  simp only [isNumeral, Bool.and_eq_true] at h
  obtain ⟨⟨hparts, hwhole⟩, hexp⟩ := h
  cases exponent with
  | some e =>
    obtain ⟨sign, digits⟩ := e
    simp only [Bool.and_eq_true, Bool.not_eq_true', List.isEmpty_eq_false_iff] at hexp
    obtain ⟨⟨⟨-, hne⟩, hdigits⟩, -⟩ := hexp
    obtain ⟨init, c, rfl⟩ := (List.eq_nil_or_concat digits).resolve_left hne
    have hc := hdigit c (List.all_eq_true.mp hdigits c (by simp))
    cases fraction with
    | some f =>
      exact hlast (whole ++ '.' :: (f ++ sign :: init)) c
        (by simp [numeral, exponentText]) hc.1 hc.2
    | none => exact hlast (whole ++ sign :: init) c (by simp [numeral, exponentText]) hc.1 hc.2
  | none =>
    cases fraction with
    | some f =>
      simp only [Bool.and_eq_true] at hparts
      rcases List.eq_nil_or_concat f with rfl | ⟨init, c, rfl⟩
      · exact hlast whole '.' (by simp [numeral, exponentText]) (by decide) (by decide)
      · have hc : isFractionChar c = true := List.all_eq_true.mp hparts.1 c (by simp)
        simp only [isFractionChar, Bool.or_eq_true, beq_iff_eq] at hc
        refine hlast (whole ++ '.' :: init) c (by simp [numeral, exponentText]) ?_ ?_
        · rintro rfl
          revert hc
          decide
        · rcases hc with ((hc | rfl) | rfl) | rfl
          · exact (hdigit c hc).2
          all_goals decide
    | none =>
      obtain ⟨c, rest, rfl⟩ : ∃ c rest, whole = c :: rest := by
        cases whole with
        | nil => cases hparts
        | cons c rest => exact ⟨c, rest, rfl⟩
      have hc : c.isDigit = true := hparts
      have htext : numeral (c :: rest) none none = c :: rest := by simp [numeral, exponentText]
      rw [htext, skipBlanks_word hwhole (by simp), isWordAt_word (by decide) hwhole hx,
        beq_eq_false_iff_ne]
      intro he
      have : c = 'f' := by
        have := congrArg List.head? he
        simpa using this
      subst this
      cases hc

/-! ### What tokens say of a name behind them -/

def isBlankToken : Token → Bool
  | .blank _ => true
  | _ => false

def isAsciiBlankToken : Token → Bool
  | .blank c => Text.isAsciiBlank c
  | _ => false

/-- Whether a point touches what stands here. -/
def followsPoint : List Token → Bool
  | .mark c :: _ => c == '.'
  | _ => false

/-- Whether the keyword `function` and at least one blank stand before. -/
def followsFunction (left : List Token) : Bool :=
  match left with
  | .blank _ :: _ =>
    match left.dropWhile isBlankToken with
    | .word name :: _ => name == "function".toList
    | _ => false
  | _ => false

/-- Whether a name behind these tokens is called: it is no member, and no function that is
declared. -/
def mayCall (left : List Token) : Bool := !followsPoint left && !followsFunction left

/-- Whether the characters before a name mislead. A point behind two further ones is taken for a
spread; a line comment that ends in `function` is taken for the keyword; and the keyword is
overlooked behind blanks that are not all ASCII blanks. -/
def isMisread (left : List Token) : Bool :=
  match left with
  | .mark c :: rest => c == '.' && ['.', '.'].isPrefixOf (textBehind [] rest)
  | .blank _ :: _ =>
    match left.dropWhile isAsciiBlankToken with
    | .lineComment body :: _ => endsInName "function" ('/' :: '/' :: body)
    | .blank _ :: _ => followsFunction left
    | _ => false
  | _ => false

theorem skipBlanks_behind (base : Text) (left : List Token) :
    skipBlanks (textBehind base left) =
      skipBlanks (textBehind base (left.dropWhile isAsciiBlankToken)) := by
  induction left with
  | nil => rfl
  | cons t rest ih =>
    by_cases ht : isAsciiBlankToken t = true
    · rw [List.dropWhile_cons_of_pos ht, ← ih]
      cases t with
      | blank c =>
        have hc : Text.isAsciiBlank c = true := ht
        simp [textBehind, Token.text, skipBlanks, hc]
      | _ => cases ht
    · rw [List.dropWhile_cons_of_neg ht]

/-- Whether the nearest token is the keyword `function`, or a line comment that ends in it. -/
def showsFunction : List Token → Bool
  | .word name :: _ => name == "function".toList
  | .lineComment body :: _ => endsInName "function" ('/' :: '/' :: body)
  | _ => false

/-- Where no ASCII blank stands before, the word `function` is the nearest token or the end of a
line comment. -/
theorem isWordAt_behind {base : Text} {left : List Token} (hb : IsOpening base)
    (hs : AreSettled left) (hblank : ∀ t ∈ left.head?, isAsciiBlankToken t = false) :
    isWordAt "function" (skipBlanks (textBehind base left)) = showsFunction left := by
  cases left with
  | nil =>
    rcases hb with rfl | hb
    · rfl
    · cases base with
      | nil => rfl
      | cons c rest =>
        cases hb
        rfl
  | cons t rest =>
    have hlast (hw : t.isWord = false) (hc : isLineComment t = false) :
        isWordAt "function" (skipBlanks (textBehind base (t :: rest))) = false := by
      obtain ⟨init, ht⟩ := text_eq_append_lastChar hw hc
      have hn := not_isNameChar_lastChar hs.1 hw
      have hb : Text.isAsciiBlank (lastChar t) = false := by
        cases t with
        | blank c => exact hblank (.blank c) rfl
        | mark c =>
          show Text.isAsciiBlank c = false
          simpa using of_isMark (p := fun c => !Text.isAsciiBlank c) (by decide) hs.1
        | string quote body =>
          have hq := hs.1
          simp only [Token.isShaped, Bool.and_eq_true, Bool.or_eq_true, beq_iff_eq] at hq
          rcases hq.1 with rfl | rfl <;> rfl
        | word name => cases hw
        | number whole fraction exponent => cases hw
        | lineComment body => cases hc
        | _ => rfl
      rw [textBehind, ht, List.reverse_append, List.reverse_singleton, List.append_assoc,
        List.singleton_append, skipBlanks_cons hb]
      apply isWordAt_function_cons
      intro he
      rw [he] at hn
      cases hn
    cases t with
    | word name =>
      have hname := all_of_isName hs.1
      have hne : name ≠ [] := by
        rintro rfl
        cases hs.1
      have hout := isOutsideName_behind hb hs.2.2
        (by simpa [mayTouch] using mayTouch_of_mayStandBehind hs.2.1 (by rintro c ⟨⟩))
        (endsInComment_of_mayStandBehind hs.2.1 (by rintro c ⟨⟩))
      rw [textBehind, Token.text, skipBlanks_word hname hne]
      exact isWordAt_word (by decide) hname hout
    | number whole fraction exponent =>
      have hout := isOutsideName_behind hb hs.2.2
        (by simpa [mayTouch] using mayTouch_of_mayStandBehind hs.2.1 (by rintro c ⟨⟩))
        (endsInComment_of_mayStandBehind hs.2.1 (by rintro c ⟨⟩))
      exact isWordAt_numeral hs.1 hout
    | lineComment body =>
      have htext : textBehind base (.lineComment body :: rest) =
          body.reverse ++ '/' :: '/' :: textBehind base rest := by
        simp [textBehind, Token.text]
      have hown : ('/' :: '/' :: body : Text).reverse = body.reverse ++ '/' :: ['/'] := by simp
      show isWordAt "function" (skipBlanks (textBehind base (.lineComment body :: rest))) =
        isWordAt "function" (skipBlanks ('/' :: '/' :: body).reverse)
      rw [htext, hown, skipBlanks_append (by decide), skipBlanks_append (by decide)]
      exact isWordAt_append (by decide) (by decide) _ _ _
    | string quote body => exact hlast rfl rfl
    | template head parts => exact hlast rfl rfl
    | blockComment body => exact hlast rfl rfl
    | blank c => exact hlast rfl rfl
    | mark c => exact hlast rfl rfl
    | spread => exact hlast rfl rfl
    | block inner => exact hlast rfl rfl

theorem dropWhile_isBlankToken (left : List Token) :
    (left.dropWhile isAsciiBlankToken).dropWhile isBlankToken = left.dropWhile isBlankToken := by
  induction left with
  | nil => rfl
  | cons t rest ih =>
    by_cases ht : isAsciiBlankToken t = true
    · have hb : isBlankToken t = true := by
        cases t with
        | blank c => rfl
        | _ => cases ht
      rw [List.dropWhile_cons_of_pos ht, List.dropWhile_cons_of_pos hb, ih]
    · rw [List.dropWhile_cons_of_neg ht]

theorem AreSettled.dropWhile {left : List Token} (h : AreSettled left) (p : Token → Bool) :
    AreSettled (left.dropWhile p) := by
  induction left with
  | nil => exact h
  | cons t rest ih =>
    by_cases ht : p t = true
    · rw [List.dropWhile_cons_of_pos ht]
      exact ih h.2.2
    · rw [List.dropWhile_cons_of_neg ht]
      exact h

/-- Behind a blank, the characters before show the keyword `function` unless they mislead. -/
theorem precededBy_behind_blank {base : Text} {c : Char} {left : List Token} (hb : IsOpening base)
    (hs : AreSettled (.blank c :: left)) :
    (!precededBy "function" (textBehind base (.blank c :: left))) =
      ((!followsFunction (.blank c :: left)) != isMisread (.blank c :: left)) := by
  have htext : textBehind base (.blank c :: left) = c :: textBehind base left := rfl
  by_cases hc : Text.isAsciiBlank c = true
  · have hdrop : (Token.blank c :: left).dropWhile isAsciiBlankToken =
        left.dropWhile isAsciiBlankToken := List.dropWhile_cons_of_pos hc
    have hhead : ∀ t ∈ (left.dropWhile isAsciiBlankToken).head?, isAsciiBlankToken t = false := by
      intro t ht
      have := List.head?_dropWhile_not isAsciiBlankToken left
      rw [Option.mem_def.mp ht] at this
      simpa using this
    have hword := isWordAt_behind hb (hs.2.2.dropWhile isAsciiBlankToken) hhead
    have hblank : (Token.blank c :: left).dropWhile isBlankToken =
        (left.dropWhile isAsciiBlankToken).dropWhile isBlankToken := by
      rw [dropWhile_isBlankToken]
      exact List.dropWhile_cons_of_pos rfl
    rw [htext, precededBy_cons, hc, Bool.true_and, ← htext, skipBlanks_behind, hdrop, hword]
    simp only [isMisread, followsFunction, hdrop, hblank]
    cases hrest : left.dropWhile isAsciiBlankToken with
    | nil => rfl
    | cons t rest =>
      cases t with
      | word name => simp [isBlankToken, showsFunction]
      | lineComment body => simp [isBlankToken, showsFunction]
      | blank d => simp [showsFunction]
      | _ => rfl
  · have hdrop : (Token.blank c :: left).dropWhile isAsciiBlankToken = .blank c :: left :=
      List.dropWhile_cons_of_neg hc
    rw [Bool.not_eq_true] at hc
    rw [htext, precededBy_cons, hc, Bool.false_and, Bool.not_false]
    simp only [isMisread, hdrop]
    cases followsFunction (.blank c :: left) <;> rfl

theorem isPrefixOf_points {base : Text} (hb : IsOpening base) (t : Text) :
    (['.', '.'] : Text).isPrefixOf (t ++ base) = (['.', '.'] : Text).isPrefixOf t := by
  have hbase : base.head? ≠ some '.' := by
    rcases hb with rfl | hb
    · exact fun h => by cases h
    · rw [hb]
      decide
  cases base with
  | nil => rw [List.append_nil]
  | cons d base =>
    have hd : ('.' == d) = false := by
      rw [beq_eq_false_iff_ne]
      rintro rfl
      exact hbase rfl
    match t with
    | [] => simp [List.isPrefixOf, hd]
    | [_] => simp [List.isPrefixOf, hd]
    | _ :: _ :: _ => simp [List.isPrefixOf]

/-- **The characters before a name say what the tokens before it say, unless they mislead.** -/
theorem callableAfter_behind {base : Text} {left : List Token} {w : Text} (hb : IsOpening base)
    (hs : AreSettled left) (hw : (Token.word w).mayStandBehind left = true) :
    callableAfter (textBehind base left) = (mayCall left != isMisread left) := by
  have hcomment := endsInComment_of_mayStandBehind hw (by rintro c ⟨⟩)
  have hword : endsInWord left = false := by
    simpa [mayTouch] using mayTouch_of_mayStandBehind hw (by rintro c ⟨⟩)
  have hother (c : Char) (rest : Text) (h : textBehind base left = c :: rest) (hp : c ≠ '.')
      (hc : Text.isAsciiBlank c = false) : callableAfter (textBehind base left) = true := by
    rw [h, callableAfter, precededBy_cons, hc]
    simp [hp]
  cases left with
  | nil =>
    rcases hb with rfl | hb
    · rfl
    · cases base with
      | nil => rfl
      | cons c rest =>
        cases hb
        rfl
  | cons t rest =>
    cases t with
    | word name => cases hword
    | number whole fraction exponent => cases hword
    | lineComment body => cases hcomment
    | blank c =>
      have hp : (textBehind base (.blank c :: rest)).head? ≠ some '.' := by
        have hne : c ≠ '.' := by
          rintro rfl
          exact absurd hs.1 (by decide)
        simpa [textBehind, Token.text] using hne
      have hp' : ((textBehind base (.blank c :: rest)).head? != some '.') = true := by
        simpa using hp
      have hcall : mayCall (.blank c :: rest) = !followsFunction (.blank c :: rest) := by
        simp [mayCall, followsPoint]
      rw [callableAfter, hp', Bool.true_or, Bool.true_and, precededBy_behind_blank hb hs, hcall]
    | mark c =>
      by_cases hc : c = '.'
      · subst hc
        have htext : textBehind base (.mark '.' :: rest) = '.' :: textBehind base rest := rfl
        have hpoints : (['.', '.'] : Text).isPrefixOf (textBehind base rest) =
            (['.', '.'] : Text).isPrefixOf (textBehind [] rest) := by
          rw [textBehind_eq, textBehind_eq, List.append_nil, isPrefixOf_points hb]
        rw [htext, callableAfter, precededBy_cons]
        show ((false || (('.' == '.') && (['.', '.'] : Text).isPrefixOf (textBehind base rest))) &&
          true) =
          (false != (true && (['.', '.'] : Text).isPrefixOf (textBehind [] rest)))
        rw [hpoints]
        simp
      · have hblank : Text.isAsciiBlank c = false := by
          simpa using of_isMark (p := fun c => !Text.isAsciiBlank c) (by decide) hs.1
        rw [hother c _ rfl hc hblank]
        simp [mayCall, isMisread, followsPoint, followsFunction, hc]
    | spread => rfl
    | string quote body =>
      have hq := hs.1
      simp only [Token.isShaped, Bool.and_eq_true, Bool.or_eq_true, beq_iff_eq] at hq
      have htext : textBehind base (.string quote body :: rest) =
          quote :: (body.reverse ++ quote :: textBehind base rest) := by
        simp [textBehind, Token.text]
      rcases hq.1 with rfl | rfl <;> rw [hother _ _ htext (by decide) (by decide)] <;> rfl
    | template head parts =>
      obtain ⟨init, h⟩ := text_eq_append_lastChar (t := .template head parts) rfl rfl
      rw [hother '`' _ (by rw [textBehind, h]; simp [lastChar]; rfl) (by decide) (by decide)]
      rfl
    | blockComment body =>
      rw [hother '/' _ (by simp [textBehind, Token.text]; rfl) (by decide) (by decide)]
      rfl
    | block inner =>
      rw [hother '}' _ (by simp [textBehind, Token.text]; rfl) (by decide) (by decide)]
      rfl

end Localization.Script
