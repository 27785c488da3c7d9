import Mathlib
import Localization.Proofs.Script.Lexeme

/-! What follows a token.

The walk ends a token where its text breaks off. `breaksOff_of_areSource` says that it does
before whatever may stand behind the token, so that the walk reads what the token spells.
`found_numeral` puts the runs of a number together. -/
namespace Localization.Script

open Token (mayStandBehind mayTouch endsInWord endLine endsBefore)

/-! ### What follows a token -/

/-- Whether a text is what ends tokens: nothing, or the brace that closes them. -/
def Closes (atEnd : Bool) (tail : Text) : Prop :=
  if atEnd then tail = [] else tail.head? = some '}'

theorem Closes.head {atEnd : Bool} {tail : Text} (h : Closes atEnd tail) :
    tail = [] ∨ ∃ z, tail = '}' :: z := by
  cases atEnd with
  | true => exact .inl h
  | false =>
    cases tail with
    | nil => exact .inl rfl
    | cons c z =>
      obtain rfl : c = '}' := by simpa [Closes] using h
      exact .inr ⟨z, rfl⟩

/-- Whether a text that follows a token does not go on with it. -/
def BreaksOff (t : Token) (z : Text) : Prop :=
  match t with
  | .word _ => isOutsideName z = true
  | .number _ _ _ => isOutsideName z = true
  | .lineComment _ => EndsLine z
  | .mark c => c = '/' → commentPrefix? ('/' :: z) = none
  | _ => True

theorem isOutsideName_text {t : Token} (hs : t.isShaped = true) (hw : t.isWord = false) (z : Text) :
    isOutsideName (t.text ++ z) = true := by
  cases t with
  | word name => cases hw
  | number whole fraction exponent => cases hw
  | string quote body =>
    simp only [Token.isShaped, Bool.and_eq_true, Bool.or_eq_true, beq_iff_eq] at hs
    rcases hs.1 with rfl | rfl <;> rfl
  | blank c =>
    show (!isNameChar c) = true
    rw [not_isNameChar_of_isScriptBlank hs, Bool.not_false]
  | mark c => exact of_isMark (p := fun c => !isNameChar c) (by decide) hs
  | template head parts => rfl
  | lineComment body => rfl
  | blockComment body => rfl
  | spread => rfl
  | block inner => rfl

theorem commentPrefix?_slash {c : Char} (h1 : c ≠ '/') (h2 : c ≠ '*') (z : Text) :
    commentPrefix? ('/' :: c :: z) = none := by
  rw [commentPrefix?]
  · rintro rest ⟨⟩
    exact h1 rfl
  · rintro rest ⟨⟩
    exact h2 rfl

/-- No comment starts between a slash and a token that may touch it. -/
theorem commentPrefix?_text {t : Token} {left : List Token} (hs : t.isShaped = true)
    (ht : t.mayTouch (.mark '/' :: left) = true) (z : Text) :
    commentPrefix? ('/' :: (t.text ++ z)) = none := by
  have hname {c : Char} (hc : isNameChar c = true) (z : Text) :
      commentPrefix? ('/' :: c :: z) = none := by
    refine commentPrefix?_slash ?_ ?_ z <;>
    · rintro rfl
      cases hc
  have hdigit {whole : Text} (h : startsWithDigit whole = true) (z : Text) :
      commentPrefix? ('/' :: (whole ++ z)) = none := by
    cases whole with
    | nil => cases h
    | cons c rest => exact hname (isNameChar_of_isDigit h) _
  cases t with
  | word name =>
    cases name with
    | nil => cases hs
    | cons c rest =>
      have hall : (c :: rest).all isNameChar = true := all_of_isName hs
      exact hname (List.all_eq_true.mp hall c List.mem_cons_self) _
  | number whole fraction exponent =>
    simp only [Token.isShaped, isNumeral, Bool.and_eq_true] at hs
    have hparts := hs.1.1
    cases fraction with
    | none =>
      rw [Token.text, numeral, List.append_assoc]
      exact hdigit hparts _
    | some digits =>
      simp only [Bool.and_eq_true, Bool.or_eq_true, List.isEmpty_iff] at hparts
      rw [Token.text, numeral, List.append_assoc]
      rcases hparts.2 with h | ⟨rfl, -⟩
      · exact hdigit h _
      · exact commentPrefix?_slash (by decide) (by decide) _
  | string quote body =>
    simp only [Token.isShaped, Bool.and_eq_true, Bool.or_eq_true, beq_iff_eq] at hs
    rcases hs.1 with rfl | rfl <;> rfl
  | blank c =>
    refine commentPrefix?_slash ?_ ?_ z <;>
    · rintro rfl
      exact absurd hs (by decide)
  | mark c =>
    simp only [mayTouch, Bool.and_eq_true, bne_iff_ne] at ht
    exact commentPrefix?_slash ht.1 ht.2 z
  | lineComment body => cases ht
  | blockComment body => cases ht
  | template head parts => rfl
  | spread => rfl
  | block inner => rfl

/-- Behind a line comment come blanks up to the line feed or the end. -/
theorem endsLine_of_endLine {atEnd : Bool} {left rest : List Token} {tail : Text}
    (hs : areSource atEnd left rest = true) (he : endLine atEnd rest = true)
    (htail : Closes atEnd tail) :
    EndsLine (tokensText rest ++ tail) := by
  induction rest generalizing left with
  | nil =>
    have hend : atEnd = true := he
    subst hend
    obtain rfl : tail = [] := htail
    exact ⟨[], [], rfl, rfl, List.not_mem_nil, .inl rfl⟩
  | cons t rest ih =>
    cases t with
    | blank c =>
      by_cases hc : c = '\n'
      · subst hc
        exact ⟨[], _, rfl, rfl, List.not_mem_nil, .inr rfl⟩
      · simp only [areSource, Bool.and_eq_true] at hs
        obtain ⟨⟨⟨hshape, -⟩, -⟩, hrest⟩ := hs
        have he' : endLine atEnd rest = true := by simpa [endLine, hc] using he
        obtain ⟨w, z, hz, hw, hline, hend⟩ := ih hrest he'
        refine ⟨c :: w, z, ?_, ?_, ?_, hend⟩
        · show c :: (tokensText rest ++ tail) = c :: (w ++ z)
          rw [hz]
        · rw [List.all_cons, isPlain_of_isScriptBlank hshape, hw, Bool.and_self]
        · rw [List.mem_cons, not_or]
          exact ⟨Ne.symm hc, hline⟩
    | _ => cases he

theorem breaksOff_of_areSource {atEnd : Bool} {left rest : List Token} {t : Token} {tail : Text}
    (hs : areSource atEnd left (t :: rest) = true) (htail : Closes atEnd tail) :
    BreaksOff t (tokensText rest ++ tail) := by
  simp only [areSource, Bool.and_eq_true] at hs
  obtain ⟨⟨-, hends⟩, hrest⟩ := hs
  have hword (hw : endsInWord (t :: left) = true) :
      isOutsideName (tokensText rest ++ tail) = true := by
    cases rest with
    | nil => rcases htail.head with rfl | ⟨z, rfl⟩ <;> rfl
    | cons u rest =>
      simp only [areSource, Bool.and_eq_true] at hrest
      obtain ⟨⟨⟨hu, hstand⟩, -⟩, -⟩ := hrest
      rw [tokensText, List.append_assoc]
      refine isOutsideName_text hu ?_ _
      have hblank : u.isWord = true → u.mayTouch (t :: left) = false := by
        intro hw'
        cases u with
        | word name => simp [mayTouch, hw]
        | number whole fraction exponent => simp [mayTouch, hw]
        | _ => cases hw'
      rw [Bool.eq_false_iff]
      intro hw'
      have htouch := mayTouch_of_mayStandBehind hstand (by rintro c rfl; cases hw')
      rw [hblank hw'] at htouch
      cases htouch
  cases t with
  | word name => exact hword rfl
  | number whole fraction exponent => exact hword rfl
  | lineComment body => exact endsLine_of_endLine hrest hends htail
  | mark c =>
    rintro rfl
    cases rest with
    | nil => rcases htail.head with rfl | ⟨z, rfl⟩ <;> rfl
    | cons u rest =>
      simp only [areSource, Bool.and_eq_true] at hrest
      obtain ⟨⟨⟨hu, hstand⟩, -⟩, -⟩ := hrest
      rw [tokensText, List.append_assoc]
      refine @commentPrefix?_text _ left hu ?_ _
      by_cases hb : ∃ c, u = .blank c
      · obtain ⟨c, rfl⟩ := hb
        rfl
      · exact mayTouch_of_mayStandBehind hstand (fun c hc => hb ⟨c, hc⟩)
  | string quote body => trivial
  | template head parts => trivial
  | blockComment body => trivial
  | blank c => trivial
  | spread => trivial
  | block inner => trivial

/-! ### Numbers -/

theorem isNameChar_of_isFractionChar {c : Char} (h : isFractionChar c = true) :
    isNameChar c = true := by
  simp only [isFractionChar, Bool.or_eq_true, beq_iff_eq] at h
  rcases h with ((h | rfl) | rfl) | rfl
  · exact isNameChar_of_isDigit h
  all_goals rfl

theorem not_isNameStart_of_isDigit {c : Char} (h : c.isDigit = true) : isNameStart c = false := by
  rw [Bool.eq_false_iff]
  intro hs
  simp only [isNameStart, Char.isAlpha, Char.isUpper, Char.isLower, Bool.or_eq_true,
    Bool.and_eq_true, decide_eq_true_eq, beq_iff_eq] at hs
  simp only [Char.isDigit, Bool.and_eq_true, decide_eq_true_eq] at h
  rcases hs with ((⟨h1, -⟩ | ⟨h1, -⟩) | rfl) | rfl
  · exact absurd (UInt32.le_trans h1 h.2) (by decide)
  · exact absurd (UInt32.le_trans h1 h.2) (by decide)
  · exact absurd h (by decide)
  · exact absurd h (by decide)

theorem head_of_startsWithDigit {w : Text} (h : startsWithDigit w = true) :
    ∀ c ∈ w.head?, isNameStart c = false := by
  intro c hc
  cases w with
  | nil => cases h
  | cons d rest =>
    cases hc
    exact not_isNameStart_of_isDigit h

variable {name : Text} {frames : List Frame}

/-- Whether an exponent has the shape of one: a sign and digits. -/
def IsExponent (exponent : Option (Char × Text)) : Prop :=
  ∀ sign digits, exponent = some (sign, digits) →
    (sign = '+' ∨ sign = '-') ∧ digits.all Char.isDigit = true

theorem isOutsideName_exponentText {exponent : Option (Char × Text)} (h : IsExponent exponent)
    {z : Text} (hz : isOutsideName z = true) :
    isOutsideName (exponentText exponent ++ z) = true := by
  cases exponent with
  | none => exact hz
  | some e =>
    obtain ⟨sign, digits⟩ := e
    rcases (h sign digits rfl).1 with rfl | rfl <;> rfl

theorem found_exponentText (hf : inCode frames = true) {exponent : Option (Char × Text)}
    (h : IsExponent exponent) {z : Text} (hz : isOutsideName z = true) (before : Text) :
    found name frames before (exponentText exponent ++ z) =
      found name frames ((exponentText exponent).reverse ++ before) z := by
  cases exponent with
  | none => rfl
  | some e =>
    obtain ⟨sign, digits⟩ := e
    obtain ⟨hsign, hdigits⟩ := h sign digits rfl
    have hall : digits.all isNameChar = true := by
      rw [List.all_eq_true] at hdigits ⊢
      exact fun c hc => isNameChar_of_isDigit (hdigits c hc)
    have hhead : ∀ c ∈ digits.head?, isNameStart c = false := by
      intro c hc
      exact not_isNameStart_of_isDigit (List.all_eq_true.mp hdigits c (List.mem_of_mem_head? hc))
    have hplain : isPlain sign = true := by rcases hsign with rfl | rfl <;> rfl
    show found name frames before (sign :: (digits ++ z)) = _
    rw [found_plain hf hplain, found_digits hf hall hhead hz]
    simp [exponentText]

/-- Nothing is found in a number. -/
theorem found_numeral (hf : inCode frames = true) {whole : Text} {fraction : Option Text}
    {exponent : Option (Char × Text)} (h : isNumeral whole fraction exponent = true) {z : Text}
    (hz : isOutsideName z = true) (before : Text) :
    found name frames before (numeral whole fraction exponent ++ z) =
      found name frames ((numeral whole fraction exponent).reverse ++ before) z := by
  simp only [isNumeral, Bool.and_eq_true] at h
  obtain ⟨⟨hparts, hwhole⟩, hexp⟩ := h
  have he : IsExponent exponent := by
    rintro sign digits rfl
    simp only [Bool.and_eq_true, Bool.or_eq_true, beq_iff_eq] at hexp
    exact ⟨hexp.1.1.1, hexp.1.2⟩
  have hout := isOutsideName_exponentText he hz
  cases fraction with
  | none =>
    rw [numeral, List.append_assoc, found_digits hf hwhole (head_of_startsWithDigit hparts) hout,
      found_exponentText hf he hz, List.reverse_append, List.append_assoc]
  | some digits =>
    simp only [Bool.and_eq_true, Bool.or_eq_true, List.isEmpty_iff] at hparts
    obtain ⟨hchars, hstart⟩ := hparts
    have hdigits : digits.all isNameChar = true := by
      rw [List.all_eq_true] at hchars ⊢
      exact fun c hc => isNameChar_of_isFractionChar (hchars c hc)
    have hhead : ∀ c ∈ whole.head?, isNameStart c = false := by
      rcases hstart with h | ⟨rfl, -⟩
      · exact head_of_startsWithDigit h
      · exact fun c hc => by cases hc
    -- The run behind the point is no name, or it is a member of the digits before the point.
    have hfraction :
        found name frames ('.' :: (whole.reverse ++ before))
          (digits ++ (exponentText exponent ++ z)) =
        found name frames (digits.reverse ++ '.' :: (whole.reverse ++ before))
          (exponentText exponent ++ z) := by
      rcases hstart with h | ⟨rfl, h⟩
      · refine found_member hf hdigits ?_ hout
        obtain ⟨init, c, rfl⟩ := (List.eq_nil_or_concat whole).resolve_left (by rintro rfl; cases h)
        have hc : c ≠ '.' := by
          rintro rfl
          exact absurd (List.all_eq_true.mp hwhole '.' (by simp)) (by decide)
        have hc' : ('.' == c) = false := beq_eq_false_iff_ne.mpr (Ne.symm hc)
        simp [callableAfter, List.isPrefixOf, hc']
      · exact found_digits hf hdigits (head_of_startsWithDigit h) hout _
    have htext : numeral whole (some digits) exponent ++ z =
        whole ++ '.' :: (digits ++ (exponentText exponent ++ z)) := by
      simp [numeral]
    rw [htext, found_digits hf hwhole hhead rfl, found_plain hf rfl, hfraction,
      found_exponentText hf he hz]
    simp [numeral]

end Localization.Script
