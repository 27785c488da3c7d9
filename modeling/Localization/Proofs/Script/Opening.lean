import Mathlib
import Localization.Proofs.Script.Markup

/-! Where a `<` is taken for the start of an element.

The walk judges a `<` by the characters around it. Here that judgement is put in terms of the
tree of code: `shows_operand` for the tokens before an element, `looksLikeTag_tail` for the
element and the text behind it, and `opensElement_tail` for both. An element is taken for one
exactly if it is not `isHidden`. -/
namespace Localization.Script

open Token (mayStandBehind mayTouch endsInWord)

/-! ### Where code starts anew -/

/-- Whether code may start behind a text, from its nearest character on: behind nothing or a
boundary, and where code is `fresh` behind nothing or an opening brace. -/
def StartsCode (fresh : Bool) (base : Text) : Prop :=
  ∀ c ∈ base.head?, isBoundary c = true ∧ (fresh = true → c = '{')

theorem StartsCode.brace (fresh : Bool) (base : Text) : StartsCode fresh ('{' :: base) := by
  rintro c ⟨⟩
  exact ⟨rfl, fun _ => rfl⟩

theorem StartsCode.of_isBoundary {c : Char} (hc : isBoundary c = true) (init before : Text) :
    StartsCode false ((init ++ [c]).reverse ++ before) := by
  intro d hd
  obtain rfl : c = d := by simpa using hd
  exact ⟨hc, nofun⟩

theorem textBehind_base (base : Text) (left : List Token) :
    textBehind base left = textBehind [] left ++ base := by
  rw [textBehind_eq, textBehind_eq, List.append_nil]

theorem isOutsideName_append {a b : Text} (ha : isOutsideName a = true)
    (hb : isOutsideName b = true) :
    isOutsideName (a ++ b) = true := by
  cases a with
  | nil => exact hb
  | cons c a => exact ha

section

variable {fresh : Bool} {base : Text} (hb : StartsCode fresh base)

include hb

theorem StartsCode.isOutsideName : isOutsideName base = true := by
  cases base with
  | nil => rfl
  | cons c base =>
    have hc := isNameChar_eq_false_of_isBoundary (hb c rfl).1
    simp [Script.isOutsideName, hc]

theorem StartsCode.callableAfter (left : List Token) :
    callableAfter (textBehind base left) = callableAfter (textBehind [] left) := by
  rw [textBehind_base]
  cases base with
  | nil => rw [List.append_nil]
  | cons c base => exact callableAfter_stop (hb c rfl).1 _ _

theorem StartsCode.opensString (left : List Token) :
    opensString (textBehind base left) = opensString (textBehind [] left) := by
  rw [textBehind_base]
  cases base with
  | nil => rw [List.append_nil]
  | cons c base => exact opensString_stop (hb c rfl).1 _ _

end

/-! ### What stands in front of an element -/

/-- Whether a text, from its nearest character on, ends where an operand starts. -/
def endsInOperator : Text → Bool
  | [] => true
  | c :: _ => startsOperand c

theorem opensElement_eq (before rest : Text) :
    opensElement before rest =
      (looksLikeTag rest && (endsInOperator (skipBlanks before) ||
        precededBy "return" before)) := by
  rw [opensElement]
  cases skipBlanks before <;> rfl

theorem not_startsOperand_of_isScriptBlank {c : Char} (h : isScriptBlank c = true) :
    startsOperand c = false := by
  rw [Bool.eq_false_iff]
  intro hc
  simp only [startsOperand, List.contains_iff_mem, List.mem_cons, List.not_mem_nil, or_false] at hc
  rcases hc with rfl | rfl | rfl | rfl | rfl | rfl | rfl | rfl | rfl | rfl | rfl
    | rfl <;> revert h <;> decide

section

variable {fresh : Bool} {base : Text} {left rest : List Token} (hb : StartsCode fresh base)
    (hs : AreSettled left)

include hs

/-- Behind a blank that is no ASCII blank neither an operator nor the keyword is seen. -/
theorem shows_blank {c : Char} (hrest : left.dropWhile isAsciiBlankToken = .blank c :: rest) :
    endsInOperator (skipBlanks (textBehind base left)) = false ∧
      precededBy "return" (textBehind base left) = false := by
  have hnearest := hs.dropWhile isAsciiBlankToken
  have hfirst := List.head?_dropWhile_not isAsciiBlankToken left
  rw [hrest] at hnearest hfirst
  have hc : Text.isAsciiBlank c = false := by simpa [isAsciiBlankToken] using hfirst
  have htext : skipBlanks (textBehind base left) = c :: textBehind base rest := by
    rw [skipBlanks_behind, hrest]
    exact skipBlanks_cons hc _
  have hne : ('n' == c) = false := by
    rw [beq_eq_false_iff_ne]
    rintro rfl
    exact absurd hnearest.1 (by decide)
  have hword : isWordAt "return" (c :: textBehind base rest) = false := by
    show ((('n' == c) && _) && _) = false
    rw [hne]
    rfl
  refine ⟨htext ▸ not_startsOperand_of_isScriptBlank hnearest.1, ?_⟩
  cases hbefore : textBehind base left with
  | nil => rfl
  | cons d before => rw [precededBy_cons, ← hbefore, htext, hword, Bool.and_false]

theorem shows_mark {c : Char} (hrest : left.dropWhile isAsciiBlankToken = .mark c :: rest) :
    endsInOperator (skipBlanks (textBehind base left)) = startsOperand c := by
  have hnearest := hs.dropWhile isAsciiBlankToken
  rw [hrest] at hnearest
  have hc : Text.isAsciiBlank c = false := by
    simpa using of_isMark (p := fun c => !Text.isAsciiBlank c) (by decide) hnearest.1
  have htext : skipBlanks (textBehind base left) = c :: textBehind base rest := by
    rw [skipBlanks_behind, hrest]
    exact skipBlanks_cons hc _
  rw [htext]
  rfl

include hb

/-- The keyword `return` is seen behind blanks. -/
theorem shows_return (hrest : left.dropWhile isAsciiBlankToken = .word "return" :: rest) :
    endsInOperator (skipBlanks (textBehind base left)) = false ∧
      precededBy "return" (textBehind base left) = !endsInWord left := by
  have hnearest := hs.dropWhile isAsciiBlankToken
  rw [hrest] at hnearest
  have htouch : mayTouch rest (.word "return") = true :=
    mayTouch_of_mayStandBehind hnearest.2.1 nofun
  have hcomment := endsInComment_of_mayStandBehind hnearest.2.1 nofun
  have hout : isOutsideName (textBehind base rest) = true := by
    rw [textBehind_base]
    exact isOutsideName_append (isOutsideName_behind (.inl rfl) hnearest.2.2
      (by simpa [mayTouch] using htouch) hcomment)
      hb.isOutsideName
  have htext :
      skipBlanks (textBehind base left) = ("return" : Text).reverse ++ textBehind base rest := by
    rw [skipBlanks_behind, hrest]
    exact skipBlanks_word rfl (List.cons_ne_nil _ _) _
  have hword : isWordAt "return" (("return" : Text).reverse ++ textBehind base rest) = true :=
    isWordAt_word rfl rfl hout
  refine ⟨by rw [htext]; rfl, ?_⟩
  cases left with
  | nil => cases hrest
  | cons t left =>
    by_cases ht : isAsciiBlankToken t = true
    · cases t with
      | blank c =>
        have hbehind : textBehind base (.blank c :: left) = c :: textBehind base left := rfl
        rw [hbehind] at htext ⊢
        rw [precededBy_cons, htext, hword, Bool.and_true]
        exact ht
      | _ => cases ht
    · rw [List.dropWhile_cons_of_neg ht] at hrest
      cases hrest
      rfl

/-- Where an element may stand an operand is seen to start, unless the operator or the keyword
is overlooked. -/
theorem shows_operand (hm : mayHoldElement fresh left = true) :
    (endsInOperator (skipBlanks (textBehind base left)) ||
      precededBy "return" (textBehind base left)) =
      !isOverlooked left := by
  rw [mayHoldElement, ← dropWhile_isBlankToken] at hm
  cases hrest : left.dropWhile isAsciiBlankToken with
  | nil =>
    rw [hrest] at hm
    obtain rfl : fresh = true := hm
    have hbase : endsInOperator (skipBlanks (textBehind base left)) = true := by
      rw [skipBlanks_behind, hrest]
      cases base with
      | nil => rfl
      | cons c base =>
        obtain rfl := (hb c rfl).2 rfl
        rfl
    rw [hbase, isOverlooked, hrest]
    rfl
  | cons t rest =>
    rw [hrest] at hm
    cases t with
    | blank c =>
      obtain ⟨hoperator, hreturn⟩ := shows_blank hs hrest
      rw [hoperator, hreturn, isOverlooked, hrest]
      rfl
    | mark c =>
      have hoperand : startsOperand c = true := by
        simp only [List.dropWhile, isBlankToken, Bool.or_eq_true, Bool.and_eq_true, beq_iff_eq,
          List.contains_iff_mem, List.mem_cons, List.not_mem_nil, or_false] at hm
        rcases hm with (h | ⟨rfl, -⟩) | ⟨rfl | rfl, -⟩
        · rcases h with rfl | rfl | rfl | rfl | rfl | rfl | rfl <;> rfl
        all_goals rfl
      rw [shows_mark hs hrest, hoperand, isOverlooked, hrest]
      rfl
    | word w =>
      obtain rfl : w = "return".toList := by simpa [isBlankToken] using hm
      obtain ⟨hoperator, hreturn⟩ := shows_return hb hs hrest
      rw [hoperator, hreturn, isOverlooked, hrest]
      rfl
    | _ => cases hm

end

/-! ### The tag of an element -/

/-- A tag with points, hyphens or colons in its name is no type parameter, and another is one by
what stands behind it. -/
theorem looksLikeTag_tag {tag t : Text} (htag : isTagName tag = true)
    (hout : isOutsideName t = true) (hcomma : (skipBlanks t).head? ≠ some ',') :
    looksLikeTag (tag ++ t) = !(isName tag &&
      (startsBound t || !mayFollowTagName (skipBlanks t))) := by
  cases tag with
  | nil => cases htag
  | cons c w =>
    rw [isTagName, Bool.and_eq_true] at htag
    have hname := isNameChar_of_isNameStart htag.1
    have hc : c ≠ '>' := by
      rintro rfl
      cases htag.1
    rw [List.cons_append, looksLikeTag_cons hc, htag.1, Bool.true_and, isName, htag.1,
      Bool.true_and]
    by_cases hw : w.all isNameChar = true
    · have hdrop : (c :: (w ++ t)).dropWhile isNameChar = t := by
        rw [← List.cons_append, List.dropWhile_append_of_pos (by simpa [hname] using hw)]
        cases t with
        | nil => rfl
        | cons d t => exact List.dropWhile_cons_of_neg (by simpa [isOutsideName] using hout)
      have hhead : ((skipBlanks t).head? == some ',') = false := by simpa using hcomma
      rw [hdrop, hw, hhead, Bool.false_or, startsBound, Bool.true_and, Bool.not_or, Bool.not_not]
    · rw [Bool.not_eq_true] at hw
      -- The name goes on behind its first run with a character that is neither a blank nor the
      -- end of a tag.
      obtain ⟨d, u, hdrop⟩ : ∃ d u, w.dropWhile isNameChar = d :: u := by
        refine List.exists_cons_of_ne_nil ?_
        rw [ne_eq, List.dropWhile_eq_nil_iff, ← List.all_eq_true, hw]
        exact Bool.false_ne_true
      have hd : isNameChar d = false := by
        have := List.head?_dropWhile_not isNameChar w
        rw [hdrop] at this
        simpa using this
      have hmem : d ∈ w := (List.dropWhile_suffix isNameChar).subset (hdrop ▸ List.mem_cons_self)
      have htagChar : d = '.' ∨ d = '-' ∨ d = ':' := by
        have := List.all_eq_true.mp htag.2 d hmem
        simpa [isTagChar, hd, or_assoc] using this
      have hrest : (c :: (w ++ t)).dropWhile isNameChar = d :: (u ++ t) := by
        rw [List.dropWhile_cons_of_pos hname, List.dropWhile_append, hdrop]
        rfl
      rw [hrest, hw]
      rcases htagChar with rfl | rfl | rfl <;> rfl

/-- What stands behind the name of a tag starts with blanks or the name of an attribute. -/
theorem head_attributes {attributes : Attributes} (h : attributes.isSource = true) {gap : Text}
    (hgap : isGap gap = true) :
    isOutsideName (attributes.text ++ gap) = true ∧
      ∀ c ∈ (skipBlanks (attributes.text ++ gap)).head?, isNameStart c = true ∨
        isScriptBlank c = true := by
  have hblank {g : Text} (hg : isGap g = true) :
      ∀ c ∈ (skipBlanks g).head?, isScriptBlank c = true := fun c hc =>
    List.all_eq_true.mp hg c ((List.dropWhile_suffix _).subset (List.mem_of_mem_head? hc))
  have hkey {g key : Text} (hkey : mayNameAttribute g key = true) (u : Text) :
      isOutsideName (g ++ (key ++ u)) = true ∧
        ∀ c ∈ (skipBlanks (g ++ (key ++ u))).head?, isNameStart c = true ∨
          isScriptBlank c = true := by
    simp only [mayNameAttribute, Bool.and_eq_true, Bool.not_eq_true',
      List.isEmpty_eq_false_iff] at hkey
    obtain ⟨⟨hg, hne⟩, hkey⟩ := hkey
    obtain ⟨b, g, rfl⟩ := List.exists_cons_of_ne_nil hne
    obtain ⟨k, key, rfl⟩ : ∃ k v, key = k :: v :=
      List.exists_cons_of_ne_nil (by rintro rfl; cases hkey)
    rw [isTagName, Bool.and_eq_true] at hkey
    refine ⟨?_, fun c hc => ?_⟩
    · have hb := not_isNameChar_of_isScriptBlank (List.all_eq_true.mp hg b List.mem_cons_self)
      simp [isOutsideName, hb]
    · have hc : c ∈ (skipBlanks ((b :: g) ++ k :: (key ++ u))).head? := hc
      rw [skipBlanks_append (not_isAsciiBlank_of_isNameChar (isNameChar_of_isNameStart hkey.1)),
        List.head?_append] at hc
      cases hskip : (skipBlanks (b :: g)).head? with
      | none =>
        rw [hskip] at hc
        obtain rfl : k = c := by simpa using hc
        exact .inl hkey.1
      | some e =>
        rw [hskip] at hc
        obtain rfl : e = c := by simpa using hc
        exact .inr (hblank hg e hskip)
  cases attributes with
  | nil =>
    refine ⟨?_, fun c hc => .inr (hblank hgap c hc)⟩
    cases gap with
    | nil => rfl
    | cons b gap =>
      have hb := not_isNameChar_of_isScriptBlank (List.all_eq_true.mp hgap b List.mem_cons_self)
      simp [Attributes.text, isOutsideName, hb]
  | flag g key rest =>
    rw [Attributes.isSource, Bool.and_eq_true] at h
    simpa [Attributes.text] using hkey h.1 (rest.text ++ gap)
  | string g key left right quote body rest =>
    simp only [Attributes.isSource, Bool.and_eq_true] at h
    simpa [Attributes.text, attributeHead] using hkey h.1.1.1.1.1 _
  | code g key left right inner rest =>
    simp only [Attributes.isSource, Bool.and_eq_true] at h
    simpa [Attributes.text, attributeHead] using hkey h.1.1.1.1 _

theorem startsBound_stop {d : Char} (hd : Text.isAsciiBlank d = false)
    (hmem : d ∉ "extends ".toList) (t z : Text) :
    startsBound (t ++ d :: z) = startsBound t := by
  rw [startsBound, skipBlanks_stop hd, isPrefixOf_stop hmem, startsBound]

theorem mayFollowTagName_eq (t : Text) : mayFollowTagName ('>' :: t) = !startsParameters t := by
  cases t with
  | nil => rfl
  | cons c t =>
    by_cases hc : c = '('
    · subst hc
      exact (Bool.not_not _).symm
    · simp [mayFollowTagName, startsParameters, hc]

section

variable {attributes : Attributes} (h : attributes.isSource = true) {gap : Text}
    (hgap : isGap gap = true) {tag : Text}
  (htag : isTagName tag = true)

include h hgap htag

/-- What a tag says of a `<` in front of it, up to the character `d` behind its attributes. -/
theorem looksLikeTag_stop {d : Char} (hd : d = '/' ∨ d = '>') (z : Text) :
    looksLikeTag (tag ++ (attributes.text ++ (gap ++ d :: z))) =
      !(isName tag && (startsBound (attributes.text ++ gap) ||
        ((skipBlanks (attributes.text ++ gap)).isEmpty && !mayFollowTagName (d :: z)))) := by
  obtain ⟨hout, hhead⟩ := head_attributes h hgap
  have hdout : isOutsideName (d :: z) = true := by rcases hd with rfl | rfl <;> rfl
  have hblank : Text.isAsciiBlank d = false := by rcases hd with rfl | rfl <;> rfl
  have hmem : d ∉ "extends ".toList := by rcases hd with rfl | rfl <;> decide
  have hskip := skipBlanks_stop hblank (attributes.text ++ gap) z
  have hne {c : Char} (hc : isNameStart c = true ∨ isScriptBlank c = true) : c ≠ ',' ∧ c ≠ '>' := by
    refine ⟨?_, ?_⟩ <;> rintro rfl <;> revert hc <;> decide
  have hcomma : (skipBlanks ((attributes.text ++ gap) ++ d :: z)).head? ≠ some ',' := by
    rw [hskip]
    cases hrest : skipBlanks (attributes.text ++ gap) with
    | nil => rcases hd with rfl | rfl <;> simp
    | cons c rest =>
      rw [hrest] at hhead
      simpa using (hne (hhead c rfl)).1
  rw [← List.append_assoc attributes.text,
    looksLikeTag_tag htag (isOutsideName_append hout hdout) hcomma,
    startsBound_stop hblank hmem, hskip]
  cases hrest : skipBlanks (attributes.text ++ gap) with
  | nil => rfl
  | cons c rest =>
    rw [hrest] at hhead
    simp [mayFollowTagName, (hne (hhead c rfl)).2]

end

/-- A `<` in front of an element is taken for the start of one unless the element looks like the
type parameter of a function. -/
theorem looksLikeTag_tail {e : Element} (he : e.isSource = true) (z : Text) :
    looksLikeTag (e.tail ++ z) = !e.looksGeneric z := by
  cases e with
  | fragment children => rfl
  | closed tag attributes gap =>
    simp only [Element.isSource, Bool.and_eq_true] at he
    have := looksLikeTag_stop he.1.2 he.2 he.1.1 (.inl rfl) ('>' :: z)
    simpa [Element.tail, Element.looksGeneric, mayFollowTagName] using this
  | paired tag attributes gap children gap' =>
    simp only [Element.isSource, Bool.and_eq_true] at he
    have :=
      looksLikeTag_stop he.1.1.1.2 he.1.1.2 he.1.1.1.1 (.inr rfl)
        (children.text ++ (endTag tag gap' ++ z))
    rw [mayFollowTagName_eq, Bool.not_not] at this
    rw [Element.looksGeneric, ← this, Element.tail]
    simp only [List.append_assoc, List.cons_append]

/-- **An element in code is taken for one unless it is hidden.** -/
theorem opensElement_tail {fresh : Bool} {base : Text} {left : List Token}
    (hb : StartsCode fresh base) (hs : AreSettled left) (hm : mayHoldElement fresh left = true)
    {e : Element} (he : e.isSource = true) (z : Text) :
    opensElement (textBehind base left) (e.tail ++ z) = !(ElementSite.mk left e z).isHidden := by
  rw [opensElement_eq, looksLikeTag_tail he, shows_operand hb hs hm, ElementSite.isHidden,
    Bool.not_or, Bool.and_comm]

end Localization.Script
