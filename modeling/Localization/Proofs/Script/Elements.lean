import Mathlib
import Localization.Proofs.Script.Opening

/-! Where a name is found in a text with elements.

The walk is followed through the tree of code (`found_code`, `found_substitutions`,
`found_element`, `found_attributes`, `found_children`, by one induction over the tree). In
code it remembers of the text before a place the tokens behind the last bracket, template or
element; in tags and between children it finds nothing. `offsets_code` is the result: where
no element in code is hidden, the walk finds the names that stand in code, and these alone. -/
namespace Localization.Script

variable {name : Text}

theorem size_reverse_append (w before : Text) :
    Text.size (w.reverse ++ before) = Text.size before + Text.size w := by
  rw [Text.size_append, size_reverse, Nat.add_comm]

/-! ### Outside of code -/

theorem found_outside {frames outer : List Frame} (hf : inCode frames = false) {before a z : Text}
    {c : Char} (hp : piece frames before c (a ++ z) = ⟨a.length + 1, outer⟩) :
    found name frames before (c :: (a ++ z)) = found name outer (a.reverse ++ c :: before) z := by
  have ho : isOccurrence name frames ⟨before, c :: (a ++ z)⟩ = false := by
    simp [isOccurrence, hf]
  rw [found_piece hp, ho]
  rfl

/-- Characters that the walk passes over one by one. -/
theorem found_passed {frames : List Frame} (hf : inCode frames = false) {w : Text}
    (hw : ∀ c ∈ w, ∀ before rest, piece frames before c rest = ⟨1, frames⟩) (before z : Text) :
    found name frames before (w ++ z) = found name frames (w.reverse ++ before) z := by
  induction w generalizing before with
  | nil => rfl
  | cons c w ih =>
    have hc : piece frames before c ([] ++ (w ++ z)) = ⟨([] : Text).length + 1, frames⟩ :=
      hw c List.mem_cons_self before _
    have hpassed := ih (fun d hd => hw d (List.mem_cons_of_mem c hd)) (c :: before)
    rw [List.reverse_cons, List.append_assoc]
    exact (found_outside hf hc).trans hpassed

section

variable {outer : List Frame}

/-- Whether a character of a tag is passed over. -/
def isPassed (c : Char) : Bool := !(['\'', '"', '{', '/', '>'].contains c)

theorem isPassed_of {p : Char → Bool} (hp : ['\'', '"', '{', '/', '>'].all (fun c => !p c) = true)
    {c : Char} (h : p c = true) :
    isPassed c = true := by
  rw [isPassed, Bool.not_eq_true', Bool.eq_false_iff]
  intro hc
  have := List.all_eq_true.mp hp c (List.contains_iff_mem.mp hc)
  rw [h] at this
  cases this

theorem all_isPassed_of_isGap {gap : Text} (h : isGap gap = true) : gap.all isPassed = true :=
  List.all_eq_true.mpr fun c hc => isPassed_of (by decide) (List.all_eq_true.mp h c hc)

theorem all_isPassed_of_isTagName {tag : Text} (h : isTagName tag = true) :
    tag.all isPassed = true := by
  cases tag with
  | nil => rfl
  | cons c w =>
    rw [isTagName, Bool.and_eq_true] at h
    rw [List.all_cons, isPassed_of (by decide) h.1, Bool.true_and]
    exact List.all_eq_true.mpr fun d hd => isPassed_of (by decide) (List.all_eq_true.mp h.2 d hd)

theorem all_isPassed_flag {gap key : Text} (h : mayNameAttribute gap key = true) :
    (gap ++ key).all isPassed = true := by
  simp only [mayNameAttribute, Bool.and_eq_true] at h
  rw [List.all_append, all_isPassed_of_isGap h.1.1, all_isPassed_of_isTagName h.2, Bool.and_self]

theorem all_isPassed_attributeHead {gap key left right : Text} (h : mayNameAttribute gap key = true)
    (hleft : isGap left = true) (hright : isGap right = true) :
    (attributeHead gap key left right).all isPassed = true := by
  have hflag := all_isPassed_flag h
  have hequals : isPassed '=' = true := rfl
  rw [List.all_append, Bool.and_eq_true] at hflag
  simp only [attributeHead, List.all_append, List.all_cons, hflag, hequals,
    all_isPassed_of_isGap hleft, all_isPassed_of_isGap hright, Bool.and_self]

theorem not_mem_of_all_isPassed {w : Text} (h : w.all isPassed = true) : '>' ∉ w := fun hmem =>
  absurd (List.all_eq_true.mp h '>' hmem) (by decide)

theorem found_tag {w : Text} (hw : w.all isPassed = true) (before z : Text) :
    found name (.tag :: outer) before (w ++ z) =
      found name (.tag :: outer) (w.reverse ++ before) z := by
  refine found_passed rfl (fun c hc before rest => ?_) before z
  have := List.all_eq_true.mp hw c hc
  simp only [isPassed, List.contains_cons, List.contains_nil, Bool.or_false, Bool.not_eq_true',
    Bool.or_eq_false_iff] at this
  simp [piece, this]

theorem found_text {w : Text} (hw : isMarkupText w = true) (before z : Text) :
    found name (.children :: outer) before (w ++ z) =
      found name (.children :: outer) (w.reverse ++ before) z := by
  refine found_passed rfl (fun c hc before rest => ?_) before z
  have := List.all_eq_true.mp hw c hc
  simp only [List.contains_cons, List.contains_nil, Bool.or_false, Bool.not_eq_true',
    Bool.or_eq_false_iff] at this
  simp [piece, this]

theorem closing_attributeText {quote : Char} (hq : quote = '\'' ∨ quote = '"') {body : Text}
    (h : isAttributeText quote body = true) (z : Text) :
    closing (.inside (.quoted quote)) (body ++ quote :: z) = some (body ++ [quote], z) := by
  induction body with
  | nil => exact closing_string hq rfl z
  | cons c body ih =>
    rw [isAttributeText, List.all_cons, Bool.and_eq_true] at h
    obtain ⟨hc, hbody⟩ := h
    have hnext : (State.inside (.quoted quote)).step c = some (.inside (.quoted quote)) := by
      simp only [Bool.and_eq_true, bne_iff_ne] at hc
      simp [State.step, State.inside, hc]
    rw [List.cons_append, closing_cons hnext (by simp [State.inside]), ih hbody]
    rfl

theorem found_attributeText {quote : Char} (hq : quote = '\'' ∨ quote = '"') {body : Text}
    (h : isAttributeText quote body = true) (before z : Text) :
    found name (.tag :: outer) before (quote :: (body ++ quote :: z)) =
      found name (.tag :: outer) ((quote :: (body ++ [quote])).reverse ++ before) z := by
  have hlength : stringLength quote (body ++ quote :: z) = (body ++ [quote]).length + 1 := by
    rw [stringLength, closing_attributeText hq h]
    exact Nat.add_comm ..
  have hpiece : piece (.tag :: outer) before quote ((body ++ [quote]) ++ z) =
      ⟨(body ++ [quote]).length + 1, .tag :: outer⟩ := by
    rw [List.append_assoc, List.singleton_append]
    rcases hq with rfl | rfl <;> simp only [piece, hlength] <;> rfl
  have := @found_outside name _ _ rfl _ _ _ _ hpiece
  simpa using this

theorem found_tagEnd (before z : Text) :
    found name (.tag :: outer) before ('>' :: z) =
      found name (.children :: outer) ('>' :: before) z :=
  found_char rfl rfl

theorem found_selfClosing (before z : Text) :
    found name (.tag :: outer) before ('/' :: '>' :: z) =
      found name outer ('>' :: '/' :: before) z :=
  found_silent (a := ['>']) rfl rfl

/-- The tag that ends an element leads out of its children. -/
theorem found_endTag {tag gap : Text} (htag : '>' ∉ tag) (hgap : '>' ∉ gap) (before z : Text) :
    found name (.children :: outer) before (endTag tag gap ++ z) =
      found name outer ((endTag tag gap).reverse ++ before) z := by
  have htake : ('/' :: (tag ++ (gap ++ ['>']) ++ z)).takeWhile (· != '>') =
      '/' :: (tag ++ gap) := by
    have htext : '/' :: (tag ++ (gap ++ ['>']) ++ z) = ('/' :: (tag ++ gap)) ++ '>' :: z := by simp
    have hself : ('/' :: (tag ++ gap)).takeWhile (· != '>') = '/' :: (tag ++ gap) := by
      rw [List.takeWhile_eq_self_iff]
      intro c hc
      rw [bne_iff_ne]
      rintro rfl
      simp only [List.mem_cons, List.mem_append, htag, hgap] at hc
      simp at hc
    rw [htext, takeWhile_stop rfl, hself]
  have hpiece : piece (.children :: outer) before '<' ('/' :: (tag ++ (gap ++ ['>'])) ++ z) =
      ⟨('/' :: (tag ++ (gap ++ ['>']))).length + 1, outer⟩ := by
    have : piece (.children :: outer) before '<' ('/' :: (tag ++ (gap ++ ['>'])) ++ z) =
      tagPiece (.children :: outer) ('/' :: ((tag ++ (gap ++ ['>'])) ++ z)) := rfl
    rw [this, tagPiece, htake]
    simp
    omega
  have := @found_silent name _ _ _ _ _ _ rfl hpiece
  simpa [endTag] using this

end

/-- What stands in braces is read as code where they lead into code and back. -/
theorem found_braces {frames : List Frame} {f : Frame} {before z : Text} {inner : Code}
    (hopen : ∀ rest, piece frames before '{' rest = ⟨1, f :: frames⟩)
    (hclose : ∀ before rest, piece (f :: frames) before '}' rest = ⟨1, frames⟩)
    (hinner : found name (f :: frames) (textBehind ('{' :: before) []) (inner.text ++ '}' :: z) =
      reported (inner.places name (Text.size (textBehind ('{' :: before) [])) []) ++
        found name (f :: frames) (inner.text.reverse ++ textBehind ('{' :: before) []) ('}' :: z)) :
    found name frames before ('{' :: (inner.text ++ '}' :: z)) =
      reported (inner.places name (Text.size before + 1) []) ++
        found name frames (('{' :: (inner.text ++ ['}'])).reverse ++ before) z := by
  have hsize : Text.size (textBehind ('{' :: before) []) = Text.size before + 1 := Nat.add_comm ..
  have hbehind : '}' :: (inner.text.reverse ++ textBehind ('{' :: before) []) =
      ('{' :: (inner.text ++ ['}'])).reverse ++ before := by
    simp [textBehind]
  rw [hsize, found_char rfl (hclose _ _), hbehind] at hinner
  rw [found_char rfl (hopen _)]
  exact hinner

theorem tagPiece_tag {tag : Text} (h : isTagName tag = true) (frames : List Frame) (t : Text) :
    tagPiece frames (tag ++ t) = ⟨1, .tag :: frames⟩ := by
  cases tag with
  | nil => cases h
  | cons c w =>
    rw [isTagName, Bool.and_eq_true] at h
    have hslash : c ≠ '/' := by
      rintro rfl
      cases h.1
    have hangle : c ≠ '>' := by
      rintro rfl
      cases h.1
    simp [tagPiece, hslash, hangle]

/-- A tag is read up to what ends it where its attributes are. -/
theorem found_startTag {frames : List Frame} {before z tag gap : Text} {attributes : Attributes}
    (htag : isTagName tag = true) (hgap : isGap gap = true)
    (hp : piece frames before '<' (tag ++ (attributes.text ++ (gap ++ z))) =
      tagPiece frames (tag ++ (attributes.text ++ (gap ++ z))))
    (hattributes : found name (.tag :: frames) (tag.reverse ++ '<' :: before)
      (attributes.text ++ (gap ++ z)) = reported
        (attributes.places name (Text.size (tag.reverse ++ '<' :: before))) ++ found name
          (.tag :: frames) (attributes.text.reverse ++ (tag.reverse ++ '<' :: before)) (gap ++ z)) :
    found name frames before ('<' :: (tag ++ (attributes.text ++ (gap ++ z)))) =
      reported (attributes.places name (Text.size before + 1 + Text.size tag)) ++
        found name (.tag :: frames) ((tag ++ (attributes.text ++ gap)).reverse ++ '<' ::
          before) z := by
  have hsize : Text.size ('<' :: before) = Text.size before + 1 := Nat.add_comm ..
  rw [tagPiece_tag htag] at hp
  rw [size_reverse_append, hsize, found_tag (all_isPassed_of_isGap hgap)] at hattributes
  rw [found_char rfl hp, found_tag (all_isPassed_of_isTagName htag), hattributes]
  simp

theorem head?_brace (z : Text) : ∀ c ∈ ('}' :: z : Text).head?, c = '}' := by
  rintro c ⟨⟩
  rfl

/-! ### Code -/

theorem Parts.text_getLast : ∀ parts : Parts, ∃ init, parts.text = init ++ ['`']
  | .nil => ⟨[], rfl⟩
  | .cons inner behind rest => by
    obtain ⟨init, h⟩ := rest.text_getLast
    exact ⟨'$' :: '{' :: (inner.text ++ '}' :: (behind ++ init)), by simp [Parts.text, h]⟩

theorem endTag_getLast (tag gap : Text) :
    endTag tag gap = ('<' :: '/' :: (tag ++ gap)) ++ ['>'] := by
  simp [endTag]

theorem Element.tail_getLast (e : Element) : ∃ init, e.tail = init ++ ['>'] := by
  cases e with
  | closed tag attributes gap =>
    exact ⟨tag ++ (attributes.text ++ (gap ++ ['/'])), by simp [Element.tail]⟩
  | paired tag attributes gap children gap' =>
    exact ⟨tag ++ (attributes.text ++ (gap ++ '>' ::
        (children.text ++ '<' :: '/' :: (tag ++ gap')))), by
      simp [Element.tail, endTag_getLast]⟩
  | fragment children =>
    exact ⟨'>' :: (children.text ++ ['<', '/']), by simp [Element.tail, endTag]⟩

/-- A token ends where the code behind it starts. -/
theorem breaksOff_of_isSource {fresh : Bool} {left : List Token} {t : Token} {rest : Code}
    (hrest : rest.isSource fresh (t :: left) = true) {tail : Text}
    (htail : ∀ c ∈ tail.head?, c = '}') (hleaf : t.isLeaf = true) :
    BreaksOff t (rest.text ++ tail) := by
  have hend : tail = [] ∨ ∃ z, tail = '}' :: z := by
    cases tail with
    | nil => exact .inl rfl
    | cons c z => exact .inr ⟨z, by rw [htail c rfl]⟩
  have hword (hw : t.isWord = true) : isOutsideName (rest.text ++ tail) = true := by
    cases rest with
    | nil => rcases hend with rfl | ⟨z, rfl⟩ <;> rfl
    | token u rest =>
      simp only [Code.isSource, Bool.and_eq_true] at hrest
      obtain ⟨⟨⟨-, hshape⟩, hstand⟩, -⟩ := hrest
      rw [Code.text, List.append_assoc]
      refine isOutsideName_text hshape ?_ _
      rw [Bool.eq_false_iff]
      intro hu
      have htouch := mayTouch_of_mayStandBehind hstand (by rintro c rfl; cases hu)
      cases u <;> first | cases hu; done | simp [Token.mayTouch, Token.endsInWord, hw] at htouch
    | _ => rfl
  cases t with
  | word w => exact hword rfl
  | number whole fraction exponent => exact hword rfl
  | mark c =>
    rintro rfl
    cases rest with
    | nil => rcases hend with rfl | ⟨z, rfl⟩ <;> rfl
    | token u rest =>
      simp only [Code.isSource, Bool.and_eq_true] at hrest
      obtain ⟨⟨⟨-, hshape⟩, hstand⟩, -⟩ := hrest
      rw [Code.text, List.append_assoc]
      refine @commentPrefix?_text _ left hshape ?_ _
      cases u with
      | blank c => rfl
      | _ => exact mayTouch_of_mayStandBehind hstand (by rintro c ⟨⟩)
    | _ => rfl
  | string quote body => trivial
  | blank c => trivial
  | spread => trivial
  | _ => cases hleaf

mutual

/-- **The walk reads code as what it is**, and reports the name where the tokens before it show
a call. -/
theorem found_code {frames : List Frame} (hf : inCode frames = true) {fresh : Bool} {base : Text}
    {left : List Token} (hb : StartsCode fresh base) (hs : AreSettled left) {tail : Text}
    (htail : ∀ c ∈ tail.head?, c = '}') :
    ∀ code : Code, code.isSource fresh left = true →
      (∀ site ∈ code.elements left tail, site.isHidden = false) →
      found name frames (textBehind base left) (code.text ++ tail) =
        reported (code.places name (Text.size (textBehind base left)) left) ++
          found name frames (code.text.reverse ++ textBehind base left) tail
  | .nil, _, _ => rfl
  | .token t rest, h, he => by
    simp only [Code.isSource, Bool.and_eq_true] at h
    obtain ⟨⟨⟨hleaf, hshape⟩, hstand⟩, hrest⟩ := h
    have hcall : ∀ w, t = .word w → callableAfter (textBehind base left) =
        (mayCall left != isMisread left) := by
      rintro w rfl
      rw [hb.callableAfter, callableAfter_behind (.inl rfl) hs hstand]
    have hopen : ∀ quote body, t = .string quote body →
        opensString (textBehind base left) = true := by
      rintro quote body rfl
      rw [hb.opensString, opensString_behind (.inl rfl) hs hstand]
    have htoken : found name frames (textBehind base left) (t.text ++ (rest.text ++ tail)) = _ :=
      found_leaf hf hleaf hshape hcall hopen (breaksOff_of_isSource hrest htail hleaf)
    have hsettled : AreSettled (t :: left) := ⟨hshape, hstand, hs⟩
    have hlater := found_code hf hb hsettled htail rest hrest he
    rw [textBehind] at hlater
    rw [Code.text, List.append_assoc, htoken, hlater, Code.places, reported_append,
      size_reverse_append]
    simp
  | .template head parts rest, h, he => by
    simp only [Code.isSource, Bool.and_eq_true] at h
    rw [Code.elements, List.forall_mem_append] at he
    have hnone : AreSettled [] := trivial
    have hpiece : ∀ u, piece frames (textBehind base left) '`' u = templatePiece frames u := by
      intro u
      rw [piece_code hf]
      rfl
    have hbacktick : isNameStart '`' = false := rfl
    have hparts := found_substitutions hf hbacktick hpiece h.1.1 parts h.1.2 he.1
    obtain ⟨init, hinit⟩ := parts.text_getLast
    have hbase :
        StartsCode false (('`' :: (head ++ parts.text)).reverse ++ textBehind base left) := by
      have :=
        StartsCode.of_isBoundary (show isBoundary '`' = true from rfl) ('`' :: (head ++ init))
          (textBehind base left)
      simpa [hinit] using this
    have hlater := found_code hf hbase hnone htail rest h.2 he.2
    have hopened : (head.reverse ++ '`' :: textBehind base left) =
        ('`' :: head).reverse ++ textBehind base left := by simp
    have hbehind : parts.text.reverse ++ (('`' :: head).reverse ++ textBehind base left) =
        ('`' :: (head ++ parts.text)).reverse ++ textBehind base left := by simp
    rw [hopened, hbehind, size_reverse_append] at hparts
    rw [textBehind, size_reverse_append] at hlater
    have htext : (Code.template head parts rest).text ++ tail =
        '`' :: (head ++ (parts.text ++ (rest.text ++ tail))) := by
      simp [Code.text]
    rw [htext, hparts, hlater, Code.places, reported_append]
    simp [Code.text]
  | .block inner rest, h, he => by
    simp only [Code.isSource, Bool.and_eq_true] at h
    rw [Code.elements, List.forall_mem_append] at he
    have hnone : AreSettled [] := trivial
    have hopen : ∀ u, piece frames (textBehind base left) '{' u = ⟨1, .block :: frames⟩ := by
      intro u
      rw [piece_code hf]
      rfl
    have hinside : inCode (.block :: frames) = true := rfl
    have hinner := found_code hinside (StartsCode.brace true (textBehind base left)) hnone
      (head?_brace (rest.text ++ tail)) inner h.1 he.1
    have hblock := found_braces hopen (fun _ _ => rfl) hinner
    have hbase :
        StartsCode false (('{' :: (inner.text ++ ['}'])).reverse ++ textBehind base left) :=
      .of_isBoundary rfl ('{' :: inner.text) (textBehind base left)
    have hlater := found_code hf hbase hnone htail rest h.2 he.2
    rw [textBehind, size_reverse_append] at hlater
    have htext : (Code.block inner rest).text ++ tail =
        '{' :: (inner.text ++ '}' :: (rest.text ++ tail)) := by
      simp [Code.text]
    rw [htext, hblock, hlater, Code.places, reported_append]
    simp [Code.text]
  | .element e rest, h, he => by
    simp only [Code.isSource, Bool.and_eq_true] at h
    rw [Code.elements, List.forall_mem_cons, List.forall_mem_append] at he
    have hnone : AreSettled [] := trivial
    have hopens := opensElement_tail hb hs h.1.1 h.1.2 (rest.text ++ tail)
    have hpiece : piece frames (textBehind base left) '<' (e.tail ++ (rest.text ++ tail)) =
        tagPiece frames (e.tail ++ (rest.text ++ tail)) := by
      rw [piece_code hf]
      simp [codePiece, hopens, he.1]
    have helement := found_element e h.1.2 he.2.1 hpiece
    obtain ⟨init, hinit⟩ := e.tail_getLast
    have hbase : StartsCode false (('<' :: e.tail).reverse ++ textBehind base left) := by
      rw [hinit]
      exact .of_isBoundary rfl ('<' :: init) (textBehind base left)
    have hlater := found_code hf hbase hnone htail rest h.2 he.2.2
    have hbehind : e.tail.reverse ++ '<' :: textBehind base left =
        ('<' :: e.tail).reverse ++ textBehind base left := by simp
    rw [textBehind, size_reverse_append] at hlater
    rw [hbehind] at helement
    have htext : (Code.element e rest).text ++ tail = '<' :: (e.tail ++ (rest.text ++ tail)) := by
      simp [Code.text]
    rw [htext, helement, hlater, Code.places, reported_append]
    simp [Code.text]

theorem found_substitutions {frames outer : List Frame} {before head : Text} {opener : Char}
    (hf : inCode outer = true) (ho : isNameStart opener = false)
    (hp : ∀ rest, piece frames before opener rest = templatePiece outer rest)
    (hh : isTemplateText head = true) {z : Text} :
    ∀ parts : Parts, parts.isSource = true → (∀ site ∈ parts.elements z, site.isHidden = false) →
      found name frames before (opener :: (head ++ (parts.text ++ z))) =
        reported (parts.places name (Text.size (head.reverse ++ opener :: before))) ++
          found name outer (parts.text.reverse ++ (head.reverse ++ opener :: before)) z
  | .nil, _, _ => found_template_end ho hp hh z
  | .cons inner behind rest, h, he => by
    simp only [Parts.isSource, Bool.and_eq_true] at h
    rw [Parts.elements, List.forall_mem_append] at he
    have hnone : AreSettled [] := trivial
    have hinside : inCode (.substitution :: outer) = true := rfl
    have hinner :=
      found_code hinside (StartsCode.brace true ('$' :: (head.reverse ++ opener :: before))) hnone
        (head?_brace (behind ++ (rest.text ++ z))) inner h.1.1 he.1
    have hbrace : isNameStart '}' = false := rfl
    have hreopen : ∀ u, piece (.substitution :: outer)
        (inner.text.reverse ++ textBehind ('{' :: '$' :: (head.reverse ++ opener :: before)) [])
        '}' u = templatePiece outer u := fun _ => rfl
    have hlater := found_substitutions hf hbrace hreopen h.1.2 rest h.2 he.2
    have htext : (Parts.cons inner behind rest).text ++ z =
        '$' :: '{' :: (inner.text ++ '}' :: (behind ++ (rest.text ++ z))) := by
      simp [Parts.text]
    have hsize : Text.size (textBehind ('{' :: '$' :: (head.reverse ++ opener :: before)) []) =
        Text.size (head.reverse ++ opener :: before) + 2 := by
      show 1 + (1 + _) = _
      omega
    have hbehind : behind.reverse ++ '}' :: (inner.text.reverse ++
          textBehind ('{' :: '$' :: (head.reverse ++ opener :: before)) []) =
        ('$' :: '{' :: (inner.text ++ '}' :: behind)).reverse ++
          (head.reverse ++ opener :: before) := by
      simp [textBehind]
    rw [hbehind, size_reverse_append] at hlater
    rw [hsize, hlater] at hinner
    rw [htext, found_template_code ho hp hh]
    refine hinner.trans ?_
    rw [Parts.places, reported_append]
    simp [Parts.text]

theorem found_element {frames : List Frame} {before z : Text} :
    ∀ e : Element, e.isSource = true → (∀ site ∈ e.elements z, site.isHidden = false) →
      piece frames before '<' (e.tail ++ z) = tagPiece frames (e.tail ++ z) →
      found name frames before ('<' :: (e.tail ++ z)) =
        reported (e.places name (Text.size before + 1)) ++
          found name frames (e.tail.reverse ++ '<' :: before) z
  | .closed tag attributes gap, h, he, hp => by
    simp only [Element.isSource, Bool.and_eq_true] at h
    have htext : (Element.closed tag attributes gap).tail ++ z =
        tag ++ (attributes.text ++ (gap ++ '/' :: '>' :: z)) := by
      simp [Element.tail]
    rw [htext] at hp ⊢
    have hattributes := found_attributes frames (tag.reverse ++ '<' :: before) attributes h.1.2 he
    rw [found_startTag h.1.1 h.2 hp hattributes, found_selfClosing, Element.places]
    simp [Element.tail]
  | .paired tag attributes gap children gap', h, he, hp => by
    simp only [Element.isSource, Bool.and_eq_true] at h
    obtain ⟨⟨⟨⟨htag, hsource⟩, hgap⟩, hchildren⟩, hgap'⟩ := h
    rw [Element.elements, List.forall_mem_append] at he
    have htext : (Element.paired tag attributes gap children gap').tail ++ z =
        tag ++ (attributes.text ++ (gap ++ '>' :: (children.text ++ (endTag tag gap' ++ z)))) := by
      simp [Element.tail]
    have hbehind : '>' :: ((tag ++ (attributes.text ++ gap)).reverse ++ '<' :: before) =
        (tag ++ (attributes.text ++ (gap ++ ['>']))).reverse ++ '<' :: before := by
      simp
    have hsize : Text.size ('<' :: before) = Text.size before + 1 := Nat.add_comm ..
    rw [htext] at hp ⊢
    have hattributes :=
      found_attributes frames (tag.reverse ++ '<' :: before) attributes hsource he.1
    have hinner :=
      found_children frames ((tag ++ (attributes.text ++ (gap ++ ['>']))).reverse ++ '<' :: before)
        children hchildren he.2
    have hmem := not_mem_of_all_isPassed (all_isPassed_of_isTagName htag)
    have hmem' := not_mem_of_all_isPassed (all_isPassed_of_isGap hgap')
    rw [found_startTag htag hgap hp hattributes, found_tagEnd, hbehind, hinner,
      found_endTag hmem hmem', size_reverse_append, hsize, Element.places, reported_append]
    simp [Element.tail]
  | .fragment children, h, he, hp => by
    have htext : (Element.fragment children).tail ++ z =
        '>' :: (children.text ++ (endTag [] [] ++ z)) := by
      simp [Element.tail]
    have hpiece : piece frames before '<' (['>'] ++ (children.text ++ (endTag [] [] ++ z))) =
        ⟨2, .children :: frames⟩ := by
      rw [htext] at hp
      exact hp
    have hinner := found_children frames ('>' :: '<' :: before) children h he
    have hsize : Text.size ('>' :: '<' :: before) = Text.size before + 1 + 1 := by
      show 1 + (1 + _) = _
      omega
    have hopened : found name frames before ('<' :: '>' :: (children.text ++ (endTag [] [] ++ z))) =
        found name (.children :: frames) ('>' :: '<' :: before)
          (children.text ++ (endTag [] [] ++ z)) :=
      found_silent (a := ['>']) rfl hpiece
    rw [htext, hopened, hinner, hsize, found_endTag (by simp) (by simp),
      Element.places]
    simp [Element.tail]

theorem found_attributes (outer : List Frame) (before : Text) {z : Text} :
    ∀ attributes : Attributes, attributes.isSource = true →
      (∀ site ∈ attributes.elements z, site.isHidden = false) →
      found name (.tag :: outer) before (attributes.text ++ z) =
        reported (attributes.places name (Text.size before)) ++
          found name (.tag :: outer) (attributes.text.reverse ++ before) z
  | .nil, _, _ => rfl
  | .flag gap key rest, h, he => by
    rw [Attributes.isSource, Bool.and_eq_true] at h
    have hlater := found_attributes outer ((gap ++ key).reverse ++ before) rest h.2 he
    have htext : (Attributes.flag gap key rest).text ++ z = (gap ++ key) ++ (rest.text ++ z) := by
      simp [Attributes.text]
    rw [htext, found_tag (all_isPassed_flag h.1), hlater, size_reverse_append, Attributes.places]
    simp [Attributes.text]
  | .string gap key left right quote body rest, h, he => by
    simp only [Attributes.isSource, Bool.and_eq_true, Bool.or_eq_true, beq_iff_eq] at h
    obtain ⟨⟨⟨⟨⟨hkey, hleft⟩, hright⟩, hquote⟩, hbody⟩, hrest⟩ := h
    have hlater := found_attributes outer
      ((attributeHead gap key left right ++ quote :: (body ++ [quote])).reverse ++ before)
        rest hrest he
    have htext : (Attributes.string gap key left right quote body rest).text ++ z =
        attributeHead gap key left right ++ quote :: (body ++ quote :: (rest.text ++ z)) := by
      simp [Attributes.text]
    have hbehind :
        (quote :: (body ++ [quote])).reverse ++
          ((attributeHead gap key left right).reverse ++ before) =
        (attributeHead gap key left right ++ quote :: (body ++ [quote])).reverse ++ before := by
      simp
    rw [htext, found_tag (all_isPassed_attributeHead hkey hleft hright),
      found_attributeText hquote hbody, hbehind, hlater, size_reverse_append, Attributes.places]
    simp [Attributes.text]
  | .code gap key left right inner rest, h, he => by
    simp only [Attributes.isSource, Bool.and_eq_true] at h
    obtain ⟨⟨⟨⟨hkey, hleft⟩, hright⟩, hsource⟩, hrest⟩ := h
    rw [Attributes.elements, List.forall_mem_append] at he
    have hnone : AreSettled [] := trivial
    have hinside : inCode (.elementCode :: .tag :: outer) = true := rfl
    have hinner :=
      found_code hinside (StartsCode.brace true ((attributeHead gap key left right).reverse ++
        before)) hnone (head?_brace (rest.text ++ z)) inner hsource he.1
    have hbraces := found_braces (fun _ => rfl) (fun _ _ => rfl) hinner
    have hlater := found_attributes outer
      ((attributeHead gap key left right ++ '{' :: (inner.text ++ ['}'])).reverse ++ before)
        rest hrest he.2
    have htext : (Attributes.code gap key left right inner rest).text ++ z =
        attributeHead gap key left right ++ '{' :: (inner.text ++ '}' :: (rest.text ++ z)) := by
      simp [Attributes.text]
    have hbehind :
        ('{' :: (inner.text ++ ['}'])).reverse ++
          ((attributeHead gap key left right).reverse ++ before) =
        (attributeHead gap key left right ++ '{' :: (inner.text ++ ['}'])).reverse ++ before := by
      simp
    rw [htext, found_tag (all_isPassed_attributeHead hkey hleft hright), hbraces, hbehind, hlater,
      size_reverse_append, size_reverse_append, Attributes.places, reported_append]
    simp [Attributes.text]

theorem found_children (outer : List Frame) (before : Text) {z : Text} :
    ∀ children : Children, children.isSource = true →
      (∀ site ∈ children.elements z, site.isHidden = false) →
      found name (.children :: outer) before (children.text ++ z) =
        reported (children.places name (Text.size before)) ++
          found name (.children :: outer) (children.text.reverse ++ before) z
  | .nil, _, _ => rfl
  | .plain t rest, h, he => by
    rw [Children.isSource, Bool.and_eq_true] at h
    have hlater := found_children outer (t.reverse ++ before) rest h.2 he
    have htext : (Children.plain t rest).text ++ z = t ++ (rest.text ++ z) := by
      simp [Children.text]
    rw [htext, found_text h.1, hlater, size_reverse_append, Children.places]
    simp [Children.text]
  | .code inner rest, h, he => by
    rw [Children.isSource, Bool.and_eq_true] at h
    rw [Children.elements, List.forall_mem_append] at he
    have hnone : AreSettled [] := trivial
    have hinside : inCode (.elementCode :: .children :: outer) = true := rfl
    have hinner :=
      found_code hinside (StartsCode.brace true before) hnone (head?_brace (rest.text ++ z))
        inner h.1 he.1
    have hbraces := found_braces (fun _ => rfl) (fun _ _ => rfl) hinner
    have hlater :=
      found_children outer (('{' :: (inner.text ++ ['}'])).reverse ++ before) rest h.2 he.2
    have htext : (Children.code inner rest).text ++ z =
        '{' :: (inner.text ++ '}' :: (rest.text ++ z)) := by
      simp [Children.text]
    rw [htext, hbraces, hlater, size_reverse_append, Children.places, reported_append]
    simp [Children.text]
  | .element e rest, h, he => by
    rw [Children.isSource, Bool.and_eq_true] at h
    rw [Children.elements, List.forall_mem_append] at he
    have hpiece : piece (.children :: outer) before '<' (e.tail ++ (rest.text ++ z)) =
        tagPiece (.children :: outer) (e.tail ++ (rest.text ++ z)) := rfl
    have helement := found_element e h.1 he.1 hpiece
    have hlater := found_children outer (('<' :: e.tail).reverse ++ before) rest h.2 he.2
    have htext : (Children.element e rest).text ++ z = '<' :: (e.tail ++ (rest.text ++ z)) := by
      simp [Children.text]
    have hbehind : e.tail.reverse ++ '<' :: before = ('<' :: e.tail).reverse ++ before := by simp
    rw [htext, helement, hbehind, hlater, size_reverse_append, Children.places, reported_append]
    simp [Children.text]

end

/-! ### The names found -/

/-- **The names found in code with elements.** Where no element in code is hidden they are those
that stand in code, as the tokens before each say and its characters show; no other name is
found, in tags, attributes and text none at all. -/
theorem offsets_code {code : Code} (hs : code.isSource true [] = true)
    (he : ∀ site ∈ code.elements [] [], site.isHidden = false) (name : Text) :
    let offsets := (occurrences name code.text).map fun place => Text.size place.before
    offsets = ((code.places name 0 []).filter fun place =>
      mayCall place.2 != isMisread place.2).map (·.1) ∧
      ((∀ place ∈ code.places name 0 [], isMisread place.2 = false) →
        offsets = code.callOffsets name) := by
  intro offsets
  have hoffsets : offsets = reported (code.places name 0 []) := by
    have hcode : inCode [] = true := rfl
    have hbase : StartsCode true [] := nofun
    have hnone : AreSettled [] := trivial
    have htail : ∀ c ∈ ([] : Text).head?, c = '}' := nofun
    have h := @found_code name _ hcode _ _ _ hbase hnone _ htail code hs he
    rw [List.append_nil, show found name [] _ [] = [] from rfl, List.append_nil] at h
    exact h
  refine ⟨hoffsets, fun h => hoffsets.trans ?_⟩
  rw [reported, Code.callOffsets]
  congr 1
  refine List.filter_congr fun place hplace => ?_
  rw [h place hplace]
  cases mayCall place.2 <;> rfl

/-- In `(<p title="it's $t" id= {$t('a')}>Don't $t(<br />{l=><>): $t,{$t('a')}</>}</p>) $t('a')`
the name is found in the attribute, in the child of the inner element and behind the outer one.
-/
theorem offsets_code_nested :
    let call : Code := .token (.word "$t") (.token (.mark '(')
      (.token (.string '\'' "a") (.token (.mark ')') .nil)))
    let item : Code := .token (.word "l") (.token (.mark '=') (.token (.mark '>')
      (.element (.fragment (.plain "): $t," (.code call .nil))) .nil)))
    let attributes : Attributes :=
      .string " " "title" "" "" '"' "it's $t" (.code " " "id" "" " " call .nil)
    let children : Children :=
      .plain "Don't $t(" (.element (.closed "br" .nil " ") (.code item .nil))
    let code : Code := .token (.mark '(') (.element (.paired "p" attributes "" children "")
      (.token (.mark ')') (.token (.blank ' ') call)))
    code.isSource true [] = true ∧ (∀ site ∈ code.elements [] [], site.isHidden = false) ∧
      (occurrences "$t" code.text).map (fun place => Text.size place.before) = [25, 62, 80] := by
  intro call item attributes children code
  have hsource : code.isSource true [] = true := by decide
  have hseen : ∀ site ∈ code.elements [] [], site.isHidden = false := by decide
  have hread : ∀ place ∈ code.places "$t" 0 [], isMisread place.2 = false := by decide
  refine ⟨hsource, hseen, ((offsets_code hsource hseen "$t").2 hread).trans ?_⟩
  decide

/-- The text of a hidden element is read as code: in `return<p>$t('a')</p>`, where nothing
stands between the keyword and the element, and in `x = <p>(see): $t('a')</p>`, where the text
starts like the parameters of a function, the name is found in the text. -/
theorem offsets_ne_hidden :
    let glued : Code := .token (.word "return")
      (.element (.paired "p" .nil "" (.plain "$t('a')" .nil) "") .nil)
    let generic : Code :=
      .token (.word "x") (.token (.blank ' ') (.token (.mark '=') (.token (.blank ' ')
      (.element (.paired "p" .nil "" (.plain "(see): $t('a')" .nil) "") .nil))))
    (glued.isSource true [] = true ∧ glued.callOffsets "$t" = [] ∧
        (occurrences "$t" glued.text).map (fun place => Text.size place.before) = [9]) ∧
      generic.isSource true [] = true ∧ generic.callOffsets "$t" = [] ∧
        (occurrences "$t" generic.text).map (fun place => Text.size place.before) = [14] := by
  decide

end Localization.Script
