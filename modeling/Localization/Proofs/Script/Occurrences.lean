import Mathlib
import Localization.Proofs.Script.Following

/-! Where a name is found in a text of tokens.

`callOffsets` says from the tokens alone where a name is called. The walk is followed
token by token (`found_token`, `found_tokens`, `found_parts`, by one induction over the
tree of tokens), with the tokens before a place as the only thing remembered of the text
before it. `offsets_occurrences` is the result: what the walk finds, and that it is what
the tokens say unless the characters before some name mislead. -/
namespace Localization.Script

open Token (mayStandBehind mayTouch endsInWord endLine endsBefore)

/-! ### The name among the tokens -/

mutual

/-- The places in a token that stands at `offset` behind `left` where it is the word `name`:
the bytes before each, and the tokens before it from the nearest on. -/
def Token.places (name : Text) (offset : Nat) (left : List Token) : Token → List (Nat × List Token)
  | .word w => if w == name then [(offset, left)] else []
  | .template head parts => partsPlaces name (offset + 1 + Text.size head) parts
  | .block inner => placesFrom name (offset + 1) [] inner
  | _ => []

/-- The places of a name among tokens. -/
def placesFrom (name : Text) (offset : Nat) (left : List Token) :
    List Token → List (Nat × List Token)
  | [] => []
  | t :: rest =>
    t.places name offset left ++ placesFrom name (offset + Text.size t.text) (t :: left) rest

/-- The places of a name in the substitutions of a template. -/
def partsPlaces (name : Text) (offset : Nat) : List (List Token × Text) → List (Nat × List Token)
  | [] => []
  | (code, behind) :: rest =>
    placesFrom name (offset + 2) [] code ++
      partsPlaces name (offset + 2 + Text.size (tokensText code) + 1 + Text.size behind) rest

end

/-- The bytes before each place where tokens call a name. -/
def callOffsets (name : Text) (ts : List Token) : List Nat :=
  ((placesFrom name 0 [] ts).filter fun place => mayCall place.2).map (·.1)

/-- The bytes before each place that the walk reports. -/
def reported (places : List (Nat × List Token)) : List Nat :=
  (places.filter fun place => mayCall place.2 != isMisread place.2).map (·.1)

theorem reported_append (a b : List (Nat × List Token)) :
    reported (a ++ b) = reported a ++ reported b := by
  simp [reported]

theorem size_reverse (t : Text) : Text.size t.reverse = Text.size t := by
  induction t with
  | nil => rfl
  | cons c rest ih =>
    rw [List.reverse_cons, Text.size_append, ih, Text.size, Text.size, Text.size]
    omega

theorem size_textBehind_cons (base : Text) (t : Token) (left : List Token) :
    Text.size (textBehind base (t :: left)) =
      Text.size (textBehind base left) + Text.size t.text := by
  rw [textBehind, Text.size_append, size_reverse, Nat.add_comm]

/-! ### The walk, token by token -/

variable {name : Text}

/-- A word is reported if it is the name and the characters before it show a call. -/
theorem found_word {frames : List Frame} (hf : inCode frames = true) {before : Text}
    {left : List Token} (hcall : callableAfter before = (mayCall left != isMisread left)) {w : Text}
    (hw : isName w = true) {z : Text} (hz : isOutsideName z = true) :
    found name frames before (w ++ z) =
      reported ((Token.word w).places name (Text.size before) left) ++
        found name frames (w.reverse ++ before) z := by
  cases w with
  | nil => cases hw
  | cons c a =>
    have hall : (c :: a).all isNameChar = true := all_of_isName hw
    rw [List.all_cons, Bool.and_eq_true] at hall
    rw [isName, Bool.and_eq_true] at hw
    have hbehind : a.reverse ++ c :: before = (c :: a).reverse ++ before := by simp
    rw [List.cons_append, found_run hf hall.1 hall.2 hz, hbehind, hw.1, Bool.true_and, hcall,
      Token.places]
    congr 1
    by_cases he : (c :: a == name) = true
    · rw [if_pos he, he, Bool.true_and]
      by_cases hcall : (mayCall left != isMisread left) = true <;> simp [reported, hcall]
    · rw [if_neg he, Bool.not_eq_true _ |>.mp he, Bool.false_and]
      rfl

/-- The walk reads a token that encloses nothing, where the text before it shows what the tokens
before it do. -/
theorem found_leaf {frames : List Frame} (hf : inCode frames = true) {before : Text}
    {left : List Token} {t : Token} (hleaf : t.isLeaf = true) (hshape : t.isShaped = true)
    (hcall : ∀ w, t = .word w → callableAfter before = (mayCall left != isMisread left))
    (hopen : ∀ quote body, t = .string quote body → opensString before = true) {z : Text}
    (hz : BreaksOff t z) :
    found name frames before (t.text ++ z) =
      reported (t.places name (Text.size before) left) ++
        found name frames (t.text.reverse ++ before) z := by
  cases t with
  | word w => exact found_word hf (hcall w rfl) hshape hz
  | number whole fraction exponent => exact found_numeral hf hshape hz _
  | string quote body =>
    simp only [Token.isShaped, Bool.and_eq_true, Bool.or_eq_true, beq_iff_eq] at hshape
    exact found_string hf hshape.1 hshape.2 (hopen quote body rfl) z
  | blank c => exact found_plain hf (isPlain_of_isScriptBlank hshape) _ z
  | mark c =>
    by_cases hc : c = '/'
    · subst hc
      exact found_slash hf (hz rfl) _
    · exact found_plain hf (isPlain_of_isMark hshape hc) _ z
  | spread =>
    show found name frames before ('.' :: '.' :: '.' :: z) = _
    rw [found_plain hf rfl, found_plain hf rfl, found_plain hf rfl]
    rfl
  | template head parts => cases hleaf
  | lineComment body => cases hleaf
  | blockComment body => cases hleaf
  | block inner => cases hleaf

mutual

/-- **The walk reads a token as what it is**, and reports the name where the characters before
it show a call. -/
theorem found_token {frames : List Frame} (hf : inCode frames = true)
    {base : Text} {left : List Token} (hb : IsOpening base) (hs : AreSettled left) {z : Text} :
    ∀ t : Token, t.isShaped = true → t.mayStandBehind left = true → BreaksOff t z →
      found name frames (textBehind base left) (t.text ++ z) =
        reported (t.places name (Text.size (textBehind base left)) left) ++
          found name frames (textBehind base (t :: left)) z
  | .word w, hshape, hstand, hz => found_word hf (callableAfter_behind hb hs hstand) hshape hz
  | .number whole fraction exponent, hshape, _, hz => found_leaf hf rfl hshape nofun nofun hz
  | .string quote body, hshape, hstand, hz =>
    found_leaf hf rfl hshape nofun (fun _ _ _ => opensString_behind hb hs hstand) hz
  | .template head parts, hshape, _, _ => by
    rw [Token.isShaped, Bool.and_eq_true] at hshape
    have hpiece : ∀ rest, piece frames (textBehind base left) '`' rest =
        templatePiece frames rest := by
      intro rest
      rw [piece_code hf]
      rfl
    have hname : isNameStart '`' = false := rfl
    have := found_parts hf hname rfl hpiece hshape.1 (z := z) parts hshape.2
    simpa [Token.text, Token.places, textBehind] using this
  | .lineComment body, hshape, _, hz => by
    refine found_lineComment hf ?_ hz _
    intro hline
    exact absurd (List.all_eq_true.mp hshape _ hline) (by decide)
  | .blockComment body, hshape, _, _ =>
    found_blockComment hf (by simpa [Token.isShaped] using hshape) _ z
  | .blank c, hshape, _, hz => found_leaf hf rfl hshape nofun nofun hz
  | .mark c, hshape, _, hz => found_leaf hf rfl hshape nofun nofun hz
  | .spread, hshape, _, hz => found_leaf hf rfl hshape nofun nofun hz
  | .block inner, hshape, _, _ => by
    have hopen : piece frames (textBehind base left) '{' (tokensText inner ++ '}' :: z) =
        ⟨1, .block :: frames⟩ := by
      rw [piece_code hf]
      rfl
    have hclose (before : Text) : piece (.block :: frames) before '}' z = ⟨1, frames⟩ := rfl
    have htext : (Token.block inner).text ++ z = '{' :: (tokensText inner ++ '}' :: z) := by
      simp [Token.text]
    have hbase : IsOpening ('{' :: textBehind base left) := .inr rfl
    have hcode : inCode (.block :: frames) = true := rfl
    have hnone : AreSettled [] := trivial
    have hend : Closes false ('}' :: z) := rfl
    have hinner := found_tokens hcode hbase hnone hend inner hshape
    have hsize : Text.size (textBehind ('{' :: textBehind base left) []) =
        Text.size (textBehind base left) + 1 := by
      rw [textBehind, Text.size, Nat.add_comm]
      rfl
    have hbehind : '}' :: textBehind ('{' :: textBehind base left) inner.reverse =
        textBehind base (.block inner :: left) := by
      rw [textBehind_eq, List.reverse_reverse]
      simp [textBehind, Token.text]
    rw [hsize, List.append_nil, found_char rfl (hclose _), hbehind] at hinner
    rw [htext, found_char rfl hopen]
    exact hinner

/-- What the walk finds in tokens. -/
theorem found_tokens {frames : List Frame} (hf : inCode frames = true)
    {base : Text} {left : List Token} (hb : IsOpening base) (hs : AreSettled left) {tail : Text}
    {atEnd : Bool} (htail : Closes atEnd tail) :
    ∀ ts : List Token, areSource atEnd left ts = true →
      found name frames (textBehind base left) (tokensText ts ++ tail) =
        reported (placesFrom name (Text.size (textBehind base left)) left ts) ++
          found name frames (textBehind base (ts.reverse ++ left)) tail
  | [], _ => rfl
  | t :: rest, h => by
    have hbreak := breaksOff_of_areSource h htail
    simp only [areSource, Bool.and_eq_true] at h
    obtain ⟨⟨⟨hshape, hstand⟩, -⟩, hrest⟩ := h
    have htoken := found_token hf hb hs (z := tokensText rest ++ tail) t hshape hstand hbreak
    have hsettled : AreSettled (t :: left) := ⟨hshape, hstand, hs⟩
    have hlater := found_tokens hf hb hsettled htail rest hrest
    rw [tokensText, List.append_assoc, htoken, hlater, placesFrom, reported_append,
      size_textBehind_cons, List.append_assoc, List.reverse_cons, List.append_assoc]
    rfl

/-- What the walk finds in a template behind the character that opens its text. -/
theorem found_parts {frames outer : List Frame} {before head : Text} {opener : Char}
    (hf : inCode outer = true) (ho : isNameStart opener = false) (hsize : opener.utf8Size = 1)
    (hp : ∀ rest, piece frames before opener rest = templatePiece outer rest)
    (hh : isTemplateText head = true) {z : Text} :
    ∀ parts : List (List Token × Text), arePartsShaped parts = true →
      found name frames before (opener :: (head ++ (partsText parts ++ z))) =
        reported (partsPlaces name (Text.size before + 1 + Text.size head) parts) ++
          found name outer ((partsText parts).reverse ++ (head.reverse ++ opener :: before)) z
  | [], _ => found_template_end ho hp hh z
  | (code, behind) :: rest, h => by
    simp only [arePartsShaped, Bool.and_eq_true] at h
    obtain ⟨⟨hcode, hbehind⟩, hrest⟩ := h
    have htext : partsText ((code, behind) :: rest) ++ z =
        '$' :: '{' :: (tokensText code ++ ('}' :: (behind ++ (partsText rest ++ z)))) := by
      simp [partsText]
    have hbase : IsOpening ('{' :: '$' :: (head.reverse ++ opener :: before)) := .inr rfl
    have hinside : inCode (.substitution :: outer) = true := rfl
    have hnone : AreSettled [] := trivial
    have hend : Closes false ('}' :: (behind ++ (partsText rest ++ z))) := rfl
    have hinner := found_tokens hinside hbase hnone hend code hcode
    have hbrace : isNameStart '}' = false := rfl
    have hreopen : ∀ rest, piece (.substitution :: outer)
        (textBehind ('{' :: '$' :: (head.reverse ++ opener :: before)) code.reverse) '}' rest =
          templatePiece outer rest := fun _ => rfl
    have hlater := found_parts hf hbrace rfl hreopen hbehind (z := z) rest hrest
    rw [List.append_nil, hlater] at hinner
    rw [htext, found_template_code ho hp hh]
    refine hinner.trans ?_
    have hoffset : Text.size (textBehind ('{' :: '$' :: (head.reverse ++ opener :: before)) []) =
        Text.size before + 1 + Text.size head + 2 := by
      rw [textBehind, Text.size, Text.size, Text.size_append, size_reverse, Text.size, hsize]
      show 1 + (1 + (Text.size head + (1 + Text.size before))) = _
      omega
    have hnext :
        Text.size (textBehind ('{' :: '$' :: (head.reverse ++ opener :: before)) code.reverse) =
        Text.size before + 1 + Text.size head + 2 + Text.size (tokensText code) := by
      rw [textBehind_eq, List.reverse_reverse, Text.size_append, size_reverse, ← hoffset,
        Nat.add_comm]
      rfl
    have hbefore : (partsText rest).reverse ++ (behind.reverse ++ '}' ::
          textBehind ('{' :: '$' :: (head.reverse ++ opener :: before)) code.reverse) =
        (partsText ((code, behind) :: rest)).reverse ++ (head.reverse ++ opener :: before) := by
      rw [textBehind_eq, List.reverse_reverse]
      simp [partsText]
    rw [partsPlaces, reported_append, List.append_assoc, hoffset, hnext, hbefore]

end

/-! ### The order of places -/

/-- Whether places come in increasing order, none before `low` and all before `high`. -/
def AreBetween (low high : Nat) (places : List (Nat × List Token)) : Prop :=
  places.Pairwise (·.1 < ·.1) ∧ ∀ place ∈ places, low ≤ place.1 ∧ place.1 < high

theorem AreBetween.nil (low high : Nat) : AreBetween low high [] :=
  ⟨.nil, fun _ h => by cases h⟩

theorem AreBetween.append {low m high : Nat} {a b : List (Nat × List Token)} (hm : m ≤ high)
    (hl : low ≤ m) (ha : AreBetween low m a) (hb : AreBetween m high b) :
    AreBetween low high (a ++ b) := by
  refine ⟨List.pairwise_append.mpr ⟨ha.1, hb.1, fun p hp q hq => ?_⟩, fun p hp => ?_⟩
  · have := ha.2 p hp
    have := hb.2 q hq
    omega
  · rcases List.mem_append.mp hp with h | h
    · have := ha.2 p h
      omega
    · have := hb.2 p h
      omega

theorem AreBetween.mono {low low' high high' : Nat} {a : List (Nat × List Token)}
    (h : AreBetween low high a) (hl : low' ≤ low) (hh : high ≤ high') :
    AreBetween low' high' a := by
  refine ⟨h.1, fun p hp => ?_⟩
  have := h.2 p hp
  omega

mutual

theorem areBetween_places (hname : isName name = true) (offset : Nat) (left : List Token) :
    ∀ t : Token, AreBetween offset (offset + Text.size t.text) (t.places name offset left)
  | .word w => by
    rw [Token.places]
    by_cases hw : (w == name) = true
    · obtain rfl : w = name := by simpa using hw
      rw [if_pos hw]
      refine ⟨List.pairwise_singleton _ _, fun p hp => ?_⟩
      obtain rfl := List.mem_singleton.mp hp
      cases w with
      | nil => cases hname
      | cons c rest =>
        have := c.utf8Size_pos
        rw [Token.text, Text.size]
        constructor <;> omega
    · rw [if_neg hw]
      exact .nil _ _
  | .template head parts => by
    have hparts := areBetween_parts hname (offset + 1 + Text.size head) parts
    refine hparts.mono (by omega) ?_
    rw [Token.text, Text.size, Text.size_append]
    show _ ≤ offset + (1 + _)
    omega
  | .block inner => by
    have hinner := areBetween_placesFrom hname (offset + 1) [] inner
    refine hinner.mono (by omega) ?_
    rw [Token.text, Text.size, Text.size_append]
    show _ ≤ offset + (1 + (_ + 1))
    omega
  | .number _ _ _ => .nil _ _
  | .string _ _ => .nil _ _
  | .lineComment _ => .nil _ _
  | .blockComment _ => .nil _ _
  | .blank _ => .nil _ _
  | .mark _ => .nil _ _
  | .spread => .nil _ _

theorem areBetween_placesFrom (hname : isName name = true) (offset : Nat) (left : List Token) :
    ∀ ts :
      List Token, AreBetween offset (offset + Text.size (tokensText ts))
        (placesFrom name offset left ts)
  | [] => .nil _ _
  | t :: rest => by
    have hrest := areBetween_placesFrom hname (offset + Text.size t.text) (t :: left) rest
    rw [tokensText, Text.size_append, ← Nat.add_assoc]
    exact .append (by omega) (by omega) (areBetween_places hname offset left t) hrest

theorem areBetween_parts (hname : isName name = true) (offset : Nat) :
    ∀ parts : List (List Token × Text),
      AreBetween offset (offset + Text.size (partsText parts)) (partsPlaces name offset parts)
  | [] => .nil _ _
  | (code, behind) :: rest => by
    have hcode := areBetween_placesFrom hname (offset + 2) [] code
    have hrest := areBetween_parts hname
      (offset + 2 + Text.size (tokensText code) + 1 + Text.size behind) rest
    have hsize : Text.size (partsText ((code, behind) :: rest)) =
        2 + Text.size (tokensText code) + 1 + Text.size behind + Text.size (partsText rest) := by
      rw [partsText, Text.size, Text.size, Text.size_append, Text.size, Text.size_append]
      show 1 + (1 + (_ + (1 + _))) = _
      omega
    rw [hsize]
    refine .append (m := offset + 2 + Text.size (tokensText code)) (by omega) (by omega)
      (hcode.mono (by omega) (by omega)) (hrest.mono (by omega) (by omega))

end

/-- Where no place comes twice, two choices among places that give the same bytes are the same. -/
theorem filter_congr_of_map {places : List (Nat × List Token)} {p q : Nat × List Token → Bool}
    (hs : places.Pairwise (·.1 < ·.1))
    (h : (places.filter p).map (·.1) = (places.filter q).map (·.1)) :
    ∀ place ∈ places, p place = q place := by
  have hinj : ∀ a ∈ places, ∀ b ∈ places, a.1 = b.1 → a = b := by
    have hnodup : (places.map (·.1)).Nodup :=
      List.Pairwise.imp Nat.ne_of_lt (List.pairwise_map.mpr hs)
    exact fun a ha b hb he => List.inj_on_of_nodup_map hnodup ha hb he
  have hsub {p q : Nat × List Token → Bool}
      (h : (places.filter p).map (·.1) = (places.filter q).map (·.1))
      {place : Nat × List Token} (hp : place ∈ places) (hpp : p place = true) : q place = true := by
    have hmem : place.1 ∈ (places.filter q).map (·.1) := by
      rw [← h]
      exact List.mem_map_of_mem (List.mem_filter.mpr ⟨hp, hpp⟩)
    obtain ⟨other, ho, he⟩ := List.mem_map.mp hmem
    obtain ⟨ho, hq⟩ := List.mem_filter.mp ho
    rw [← hinj other ho place hp he]
    exact hq
  intro place hp
  rw [Bool.eq_iff_iff]
  exact ⟨hsub h hp, hsub h.symm hp⟩

/-! ### The names found -/

theorem offsets_eq_reported {ts : List Token} (hs : isSource ts = true) :
    (occurrences name (tokensText ts)).map (fun place => Text.size place.before) =
      reported (placesFrom name 0 [] ts) := by
  have hcode : inCode [] = true := rfl
  have hbase : IsOpening [] := .inl rfl
  have hnone : AreSettled [] := trivial
  have hend : Closes true [] := rfl
  have h := @found_tokens name _ hcode _ _ hbase hnone _ _ hend ts hs
  rw [List.append_nil] at h
  refine h.trans ?_
  rw [show found name [] (textBehind [] (ts.reverse ++ [])) [] = [] from rfl, List.append_nil]
  rfl

/-- **The names found in a text of tokens.** They come in increasing order, and they are the
names that the tokens call exactly if the characters before no place of the name mislead:
where they do, a call is left out or a name that is not called is reported. -/
theorem offsets_occurrences {ts : List Token} (hname : isName name = true)
    (hs : isSource ts = true) :
    let offsets := (occurrences name (tokensText ts)).map fun place => Text.size place.before
    offsets.Pairwise (· < ·) ∧
      offsets = ((placesFrom name 0 [] ts).filter fun place =>
        mayCall place.2 != isMisread place.2).map (·.1) ∧
      (offsets = callOffsets name ts ↔ ∀ place ∈ placesFrom name 0 [] ts, isMisread place.2 =
        false) := by
  intro offsets
  have hoffsets : offsets = reported (placesFrom name 0 [] ts) := offsets_eq_reported hs
  have hsorted := (areBetween_placesFrom hname 0 [] ts).1
  refine ⟨?_, hoffsets, ?_⟩
  · rw [hoffsets, reported, List.pairwise_map]
    exact hsorted.sublist List.filter_sublist
  · rw [hoffsets, reported, callOffsets]
    constructor
    · intro h place hp
      have := filter_congr_of_map hsorted h place hp
      cases hm : isMisread place.2 with
      | false => rfl
      | true => rw [hm] at this; cases hc : mayCall place.2 <;> rw [hc] at this <;> cases this
    · intro h
      congr 1
      apply List.filter_congr
      intro place hp
      rw [h place hp]
      cases mayCall place.2 <;> rfl

/-- In ``` `a ${b.$t(...$t('$t'))}` /* $t */ $t ``` the spread and the last word call the name; the
member, the string and the comment do not. -/
theorem offsets_occurrences_template :
    let code : List Token :=
      [.word "b", .mark '.', .word "$t", .mark '(', .spread, .word "$t", .mark '(',
      .string '\'' "$t", .mark ')', .mark ')']
    let ts : List Token :=
      [.template "a " [(code, "")], .blank ' ', .blockComment " $t ", .blank ' ', .word "$t"]
    isName "$t" = true ∧ isSource ts = true ∧
      (occurrences "$t" (tokensText ts)).map (fun place => Text.size place.before) = [13, 34] := by
  intro code ts
  have hname : isName "$t" = true := rfl
  have hsource : isSource ts = true := by decide
  have hfound := offsets_occurrences hname hsource
  have hread : ∀ place ∈ placesFrom "$t" 0 [] ts, isMisread place.2 = false := by decide
  refine ⟨hname, hsource, (hfound.2.2.mpr hread).trans ?_⟩
  decide

/-- A line comment that ends in `function` hides the call in the line below it. -/
theorem occurrences_ne_callOffsets_commented :
    let ts : List Token := [.lineComment " a function", .blank '\n', .word "$t", .mark '(',
      .string '\'' "a", .mark ')']
    isName "$t" = true ∧ isSource ts = true ∧ tokensText ts = "// a function\n$t('a')".toList ∧
      occurrences "$t" (tokensText ts) = [] ∧ callOffsets "$t" ts = [14] := by
  decide

end Localization.Script
