import Mathlib
import Localization.Proofs.Argument.Shape
import Localization.Proofs.Argument.Structured

/-! Arguments that are written back.

What the reader keeps of a text is enough to write the argument again, but not as it was: each
literal becomes a template of an escaped text, a numeral is written for the double that it
spells, a gap of an array is left out and a key goes by its text. `Shape.rewritten` says so for
the shape of a text. Every piece is read as an argument, and what is written for the argument is
a piece of that shape (`exists_readArgument`), by induction on the length of the text: the texts
between brackets are shorter, and brackets around what is written for them make a piece of the
form that the reader asks for. -/
namespace Localization

open Script

/-! ### Shapes of what is written -/

/-- What is written for a text that the reader does not look into. -/
def plainScript (text : Text) : Text :=
  match Decimal.ofScript? text with
  | some x => Decimal.plain x
  | none => text

mutual

/-- The shape of what is written for a text. -/
def Shape.rewritten : Shape → Shape
  | .plain text => .plain (plainScript text)
  | .literal _ body => .literal '`' (encode (decode body))
  | .array elements => .array (rewrittenElements elements)
  | .object members => .object (rewrittenMembers members)
  | .gap => .gap

def rewrittenElements : List Shape → List Shape
  | [] => []
  | .gap :: rest => rewrittenElements rest
  | s :: rest => s.rewritten :: rewrittenElements rest

def rewrittenMembers : List (KeyForm × Shape) → List (KeyForm × Shape)
  | [] => []
  | (key, s) :: rest => (.written key.text, s.rewritten) :: rewrittenMembers rest

end

theorem rewrittenElements_cons {s : Shape} (h : s ≠ .gap) (rest : List Shape) :
    rewrittenElements (s :: rest) = s.rewritten :: rewrittenElements rest := by
  cases s with
  | gap => exact absurd rfl h
  | _ => rw [rewrittenElements]; exact nofun

theorem rewrittenElements_map (its : List Text) :
    rewrittenElements (its.map itemShape) = (its.filter (!·.isEmpty)).map fun t =>
      (shape t).rewritten := by
  induction its with
  | nil => rfl
  | cons item rest ih =>
    rw [List.map_cons, itemShape]
    split
    · next hempty => rw [rewrittenElements, ih, List.filter_cons_of_neg (by simp [hempty])]
    · next hne =>
      rw [rewrittenElements_cons (shape_ne_gap item), ih, List.filter_cons_of_pos (by simp [hne])]
      rfl

theorem rewrittenMembers_eq_map (members : List Member) :
    rewrittenMembers (memberShapes members) = members.map fun m =>
      (.written m.1.text, (shape m.2).rewritten) := by
  induction members with
  | nil => rfl
  | cons m rest ih => exact congrArg _ ih

/-- What is written for an argument is a piece, and has the shape that is to be written for a
text. -/
structure IsRewritten (text : Text) (a : Argument) : Prop where
  piece : IsPiece a.toScript
  shape : shape a.toScript = (shape text).rewritten

/-! ### Texts that are kept -/

theorem readPlain_toScript (text : Text) : (readPlain text).toScript = plainScript text := by
  rw [readPlain.eq_def, plainScript]
  cases Decimal.ofScript? text with
  | some x => rfl
  | none =>
    simp only
    repeat' split
    all_goals rfl

theorem properties?_readPlain (text : Text) : (readPlain text).properties? = none := by
  rw [readPlain.eq_def]
  repeat' split
  all_goals rfl

theorem plain_ne_nil (x : Binary64) : Decimal.plain x ≠ [] := by
  have hpositional (d : Decimal.Digits) : Decimal.positional d ≠ [] := by
    have hdigits := Text.ofNat_ne_nil d.digits
    rw [Decimal.positional]
    simp only
    split
    · simp [hdigits]
    · split <;> simp
  rw [Decimal.plain.eq_def]
  split
  · simp
  · simp [hpositional]
  · simp
  · simp

theorem isPiece_plain (x : Binary64) : IsPiece (Decimal.plain x) := by
  have hnumber {c : Char} (hc : c ∈ Decimal.plain x) : isNumberChar c = true :=
    isNumberChar_of_mem_plain hc
  refine isPiece_of_balanced (.of_ordinary fun c hc =>
    ⟨isOrdinary_of_isNumberChar (hnumber hc), fun hcomma => ?_⟩) ?_
  · rw [List.mem_singleton.mp hcomma] at hc
    exact absurd (hnumber hc) (by decide)
  · have hblank {c : Char} (hc : c ∈ Decimal.plain x) : Text.isBlank c = false :=
      not_isBlank_of_isNumberChar (hnumber hc)
    exact ⟨plain_ne_nil x, fun _ hc => hblank (List.mem_of_mem_head? hc),
      fun _ hc => hblank (List.mem_of_mem_getLast? hc)⟩

theorem form_plain (x : Binary64) : form (Decimal.plain x) = .plain := by
  have hnumber : ∀ c ∈ Decimal.plain x, isNumberChar c = true :=
    fun c hc => isNumberChar_of_mem_plain hc
  cases hx : Decimal.plain x with
  | nil => rfl
  | cons c rest =>
    have hc : isNumberChar c = true := hnumber c (hx ▸ List.mem_cons_self)
    have hliteral : (literal? c).isSome = false := by
      have := isOrdinary_of_isNumberChar hc
      simp only [isOrdinary, Bool.and_eq_true, Option.isNone_iff_eq_none] at this
      rw [this.1.1.1]
      rfl
    have hbracket : (c == '[') = false ∧ (c == '{') = false := by
      constructor <;> rw [beq_eq_false_iff_ne] <;> rintro rfl <;> cases hc
    rw [form, hliteral, hbracket.1, hbracket.2]
    rfl

theorem isRewritten_plain {text : Text} {a : Argument} (h : IsPiece text)
    (hform : form text = .plain) (ha : a.toScript = plainScript text) : IsRewritten text a := by
  have hkept : IsPiece (plainScript text) ∧ form (plainScript text) = .plain := by
    rw [plainScript]
    cases Decimal.ofScript? text with
    | some x => exact ⟨isPiece_plain x, form_plain x⟩
    | none => exact ⟨h, hform⟩
  refine ⟨ha ▸ hkept.1, ?_⟩
  rw [ha, shape_eq, hkept.2, shape_eq, hform, Shape.rewritten]

/-! ### Literals -/

theorem isWhole_literalPrefix?_string (value : Text) :
    isWhole (literalPrefix? ('`' :: (encode value ++ ['`']))) = true := by
  have := literalPrefix?_string value
  rw [Argument.toScript, List.cons_append] at this
  rw [this]
  rfl

theorem isRewritten_literal {text body : Text} {quote : Char}
    (hform : form text = .literal quote body) :
    IsRewritten text (.string (decode body)) := by
  have hscript : (Argument.string (decode body)).toScript =
      '`' :: (encode (decode body) ++ ['`']) := rfl
  refine ⟨?_, ?_⟩
  · have hbalanced : Balanced [',', ':'] ('`' :: (encode (decode body) ++ ['`'])) :=
      balanced_literal rfl (by decide) (isClosedBy_encode _)
    exact isPiece_of_balanced (hbalanced.mono (by simp))
      (Text.isTrimmed_between (by decide) (by decide) _)
  · have hwritten : form ('`' :: (encode (decode body) ++ ['`'])) =
        .literal '`' (encode (decode body)) := by
      rw [form, if_pos (by decide), if_pos (isWhole_literalPrefix?_string _), List.dropLast_concat]
    rw [hscript, shape_eq, hwritten, shape_eq, hform, Shape.rewritten]

/-! ### Lists -/

/-- A list joined from pieces holds these. -/
theorem listTexts?_join {parts : List Text} (h : ∀ p ∈ parts, IsPiece p) :
    listTexts? (Text.join ", " parts) = some (if parts = [] then [[]] else parts) := by
  cases parts with
  | nil => rfl
  | cons part rest =>
    have htrim : ∀ p ∈ rest, Text.trim (' ' :: p) = p := fun p hp =>
      (h p (List.mem_cons_of_mem _ hp)).trimmed.trim_cons_blank
    rw [listTexts?, splitTop_joinPieces h, if_neg (List.cons_ne_nil _ _), Option.map_some,
      List.map_cons, (h part List.mem_cons_self).trimmed.trim, List.map_map,
      List.map_congr_left (f := Text.trim ∘ (' ' :: ·)) (g := id) htrim, List.map_id]

theorem items_listTexts {parts : List Text} (h : ∀ p ∈ parts, IsPiece p) :
    items (if parts = [] then [[]] else parts) = parts := by
  split
  · next hnil => rw [hnil]; rfl
  · rw [items, if_neg]
    intro hlast
    exact (h [] (List.mem_of_getLast? hlast)).trimmed.1 rfl

theorem filter_pieces {parts : List Text} (h : ∀ p ∈ parts, IsPiece p) :
    (if parts = [] then [[]] else parts).filter (!·.isEmpty) = parts := by
  split
  · next hnil => rw [hnil]; rfl
  · refine List.filter_eq_self.mpr fun p hp => ?_
    simpa using (h p hp).trimmed.1

/-- What each element of a list gives, and what it has to do with the element. -/
theorem exists_mapM_forall₂ {α β : Type} {f : α → Option β} {R : α → β → Prop} {l : List α}
    (h : ∀ a ∈ l, ∃ b, f a = some b ∧ R a b) : ∃ bs, l.mapM f = some bs ∧ List.Forall₂ R l bs := by
  induction l with
  | nil => exact ⟨[], rfl, .nil⟩
  | cons a rest ih =>
    obtain ⟨b, hb, hR⟩ := h a List.mem_cons_self
    obtain ⟨bs, hbs, hRs⟩ := ih fun a ha => h a (List.mem_cons_of_mem _ ha)
    exact ⟨b :: bs, by rw [List.mapM_cons, hb, hbs]; rfl, .cons hR hRs⟩

theorem form_array {parts : List Text} (h : ∀ p ∈ parts, IsPiece p) :
    form ('[' :: (Text.join ", " parts ++ [']'])) = .array parts := by
  have hgroup :=
    groupPrefix?_of_settles (show closer? '[' = some ']' from rfl) (settles_joinPieces h)
  rw [form, if_neg (by decide), if_pos (by decide), hgroup, List.dropLast_concat, listTexts?_join h]
  exact congrArg Form.array (items_listTexts h)

/-- The texts of arguments that are written back. -/
theorem forall₂_isRewritten {texts : List Text} {elements : List Argument}
    (h : List.Forall₂ IsRewritten texts elements) :
    (∀ p ∈ elements.map Argument.toScript, IsPiece p) ∧
      (elements.map Argument.toScript).map itemShape = texts.map fun t => (shape t).rewritten := by
  induction h with
  | nil => exact ⟨fun _ hp => (nomatch hp), rfl⟩
  | @cons text a texts elements hfirst _ ih =>
    refine ⟨List.forall_mem_cons.mpr ⟨hfirst.piece, ih.1⟩, ?_⟩
    have hshape : itemShape a.toScript = (shape text).rewritten := by
      rw [itemShape, if_neg (by simpa using hfirst.piece.trimmed.1), hfirst.shape]
    rw [List.map_cons, List.map_cons, List.map_cons, hshape, ih.2]

/-- The elements of an array are written as one. -/
theorem isRewritten_array {text : Text} {its : List Text} {elements : List Argument}
    (hform : form text = .array its)
    (h : List.Forall₂ IsRewritten (its.filter (!·.isEmpty)) elements) :
    IsRewritten text (.array elements) := by
  obtain ⟨hpieces, hshapes⟩ := forall₂_isRewritten h
  have hscript : (Argument.array elements).toScript =
      '[' :: (Text.join ", " (elements.map Argument.toScript) ++ [']']) := by
    rw [Argument.toScript, elementScripts_eq_map]
    rfl
  refine ⟨hscript ▸ isPiece_group rfl (settles_joinPieces hpieces), ?_⟩
  rw [hscript, shape_eq, form_array hpieces, shape_eq, hform]
  simp only [hshapes, Shape.rewritten, rewrittenElements_map]

/-! ### Properties -/

/-- A property as it is written. -/
def propertyScript (p : Text × Argument) : Text := keyScript p.1 ++ ':' :: ' ' :: p.2.toScript

theorem propertyScripts_eq_map (properties : Properties) :
    propertyScripts properties = properties.map propertyScript := by
  induction properties with
  | nil => rfl
  | cons p rest ih => exact congrArg _ ih

/-- A property that is written is read as its key and its value. -/
theorem member?_property (key : Text) {value : Text} (h : IsPiece value) :
    member? (keyScript key ++ ':' :: ' ' :: value) = some (.written key, value) := by
  obtain ⟨c, rest, hkey, hpoint, hbracket⟩ := head_keyScript key
  have hhead : (['.', '.', '.'].isPrefixOf (keyScript key ++ ':' :: ' ' :: value) ||
      (keyScript key ++ ':' :: ' ' :: value).head? == some '[') = false := by
    rw [hkey]
    simp [List.isPrefixOf, Ne.symm hpoint, hbracket]
  have hcolon : isOrdinary ':' = true := rfl
  have hblank : Settles [] (' ' :: value) := .ordinary rfl h.settles
  obtain ⟨first, others, hbehind, -⟩ := hblank.exists_splitFrom hcolon
  have hsplit : splitTop ':' (keyScript key ++ ':' :: ' ' :: value) =
      some (keyScript key :: first :: others) := by
    have hbehind' : splitTop ':' (' ' :: value) = some (first :: others) := hbehind
    rw [splitTop_part rfl ((balanced_keyScript key).mono (by simp)), hbehind']
    rfl
  have hdrop : (keyScript key ++ ':' :: ' ' :: value).drop ((keyScript key).length + 1) =
      ' ' :: value := by
    rw [List.append_cons, List.drop_left' (by simp)]
  have hne : value.isEmpty = false := by simpa using h.trimmed.1
  rw [member?, hhead, hsplit]
  simp only [Bool.false_eq_true, if_false, hdrop, h.trimmed.trim_cons_blank, hne,
    (isTrimmed_keyScript key).trim, KeyForm.ofText?_keyScript, Option.map_some]

/-- A property that is written back, and the one that was read. -/
def IsMemberRewritten (m : Member) (p : Text × Argument) : Prop :=
  p.1 = m.1.text ∧ IsRewritten m.2 p.2

theorem forall₂_isMemberRewritten {members : List Member} {properties : Properties}
    (h : List.Forall₂ IsMemberRewritten members properties) :
    (∀ p ∈ properties.map propertyScript, IsPiece p) ∧
      ∃ written, (properties.map propertyScript).mapM member? = some written ∧
        memberShapes written = members.map fun m => (.written m.1.text, (shape m.2).rewritten) := by
  induction h with
  | nil => exact ⟨fun _ hp => (nomatch hp), [], rfl, rfl⟩
  | @cons m p members properties hfirst _ ih =>
    obtain ⟨hkey, hvalue⟩ := hfirst
    obtain ⟨hpieces, written, hwritten, hshapes⟩ := ih
    refine ⟨List.forall_mem_cons.mpr ⟨isPiece_property p.1 hvalue.piece, hpieces⟩,
      (.written p.1, p.2.toScript) :: written, ?_, ?_⟩
    · have hmember : member? (propertyScript p) = some (.written p.1, p.2.toScript) :=
        member?_property p.1 hvalue.piece
      rw [List.map_cons, List.mapM_cons, hmember, hwritten]
      rfl
    · rw [List.map_cons, ← hshapes, ← hkey, ← hvalue.shape]
      rfl

/-- The properties of an object are written as one. -/
theorem isRewritten_object {text : Text} {members : List Member} {properties : Properties}
    (hform : form text = .object members) (h : List.Forall₂ IsMemberRewritten members properties) :
    IsRewritten text (.object properties) := by
  obtain ⟨hpieces, written, hwritten, hshapes⟩ := forall₂_isMemberRewritten h
  have hscript : (Argument.object properties).toScript =
      '\x7b' :: (Text.join ", " (properties.map propertyScript) ++ ['\x7d']) := by
    rw [Argument.toScript, propertyScripts_eq_map]
    rfl
  have hgroup :=
    groupPrefix?_of_settles (show closer? '\x7b' = some '\x7d' from
      rfl) (settles_joinPieces hpieces)
  have hmembers : members? (Text.join ", " (properties.map propertyScript)) = some written := by
    rw [members?, listTexts?_join hpieces, Option.bind_some, filter_pieces hpieces, hwritten]
  have hback : form ('\x7b' :: (Text.join ", " (properties.map propertyScript) ++ ['\x7d'])) =
      .object written := by
    rw [form, if_neg (by decide), if_neg (by decide), if_pos (by decide), hgroup,
      List.dropLast_concat, hmembers]
    rfl
  refine ⟨hscript ▸ isPiece_group rfl (settles_joinPieces hpieces), ?_⟩
  rw [hscript, shape_eq, hback, shape_eq, hform]
  simp only [hshapes, Shape.rewritten, rewrittenMembers_eq_map]

/-! ### What is read -/

theorem exists_of_isWhole {found : Option (Text × Text)} (h : isWhole found = true) :
    ∃ read, found = some (read, []) := by
  obtain _ | ⟨read, _ | _⟩ := found
  · cases h
  · exact ⟨read, rfl⟩
  · cases h

/-- A literal is read as the string that its body denotes. -/
theorem readArgument_of_literal {text body : Text} {quote : Char}
    (hform : form text = .literal quote body) :
    readArgument text = some (.string (decode body)) := by
  cases text with
  | nil => cases hform
  | cons c rest =>
    rw [form] at hform
    split at hform
    · next hliteral =>
      split at hform
      · next hwhole =>
        cases hform
        obtain ⟨read, hread⟩ := exists_of_isWhole hwhole
        exact readArgument_of_literalPrefix? hread
      · cases hform
    · repeat' split at hform
      all_goals cases hform

/-- An array is read as the list between its brackets. -/
theorem readArgument_of_array {text : Text} {its : List Text} (h : Settles [] text)
    (hform : form text = .array its) :
    ∃ inner texts, inner.length < text.length ∧ Settles [] inner ∧ listTexts? inner = some texts ∧
      its = items texts ∧
      readArgument text = (readArguments inner).map .array := by
  cases text with
  | nil => cases hform
  | cons c rest =>
    rw [form] at hform
    split at hform
    · split at hform <;> cases hform
    split at hform
    · next hliteral hc =>
      obtain rfl : c = '[' := beq_iff_eq.mp hc
      obtain ⟨inner, z, rfl, hinner, hgroup⟩ :=
        h.exists_groupPrefix? (show closer? '[' = some ']' from rfl)
      split at hform
      · next texts hwhole htexts =>
        cases hform
        obtain ⟨read, hread⟩ := exists_of_isWhole hwhole
        obtain ⟨-, rfl⟩ : '[' :: (inner ++ [']']) = read ∧ z = [] := by
          rw [hgroup] at hread
          exact Prod.mk.inj (Option.some.inj hread)
        rw [List.dropLast_concat] at htexts
        refine ⟨inner, texts, by simp, hinner, htexts, rfl, ?_⟩
        rw [readArgument.eq_def]
        simp [literal?, hgroup]
      · cases hform
    · split at hform
      · split at hform <;> cases hform
      · cases hform

/-- An object is read as the properties between its braces. -/
theorem readArgument_of_object {text : Text} {members : List Member} (h : Settles [] text)
    (hform : form text = .object members) :
    ∃ inner, inner.length < text.length ∧ Settles [] inner ∧ members? inner = some members ∧
      ∀ properties, readProperties inner = some properties →
        readArgument text = some (.object properties) := by
  cases text with
  | nil => cases hform
  | cons c rest =>
    rw [form] at hform
    split at hform
    · split at hform <;> cases hform
    split at hform
    · split at hform <;> cases hform
    split at hform
    · next hliteral _ hc =>
      obtain rfl : c = '\x7b' := beq_iff_eq.mp hc
      obtain ⟨inner, z, rfl, hinner, hgroup⟩ :=
        h.exists_groupPrefix? (show closer? '\x7b' = some '\x7d' from rfl)
      split at hform
      · next members' hwhole hmembers =>
        cases hform
        obtain ⟨read, hread⟩ := exists_of_isWhole hwhole
        obtain ⟨-, rfl⟩ : '\x7b' :: (inner ++ ['\x7d']) = read ∧ z = [] := by
          rw [hgroup] at hread
          exact Prod.mk.inj (Option.some.inj hread)
        rw [List.dropLast_concat] at hmembers
        refine ⟨inner, by simp, hinner, hmembers, fun properties hproperties => ?_⟩
        rw [readArgument.eq_def]
        simp [literal?, hgroup, hproperties]
      · cases hform
    · cases hform

theorem ofScript?_brace (rest : Text) : Decimal.ofScript? ('\x7b' :: rest) = none := by
  simp [Decimal.ofScript?, Decimal.Numeral.ofText?, Decimal.readExponent]

/-- Any other text is kept, or read as a numeral. -/
theorem readArgument_of_plain {text : Text} (h : Settles [] text) (hform : form text = .plain) :
    ∃ a, readArgument text = some a ∧ a.toScript = plainScript text ∧ a.properties? = none := by
  have hplain {t : Text} : ∃ a, some (readPlain t) = some a ∧ a.toScript = plainScript t ∧
      a.properties? = none :=
    ⟨_, rfl, readPlain_toScript t, properties?_readPlain t⟩
  cases text with
  | nil => exact ⟨.other [], by rw [readArgument], rfl, rfl⟩
  | cons c rest =>
    rw [readArgument.eq_def]
    rw [form] at hform
    simp only
    split at hform
    · next hliteral =>
      obtain ⟨found, hfound⟩ := Option.isSome_iff_exists.mp (h.isSome_literalPrefix? hliteral)
      rw [if_pos hliteral, hfound]
      rw [hfound] at hform
      split
      · next heq => cases heq
      · next heq =>
        cases heq
        cases hform
      · exact hplain
    · next hliteral =>
      rw [if_neg hliteral]
      split at hform
      · next hc =>
        rw [if_pos hc]
        obtain rfl : c = '[' := beq_iff_eq.mp hc
        obtain ⟨inner, z, rfl, hinner, hgroup⟩ :=
          h.exists_groupPrefix? (show closer? '[' = some ']' from rfl)
        rw [hgroup] at hform ⊢
        cases z with
        | nil =>
          have hcomma : isOrdinary ',' = true := rfl
          obtain ⟨first, others, hsplit, -⟩ := hinner.exists_splitFrom hcomma
          have htexts : listTexts? inner = some ((first :: others).map Text.trim) :=
            congrArg (Option.map _) hsplit
          rw [List.dropLast_concat, htexts] at hform
          cases hform
        | cons d z => exact hplain
      · next hbracket =>
        rw [if_neg hbracket]
        split at hform
        · next hc =>
          rw [if_pos hc]
          obtain rfl : c = '\x7b' := beq_iff_eq.mp hc
          obtain ⟨inner, z, rfl, hinner, hgroup⟩ :=
            h.exists_groupPrefix? (show closer? '\x7b' = some '\x7d' from rfl)
          rw [hgroup] at hform ⊢
          cases z with
          | nil =>
            rw [List.dropLast_concat] at hform
            have hnone : readProperties inner = none := by
              rw [readProperties_eq]
              cases hmembers : members? inner with
              | none => rfl
              | some members => rw [hmembers] at hform; cases hform
            refine ⟨.other ('\x7b' :: (inner ++ ['\x7d'])), ?_, ?_, rfl⟩
            · simp only [List.dropLast_concat, hnone]
            · rw [plainScript, ofScript?_brace]
              rfl
          | cons d z => exact hplain
        · next hbrace =>
          rw [if_neg hbrace]
          exact hplain

/-! ### The texts between brackets -/

theorem isPiece_of_mem_listTexts {inner : Text} {texts : List Text} (h : Settles [] inner)
    (htexts : listTexts? inner = some texts) : ∀ t ∈ texts.filter (!·.isEmpty), IsPiece t := by
  obtain ⟨parts, hparts, rfl⟩ := Option.map_eq_some_iff.mp htexts
  have hstripped : withoutComments inner = inner := h.stripFrom_eq
  refine isPiece_of_mem_argumentTexts (by rwa [hstripped]) ?_
  rw [argumentTexts?, hstripped, hparts, Option.map_some]

/-- The value of a property is a piece. -/
theorem isPiece_of_member? {text : Text} {m : Member} (h : IsPiece text)
    (hm : member? text = some m) : IsPiece m.2 := by
  rw [member?] at hm
  split at hm
  · cases hm
  split at hm
  · simp only at hm
    split at hm
    · next hpath =>
      rw [Bool.and_eq_true] at hpath
      cases hm
      exact isPiece_of_balanced ((balanced_of_isPath hpath.1).mono (by simp))
        (isTrimmed_of_isPath hpath.1)
    · cases hm
  · next hsplit =>
    simp only at hm
    split at hm
    · cases hm
    · next hne =>
      obtain ⟨key, -, rfl⟩ := Option.map_eq_some_iff.mp hm
      exact h.behind_colon hsplit (by simpa using hne)
  · cases hm

/-- A shorthand stands for the name that it is. -/
theorem isPath_of_shorthand {text name value : Text}
    (hm : member? text = some (.shorthand name, value)) :
    isPath name = true ∧ value = name := by
  rw [member?] at hm
  split at hm
  · cases hm
  split at hm
  · simp only at hm
    split at hm
    · next hpath =>
      rw [Bool.and_eq_true] at hpath
      cases hm
      exact ⟨hpath.1, rfl⟩
    · cases hm
  · simp only at hm
    split at hm
    · cases hm
    · obtain ⟨key, hkey, he⟩ := Option.map_eq_some_iff.mp hm
      cases he
      have hnone : ∀ raw, KeyForm.ofText? raw ≠ some (.shorthand name) := by
        intro raw hraw
        cases raw with
        | nil => cases hraw
        | cons c rest =>
          rw [KeyForm.ofText?] at hraw
          repeat' split at hraw
          all_goals cases hraw
      exact absurd hkey (hnone _)
  · cases hm

/-- What is read for a property is written back as it should be if this holds of its value. -/
theorem exists_readMember {text : Text} {m : Member} (hm : member? text = some m)
    (hvalue : ∃ a, readArgument m.2 = some a ∧ IsRewritten m.2 a) :
    ∃ p, readMember m = some p ∧ IsMemberRewritten m p := by
  obtain ⟨a, hread, hrewritten⟩ := hvalue
  obtain ⟨key, value⟩ := m
  cases key with
  | shorthand name =>
    obtain ⟨hpath, rfl⟩ := isPath_of_shorthand hm
    have hscript : (Argument.name value).toScript = a.toScript := by
      rw [readArgument_of_isPath hpath] at hread
      obtain rfl := Option.some.inj hread
      split <;> rfl
    exact ⟨(value, .name value), rfl, rfl, hscript ▸ hrewritten.piece, hscript ▸ hrewritten.shape⟩
  | word name => exact ⟨(name, a), congrArg (Option.map _) hread, rfl, hrewritten⟩
  | quoted quote body => exact ⟨(decode body, a), congrArg (Option.map _) hread, rfl, hrewritten⟩
  | numeral numeral => exact ⟨(numeral, a), congrArg (Option.map _) hread, rfl, hrewritten⟩

/-- The properties of an argument that is an object. -/
def propertiesOf (a : Argument) : Properties := a.properties?.getD []

/-- **Every piece is read as an argument, and what is written for that is a piece of the shape
that is to be written.** It is an object with properties if the piece is. -/
theorem exists_readArgument {text : Text} (h : IsPiece text) :
    ∃ a, readArgument text = some a ∧ IsRewritten text a ∧
      (propertiesOf a).isEmpty = !hasProperties text := by
  generalize hn : text.length = n
  induction n using Nat.strongRecOn generalizing text with
  | ind n ih =>
    subst hn
    have hread {t : Text} (hlt : t.length < text.length) (ht : IsPiece t) :
        ∃ a, readArgument t = some a ∧ IsRewritten t a :=
      (ih t.length hlt ht rfl).imp fun _ h => ⟨h.1, h.2.1⟩
    -- The texts of a list between brackets are shorter.
    have hshort {inner t : Text} {texts : List Text} (hlt : inner.length < text.length)
        (hinner : Settles [] inner)
        (htexts : listTexts? inner = some texts) (ht : t ∈ texts.filter (!·.isEmpty)) :
          t.length < text.length ∧ IsPiece t :=
      ⟨(length_le_of_listTexts? htexts t (List.mem_of_mem_filter ht)).trans_lt hlt,
        isPiece_of_mem_listTexts hinner htexts t ht⟩
    rw [hasProperties]
    cases hform : form text with
    | plain =>
      obtain ⟨a, hread, hscript, hnone⟩ := readArgument_of_plain h.settles hform
      exact ⟨a, hread, isRewritten_plain h hform hscript, by rw [propertiesOf, hnone]; rfl⟩
    | literal quote body => exact ⟨_, readArgument_of_literal hform, isRewritten_literal hform, rfl⟩
    | array its =>
      obtain ⟨inner, texts, hlt, hinner, htexts, rfl, hlist⟩ :=
        readArgument_of_array h.settles hform
      obtain ⟨elements, helements, hall⟩ := exists_mapM_forall₂ fun t ht =>
        hread (hshort hlt hinner htexts ht).1 (hshort hlt hinner htexts ht).2
      refine ⟨.array elements, ?_, isRewritten_array hform (by rwa [filter_items]), rfl⟩
      rw [hlist, readArguments_of_settles hinner htexts, helements, Option.map_some]
    | object members =>
      obtain ⟨inner, hlt, hinner, hmembers, hobject⟩ := readArgument_of_object h.settles hform
      obtain ⟨texts, htexts, hmember⟩ := Option.bind_eq_some_iff.mp hmembers
      have hproperty : ∀ m ∈ members, ∃ p, readMember m = some p ∧ IsMemberRewritten m p :=
        fun m hm => by
        obtain ⟨t, ht, hmt⟩ := exists_of_mem_mapM hmember m hm
        obtain ⟨hshorter, hpiece⟩ := hshort hlt hinner htexts ht
        exact exists_readMember hmt (hread ((length_le_of_member? hmt).trans_lt hshorter)
          (isPiece_of_member? hpiece hmt))
      obtain ⟨properties, hproperties, hall⟩ := exists_mapM_forall₂ hproperty
      refine ⟨.object properties, hobject _ ?_, isRewritten_object hform hall, ?_⟩
      · rw [readProperties_eq, hmembers, Option.bind_some, hproperties]
      · cases hall <;> rfl

end Localization
