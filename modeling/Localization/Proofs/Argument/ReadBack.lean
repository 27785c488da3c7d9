import Mathlib
import Localization.Argument.Reader
import Localization.Proofs.Argument.Written
import Localization.Proofs.Script.Following

/-! Written arguments read back.

The pieces that are written for a list are parted at the commas between them and nowhere else
(`splitTop_join`), and each is read as the argument it was written for: a string literal denotes
its text, a path is a name, the brackets of an array or an object enclose the rest.
`readArguments_toScript` puts this together by recursion on the arguments. -/
namespace Localization

open Script

/-! ### Parts -/

theorem foldr_consHead (t part : Text) (rest : List Text) :
    t.foldr Text.consHead (part :: rest) = (t ++ part) :: rest := by
  induction t with
  | nil => rfl
  | cons c t ih => rw [List.foldr_cons, ih]; rfl

theorem isTrimmed_property (key : Text) {value : Text} (h : Text.IsTrimmed value) :
    Text.IsTrimmed (keyScript key ++ ':' :: ' ' :: value) :=
  (isTrimmed_keyScript key).append h [':', ' ']

/-- The parts of a list: all but the first have the blank behind the comma in front of them. -/
def partsOf : List Text → List Text
  | [] => [[]]
  | part :: rest => part :: rest.map (' ' :: ·)

theorem splitTop_part {separator : Char} (hs : isOrdinary separator = true) {part rest : Text}
    (h : Balanced [separator] part) :
    splitTop separator (part ++ separator :: rest) = (splitTop separator rest).map (part :: ·) := by
  rw [splitTop, h.splitFrom_append List.mem_cons_self, splitFrom_separator hs,
    Option.map_map, splitTop]
  congr 1
  funext parts
  exact (foldr_consHead part [] parts).trans (by rw [List.append_nil])

theorem splitTop_last {separator : Char} {part : Text} (h : Balanced [separator] part) :
    splitTop separator part = some [part] := by
  have := h.splitFrom_append List.mem_cons_self []
  rw [List.append_nil] at this
  rw [splitTop, this]
  exact congrArg some ((foldr_consHead part [] []).trans (by rw [List.append_nil]))

theorem splitTop_blank {separator : Char} (h : separator ≠ ' ') (t : Text) :
    splitTop separator (' ' :: t) = (splitTop separator t).map (Text.consHead ' ') :=
  splitFrom_code (stepCode_ordinary rfl []) h.symm t

theorem splitTop_blanks {separator : Char} (h : separator ≠ ' ') {blanks : Text}
    (hblanks : ∀ c ∈ blanks, c = ' ') (t : Text) :
    splitTop separator (blanks ++ t) = (splitTop separator t).map (blanks.foldr Text.consHead) := by
  induction blanks with
  | nil => simp
  | cons c blanks ih =>
    obtain rfl := hblanks c List.mem_cons_self
    rw [List.cons_append, splitTop_blank h, ih fun c hc => hblanks c (List.mem_cons_of_mem _ hc),
      Option.map_map]
    rfl

/-- A list is cut into what it was joined from; the blanks behind a comma go to the part behind
it. -/
theorem splitTop_join_blanks {blanks : Text} (hblanks : ∀ c ∈ blanks, c = ' ') {part : Text}
    {rest : List Text} (h : ∀ p ∈ part :: rest, Balanced [','] p) :
    splitTop ',' (Text.join (',' :: blanks) (part :: rest)) =
      some (part :: rest.map (blanks ++ ·)) := by
  induction rest generalizing part with
  | nil =>
    rw [Text.join_singleton]
    exact splitTop_last (h part List.mem_cons_self)
  | cons next rest ih =>
    have htext : Text.join (',' :: blanks) (part :: next :: rest) =
        part ++ ',' :: (blanks ++ Text.join (',' :: blanks) (next :: rest)) := by
      rw [Text.join_cons (List.cons_ne_nil _ _), List.append_assoc]
      rfl
    rw [htext, splitTop_part rfl (h part List.mem_cons_self), splitTop_blanks (by decide) hblanks,
      ih fun p hp => h p (List.mem_cons_of_mem _ hp), Option.map_some, Option.map_some,
      foldr_consHead]
    rfl

/-- A list is cut into what it was joined from. -/
theorem splitTop_join {parts : List Text} (h : ∀ part ∈ parts, Balanced [','] part) :
    splitTop ',' (Text.join ", " parts) = some (partsOf parts) := by
  cases parts with
  | nil => rfl
  | cons part rest => exact splitTop_join_blanks (by simp : ∀ c ∈ [' '], c = ' ') h

/-! ### One argument -/

theorem ofScript?_of_isNameStart {c : Char} (hc : isNameStart c = true) (rest : Text) :
    Decimal.ofScript? (c :: rest) = none := by
  have hdigit : c.isDigit = false := by
    rw [Bool.eq_false_iff]
    intro hd
    rw [not_isNameStart_of_isDigit hd] at hc
    cases hc
  have hminus : c ≠ '-' := by rintro rfl; cases hc
  have hpoint : c ≠ '.' := by rintro rfl; cases hc
  have hnumeral : Decimal.Numeral.ofText? (c :: rest) =
      (Decimal.readExponent (c :: rest)).map fun e => ⟨false, [], none, e⟩ := by
    simp [Decimal.Numeral.ofText?, hminus, hpoint, hdigit]
  rw [Decimal.ofScript?, hnumeral]
  cases Decimal.readExponent (c :: rest) <;> rfl

theorem readArgument_of_isNameStart {c : Char} (hc : isNameStart c = true) (rest : Text) :
    readArgument (c :: rest) = some (readPlain (c :: rest)) := by
  have hpath : isPathChar c = true := by
    rw [isPathChar, isWord_of_isNameStart hc]
    rfl
  have hmark := not_mem_punctuation hpath
  simp only [punctuation, List.mem_cons, List.not_mem_nil, or_false, not_or] at hmark
  rw [readArgument.eq_def]
  simp [literal?, hmark]

/-- A path is read as a name, but for the constants. -/
theorem readArgument_of_isPath {t : Text} (h : isPath t = true) :
    readArgument t = some (if isConstant t then .other t else .name t) := by
  obtain ⟨c, rest, rfl, hc⟩ := exists_isNameStart h
  have hplain : readPlain (c :: rest) = if isConstant (c :: rest) then .other (c :: rest) else
      .name (c :: rest) := by
    rw [readPlain.eq_def]
    simp only [ofScript?_of_isNameStart hc, h, if_true]
    rfl
  rw [readArgument_of_isNameStart hc, hplain]

/-- A literal that is closed at its end is a literal with nothing behind it. -/
theorem literalPrefix?_of_isClosedBy {quote : Char} {r : Region} {rest : Text}
    (hquote : literal? quote = some r) (h : (State.inside r).IsClosedBy rest) :
    literalPrefix? (quote :: rest) = some (quote :: rest, []) := by
  have hclosing := h.closing_append []
  rw [List.append_nil] at hclosing
  simp only [literalPrefix?, hquote, hclosing, Option.map_some]

/-- A literal with nothing behind it is read as the string that its body denotes. -/
theorem readArgument_of_literalPrefix? {quote : Char} {rest read : Text}
    (h : literalPrefix? (quote :: rest) = some (read, [])) :
    readArgument (quote :: rest) = some (.string (decode rest.dropLast)) := by
  have hquote : (literal? quote).isSome = true := by
    rw [Option.isSome_iff_ne_none]
    intro hnone
    rw [literalPrefix?, hnone] at h
    cases h
  rw [readArgument.eq_def]
  simp only [hquote, if_true, h]

theorem readArgument_of_isClosedBy {quote close : Char} {r : Region} {body : Text}
    (hquote : literal? quote = some r) (h : (State.inside r).IsClosedBy (body ++ [close])) :
    readArgument (quote :: (body ++ [close])) = some (.string (decode body)) := by
  rw [readArgument_of_literalPrefix? (literalPrefix?_of_isClosedBy hquote h),
    List.dropLast_concat]

/-- What is written for a string is one literal. -/
theorem literalPrefix?_string (value : Text) :
    literalPrefix? (Argument.string value).toScript =
      some ((Argument.string value).toScript, []) :=
  literalPrefix?_of_isClosedBy rfl (isClosedBy_encode value)

/-- The literal denotes the string. -/
theorem decode_toScript (value : Text) :
    decode ((Argument.string value).toScript.drop 1).dropLast = value := by
  simp [Argument.toScript, decode_encode]

theorem readArgument_string (value : Text) :
    readArgument (Argument.string value).toScript = some (.string value) := by
  rw [Argument.toScript, List.cons_append, readArgument_of_isClosedBy rfl (isClosedBy_encode value),
    decode_encode]

/-- The brackets of an array enclose its elements. -/
theorem readArgument_array {inner : Text} {elements : List Argument} (h : Balanced [] inner)
    (hread : readArguments inner = some elements) :
    readArgument ('[' :: inner ++ [']']) = some (.array elements) := by
  have hgroup : groupPrefix? ('[' :: (inner ++ [']'])) = some ('[' :: (inner ++ [']']), []) :=
    h.groupPrefix? rfl []
  rw [List.cons_append, readArgument.eq_def]
  simp [literal?, hgroup, hread]

/-- The braces of an object enclose its properties. -/
theorem readArgument_object {inner : Text} {properties : Properties} (h : Balanced [] inner)
    (hread : readProperties inner = some properties) :
    readArgument ('{' :: inner ++ ['}']) = some (.object properties) := by
  have hgroup : groupPrefix? ('{' :: (inner ++ ['}'])) = some ('{' :: (inner ++ ['}']), []) :=
    h.groupPrefix? rfl []
  rw [List.cons_append, readArgument.eq_def]
  simp [literal?, hgroup, hread]

/-- Without a backslash a body denotes itself. -/
theorem decode_of_not_mem {t : Text} (h : '\\' ∉ t) : decode t = t := by
  induction t with
  | nil => rw [decode]
  | cons c rest ih =>
    rw [List.mem_cons, not_or] at h
    rw [decode_cons_of_ne (Ne.symm h.1), ih h.2]

/-! ### Keys -/

theorem decode_escapeChar (c : Char) (rest : Text) :
    decode (Json.escapeChar c ++ rest) = c :: decode rest := by
  rcases escapeChar_cases c with ⟨he, -, hb, -⟩ | ⟨e, he, hd, hx, hu⟩ | ⟨hc, he⟩
  · rw [he]
    exact decode_cons_of_ne hb rest
  · rw [he, List.cons_append, List.singleton_append, decode_backslash hx hu, hd]
    rfl
  · have hpoint : ∀ n < 0x20, codePoint ('0' :: '0' :: Json.hexByte n) = [Char.ofNat n] := by decide
    have hbyte :
        Json.hexByte c.toNat = [Nat.digitChar (c.toNat / 16), Nat.digitChar (c.toNat % 16)] := rfl
    have hread := hpoint _ hc
    rw [hbyte, Char.ofNat_toNat] at hread
    rw [he, hbyte]
    show decode ('\\' :: 'u' :: '0' :: '0' :: Nat.digitChar (c.toNat / 16) ::
      Nat.digitChar (c.toNat % 16) :: rest) = _
    rw [decode]
    · exact congrArg (· ++ decode rest) hread
    · simp

theorem decode_escaped (t : Text) : decode (t.flatMap Json.escapeChar) = t := by
  induction t with
  | nil => rw [List.flatMap_nil, decode]
  | cons c rest ih => rw [List.flatMap_cons, decode_escapeChar, ih]

/-- A key between quotes is read as what it denotes. -/
theorem propertyKey?_quote (key : Text) : propertyKey? (Json.quote key) = some key := by
  have hwhole : literalPrefix? ('"' :: (key.flatMap Json.escapeChar ++ ['"'])) =
      some ('"' :: (key.flatMap Json.escapeChar ++ ['"']), []) := by
    have := (isClosedBy_escaped key).closing_append []
    rw [List.append_nil] at this
    simp [literalPrefix?, literal?, this]
  rw [Json.quote, List.cons_append]
  simp [propertyKey?, hwhole, isWhole, decode_escaped]

/-- A written key is read as it was. -/
theorem propertyKey?_keyScript (key : Text) : propertyKey? (keyScript key) = some key := by
  rcases keyScript_cases key with ⟨hname, he⟩ | he
  · rw [he]
    cases key with
    | nil => cases hname
    | cons c rest =>
      have hc : isNameStart c = true := by
        rw [isName, Bool.and_eq_true] at hname
        exact hname.1
      have hq : (c == '\'' || c == '"') = false := by
        rw [Bool.eq_false_iff]
        intro hq
        simp only [Bool.or_eq_true, beq_iff_eq] at hq
        rcases hq with rfl | rfl <;> cases hc
      have hmore : (isNameStart c && rest.all isNameChar) = true := hname
      simp [propertyKey?, hq, hmore]
  · rw [he]
    exact propertyKey?_quote key

/-! ### Lists -/

/-- The arguments of a list are those of the parts that it is cut into. -/
theorem readArguments_of_splitTop {src : Text} {parts : List Text} {arguments : List Argument}
    (h : Balanced [] src) (hsplit : splitTop ',' src = some parts)
    (hread : ∀ bound hb, readParts bound parts hb = some arguments) :
    readArguments src = some arguments := by
  rw [readArguments.eq_def]
  split
  · next hnone => rw [h.withoutComments_eq, hsplit] at hnone; cases hnone
  · next parts' hsome =>
    rw [h.withoutComments_eq, hsplit] at hsome
    cases hsome
    exact hread _ _

/-- The properties of a list are those of the parts that it is cut into. -/
theorem readProperties_of_splitTop {src : Text} {parts : List Text} {properties : Properties}
    (hsplit : splitTop ',' src = some parts)
    (hread : ∀ bound hb, readMembers bound parts hb = some properties) :
    readProperties src = some properties := by
  rw [readProperties.eq_def]
  split
  · next hnone => rw [hsplit] at hnone; cases hnone
  · next parts' hsome =>
    rw [hsplit] at hsome
    cases hsome
    exact hread _ _

/-- The arguments of a list are those of its parts. -/
theorem readArguments_join {parts : List Text} {arguments : List Argument}
    (h : ∀ part ∈ parts, Balanced [','] part)
    (hread : ∀ bound hb, readParts bound (partsOf parts) hb = some arguments) :
    readArguments (Text.join ", " parts) = some arguments :=
  readArguments_of_splitTop (balanced_join h) (splitTop_join h) hread

/-- The properties of a list are those of its parts. -/
theorem readProperties_join {parts : List Text} {properties : Properties}
    (h : ∀ part ∈ parts, Balanced [','] part)
    (hread : ∀ bound hb, readMembers bound (partsOf parts) hb = some properties) :
    readProperties (Text.join ", " parts) = some properties :=
  readProperties_of_splitTop (splitTop_join h) hread

theorem readParts_empty {bound : Nat} (h : ∀ p ∈ [[]], p.length ≤ bound) :
    readParts bound [[]] h = some [] := by
  rw [readParts, if_pos (by decide), readParts]

theorem readMembers_empty {bound : Nat} (h : ∀ p ∈ [[]], p.length ≤ bound) :
    readMembers bound [[]] h = some [] := by
  rw [readMembers, if_pos (by decide), readMembers]

theorem readParts_cons {bound : Nat} {part : Text} {rest : List Text} {a : Argument}
    {more : List Argument} (h : ∀ p ∈ part :: rest, p.length ≤ bound) (hne : Text.trim part ≠ [])
    (ha : readArgument (Text.trim part) = some a)
    (hmore : ∀ hrest, readParts bound rest hrest = some more) :
    readParts bound (part :: rest) h = some (a :: more) := by
  rw [readParts, if_neg (by simpa using hne), ha, hmore]
  rfl

/-- A key does not start as a spread or a computed key does. -/
theorem head_keyScript (key : Text) : ∃ c rest, keyScript key = c :: rest ∧ c ≠ '.' ∧ c ≠ '[' := by
  rcases keyScript_cases key with ⟨hname, he⟩ | he
  · obtain ⟨c, rest, hkey, hc⟩ := exists_isNameStart (isPath_of_isName hname)
    refine ⟨c, rest, he.trans hkey, ?_, ?_⟩ <;> rintro rfl <;> cases hc
  · exact ⟨_, _, he, by decide, by decide⟩

/-- A property is cut at the colon behind its key. -/
theorem readMembers_property {bound : Nat} {part written after key : Text} {rest : List Text}
    {a : Argument} {more : Properties} (h : ∀ p ∈ part :: rest, p.length ≤ bound)
    (hpart : Text.trim part = written ++ ':' :: after)
    (hhead : ∃ c tail, written = c :: tail ∧ c ≠ '.' ∧ c ≠ '[') (hwritten : Balanced [':'] written)
    (hkey : propertyKey? (Text.trim written) = some key) (hafter : Balanced [':'] after)
    (hne : Text.trim after ≠ []) (ha : readArgument (Text.trim after) = some a)
    (hmore : ∀ hrest, readMembers bound rest hrest = some more) :
    readMembers bound (part :: rest) h = some ((key, a) :: more) := by
  obtain ⟨c, tail, rfl, hpoint, hbracket⟩ := hhead
  have hmember :
      (['.', '.', '.'].isPrefixOf (Text.trim part) || (Text.trim part).head? == some '[') =
        false := by
    rw [hpart]
    simp [List.isPrefixOf, Ne.symm hpoint, hbracket]
  have hsplit : splitTop ':' (Text.trim part) = some [c :: tail, after] := by
    rw [hpart, splitTop_part rfl hwritten, splitTop_last hafter]
    rfl
  have hbehind : (Text.trim part).drop ((c :: tail).length + 1) = after := by
    rw [hpart, List.drop_append]
    simp
  have hpart_ne : (Text.trim part).isEmpty = false := by rw [hpart]; rfl
  have hvalue_ne : (Text.trim after).isEmpty = false := by simpa using hne
  rw [readMembers]
  simp only [hpart_ne, Bool.false_eq_true, if_false, hmember, hsplit, hkey, hbehind, hvalue_ne, ha,
    hmore, Option.map_some]

theorem readMembers_cons {bound : Nat} {part key value : Text} {rest : List Text} {a : Argument}
    {more : Properties} (h : ∀ p ∈ part :: rest, p.length ≤ bound)
    (hpart : Text.trim part = keyScript key ++ ':' :: ' ' :: value) (hvalue : Text.IsTrimmed value)
    (hbalanced : Balanced [',', ':'] value) (ha : readArgument value = some a)
    (hmore : ∀ hrest, readMembers bound rest hrest = some more) :
    readMembers bound (part :: rest) h = some ((key, a) :: more) := by
  have hkey : propertyKey? (Text.trim (keyScript key)) = some key := by
    rw [(isTrimmed_keyScript key).trim, propertyKey?_keyScript]
  have hafter : Balanced [':'] (' ' :: value) :=
    .ordinary rfl (by decide) (hbalanced.mono (by simp))
  refine readMembers_property h hpart (head_keyScript key) ((balanced_keyScript key).mono (by simp))
    hkey hafter ?_ ?_ hmore
  · rw [hvalue.trim_cons_blank]
    exact hvalue.1
  · rwa [hvalue.trim_cons_blank]

/-! ### All arguments -/

mutual

/-- What is written for an argument is read as the argument. -/
theorem readArgument_toScript (a : Argument) (h : a.isPrintable = true) :
    readArgument a.toScript = some a := by
  cases a with
  | string value => exact readArgument_string value
  | name path =>
    rw [Argument.isPrintable, Bool.and_eq_true, Bool.not_eq_true'] at h
    rw [Argument.toScript, readArgument_of_isPath h.1, h.2]
    rfl
  | array elements =>
    rw [Argument.isPrintable] at h
    rw [Argument.toScript]
    exact readArgument_array (balanced_join (balanced_elementScripts elements h))
      (readArguments_elementScripts elements h)
  | object properties =>
    rw [Argument.isPrintable] at h
    rw [Argument.toScript]
    exact readArgument_object (balanced_join (balanced_propertyScripts properties h))
      (readProperties_propertyScripts properties h)
  | other raw =>
    rw [Argument.isPrintable] at h
    rw [Argument.toScript, readArgument_of_isPath (isPath_of_isConstant h), h]
    rfl
  | number value => cases h
  | call callee arguments raw => cases h

theorem readArguments_elementScripts (elements : List Argument) (h : arePrintable elements = true) :
    readArguments (Text.join ", " (elementScripts elements)) = some elements := by
  refine readArguments_join (balanced_elementScripts elements h) fun bound hb => ?_
  cases elements with
  | nil => exact readParts_empty hb
  | cons a rest =>
    rw [arePrintable, Bool.and_eq_true] at h
    have htrim := isTrimmed_toScript h.1
    refine readParts_cons hb (by rw [htrim.trim]; exact htrim.1) ?_ fun hrest =>
      readParts_elementScripts rest h.2 hrest
    rw [htrim.trim]
    exact readArgument_toScript a h.1

theorem readParts_elementScripts (elements : List Argument) (h : arePrintable elements = true)
    {bound : Nat} (hb : ∀ p ∈ (elementScripts elements).map (' ' :: ·), p.length ≤ bound) :
    readParts bound ((elementScripts elements).map (' ' :: ·)) hb = some elements := by
  cases elements with
  | nil => simp [elementScripts, readParts]
  | cons a rest =>
    rw [arePrintable, Bool.and_eq_true] at h
    have htrim := isTrimmed_toScript h.1
    refine readParts_cons hb (by rw [htrim.trim_cons_blank]; exact htrim.1) ?_
      fun hrest => readParts_elementScripts rest h.2 hrest
    rw [htrim.trim_cons_blank]
    exact readArgument_toScript a h.1

theorem readProperties_propertyScripts (properties : Properties)
    (h : arePrintableProperties properties = true) :
    readProperties (Text.join ", " (propertyScripts properties)) = some properties := by
  refine readProperties_join (balanced_propertyScripts properties h) fun bound hb => ?_
  cases properties with
  | nil => exact readMembers_empty hb
  | cons property rest =>
    obtain ⟨key, a⟩ := property
    rw [arePrintableProperties, Bool.and_eq_true] at h
    have htrim := isTrimmed_property key (isTrimmed_toScript h.1)
    exact readMembers_cons hb htrim.trim (isTrimmed_toScript h.1) (balanced_toScript a h.1)
      (readArgument_toScript a h.1) fun hrest => readMembers_propertyScripts rest h.2 hrest

theorem readMembers_propertyScripts (properties : Properties)
    (h : arePrintableProperties properties = true) {bound : Nat}
    (hb : ∀ p ∈ (propertyScripts properties).map (' ' :: ·), p.length ≤ bound) :
    readMembers bound ((propertyScripts properties).map (' ' :: ·)) hb = some properties := by
  cases properties with
  | nil => simp [propertyScripts, readMembers]
  | cons property rest =>
    obtain ⟨key, a⟩ := property
    rw [arePrintableProperties, Bool.and_eq_true] at h
    have htrim := isTrimmed_property key (isTrimmed_toScript h.1)
    exact readMembers_cons hb htrim.trim_cons_blank (isTrimmed_toScript h.1)
      (balanced_toScript a h.1)
      (readArgument_toScript a h.1) fun hrest => readMembers_propertyScripts rest h.2 hrest

end

theorem elementScripts_eq_map (arguments : List Argument) :
    elementScripts arguments = arguments.map Argument.toScript := by
  induction arguments with
  | nil => rfl
  | cons a rest ih => rw [elementScripts, ih, List.map_cons]

theorem arePrintable_iff {arguments : List Argument} :
    arePrintable arguments = true ↔ ∀ a ∈ arguments, a.isPrintable = true := by
  induction arguments with
  | nil => simp [arePrintable]
  | cons a rest ih => rw [arePrintable, Bool.and_eq_true, ih, List.forall_mem_cons]

/-- **Writing arguments and reading them back changes nothing.** Each string is written as one
literal that denotes it. -/
theorem readArguments_toScript {arguments : List Argument}
    (h : ∀ a ∈ arguments, a.isPrintable = true) :
    readArguments (Text.join ", " (arguments.map Argument.toScript)) = some arguments ∧
      ∀ value : Text, literalPrefix? (Argument.string value).toScript =
        some ((Argument.string value).toScript, []) ∧
        decode ((Argument.string value).toScript.drop 1).dropLast = value := by
  refine ⟨?_, fun value => ⟨literalPrefix?_string value, decode_toScript value⟩⟩
  rw [← elementScripts_eq_map]
  exact readArguments_elementScripts arguments (arePrintable_iff.mpr h)

/-- Strings of everything that has a meaning in a literal, and keys that are no names. -/
theorem readArguments_toScript_escapes :
    let arguments : List Argument := [
      .string "\\`$\x7bx\x7d' \" // /* \n, \x7b [",
      .name "a?.b . c",
      .array [.other "null", .array []],
      .object [("say \"hi\\\"\n, b: c", .string "\\"), ("ok", .object []), ([], .other "true")]]
    (∀ a ∈ arguments, a.isPrintable = true) ∧
      readArguments (Text.join ", " (arguments.map Argument.toScript)) = some arguments :=
  ⟨by decide, (readArguments_toScript (by decide)).1⟩

end Localization
