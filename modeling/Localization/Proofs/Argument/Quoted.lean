import Mathlib
import Localization.Argument.Reader
import Localization.Proofs.Argument.ReadBack
import Localization.Proofs.Argument.Spelled

/-! Literals in quotes.

A character may be written in a literal as it is, or in one of the ways of `Spelling`: behind a
backslash, or by its number in hexadecimal. A literal in quotes is read as the string of the
characters that are written in it, however each of them is (`readArguments_quoted`), but for a
character above U+FFFF that is written by its two surrogates: these are no characters, and are
lost one by one. -/
namespace Localization

open Script

/-! ### Hexadecimal numbers -/

/-- A hexadecimal digit, in lower or upper case. -/
structure HexDigit where
  value : Fin 16
  isUpper : Bool
  deriving DecidableEq, Repr

def HexDigit.char (d : HexDigit) : Char :=
  if d.isUpper then (Nat.digitChar d.value).toUpper else Nat.digitChar d.value

/-- The number that digits write, the highest one first. -/
def hexNumber (digits : List HexDigit) : Nat := Nat.ofDigits 16 (digits.reverse.map (·.value.val))

def hexText (digits : List HexDigit) : Text := digits.map HexDigit.char

theorem hexDigit?_char (d : HexDigit) : Text.hexDigit? d.char = some d.value := by
  obtain ⟨value, isUpper⟩ := d
  revert value isUpper
  decide

/-- A digit is none of the characters that end a literal, a line or a number. -/
theorem HexDigit.char_ne (d : HexDigit) :
    d.char ∉ ['\'', '"', '\\', '\n', '\r', '\x7b', '\x7d', '+'] := by
  obtain ⟨value, isUpper⟩ := d
  revert value isUpper
  decide

theorem hexNumber_concat (digits : List HexDigit) (d : HexDigit) :
    hexNumber (digits ++ [d]) = 16 * hexNumber digits + d.value := by
  rw [hexNumber, List.reverse_append, List.reverse_singleton, List.singleton_append, List.map_cons,
    Nat.ofDigits_cons, hexNumber]
  simp
  omega

theorem hex?_hexText {digits : List HexDigit} (h : digits ≠ []) :
    Text.hex? (hexText digits) = some (hexNumber digits) := by
  have hfold : ∀ digits : List HexDigit,
      (hexText digits).foldl (fun n c => do return 16 * (← n) + (← Text.hexDigit? c)) (some 0) =
        some (hexNumber digits) := by
    intro digits
    induction digits using List.reverseRecOn with
    | nil => rfl
    | append_singleton digits d ih =>
      rw [hexText, List.map_append, List.foldl_append, ← hexText, ih, List.map_singleton,
        List.foldl_cons, List.foldl_nil, hexDigit?_char, hexNumber_concat]
      rfl
  have hne : (hexText digits).isEmpty = false := by simpa [hexText] using h
  rw [Text.hex?, hne, hfold]
  rfl

/-- Digits denote the character of their number, if there is one. -/
theorem codePoint_hexText {digits : List HexDigit} (h : digits ≠ []) :
    codePoint (hexText digits) =
      if (hexNumber digits).isValidChar then [Char.ofNat (hexNumber digits)] else [] := by
  have hhex := hex?_hexText h
  obtain ⟨d, rest, rfl⟩ := List.exists_cons_of_ne_nil h
  have hplus : d.char ≠ '+' := fun he => d.char_ne (by simp [he])
  have hsign : ∀ t, hexText (d :: rest) ≠ '+' :: t := fun t ht => hplus (List.cons.inj ht).1
  simp only [codePoint]
  split
  · next n he =>
    rw [hhex, Option.some.injEq] at he
    rw [he]
  · next he =>
    rw [hhex] at he
    cases he

/-! ### Spellings of characters -/

/-- How a character is written in a literal. -/
inductive Spelling where
  /-- As it is. -/
  | raw
  /-- Behind a backslash, by a letter. -/
  | letter (letter : Char)
  /-- By two digits, `\xHH`. -/
  | byte (digits : List HexDigit)
  /-- By four digits, `\uXXXX`. -/
  | unit (digits : List HexDigit)
  /-- By the four digits of each of its surrogates. -/
  | surrogates (high low : List HexDigit)
  /-- By any number of digits in braces, `\u{…}`. -/
  | braced (digits : List HexDigit)
  deriving DecidableEq, Repr

/-- The characters that a letter behind a backslash stands for, where it is not itself. -/
def letters : List (Char × Char) :=
  [('n', '\n'), ('t', '\t'), ('r', '\r'), ('b', '\x08'), ('f', '\x0c'), ('v',
    '\x0b'), ('0', '\x00')]

/-- Whether a character is itself behind a backslash: it is no digit, ends no line and starts no
other escape. -/
def isSelf (c : Char) : Bool :=
  !c.isDigit && !isLineEnd c && c != 'x' && c != 'u' && letters.all (·.1 != c)

namespace Spelling

def text (c : Char) : Spelling → Text
  | raw => [c]
  | letter l => ['\\', l]
  | byte digits => '\\' :: 'x' :: hexText digits
  | unit digits => '\\' :: 'u' :: hexText digits
  | surrogates high low => '\\' :: 'u' :: hexText high ++ '\\' :: 'u' :: hexText low
  | braced digits => '\\' :: 'u' :: '\x7b' :: hexText digits ++ ['\x7d']

/-- Whether a spelling is one of a character, where the characters in `plain` may stand as they
are. In strict code no digit may follow the letter `0`, which does not matter here. -/
def IsOf (plain : Char → Bool) (c : Char) : Spelling → Prop
  | raw => plain c = true
  | letter l => (l, c) ∈ letters ∨ l = c ∧ isSelf c = true
  | byte digits => digits.length = 2 ∧ hexNumber digits = c.toNat
  | unit digits => digits.length = 4 ∧ hexNumber digits = c.toNat
  | surrogates high low =>
    (high.length = 4 ∧ 0xD800 ≤ hexNumber high ∧ hexNumber high < 0xDC00) ∧
      (low.length = 4 ∧ 0xDC00 ≤ hexNumber low ∧ hexNumber low < 0xE000) ∧
      c.toNat = 0x10000 + (hexNumber high - 0xD800) * 0x400 + (hexNumber low - 0xDC00)
  | braced digits => digits ≠ [] ∧ hexNumber digits = c.toNat

instance (plain : Char → Bool) (c : Char) (w : Spelling) : Decidable (w.IsOf plain c) := by
  cases w <;> unfold IsOf <;> infer_instance

def isSurrogates : Spelling → Bool
  | surrogates _ _ => true
  | _ => false

/-- What is read of a character: nothing if it is written by its surrogates. -/
def read (c : Char) (w : Spelling) : Text := if w.isSurrogates then [] else [c]

end Spelling

/-! ### Reading what is written -/

theorem codePoint_of_hexNumber {digits : List HexDigit} {c : Char} (hne : digits ≠ [])
    (h : hexNumber digits = c.toNat) :
    codePoint (hexText digits) = [c] := by
  rw [codePoint_hexText hne, h, if_pos (show c.toNat.isValidChar from c.valid), Char.ofNat_toNat]

/-- A surrogate is no character. -/
theorem codePoint_surrogate {digits : List HexDigit} (hne : digits ≠ [])
    (hlow : 0xD800 ≤ hexNumber digits) (hhigh : hexNumber digits < 0xE000) :
    codePoint (hexText digits) = [] := by
  rw [codePoint_hexText hne, if_neg]
  rintro (h | h) <;> omega

theorem decode_byte {digits : List HexDigit} (h : digits.length = 2) (rest : Text) :
    decode ('\\' :: 'x' :: hexText digits ++ rest) = codePoint (hexText digits) ++ decode rest := by
  have hlength : (hexText digits).length = 2 := by rw [hexText, List.length_map, h]
  rw [List.cons_append, List.cons_append, decode, List.take_left' hlength, List.drop_left' hlength]

theorem decode_unit {digits : List HexDigit} (h : digits.length = 4) (rest : Text) :
    decode ('\\' :: 'u' :: hexText digits ++ rest) = codePoint (hexText digits) ++ decode rest := by
  have hlength : (hexText digits).length = 4 := by rw [hexText, List.length_map, h]
  have hbrace : ∀ t, hexText digits ++ rest ≠ '{' :: t := by
    intro t he
    obtain ⟨d, more, rfl⟩ :=
      List.exists_cons_of_ne_nil (List.ne_nil_of_length_pos (by omega : 0 < digits.length))
    exact d.char_ne (by rw [(List.cons.inj he).1]; decide)
  rw [List.cons_append, List.cons_append, decode, List.take_left' hlength, List.drop_left' hlength]
  exact hbrace

theorem decode_braced (digits : List HexDigit) (rest : Text) :
    decode ('\\' :: 'u' :: '{' :: hexText digits ++ ['}'] ++ rest) =
      codePoint (hexText digits) ++ decode rest := by
  have hdigits : ∀ c ∈ hexText digits, (c != '}') = true := by
    intro c hc
    obtain ⟨d, -, rfl⟩ := List.mem_map.mp hc
    exact bne_iff_ne.mpr fun he => d.char_ne (by rw [he]; decide)
  have htake : (hexText digits ++ '}' :: rest).takeWhile (· != '}') = hexText digits := by
    rw [List.takeWhile_append_of_pos hdigits, List.takeWhile_cons_of_neg (by simp), List.append_nil]
  have hdrop : (hexText digits ++ '}' :: rest).dropWhile (· != '}') = '}' :: rest := by
    rw [List.dropWhile_append_of_pos hdigits, List.dropWhile_cons_of_neg (by simp)]
  simp only [List.cons_append, List.append_assoc, List.nil_append]
  rw [decode, htake, hdrop, List.drop_one, List.tail_cons]

/-- A letter behind a backslash is read as the character that it stands for. -/
theorem decode_letter {l c : Char} (h : (l, c) ∈ letters ∨ l = c ∧ isSelf c = true) (rest : Text) :
    decode ('\\' :: l :: rest) = c :: decode rest := by
  rcases h with h | ⟨rfl, h⟩
  · have hall : ∀ p ∈ letters, p.1 ≠ 'x' ∧ p.1 ≠ 'u' ∧ escapedChar p.1 = [p.2] := by decide
    obtain ⟨hx, hu, hescaped⟩ := hall _ h
    rw [decode_backslash hx hu, hescaped]
    rfl
  · simp only [isSelf, letters, isLineEnd, List.all_cons, List.all_nil, Bool.and_eq_true,
      Bool.not_eq_true', bne_iff_ne, Bool.or_eq_false_iff, beq_eq_false_iff_ne, ne_eq,
      and_true] at h
    obtain ⟨⟨⟨⟨-, hline⟩, hx⟩, hu⟩, hn, ht, hr, hb, hf, hv, hzero⟩ := h
    have hescaped : escapedChar l = [l] := by
      simp [escapedChar, hline, Ne.symm hn, Ne.symm ht, Ne.symm hr, Ne.symm hb, Ne.symm hf,
        Ne.symm hv, Ne.symm hzero]
    rw [decode_backslash hx hu, hescaped]
    rfl

variable {plain : Char → Bool}

/-- **A written character is read**, unless it is written by its surrogates. -/
theorem Spelling.decode_text (hplain : plain '\\' = false) {c : Char} {w : Spelling}
    (h : w.IsOf plain c) (rest : Text) :
    decode (w.text c ++ rest) = w.read c ++ decode rest := by
  have ne_nil {digits : List HexDigit} {n : Nat} (h : digits.length = n + 1) : digits ≠ [] :=
    List.ne_nil_of_length_eq_add_one h
  cases w with
  | raw =>
    have hc : c ≠ '\\' := by
      rintro rfl
      exact Bool.false_ne_true (hplain.symm.trans h)
    exact decode_cons_of_ne hc rest
  | letter l => exact decode_letter h rest
  | byte digits =>
    rw [text, decode_byte h.1, codePoint_of_hexNumber (ne_nil h.1) h.2]
    rfl
  | unit digits =>
    rw [text, decode_unit h.1, codePoint_of_hexNumber (ne_nil h.1) h.2]
    rfl
  | surrogates high low =>
    obtain ⟨⟨hhigh, h1, h2⟩, ⟨hlow, h3, h4⟩, -⟩ := h
    have htext : (surrogates high low).text c ++ rest =
        '\\' :: 'u' :: hexText high ++ ('\\' :: 'u' :: hexText low ++ rest) := by simp [text]
    rw [htext, decode_unit hhigh, decode_unit hlow,
      codePoint_surrogate (ne_nil hhigh) h1 (by omega),
      codePoint_surrogate (ne_nil hlow) (by omega) h4]
    rfl
  | braced digits =>
    rw [text, decode_braced, codePoint_of_hexNumber h.1 h.2]
    rfl

/-- Characters and how they are written. -/
abbrev Written := List (Char × Spelling)

namespace Written

/-- The body of the literal. -/
def body (written : Written) : Text := written.flatMap fun (c, w) => w.text c

/-- The text that is written. -/
def string (written : Written) : Text := written.map (·.1)

/-- The text without the characters that are written by their surrogates. -/
def read (written : Written) : Text := written.flatMap fun (c, w) => w.read c

theorem decode_body (hplain : plain '\\' = false) {written : Written}
    (h : ∀ p ∈ written, p.2.IsOf plain p.1) :
    decode written.body = written.read := by
  induction written with
  | nil => rw [body, List.flatMap_nil, decode]; rfl
  | cons p written ih =>
    rw [List.forall_mem_cons] at h
    have hrest := ih h.2
    rw [body] at hrest
    rw [body, List.flatMap_cons, Spelling.decode_text hplain h.1, hrest, read, read,
      List.flatMap_cons]

theorem length_read_le (written : Written) : written.read.length ≤ written.string.length := by
  induction written with
  | nil => exact Nat.le_refl _
  | cons p written ih =>
    obtain ⟨c, w⟩ := p
    have hone : (w.read c).length ≤ 1 := by
      rw [Spelling.read]
      split
      · exact Nat.zero_le 1
      · exact Nat.le_refl 1
    have hread : read ((c, w) :: written) = w.read c ++ read written := List.flatMap_cons
    have hstring : string ((c, w) :: written) = c :: string written := rfl
    rw [hread, hstring, List.length_append, List.length_cons]
    omega

/-- All that is written is read exactly if no character is written by its surrogates. -/
theorem read_eq_string_iff (written : Written) :
    written.read = written.string ↔ ∀ p ∈ written, p.2.isSurrogates = false := by
  induction written with
  | nil => simp [read, string]
  | cons p written ih =>
    obtain ⟨c, w⟩ := p
    rw [List.forall_mem_cons, ← ih]
    by_cases hw : w.isSurrogates = true
    · have hread : read ((c, w) :: written) = read written := by simp [read, Spelling.read, hw]
      rw [hread]
      refine ⟨fun he => ?_, fun h => absurd h.1 (by simp [hw])⟩
      have hle := length_read_le written
      rw [he, string, string, List.map_cons, List.length_cons] at hle
      omega
    · rw [Bool.not_eq_true] at hw
      simp [read, string, Spelling.read, hw]

end Written

/-! ### Literals in quotes -/

/-- Whether a character may stand in a literal in quotes as it is. -/
def isPlainIn (quote c : Char) : Bool := c != quote && c != '\\' && c != '\n' && c != '\r'

/-- A literal in quotes. -/
def quoted (quote : Char) (written : Written) : Text := quote :: (written.body ++ [quote])

section

variable {quote : Char} (hq : quote = '\'' ∨ quote = '"')

include hq

theorem isStringBody_hexText (digits : List HexDigit) (rest : Text) :
    isStringBody quote (hexText digits ++ rest) = isStringBody quote rest := by
  induction digits with
  | nil => rfl
  | cons d digits ih =>
    have hne := d.char_ne
    simp only [List.mem_cons, List.not_mem_nil, or_false, not_or] at hne
    have hquote : d.char ≠ quote := by
      rcases hq with rfl | rfl
      · exact hne.1
      · exact hne.2.1
    have htext : hexText (d :: digits) ++ rest = d.char :: (hexText digits ++ rest) := rfl
    have hb : d.char ≠ '\\' := hne.2.2.1
    rw [htext, isStringBody_cons hquote hb hne.2.2.2.1 hne.2.2.2.2.1, ih]

/-- A written character stands in the body of a literal. -/
theorem isStringBody_text {c : Char} {w : Spelling} (h : w.IsOf (isPlainIn quote) c) (rest : Text) :
    isStringBody quote (w.text c ++ rest) = isStringBody quote rest := by
  cases w with
  | raw =>
    simp only [Spelling.IsOf, isPlainIn, Bool.and_eq_true, bne_iff_ne, ne_eq] at h
    exact isStringBody_cons h.1.1.1 h.1.1.2 h.1.2 h.2 rest
  | letter l => rfl
  | byte digits => exact isStringBody_hexText hq digits rest
  | unit digits => exact isStringBody_hexText hq digits rest
  | surrogates high low =>
    have htext : (Spelling.surrogates high low).text c ++ rest =
        '\\' :: 'u' :: (hexText high ++ '\\' :: 'u' :: (hexText low ++ rest)) := by
          simp [Spelling.text]
    rw [htext, isStringBody, isStringBody_hexText hq, isStringBody, isStringBody_hexText hq]
  | braced digits =>
    have htext : (Spelling.braced digits).text c ++ rest =
        '\\' :: 'u' :: '{' :: (hexText digits ++ '}' :: rest) := by
      simp [Spelling.text]
    have hbrace {d : Char} (hd : d = '\x7b' ∨ d = '\x7d') (t : Text) :
        isStringBody quote (d :: t) = isStringBody quote t := by
      have hquote : d ≠ quote := by rcases hq with rfl | rfl <;> rcases hd with rfl | rfl <;> decide
      rcases hd with rfl | rfl <;> exact isStringBody_cons hquote (by decide) (by decide)
        (by decide) t
    rw [htext, isStringBody, hbrace (.inl rfl), isStringBody_hexText hq, hbrace (.inr rfl)]

theorem isStringBody_body {written : Written} (h : ∀ p ∈ written, p.2.IsOf (isPlainIn quote) p.1) :
    isStringBody quote written.body = true := by
  induction written with
  | nil => rfl
  | cons p written ih =>
    rw [List.forall_mem_cons] at h
    have hrest := ih h.2
    rw [Written.body] at hrest
    rw [Written.body, List.flatMap_cons, isStringBody_text hq h.1, hrest]

theorem literal?_quote :
    literal? quote = some (.quoted quote) := by rcases hq with rfl | rfl <;> rfl

theorem isClosedBy_body {written : Written} (h : ∀ p ∈ written, p.2.IsOf (isPlainIn quote) p.1) :
    (State.inside (.quoted quote)).IsClosedBy (written.body ++ [quote]) :=
  closing_string hq (isStringBody_body hq h) []

/-- A literal in quotes is read as the string of what is read of its characters. -/
theorem readArgument_quoted {written : Written}
    (h : ∀ p ∈ written, p.2.IsOf (isPlainIn quote) p.1) :
    readArgument (quoted quote written) = some (.string written.read) := by
  have hplain : isPlainIn quote '\\' = false := by rcases hq with rfl | rfl <;> rfl
  rw [quoted, readArgument_of_isClosedBy (literal?_quote hq) (isClosedBy_body hq h),
    Written.decode_body hplain h]

/-- A literal is the only argument of a list that is nothing else. -/
theorem readArguments_literal {a : Argument} {body : Text}
    (hbody : (State.inside (.quoted quote)).IsClosedBy (body ++ [quote]))
    (h : readArgument (quote :: (body ++ [quote])) = some a) :
    readArguments (quote :: (body ++ [quote])) = some [a] := by
  have hbalanced : Balanced [','] (quote :: (body ++ [quote])) :=
    (balanced_literal (literal?_quote hq) (by rcases hq with rfl | rfl <;> decide) hbody).mono
      (by simp)
  have hblank : Text.isBlank quote = false := by rcases hq with rfl | rfl <;> decide
  have htrim := (Text.isTrimmed_between hblank hblank body).trim
  rw [readArguments_eq_mapM, argumentTexts?, hbalanced.withoutComments_eq, splitTop_last hbalanced]
  simp [htrim, h]

/-- **The spelling of a string does not matter, but for surrogates.** A literal in quotes is
read as one string, of the characters that are written in it without those that are written by
their surrogates; so it is read as what is written exactly if none is. -/
theorem readArguments_quoted {written : Written}
    (h : ∀ p ∈ written, p.2.IsOf (isPlainIn quote) p.1) :
    readArguments (quoted quote written) = some [.string written.read] ∧
      (readArguments (quoted quote written) = some [.string written.string] ↔
        ∀ p ∈ written, p.2.isSurrogates = false) := by
  have hread : readArguments (quoted quote written) = some [.string written.read] :=
    readArguments_literal hq (isClosedBy_body hq h) (readArgument_quoted hq h)
  refine ⟨hread, ?_⟩
  rw [hread, ← Written.read_eq_string_iff]
  simp

end

/-- A digit in lower case. -/
def lower (value : Fin 16) : HexDigit := ⟨value, false⟩

/-- A digit in upper case. -/
def upper (value : Fin 16) : HexDigit := ⟨value, true⟩

/-- A string with a character in each of the spellings that are read. -/
def mixed : Written := [
  ('"', .raw), ('\'', .letter '\''), ('\n', .letter 'n'), ('A', .byte [upper 4, upper 1]),
  ('é', .unit [lower 0, lower 0, lower 14, upper 9]),
  ('😀', .braced [lower 1, upper 15, lower 6, lower 0, lower 0])]

theorem readArguments_mixed :
    quoted '\'' mixed = "'\"\\'\\n\\x41\\u00e9\\u\x7b1F600\x7d'".toList ∧
      (∀ p ∈ mixed, p.2.IsOf (isPlainIn '\'') p.1) ∧
      readArguments (quoted '\'' mixed) = some [.string "\"'\nAé😀".toList] :=
  ⟨by decide, by decide, (readArguments_quoted (.inl rfl) (by decide)).1⟩

/-- A character above U+FFFF by its two surrogates. -/
def surrogatePair : Written :=
  [('😀', .surrogates [upper 13, upper 8, upper 3, upper 13] [upper 13, upper 14, upper 0, upper 0])]

/-- A pair of surrogates spells one character, and none is read. -/
theorem readArguments_surrogatePair :
    quoted '\'' surrogatePair = "'\\uD83D\\uDE00'".toList ∧
      (∀ p ∈ surrogatePair, p.2.IsOf (isPlainIn '\'') p.1) ∧ surrogatePair.string = "😀".toList ∧
      readArguments (quoted '\'' surrogatePair) = some [.string []] ∧
      readArguments (quoted '\'' surrogatePair) ≠ some [.string surrogatePair.string] := by
  have hspelled : ∀ p ∈ surrogatePair, p.2.IsOf (isPlainIn '\'') p.1 := by decide
  have hread : readArguments (quoted '\'' surrogatePair) = some [.string []] :=
    readArguments_literal (.inl rfl) (isClosedBy_body (.inl rfl) hspelled)
      (readArgument_quoted (.inl rfl) hspelled)
  refine ⟨by decide, hspelled, rfl, hread, ?_⟩
  rw [hread]
  simp [surrogatePair, Written.string]

end Localization
