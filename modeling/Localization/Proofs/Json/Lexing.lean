import Mathlib
import Localization.Json.Reader
import Localization.Json.Writer

/-! The tokens of written JSON.

`Value.tokens` is what the writer spells. Reading the tokens of a written value gives them
back (`lex_prettyBefore`), whatever blanks stand between them; a number or a name must only
be followed by something that does not go on with it. -/
namespace Localization.Json

/-! ### Words -/

/-- Whether a text does not go on with a word. -/
def isOutsideWord : Text → Bool
  | [] => true
  | c :: _ => !isBare c

theorem lex_word_append {w : Text} (hw : w.all isBare = true) (read rest : Text) :
    lex (.word read) (w ++ rest) = lex (.word (w.reverse ++ read)) rest := by
  induction w generalizing read with
  | nil => rfl
  | cons c w ih =>
    rw [List.all_cons, Bool.and_eq_true] at hw
    rw [List.cons_append, lex, if_pos hw.1, ih hw.2]
    simp

theorem enter_of_isBare {c : Char} (h : isBare c = true) : enter c = some ([], .word [c]) := by
  have hne : ∀ d, isBare d = false → (c == d) = false := by
    intro d hd
    rw [beq_eq_false_iff_ne]
    rintro rfl
    rw [h] at hd
    cases hd
  simp [enter, isSpace, hne ' ' rfl, hne '\t' rfl, hne '\n' rfl, hne '\r' rfl, hne '"' rfl,
    hne '{' rfl, hne '}' rfl, hne '[' rfl, hne ']' rfl, hne ',' rfl, hne ':' rfl, h]

theorem lex_word_end {read rest : Text} {token : Token} (ht : bare? read.reverse = some token)
    (hrest : isOutsideWord rest = true) :
    lex (.word read) rest = (lex .between rest).map (token :: ·) := by
  cases rest with
  | nil => simp only [lex, ht, Option.map_some]
  | cons d rest =>
    have hd : isBare d = false := by simpa [isOutsideWord] using hrest
    simp only [lex, hd, ht, Bool.false_eq_true, if_false]
    cases enter d with
    | none => rfl
    | some next =>
      simp only [Option.map_map]
      rfl

/-- A word is one token where nothing goes on with it. -/
theorem lex_word {w rest : Text} {token : Token} (hw : w.all isBare = true) (hne : w ≠ [])
    (ht : bare? w = some token) (hrest : isOutsideWord rest = true) :
    lex .between (w ++ rest) = (lex .between rest).map (token :: ·) := by
  obtain ⟨c, w, rfl⟩ := List.exists_cons_of_ne_nil hne
  have hall := hw
  rw [List.all_cons, Bool.and_eq_true] at hw
  have hstart : lex .between (c :: (w ++ rest)) = lex (.word (w.reverse ++ [c])) rest := by
    rw [lex, enter_of_isBare hw.1]
    simp [lex_word_append hw.2]
  have hread : (w.reverse ++ [c]).reverse = c :: w := by simp
  rw [List.cons_append, hstart]
  exact lex_word_end (hread.symm ▸ ht) hrest

/-! ### Blanks and punctuation -/

theorem lex_newLine (depth : Nat) (rest : Text) :
    lex .between (newLine depth rest) = lex .between rest := by
  rw [newLine, lex_space rfl]
  induction 2 * depth with
  | zero => rfl
  | succ n ih => rw [List.replicate_succ, List.cons_append, lex_space rfl, ih]

/-- A character that is a token by itself. -/
theorem lex_mark {c : Char} (token : Token) (hc : enter c = some ([token], .between))
    (rest : Text) :
    lex .between (c :: rest) = (lex .between rest).map (token :: ·) := by
  rw [lex, hc]
  rfl

/-! ### Strings -/

/-- How the writer spells a character: control characters without a short escape as units. -/
def glyph (c : Char) : Glyph :=
  if c.toNat < 0x20 && !(['\x08', '\x0c', '\n', '\r', '\t'].contains c) then .unit c.toNat
    else .char c

def glyphs (t : Text) : List Glyph := t.map glyph

theorem lex_string_char {c : Char} (h1 : c ≠ '"') (h2 : c ≠ '\\') (h3 : ¬ c.toNat < 0x20)
    (read : List Glyph) (rest : Text) :
    lex (.string read) (c :: rest) = lex (.string (.char c :: read)) rest := by
  rw [lex, if_neg (by simpa using h1), if_neg (by simpa using h2), if_neg h3]

theorem lex_backslash (read : List Glyph) (rest : Text) :
    lex (.string read) ('\\' :: rest) = lex (.escape read) rest := by
  rw [lex, if_neg (by decide), if_pos (by decide)]

theorem lex_string_escape {c e : Char} (hu : c ≠ 'u') (he : escaped? c = some e) (read : List Glyph)
    (rest : Text) :
    lex (.string read) ('\\' :: c :: rest) = lex (.string (.char e :: read)) rest := by
  rw [lex_backslash, lex, if_neg (by simpa using hu), he]

/-- The two digits of a control character. -/
theorem hexByte_of_lt {n : Nat} (h : n < 0x20) :
    ∃ a b x y, hexByte n = [a, b] ∧ Text.hexDigit? a = some x ∧ Text.hexDigit? b = some y ∧
      16 * x + y = n := by
  have hall : ∀ n < 0x20, ((Text.hexDigit? (Nat.digitChar (n / 16))).bind fun x =>
      (Text.hexDigit? (Nat.digitChar (n % 16))).map fun y => 16 * x + y) = some n := by decide
  obtain ⟨x, hx, hy⟩ := Option.bind_eq_some_iff.mp (hall n h)
  obtain ⟨y, hy, hn⟩ := Option.map_eq_some_iff.mp hy
  exact ⟨_, _, x, y, rfl, hx, hy, hn⟩

theorem lex_string_unit {c : Char} (h : c.toNat < 0x20) (read : List Glyph) (rest : Text) :
    lex (.string read) ("\\u00" ++ hexByte c.toNat ++ rest) =
      lex (.string (.unit c.toNat :: read)) rest := by
  obtain ⟨a, b, x, y, hbyte, ha, hb, hn⟩ := hexByte_of_lt h
  have hzero : Text.hexDigit? '0' = some 0 := rfl
  rw [hbyte]
  show lex (.string read) ('\\' :: 'u' :: '0' :: '0' :: a :: b :: rest) = _
  rw [lex_backslash, lex, if_pos (by decide)]
  simp only [lex, hzero, ha, hb]
  rw [show 16 * (16 * (16 * (16 * 0 + 0) + 0) + x) + y = c.toNat by omega]

/-- An escaped character is read as the writer spells it. -/
theorem lex_escapeChar (c : Char) (read : List Glyph) (rest : Text) :
    lex (.string read) (escapeChar c ++ rest) = lex (.string (glyph c :: read)) rest := by
  by_cases h1 : c = '"'
  · subst h1
    exact lex_string_escape (by decide) rfl read rest
  by_cases h2 : c = '\\'
  · subst h2
    exact lex_string_escape (by decide) rfl read rest
  by_cases h3 : c = '\x08'
  · subst h3
    exact lex_string_escape (by decide) rfl read rest
  by_cases h4 : c = '\x0c'
  · subst h4
    exact lex_string_escape (by decide) rfl read rest
  by_cases h5 : c = '\n'
  · subst h5
    exact lex_string_escape (by decide) rfl read rest
  by_cases h6 : c = '\r'
  · subst h6
    exact lex_string_escape (by decide) rfl read rest
  by_cases h7 : c = '\t'
  · subst h7
    exact lex_string_escape (by decide) rfl read rest
  by_cases hc : c.toNat < 0x20
  · have he : escapeChar c = "\\u00" ++ hexByte c.toNat := by
      simp [escapeChar, h1, h2, h3, h4, h5, h6, h7, hc]
    have hg : glyph c = .unit c.toNat := by simp [glyph, h3, h4, h5, h6, h7, hc]
    rw [he, hg]
    exact lex_string_unit hc read rest
  · have he : escapeChar c = [c] := by simp [escapeChar, h1, h2, h3, h4, h5, h6, h7, hc]
    have hg : glyph c = .char c := by simp [glyph, hc]
    rw [he, hg]
    exact lex_string_char h1 h2 hc read rest

theorem lex_escaped (t : Text) (read : List Glyph) (rest : Text) :
    lex (.string read) (t.flatMap escapeChar ++ rest) =
      lex (.string ((glyphs t).reverse ++ read)) rest := by
  induction t generalizing read with
  | nil => rfl
  | cons c t ih =>
    rw [List.flatMap_cons, List.append_assoc, lex_escapeChar, ih]
    simp [glyphs]

/-- A string literal is one token. -/
theorem lex_quote (t rest : Text) :
    lex .between (quote t ++ rest) = (lex .between rest).map (.string (glyphs t) :: ·) := by
  have htext : quote t ++ rest = '"' :: (t.flatMap escapeChar ++ '"' :: rest) := by simp [quote]
  have henter : enter '"' = some ([], .string []) := rfl
  rw [htext, lex, henter]
  simp only [List.nil_append, Option.map_id']
  rw [lex_escaped, lex, if_pos (by decide), List.append_nil, List.reverse_reverse]

end Localization.Json
