import Localization.Text.Basic

/-! The text of string literals.

`encode` writes a text as the body of a template literal; `decode` reads the body of any
literal. Every text is read back as it was written, `decode_encode`. -/
namespace Localization.Script

/-- Puts a backslash before every backslash and backtick and before the `$` of a `${`. -/
def encode : Text → Text
  | [] => []
  | '$' :: '{' :: rest => '\\' :: '$' :: '{' :: encode rest
  | c :: rest =>
    if c == '\\' || c == '`' then '\\' :: c :: encode rest else c :: encode rest

/-- The character of a code point written in hexadecimal, if it is one. A sign may stand
before the digits. -/
def codePoint (digits : Text) : Text :=
  let unsigned :=
    match digits with
    | '+' :: rest => rest
    | digits => digits
  match Text.hex? unsigned with
  | some n => if n.isValidChar then [Char.ofNat n] else []
  | none => []

/-- The character that an escape of one character stands for; none for those that take
further characters. A backslash before a line end joins the lines. -/
def escapedChar (c : Char) : Text :=
  if c == 'n' then ['\n']
  else if c == 't' then ['\t']
  else if c == 'r' then ['\r']
  else if c == 'b' then ['\x08']
  else if c == 'f' then ['\x0c']
  else if c == 'v' then ['\x0b']
  else if c == '0' then ['\x00']
  else if c == '\n' then []
  else [c]

/-- The text that the body of a literal denotes. -/
def decode : Text → Text
  | [] => []
  | ['\\'] => ['\\']
  | '\\' :: 'x' :: rest => codePoint (rest.take 2) ++ decode (rest.drop 2)
  | '\\' :: 'u' :: '{' :: rest =>
    codePoint (rest.takeWhile (· != '}')) ++ decode ((rest.dropWhile (· != '}')).drop 1)
  | '\\' :: 'u' :: rest => codePoint (rest.take 4) ++ decode (rest.drop 4)
  | '\\' :: c :: rest => escapedChar c ++ decode rest
  | c :: rest => c :: decode rest
termination_by t => t.length
decreasing_by
  all_goals simp
  all_goals try omega
  have := (List.dropWhile_sublist (l := rest) (· != '}')).length_le
  omega

/-- Whether a `}` follows on the same line. -/
def closesOnLine : Text → Bool
  | [] => false
  | c :: rest => c == '}' || (c != '\n' && closesOnLine rest)

/-- Whether a text holds `${` and, later on the same line, `}`. -/
def hasSubstitution : Text → Bool
  | [] => false
  | '$' :: '{' :: rest => closesOnLine rest || hasSubstitution rest
  | _ :: rest => hasSubstitution rest

/-! ### Escaping is undone by reading -/

theorem decode_cons_of_ne {c : Char} (h : c ≠ '\\') (rest : Text) :
    decode (c :: rest) = c :: decode rest := by
  rw [decode.eq_def]
  split <;> simp_all

theorem decode_backslash {c : Char} (hx : c ≠ 'x') (hu : c ≠ 'u') (rest : Text) :
    decode ('\\' :: c :: rest) = escapedChar c ++ decode rest := by
  rw [decode.eq_def]
  split <;> grind

/-- The body written for a text denotes that text. -/
theorem decode_encode (t : Text) : decode (encode t) = t := by
  fun_induction encode t with
  | case1 => rw [decode]
  | case2 rest ih =>
    rw [decode_backslash (by decide) (by decide), decode_cons_of_ne (by decide), ih]
    rfl
  | case3 c rest _ h ih =>
    simp only [Bool.or_eq_true, beq_iff_eq] at h
    rcases h with rfl | rfl <;>
      rw [decode_backslash (by decide) (by decide), ih] <;> rfl
  | case4 c rest _ h ih =>
    simp only [Bool.or_eq_true, beq_iff_eq, not_or] at h
    rw [decode_cons_of_ne h.1, ih]

end Localization.Script
