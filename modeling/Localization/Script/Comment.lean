import Localization.Script.Region

/-! Comments.

`withoutComments` turns every comment that stands outside of literals into one space, so
that what stood on its two sides does not grow together, and leaves literals as they
are. -/
namespace Localization.Script

/-- The text behind the `*/` that ends a block comment, or none of the text. -/
def afterBlockComment : Text → Text
  | '*' :: '/' :: rest => rest
  | _ :: rest => afterBlockComment rest
  | [] => []

/-- What follows the comment at the head of a text, if there is one. The line end behind
a line comment is not part of it. -/
def commentPrefix? : Text → Option Text
  | '/' :: '/' :: rest => some (rest.dropWhile (· != '\n'))
  | '/' :: '*' :: rest => some (afterBlockComment rest)
  | _ => none

theorem length_afterBlockComment_le (t : Text) : (afterBlockComment t).length ≤ t.length := by
  fun_induction afterBlockComment t with
  | case1 rest => simp; omega
  | case2 c rest _ ih => simp; omega
  | case3 => simp

theorem length_commentPrefix?_lt {t after : Text} (h : commentPrefix? t = some after) :
    after.length + 2 ≤ t.length := by
  fun_cases commentPrefix? t with
  | case1 rest =>
    simp only [commentPrefix?, Option.some.injEq] at h
    subst h
    have := (List.dropWhile_sublist (l := rest) (· != '\n')).length_le
    simp; omega
  | case2 rest =>
    simp only [commentPrefix?, Option.some.injEq] at h
    subst h
    have := length_afterBlockComment_le rest
    simp; omega
  | case3 _ h1 h2 => simp_all [commentPrefix?]

/-- The text with every comment outside of literals turned into one space; `kept`
characters of a literal are still to be copied, `dropped` ones of a comment passed
over. From a literal that does not end on, the text is copied as it is. -/
def stripFrom : (kept dropped : Nat) → Text → Text
  | _, _, [] => []
  | kept + 1, _, c :: rest => c :: stripFrom kept 0 rest
  | 0, dropped + 1, _ :: rest => stripFrom 0 dropped rest
  | 0, 0, c :: rest =>
    match literal? c with
    | some r =>
      match closing (.inside r) rest with
      | some (read, _) => c :: stripFrom read.length 0 rest
      | none => c :: rest
    | none =>
      match commentPrefix? (c :: rest) with
      | some after => ' ' :: stripFrom 0 (rest.length - after.length) rest
      | none => c :: stripFrom 0 0 rest

/-- The text without comments. -/
def withoutComments (t : Text) : Text := stripFrom 0 0 t

theorem length_stripFrom_le (kept dropped : Nat) (t : Text) :
    (stripFrom kept dropped t).length ≤ t.length := by
  fun_induction stripFrom kept dropped t <;> (simp_all; try omega)

end Localization.Script
