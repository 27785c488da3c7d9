import Localization.Text.Basic

/-! Language tags.

A tag is a language and then, each optional, a script, a region and any number of
variants, separated by `-` or `_`. Every subtag is taken as the first of these kinds
that it can be and that may still come. Letter case carries no meaning, so a tag keeps
its parts in their usual case. -/
namespace Localization

/-- A language tag. -/
structure LanguageTag where
  /-- Lower case, `und` for none. -/
  language : Text
  /-- Capitalised. -/
  script : Option Text
  /-- Upper case, or three digits. -/
  region : Option Text
  /-- Lower case. -/
  variants : List Text
  deriving DecidableEq, Repr

namespace LanguageTag

/-- The subtags, none of them if the text is empty. -/
def subtags (t : Text) : List Text :=
  Text.splitFrom ['-'] 0 (t.map fun c => if c == '_' then '-' else c)

def isLanguage (s : Text) : Bool :=
  (s.length == 2 || s.length == 3 || (5 ≤ s.length && s.length ≤ 8)) && s.all Char.isAlpha

def isScript (s : Text) : Bool := s.length == 4 && s.all Char.isAlpha

def isRegion (s : Text) : Bool :=
  (s.length == 2 && s.all Char.isAlpha) || (s.length == 3 && s.all Char.isDigit)

/-- A variant of four ASCII characters, none of them a NUL, is known by its first, if that
is a digit, or else by the other three. -/
def isVariant (s : Text) : Bool :=
  s.all (fun c => 0 < c.toNat && c.toNat < 0x80) &&
    ((5 ≤ s.length && s.length ≤ 8 && s.all Char.isAlphanum) ||
      (s.length == 4 && ((s.take 1).all Char.isDigit || (s.drop 1).all Char.isAlphanum)))

def lower (s : Text) : Text := s.map Char.toLower

def upper (s : Text) : Text := s.map Char.toUpper

def capital : Text → Text
  | [] => []
  | c :: rest => c.toUpper :: lower rest

/-- Takes the subtag in front, if it is of a kind. -/
def takeIf (kind : Text → Bool) : List Text → Option Text × List Text
  | [] => (none, [])
  | s :: rest => if kind s then (some s, rest) else (none, s :: rest)

/-- The tag that a text spells. -/
def ofText? (t : Text) : Option LanguageTag :=
  match subtags t with
  | [] => none
  | language :: rest =>
    let (script, rest) := takeIf isScript rest
    let (region, rest) := takeIf isRegion rest
    if isLanguage language && rest.all isVariant then
      some ⟨lower language, script.map capital, region.map upper, rest.map lower⟩
    else none

/-- The tag with its subtags in order, separated by `-`. -/
def toText (tag : LanguageTag) : Text :=
  Text.join "-" ([tag.language] ++ tag.script.toList ++ tag.region.toList ++ tag.variants)

/-- The tag of the language alone. -/
def base (tag : LanguageTag) : LanguageTag := ⟨tag.language, none, none, []⟩

end LanguageTag

end Localization
