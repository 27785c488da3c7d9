import Mathlib
import Localization.Script.Comment
import Localization.Script.Name

/-! Tokens of script text.

A second, independent account of script text: a tree of tokens and the text that it
spells. Braces and the substitutions of templates enclose tokens, so braces balance by
construction. `isSource` says when a list of tokens is the tokenisation of its own text:
no two words touch, a quote touches only a keyword that a string may follow, a slash is
no start of a comment, three points in a row are a spread, and a line feed ends each
line comment. Regular expressions and elements have no token, and neither has `<`. -/
namespace Localization.Script

/-- A token. -/
inductive Token where
  /-- A name or a keyword. -/
  | word (name : Text)
  /-- A number: its digits before the point, those behind it, and a signed exponent. -/
  | number (whole : Text) (fraction : Option Text) (exponent : Option (Char × Text))
  | string (quote : Char) (body : Text)
  /-- A template literal: the text up to the first substitution, and each substitution with
  the text behind it. -/
  | template (head : Text) (parts : List (List Token × Text))
  | lineComment (body : Text)
  | blockComment (body : Text)
  | blank (c : Char)
  /-- One character of punctuation. -/
  | mark (c : Char)
  /-- The `...` of a spread. -/
  | spread
  /-- What two braces enclose. -/
  | block (inner : List Token)
  deriving Repr

/-! ### The text of tokens -/

/-- The sign and the digits of a signed exponent. -/
def exponentText : Option (Char × Text) → Text
  | some (sign, digits) => sign :: digits
  | none => []

/-- The text of a number. -/
def numeral (whole : Text) (fraction : Option Text) (exponent : Option (Char × Text)) : Text :=
  match fraction with
  | some digits => whole ++ '.' :: (digits ++ exponentText exponent)
  | none => whole ++ exponentText exponent

mutual

/-- The text that a token spells. -/
def Token.text : Token → Text
  | .word name => name
  | .number whole fraction exponent => numeral whole fraction exponent
  | .string quote body => quote :: (body ++ [quote])
  | .template head parts => '`' :: (head ++ partsText parts)
  | .lineComment body => '/' :: '/' :: body
  | .blockComment body => '/' :: '*' :: (body ++ ['*', '/'])
  | .blank c => [c]
  | .mark c => [c]
  | .spread => ['.', '.', '.']
  | .block inner => '{' :: (tokensText inner ++ ['}'])

/-- The text of tokens in order. -/
def tokensText : List Token → Text
  | [] => []
  | t :: rest => t.text ++ tokensText rest

/-- The text of a template from its first substitution on, with the backtick. -/
def partsText : List (List Token × Text) → Text
  | [] => ['`']
  | (code, behind) :: rest => '$' :: '{' :: (tokensText code ++ '}' :: (behind ++ partsText rest))

end

/-! ### Shapes of single tokens -/

/-- Whether a text is a name of ASCII characters. -/
def isName : Text → Bool
  | [] => false
  | c :: rest => isNameStart c && rest.all isNameChar

/-- What may stand behind the point of a number. -/
def isFractionChar (c : Char) : Bool := c.isDigit || c == '_' || c == 'e' || c == 'E'

/-- Whether a text starts with a digit. -/
def startsWithDigit : Text → Bool
  | [] => false
  | c :: _ => c.isDigit

/-- Whether a text ends like the part of a number that a signed exponent follows. -/
def endsInExponent (t : Text) : Bool := t.getLast? == some 'e' || t.getLast? == some 'E'

def isNumeral (whole : Text) (fraction : Option Text) (exponent : Option (Char × Text)) : Bool :=
  (match fraction with
    | some digits =>
      digits.all isFractionChar && (startsWithDigit whole ||
        (whole.isEmpty && startsWithDigit digits))
    | none => startsWithDigit whole) &&
  whole.all isNameChar &&
  match exponent with
  | some (sign, digits) =>
    (sign == '+' || sign == '-') && !digits.isEmpty && digits.all Char.isDigit &&
      endsInExponent (fraction.getD whole)
  | none => true

/-- Whether a text is the body of a string in `quote`s: no quote, backslash or line end stands
alone, and a backslash escapes one character. -/
def isStringBody (quote : Char) : Text → Bool
  | [] => true
  | ['\\'] => false
  | '\\' :: _ :: rest => isStringBody quote rest
  | c :: rest => c != quote && c != '\n' && c != '\r' && isStringBody quote rest

/-- Whether a text is the text of a template between its substitutions. -/
def isTemplateText : Text → Bool
  | [] => true
  | ['\\'] => false
  | '\\' :: _ :: rest => isTemplateText rest
  | '`' :: _ => false
  | '$' :: '{' :: _ => false
  | _ :: rest => isTemplateText rest

/-- The characters that end a line of script text. -/
def isLineEnd (c : Char) : Bool := c == '\n' || c == '\r' || c == '\u2028' || c == '\u2029'

/-- The blanks of script text: `White_Space` without U+0085, and U+FEFF. -/
def isScriptBlank (c : Char) : Bool := (Text.isBlank c && c != '\u0085') || c == '\ufeff'

/-- Punctuation of one character, braces, quotes and `<` apart. -/
def isMark (c : Char) : Bool := "()[];,:?=+-*%&|^!~>./@".toList.contains c

/-! ### Neighbours -/

namespace Token

/-- Whether a token is a name, a keyword or a number. -/
def isWord : Token → Bool
  | word _ => true
  | number _ _ _ => true
  | _ => false

/-- Whether a token encloses nothing and is no comment. -/
def isLeaf : Token → Bool
  | template _ _ => false
  | lineComment _ => false
  | blockComment _ => false
  | block _ => false
  | _ => true

/-- Whether the token before, if there is one, is a name, a keyword or a number. -/
def endsInWord : List Token → Bool
  | [] => false
  | t :: _ => t.isWord

/-- Whether a token may touch those before it, nearest first, without growing together with
them. -/
def mayTouch (left : List Token) (t : Token) : Bool :=
  match t with
  | word _ | number _ _ _ => !endsInWord left
  | string _ _ =>
    match left with
    | word name :: _ => keywordsBeforeString.any fun k => name == k.toList
    | number _ _ _ :: _ => false
    | _ => true
  | lineComment _ | blockComment _ =>
    match left with
    | mark c :: _ => c != '/'
    | _ => true
  | mark c =>
    match left with
    | mark '.' :: mark '.' :: _ => c != '.'
    | mark '/' :: _ => c != '/' && c != '*'
    | _ => true
  | spread =>
    match left with
    | mark c :: _ => c != '.'
    | _ => true
  | _ => true

/-- Whether a token may stand behind those before it, nearest first: behind a line comment
only a line end may. -/
def mayStandBehind (left : List Token) (t : Token) : Bool :=
  match left, t with
  | lineComment _ :: _, blank c => isLineEnd c
  | lineComment _ :: _, _ => false
  | _, _ => t.mayTouch left

/-- Whether a line feed comes before anything but blanks, or nothing does and the text ends. -/
def endLine (atEnd : Bool) : List Token → Bool
  | [] => atEnd
  | blank c :: rest => c == '\n' || endLine atEnd rest
  | _ :: _ => false

/-- Whether a token ends before these: a line comment goes on to a line feed. -/
def endsBefore (atEnd : Bool) (rest : List Token) : Token → Bool
  | lineComment _ => endLine atEnd rest
  | _ => true

end Token

mutual

/-- Whether a token has the shape of its kind. -/
def Token.isShaped : Token → Bool
  | .word name => isName name
  | .number whole fraction exponent => isNumeral whole fraction exponent
  | .string quote body => (quote == '\'' || quote == '"') && isStringBody quote body
  | .template head parts => isTemplateText head && arePartsShaped parts
  | .lineComment body => body.all fun c => !isLineEnd c
  | .blockComment body => !Text.occursIn "*/" body
  | .blank c => isScriptBlank c
  | .mark c => isMark c
  | .spread => true
  | .block inner => areSource false [] inner

/-- Whether tokens behind those in `left`, nearest first, are the tokens of their text;
`atEnd` says that the text ends with them. -/
def areSource (atEnd : Bool) (left : List Token) : List Token → Bool
  | [] => true
  | t :: rest =>
    t.isShaped && t.mayStandBehind left && t.endsBefore atEnd rest &&
      areSource atEnd (t :: left) rest

def arePartsShaped : List (List Token × Text) → Bool
  | [] => true
  | (code, behind) :: rest =>
    areSource false [] code && isTemplateText behind && arePartsShaped rest

end

/-- Whether tokens are the tokenisation of the text that they spell. -/
def isSource (ts : List Token) : Bool := areSource true [] ts

end Localization.Script
