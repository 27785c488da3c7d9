import Mathlib
import Localization.Proofs.Script.Embedded
import Localization.Proofs.Script.Occurrences

/-! Elements in script text.

An account of script text with elements, beside that of the tokens: `Code` mixes tokens with
templates, blocks and elements, and the attributes and the children of an element hold code
again, to any depth. `isSource` says when such a tree is the reading of its own text. An
element stands where an operand may, its tags are names, and the text between its children
has no brace and no angle bracket.

`Code.places` are the places of a name in code: tags, names of attributes, their strings and
text have none. `Code.elements` are the elements in code with the tokens before them and the
text behind them, which is what decides whether a `<` is taken for the start of an element;
`isHidden` says where it is not. -/
namespace Localization.Script

/-! ### Trees of code -/

mutual

/-- Code, piece by piece. -/
inductive Code where
  | nil
  /-- A token that encloses nothing. -/
  | token (t : Token) (rest : Code)
  /-- A template literal: the text up to the first substitution, and what follows that text. -/
  | template (head : Text) (parts : Parts) (rest : Code)
  /-- What two braces enclose. -/
  | block (inner rest : Code)
  | element (e : Element) (rest : Code)

/-- The substitutions of a template, each with the text behind it. -/
inductive Parts where
  | nil
  | cons (inner : Code) (behind : Text) (rest : Parts)

inductive Element where
  /-- `<tag attributes/>` -/
  | closed (tag : Text) (attributes : Attributes) (gap : Text)
  /-- `<tag attributes>children</tag>` -/
  | paired (tag : Text) (attributes : Attributes) (gap : Text) (children : Children) (gap' : Text)
  /-- `<>children</>` -/
  | fragment (children : Children)

/-- The attributes of a tag, each behind some blanks. Blanks may also stand around its `=`. -/
inductive Attributes where
  | nil
  | flag (gap key : Text) (rest : Attributes)
  | string (gap key left right : Text) (quote : Char) (body : Text) (rest : Attributes)
  | code (gap key left right : Text) (inner : Code) (rest : Attributes)

/-- The children of an element. -/
inductive Children where
  | nil
  | plain (t : Text) (rest : Children)
  | code (inner : Code) (rest : Children)
  | element (e : Element) (rest : Children)

end

/-! ### The text of code -/

/-- The text of an attribute in front of its value. -/
def attributeHead (gap key left right : Text) : Text := gap ++ (key ++ (left ++ '=' :: right))

/-- The text of the tag that ends an element. -/
def endTag (tag gap : Text) : Text := '<' :: '/' :: (tag ++ (gap ++ ['>']))

mutual

def Code.text : Code → Text
  | .nil => []
  | .token t rest => t.text ++ rest.text
  | .template head parts rest => '`' :: (head ++ (parts.text ++ rest.text))
  | .block inner rest => '{' :: (inner.text ++ '}' :: rest.text)
  | .element e rest => '<' :: (e.tail ++ rest.text)

/-- The text of a template from its first substitution on, with the backtick. -/
def Parts.text : Parts → Text
  | .nil => ['`']
  | .cons inner behind rest => '$' :: '{' :: (inner.text ++ '}' :: (behind ++ rest.text))

/-- The text of an element behind its first `<`. -/
def Element.tail : Element → Text
  | .closed tag attributes gap => tag ++ (attributes.text ++ (gap ++ ['/', '>']))
  | .paired tag attributes gap children gap' =>
    tag ++ (attributes.text ++ (gap ++ '>' :: (children.text ++ endTag tag gap')))
  | .fragment children => '>' :: (children.text ++ endTag [] [])

def Attributes.text : Attributes → Text
  | .nil => []
  | .flag gap key rest => gap ++ (key ++ rest.text)
  | .string gap key left right quote body rest =>
    attributeHead gap key left right ++ quote :: (body ++ quote :: rest.text)
  | .code gap key left right inner rest =>
    attributeHead gap key left right ++ '{' :: (inner.text ++ '}' :: rest.text)

def Children.text : Children → Text
  | .nil => []
  | .plain t rest => t ++ rest.text
  | .code inner rest => '{' :: (inner.text ++ '}' :: rest.text)
  | .element e rest => '<' :: (e.tail ++ rest.text)

end

/-! ### The shape of code -/

/-- Whether the nearest token is the mark `c`. -/
def followsMark (c : Char) : List Token → Bool
  | .mark d :: _ => d == c
  | _ => false

/-- Whether an element may stand behind these tokens, from the nearest on: behind `(`, `=`, `?`,
`:`, `,`, `[`, `;`, `=>`, `&&`, `||` or `return`, or behind nothing where code starts. -/
def mayHoldElement (fresh : Bool) (left : List Token) : Bool :=
  match left.dropWhile isBlankToken with
  | [] => fresh
  | .mark c :: rest =>
    ['(', '=', '?', ':', ',', '[', ';'].contains c || (c == '>' && followsMark '=' rest) ||
      ((c == '&' || c == '|') && followsMark c rest)
  | .word w :: _ => w == "return".toList
  | _ => false

def isTagChar (c : Char) : Bool := isNameChar c || c == '.' || c == '-' || c == ':'

/-- Whether a text is the name of a tag or an attribute: a name, perhaps with further points,
hyphens and colons. -/
def isTagName : Text → Bool
  | [] => false
  | c :: rest => isNameStart c && rest.all isTagChar

def isGap (t : Text) : Bool := t.all isScriptBlank

/-- Whether blanks and a name may follow a tag or an attribute. -/
def mayNameAttribute (gap key : Text) : Bool := isGap gap && !gap.isEmpty && isTagName key

/-- Whether a text is the body of an attribute in `quote`s. -/
def isAttributeText (quote : Char) (body : Text) : Bool :=
  body.all fun c => c != quote && c != '\\' && c != '\n'

/-- Whether a text is text between the children of an element. -/
def isMarkupText (t : Text) : Bool := t.all fun c => !(['{', '}', '<', '>'].contains c)

mutual

/-- Whether code behind the tokens in `left`, nearest first, is the reading of its text; `fresh`
says that in front of these tokens nothing stands but perhaps an opening brace. -/
def Code.isSource (fresh : Bool) (left : List Token) : Code → Bool
  | .nil => true
  | .token t rest =>
    t.isLeaf && t.isShaped && t.mayStandBehind left && rest.isSource fresh (t :: left)
  | .template head parts rest => isTemplateText head && parts.isSource && rest.isSource false []
  | .block inner rest => inner.isSource true [] && rest.isSource false []
  | .element e rest => mayHoldElement fresh left && e.isSource && rest.isSource false []

def Parts.isSource : Parts → Bool
  | .nil => true
  | .cons inner behind rest => inner.isSource true [] && isTemplateText behind && rest.isSource

def Element.isSource : Element → Bool
  | .closed tag attributes gap => isTagName tag && attributes.isSource && isGap gap
  | .paired tag attributes gap children gap' =>
    isTagName tag && attributes.isSource && isGap gap && children.isSource && isGap gap'
  | .fragment children => children.isSource

def Attributes.isSource : Attributes → Bool
  | .nil => true
  | .flag gap key rest => mayNameAttribute gap key && rest.isSource
  | .string gap key left right quote body rest =>
    mayNameAttribute gap key && isGap left && isGap right && (quote == '\'' || quote == '"') &&
      isAttributeText quote body && rest.isSource
  | .code gap key left right inner rest =>
    mayNameAttribute gap key && isGap left && isGap right && inner.isSource true [] && rest.isSource

def Children.isSource : Children → Bool
  | .nil => true
  | .plain t rest => isMarkupText t && rest.isSource
  | .code inner rest => inner.isSource true [] && rest.isSource
  | .element e rest => e.isSource && rest.isSource

end

/-! ### The name in code -/

mutual

/-- The places where the word `name` stands in code that starts at `offset` behind `left`: the
bytes before each, and the tokens between it and the last bracket, template or element before
it, from the nearest on. -/
def Code.places (name : Text) (offset : Nat) (left : List Token) : Code → List (Nat × List Token)
  | .nil => []
  | .token t rest =>
    t.places name offset left ++ rest.places name (offset + Text.size t.text) (t :: left)
  | .template head parts rest =>
    parts.places name (offset + Text.size ('`' :: head)) ++
      rest.places name (offset + Text.size ('`' :: (head ++ parts.text))) []
  | .block inner rest =>
    inner.places name (offset + 1) [] ++
      rest.places name (offset + Text.size ('{' :: (inner.text ++ ['}']))) []
  | .element e rest =>
    e.places name (offset + 1) ++ rest.places name (offset + Text.size ('<' :: e.tail)) []

def Parts.places (name : Text) (offset : Nat) : Parts → List (Nat × List Token)
  | .nil => []
  | .cons inner behind rest =>
    inner.places name (offset + 2) [] ++
      rest.places name (offset + Text.size ('$' :: '{' :: (inner.text ++ '}' :: behind)))

/-- The places in an element whose first `<` ends at `offset`. -/
def Element.places (name : Text) (offset : Nat) : Element → List (Nat × List Token)
  | .closed tag attributes _ => attributes.places name (offset + Text.size tag)
  | .paired tag attributes gap children _ =>
    attributes.places name (offset + Text.size tag) ++
      children.places name (offset + Text.size (tag ++ (attributes.text ++ (gap ++ ['>']))))
  | .fragment children => children.places name (offset + 1)

def Attributes.places (name : Text) (offset : Nat) : Attributes → List (Nat × List Token)
  | .nil => []
  | .flag gap key rest => rest.places name (offset + Text.size (gap ++ key))
  | .string gap key left right quote body rest =>
    rest.places name (offset + Text.size (attributeHead gap key left right ++ quote ::
      (body ++ [quote])))
  | .code gap key left right inner rest =>
    inner.places name (offset + Text.size (attributeHead gap key left right) + 1) [] ++
      rest.places name (offset + Text.size (attributeHead gap key left right ++ '{' ::
        (inner.text ++ ['}'])))

def Children.places (name : Text) (offset : Nat) : Children → List (Nat × List Token)
  | .nil => []
  | .plain t rest => rest.places name (offset + Text.size t)
  | .code inner rest =>
    inner.places name (offset + 1) [] ++
      rest.places name (offset + Text.size ('{' :: (inner.text ++ ['}'])))
  | .element e rest =>
    e.places name (offset + 1) ++ rest.places name (offset + Text.size ('<' :: e.tail))

end

/-- The bytes before each place where code calls a name. -/
def Code.callOffsets (name : Text) (code : Code) : List Nat :=
  ((code.places name 0 []).filter fun place => mayCall place.2).map (·.1)

/-! ### The elements in code -/

/-- An element in code, with the tokens before it, from the nearest on, and the text behind it. -/
structure ElementSite where
  left : List Token
  element : Element
  after : Text

mutual

/-- The elements that stand in code behind the tokens in `left` and in front of the text
`after`, those in code within them included. A child of an element is none of them. -/
def Code.elements (left : List Token) (after : Text) : Code → List ElementSite
  | .nil => []
  | .token t rest => rest.elements (t :: left) after
  | .template _ parts rest => parts.elements (rest.text ++ after) ++ rest.elements [] after
  | .block inner rest => inner.elements [] ('}' :: (rest.text ++ after)) ++ rest.elements [] after
  | .element e rest =>
    ⟨left, e, rest.text ++ after⟩ :: (e.elements (rest.text ++ after) ++ rest.elements [] after)

def Parts.elements (after : Text) : Parts → List ElementSite
  | .nil => []
  | .cons inner behind rest =>
    inner.elements [] ('}' :: (behind ++ (rest.text ++ after))) ++ rest.elements after

def Element.elements (after : Text) : Element → List ElementSite
  | .closed _ attributes gap => attributes.elements (gap ++ '/' :: '>' :: after)
  | .paired tag attributes gap children gap' =>
    attributes.elements (gap ++ '>' :: (children.text ++ (endTag tag gap' ++ after))) ++
      children.elements (endTag tag gap' ++ after)
  | .fragment children => children.elements (endTag [] [] ++ after)

def Attributes.elements (after : Text) : Attributes → List ElementSite
  | .nil => []
  | .flag _ _ rest => rest.elements after
  | .string _ _ _ _ _ _ rest => rest.elements after
  | .code _ _ _ _ inner rest =>
    inner.elements [] ('}' :: (rest.text ++ after)) ++ rest.elements after

def Children.elements (after : Text) : Children → List ElementSite
  | .nil => []
  | .plain _ rest => rest.elements after
  | .code inner rest => inner.elements [] ('}' :: (rest.text ++ after)) ++ rest.elements after
  | .element e rest => e.elements (rest.text ++ after) ++ rest.elements after

end

/-! ### Elements that are overlooked -/

/-- Whether the operator or the keyword behind which an element stands is overlooked: `return`
is where it touches the element, and either is behind blanks that are not all ASCII blanks. -/
def isOverlooked (left : List Token) : Bool :=
  match left.dropWhile isAsciiBlankToken with
  | .word _ :: _ => Token.endsInWord left
  | .blank _ :: _ => true
  | _ => false

/-- Whether what stands behind a name goes on like the bound of a type parameter. -/
def startsBound (t : Text) : Bool := "extends ".toList.isPrefixOf (skipBlanks t)

/-- Whether a text starts with a group in parentheses and an arrow or a colon behind it, as the
parameters of a function do. -/
def startsParameters : Text → Bool
  | '(' :: more => !startsNoParameters ('(' :: more)
  | _ => false

/-- Whether an element in front of a text is taken for the type parameter of a function: its
first attribute is `extends`, or it has no attributes and its children start like parameters. -/
def Element.looksGeneric (after : Text) : Element → Bool
  | .closed tag attributes gap => isName tag && startsBound (attributes.text ++ gap)
  | .paired tag attributes gap children gap' =>
    isName tag && (startsBound (attributes.text ++ gap) ||
      ((skipBlanks (attributes.text ++ gap)).isEmpty &&
        startsParameters (children.text ++ (endTag tag gap' ++ after))))
  | .fragment _ => false

/-- Whether an element is not taken for one. -/
def ElementSite.isHidden (site : ElementSite) : Bool :=
  isOverlooked site.left || site.element.looksGeneric site.after

end Localization.Script
