import Mathlib
import Localization.Proofs.Argument.Pieces

/-! The shape of an argument text.

The reader keeps of a text what the rest of the program asks for: a string is what its literal
denotes, a gap between commas is not there, a shorthand property is a key and a name. `shape`
keeps how the text is made: which quotes a literal has and what stands between them, where an
array has gaps, how each key is written. What is written for the argument that was read has the
shape `Shape.rewritten` (`exists_readArgument`): each literal is a template of an escaped text,
gaps are gone, and whatever the reader did not look into is as it was. -/
namespace Localization

open Script

/-! ### Keys -/

/-- How the key of a property is written. -/
inductive KeyForm where
  | word (name : Text)
  | quoted (quote : Char) (body : Text)
  | numeral (text : Text)
  /-- A name that is its own value. -/
  | shorthand (name : Text)
  deriving DecidableEq

namespace KeyForm

/-- The text that a key is read as. -/
def text : KeyForm → Text
  | word name => name
  | quoted _ body => decode body
  | numeral text => text
  | shorthand name => name

/-- How a text is written that is a key. -/
def ofText? : Text → Option KeyForm
  | [] => none
  | c :: rest =>
    if c == '\'' || c == '"' then if isWhole (literalPrefix? (c :: rest)) then
      some (.quoted c rest.dropLast) else none
    else if isNameStart c && rest.all isNameChar then some (.word (c :: rest))
    else if c.isDigit then some (.numeral (c :: rest))
    else none

/-- How a key is written back. -/
def written (key : Text) : KeyForm :=
  if isName key then .word key else .quoted '"' (key.flatMap Json.escapeChar)

theorem map_ofText? (raw : Text) : (ofText? raw).map text = propertyKey? raw := by
  cases raw with
  | nil => rfl
  | cons c rest =>
    simp only [ofText?, propertyKey?]
    split
    · split <;> rfl
    · cases isNameStart c && rest.all isNameChar with
      | true => rfl
      | false => cases c.isDigit <;> rfl

/-- A key that is written is no shorthand. -/
theorem ofText?_ne_shorthand (raw name : Text) : ofText? raw ≠ some (.shorthand name) := by
  intro h
  cases raw with
  | nil => cases h
  | cons c rest =>
    rw [ofText?] at h
    repeat' split at h
    all_goals cases h

theorem ofText?_keyScript (key : Text) : ofText? (keyScript key) = some (written key) := by
  by_cases hname : isName key = true
  · cases key with
    | nil => cases hname
    | cons c rest =>
      have he : keyScript (c :: rest) = c :: rest := if_pos hname
      have hq : (c == '\'' || c == '"') = false := by
        rw [Bool.eq_false_iff]
        intro hq
        rw [isName, Bool.and_eq_true] at hname
        simp only [Bool.or_eq_true, beq_iff_eq] at hq
        rcases hq with rfl | rfl <;> cases hname.1
      have hmore : (isNameStart c && rest.all isNameChar) = true := hname
      rw [he, written, if_pos hname, ofText?, hq, if_neg Bool.false_ne_true, if_pos hmore]
  · have he : keyScript key = '"' :: (key.flatMap Json.escapeChar ++ ['"']) :=
      (keyScript_cases key).resolve_left fun h => hname h.1
    have hwhole :
        isWhole (literalPrefix? ('"' :: (key.flatMap Json.escapeChar ++ ['"']))) = true := by
      have := (isClosedBy_escaped key).closing_append []
      rw [List.append_nil] at this
      simp [literalPrefix?, literal?, this, isWhole]
    rw [he, written, if_neg hname, ofText?, if_pos (by decide), if_pos hwhole, List.dropLast_concat]

end KeyForm

/-! ### Lists and properties -/

/-- A property and the text of its value. -/
abbrev Member := KeyForm × Text

/-- The property that a text without outer blanks spells; none for a spread, a computed key and
a method. -/
def member? (text : Text) : Option Member :=
  if ['.', '.', '.'].isPrefixOf text || text.head? == some '[' then none
  else
    match splitTop ':' text with
    | some [only] =>
      let name := Text.trim only
      if isPath name && !name.contains '.' then some (.shorthand name, name) else none
    | some (key :: _ :: _) =>
      let value := Text.trim (text.drop (key.length + 1))
      if value.isEmpty then none else (KeyForm.ofText? (Text.trim key)).map (·, value)
    | _ => none

/-- The texts between the commas of a list, without outer blanks. -/
def listTexts? (inner : Text) : Option (List Text) := (splitTop ',' inner).map (·.map Text.trim)

/-- The properties that a text between braces spells. -/
def members? (inner : Text) : Option (List Member) :=
  (listTexts? inner).bind fun texts => (texts.filter (!·.isEmpty)).mapM member?

/-- The items of a list: a comma at its end has none behind it. -/
def items (texts : List Text) : List Text :=
  if texts.getLast? = some [] then texts.dropLast else texts

/-- What is read for a property: a name for a shorthand, else what the text of its value spells. -/
def readMember : Member → Option (Text × Argument)
  | (.shorthand name, _) => some (name, .name name)
  | (key, value) => (readArgument value).map (key.text, ·)

theorem readMember_of_ofText? {raw value : Text} {key : KeyForm}
    (h : KeyForm.ofText? raw = some key) :
    readMember (key, value) = (readArgument value).map (key.text, ·) := by
  cases key with
  | shorthand name => exact absurd h (KeyForm.ofText?_ne_shorthand raw name)
  | _ => rfl

/-- Reading twice is reading what was read. -/
theorem mapM_bind {α β γ : Type} (f : α → Option β) (g : β → Option γ) (l : List α) :
    l.mapM (fun a => (f a).bind g) = (l.mapM f).bind (·.mapM g) := by
  induction l with
  | nil => rfl
  | cons a rest ih =>
    rw [List.mapM_cons, List.mapM_cons, ih]
    cases f a with
    | none => rfl
    | some b =>
      cases rest.mapM f with
      | none => cases h : g b <;> simp [h]
      | some bs => simp [List.mapM_cons]

/-- The properties of an object are those that its texts spell. -/
theorem readMembers_eq_mapM {bound : Nat} {parts : List Text} (h : ∀ p ∈ parts, p.length ≤ bound) :
    readMembers bound parts h =
      ((parts.map Text.trim).filter (!·.isEmpty)).mapM fun text =>
        (member? text).bind readMember := by
  induction parts with
  | nil => rw [readMembers]; rfl
  | cons part rest ih =>
    rw [readMembers, List.map_cons]
    simp only [ih]
    split
    · next hempty => rw [List.filter_cons_of_neg (by simp [hempty])]
    · next hne =>
      rw [List.filter_cons_of_pos (by simp [hne]), List.mapM_cons, member?]
      generalize (List.filter (!·.isEmpty) (rest.map Text.trim)).mapM (fun text =>
        (member? text).bind readMember) = more
      split
      · rfl
      · split
        · next hsplit => simp [hsplit]
        · next hsplit => simp [hsplit]
        · next only hsplit =>
          simp only [hsplit]
          split
          · cases more <;> rfl
          · rfl
        · next key second others hsplit =>
          simp only [hsplit, ← KeyForm.map_ofText?]
          cases hkey : KeyForm.ofText? (Text.trim key) with
          | none => simp
          | some k =>
            simp only [Option.map_some]
            split
            · rfl
            · simp only [Option.bind_some, readMember_of_ofText? hkey]
              cases readArgument (Text.trim (List.drop (key.length + 1) (Text.trim part))) with
              | none => rfl
              | some a => cases more <;> rfl

theorem readProperties_eq (src : Text) :
    readProperties src = (members? src).bind (·.mapM readMember) := by
  rw [readProperties.eq_def, members?, listTexts?]
  split
  · next hsplit => rw [hsplit]; rfl
  · next parts hsplit =>
    rw [readMembers_eq_mapM, hsplit, Option.map_some, Option.bind_some, mapM_bind]

/-- The arguments of a list without comments. -/
theorem readArguments_of_settles {inner : Text} {texts : List Text} (h : Settles [] inner)
    (htexts : listTexts? inner = some texts) :
    readArguments inner = (texts.filter (!·.isEmpty)).mapM readArgument := by
  obtain ⟨parts, hparts, rfl⟩ := Option.map_eq_some_iff.mp htexts
  rw [readArguments_eq_mapM, argumentTexts?, withoutComments, h.stripFrom_eq, hparts]
  rfl

/-- No item is lost between the commas of a list but one behind the last. -/
theorem filter_items (texts : List Text) :
    (items texts).filter (!·.isEmpty) = texts.filter (!·.isEmpty) := by
  rw [items]
  split
  · next h =>
    obtain ⟨front, rfl⟩ := List.getLast?_eq_some_iff.mp h
    simp
  · rfl

/-! ### Forms -/

/-- What stands around a text. -/
inductive Form where
  | plain
  | literal (quote : Char) (body : Text)
  | array (items : List Text)
  | object (members : List Member)

/-- The form of a text without outer blanks. -/
def form : Text → Form
  | [] => .plain
  | c :: rest =>
    if (literal? c).isSome then if isWhole (literalPrefix? (c :: rest)) then
      .literal c rest.dropLast else .plain
    else if c == '[' then
      match isWhole (groupPrefix? (c :: rest)), listTexts? rest.dropLast with
      | true, some texts => .array (items texts)
      | _, _ => .plain
    else if c == '{' then
      match isWhole (groupPrefix? (c :: rest)), members? rest.dropLast with
      | true, some members => .object members
      | _, _ => .plain
    else .plain

/-- Whether a text is an object with properties. -/
def hasProperties (text : Text) : Bool :=
  match form text with
  | .object members => !members.isEmpty
  | _ => false

theorem length_le_of_listTexts? {inner : Text} {texts : List Text}
    (h : listTexts? inner = some texts) :
    ∀ text ∈ texts, text.length ≤ inner.length := by
  obtain ⟨parts, hparts, rfl⟩ := Option.map_eq_some_iff.mp h
  intro text htext
  obtain ⟨part, hpart, rfl⟩ := List.mem_map.mp htext
  exact (Text.length_trim_le part).trans (length_le_of_mem_splitFrom hparts part hpart)

theorem mem_of_mem_items {texts : List Text} {item : Text} (h : item ∈ items texts) :
    item ∈ texts := by
  rw [items] at h
  split at h
  · exact List.mem_of_mem_dropLast h
  · exact h

theorem length_le_of_member? {text value : Text} {key : KeyForm}
    (h : member? text = some (key, value)) :
    value.length ≤ text.length := by
  rw [member?] at h
  split at h
  · cases h
  split at h
  · next only hsplit =>
    simp only at h
    split at h
    · cases h
      exact (Text.length_trim_le only).trans
        (length_le_of_mem_splitFrom hsplit only List.mem_cons_self)
    · cases h
  · simp only at h
    split at h
    · cases h
    · obtain ⟨key', -, he⟩ := Option.map_eq_some_iff.mp h
      cases he
      refine (Text.length_trim_le _).trans ?_
      rw [List.length_drop]
      omega
  · cases h

theorem length_le_of_members? {inner : Text} {members : List Member}
    (h : members? inner = some members) :
    ∀ m ∈ members, m.2.length ≤ inner.length := by
  obtain ⟨texts, htexts, hmembers⟩ := Option.bind_eq_some_iff.mp h
  intro m hm
  obtain ⟨text, htext, hmember⟩ := exists_of_mem_mapM hmembers m hm
  exact (length_le_of_member? hmember).trans
    (length_le_of_listTexts? htexts text (List.mem_of_mem_filter htext))

/-- What stands between brackets is shorter. -/
theorem length_lt_of_dropLast {n : Nat} {c : Char} {rest : Text} (h : n ≤ rest.dropLast.length) :
    n < (c :: rest).length := by
  rw [List.length_dropLast] at h
  rw [List.length_cons]
  omega

theorem length_lt_of_array {text : Text} {its : List Text} (h : form text = .array its) :
    ∀ item ∈ its, item.length < text.length := by
  cases text with
  | nil => cases h
  | cons c rest =>
    rw [form] at h
    split at h
    · split at h <;> cases h
    split at h
    · split at h
      · next texts _ htexts =>
        cases h
        exact fun item hitem => length_lt_of_dropLast
          (length_le_of_listTexts? htexts item (mem_of_mem_items hitem))
      · cases h
    split at h
    · split at h <;> cases h
    · cases h

theorem length_lt_of_object {text : Text} {members : List Member}
    (h : form text = .object members) :
    ∀ m ∈ members, m.2.length < text.length := by
  cases text with
  | nil => cases h
  | cons c rest =>
    rw [form] at h
    split at h
    · split at h <;> cases h
    split at h
    · split at h <;> cases h
    split at h
    · split at h
      · next members' _ hmembers =>
        cases h
        exact fun m hm => length_lt_of_dropLast (length_le_of_members? hmembers m hm)
      · cases h
    · cases h

/-! ### Shapes -/

/-- How an argument text is made. -/
inductive Shape where
  /-- Anything that is no literal in quotes, array or object. -/
  | plain (text : Text)
  | literal (quote : Char) (body : Text)
  | array (elements : List Shape)
  | object (members : List (KeyForm × Shape))
  /-- Nothing between two commas of an array. -/
  | gap

/-- The shape of a text without outer blanks. -/
def shape (text : Text) : Shape :=
  match _h : form text with
  | .plain => .plain text
  | .literal quote body => .literal quote body
  | .array its => .array (its.attach.map fun item => if item.1.isEmpty then .gap else shape item.1)
  | .object members => .object (members.attach.map fun m => (m.1.1, shape m.1.2))
termination_by text.length
decreasing_by
  · exact length_lt_of_array _h _ item.2
  · exact length_lt_of_object _h _ m.2

/-- The shape of an item of an array. -/
def itemShape (item : Text) : Shape := if item.isEmpty then .gap else shape item

/-- The shapes of a list of properties. -/
def memberShapes (members : List Member) : List (KeyForm × Shape) :=
  members.map fun m => (m.1, shape m.2)

theorem map_attach {α β : Type} (f : α → β) (l : List α) :
    (l.attach.map fun a => f a.1) = l.map f := by
  calc (l.attach.map fun a => f a.1) = (l.attach.map Subtype.val).map f := by rw [List.map_map]; rfl
    _ = l.map f := by rw [List.attach_map_subtype_val]

theorem shape_eq (text : Text) :
    shape text = match form text with
      | .plain => .plain text
      | .literal quote body => .literal quote body
      | .array its => .array (its.map itemShape)
      | .object members => .object (memberShapes members) := by
  rw [shape.eq_def]
  split
  · next h => rw [h]
  · next h => rw [h]
  · next its h => rw [h]; exact congrArg Shape.array (map_attach itemShape its)
  · next members h =>
      rw [h]; exact congrArg Shape.object (map_attach (fun m : Member => (m.1, shape m.2)) members)

theorem shape_ne_gap (text : Text) : shape text ≠ .gap := by
  rw [shape_eq]
  cases form text <;> exact nofun

end Localization
