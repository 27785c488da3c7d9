import Localization.Argument.Basic
import Localization.Script.Comment
import Localization.Script.Part

/-! Reading arguments.

The text between the parentheses of a call is freed of comments, cut at its commas and
read part by part; arrays, objects and calls read the text between their own brackets in
the same way. Every text that is read on the way is no longer than the one it was cut
from, and what stands between brackets is shorter. -/
namespace Localization

open Script

/-- Whether something was read and nothing follows it. -/
def isWhole (found : Option (Text × Text)) : Bool :=
  match found with
  | some (_, []) => true
  | _ => false

/-- The key of a property as written: a string literal, a name, or anything that starts
with a digit. -/
def propertyKey? (raw : Text) : Option Text :=
  match raw with
  | [] => none
  | c :: rest =>
    if c == '\'' || c == '"' then
      if isWhole (literalPrefix? raw) then some (decode rest.dropLast) else none
    else if (isNameStart c && rest.all isNameChar) || c.isDigit then some raw
    else none

/-- The path, the text in parentheses and nothing else: a call that takes all of a text.
Type arguments may stand between the two. -/
def callParts? (t : Text) : Option (Text × Text) :=
  match pathPrefix? t with
  | none => none
  | some (callee, rest) =>
    let opening :=
      if rest.head? == some '<' then (typeArguments? rest).map (·.2) else some (skipBlanks rest)
    match opening with
    | some ('(' :: inner) =>
      if isWhole (groupPrefix? ('(' :: inner)) then some (callee, inner.dropLast) else none
    | _ => none

theorem length_dropWhile_le {p : Char → Bool} {t : Text} : (t.dropWhile p).length ≤ t.length :=
  (List.dropWhile_sublist p).length_le

theorem length_typeArgumentsFrom_lt {depth : Nat} {s : State} {t read after : Text}
    (h : typeArgumentsFrom depth s t = some (read, after)) : after.length < t.length := by
  induction t generalizing depth s read with
  | nil => simp [typeArgumentsFrom] at h
  | cons c rest ih =>
    have step {d : Nat} {s' : State} {f : Text × Text → Text × Text}
        (h : (typeArgumentsFrom d s' rest).map f = some (read, after)) (hf : ∀ p, (f p).2 = p.2) :
          after.length < (c :: rest).length := by
      obtain ⟨⟨r, a⟩, hr, he⟩ := Option.map_eq_some_iff.mp h
      obtain rfl : a = after := (hf (r, a)).symm.trans (congrArg Prod.snd he)
      have := ih hr
      rw [List.length_cons]
      omega
    simp only [typeArgumentsFrom] at h
    repeat' split at h
    all_goals first
      | exact step h fun _ => rfl
      | cases h; simp
      | cases h

theorem length_callParts?_lt {t callee inner : Text} (h : callParts? t = some (callee, inner)) :
    inner.length < t.length := by
  simp only [callParts?] at h
  split at h
  · cases h
  · next callee' rest hp =>
    have hlen : rest.length ≤ t.length := by
      have := pathFrom_append hp (by simp)
      simp only [List.nil_append] at this
      rw [this]; simp
    split at h
    · next inner' ho =>
      split at h
      · cases h
        have : ('(' :: inner').length ≤ rest.length := by
          split at ho
          · obtain ⟨⟨r, a⟩, hr, he⟩ := Option.map_eq_some_iff.mp ho
            have := length_typeArgumentsFrom_lt hr
            simp only at he
            subst he; omega
          · simp only [Option.some.injEq] at ho
            rw [← ho]
            exact length_dropWhile_le
        simp at this ⊢
        omega
      · cases h
    · cases h

mutual

/-- The arguments that a text separates by commas, none if it is not balanced. -/
def readArguments (src : Text) : Option (List Argument) :=
  match h : splitTop ',' (withoutComments src) with
  | none => none
  | some parts =>
    readParts src.length parts fun p hp =>
      Nat.le_trans (length_le_of_mem_splitFrom h p hp) (length_stripFrom_le 0 0 src)
termination_by (src.length, 3, 0)

/-- The arguments in the parts that are not blank. -/
def readParts (bound : Nat) (parts : List Text) (h : ∀ p ∈ parts, p.length ≤ bound) :
    Option (List Argument) :=
  match parts, h with
  | [], _ => some []
  | part :: rest, h =>
    let text := Text.trim part
    if text.isEmpty then readParts bound rest fun p hp => h p (List.mem_cons_of_mem _ hp)
    else
      match readArgument text with
      | none => none
      | some a =>
        (readParts bound rest fun p hp => h p (List.mem_cons_of_mem _ hp)).map (a :: ·)
termination_by (bound, 2, parts.length)
decreasing_by
  · exact Prod.Lex.right _ (Prod.Lex.right _ (by simp))
  · have := Nat.le_trans (Text.length_trim_le part) (h part (List.mem_cons_self ..))
    rcases Nat.lt_or_eq_of_le this with hlt | heq
    · exact Prod.Lex.left _ _ hlt
    · rw [heq]; exact Prod.Lex.right _ (Prod.Lex.left _ _ (by decide))
  · exact Prod.Lex.right _ (Prod.Lex.right _ (by simp))

/-- The argument that a text without outer blanks spells, none if a literal, an array or
an object that it starts with does not end. -/
def readArgument (text : Text) : Option Argument :=
  match text with
  | [] => some (.other [])
  | c :: rest =>
    if (literal? c).isSome then
      match literalPrefix? (c :: rest) with
      | none => none
      | some (_, []) => some (.string (decode rest.dropLast))
      | some _ => some (readPlain (c :: rest))
    else if c == '[' then
      match groupPrefix? (c :: rest) with
      | none => none
      | some (_, []) => (readArguments rest.dropLast).map .array
      | some _ => some (readPlain (c :: rest))
    else if c == '{' then
      match groupPrefix? (c :: rest) with
      | none => none
      | some (_, []) =>
        match readProperties rest.dropLast with
        | some properties => some (.object properties)
        | none => some (.other (c :: rest))
      | some _ => some (readPlain (c :: rest))
    else some (readPlain (c :: rest))
termination_by (text.length, 1, 0)
decreasing_by
  all_goals first
    | exact Prod.Lex.right _ (Prod.Lex.left _ _ (by decide))
    | exact Prod.Lex.left _ _ (by rw [List.length_dropLast, List.length_cons]; omega)

/-- An argument that is no literal in quotes, array or object. -/
def readPlain (text : Text) : Argument :=
  match Decimal.ofScript? text with
  | some value => .number value
  | none =>
    if isPath text then
      if text == "undefined" || text == "null" || text == "true" || text == "false" then .other text
      else .name text
    else
      match h : callParts? text with
      | none => .other text
      | some (callee, inner) =>
        have : inner.length < text.length := length_callParts?_lt h
        match readArguments inner with
        | some arguments => .call callee arguments text
        | none => .other text
termination_by (text.length, 0, 0)
decreasing_by exact Prod.Lex.left _ _ this

/-- The properties of an object literal. A spread, a computed key or a method makes the
whole object unreadable. -/
def readProperties (src : Text) : Option Properties :=
  match h : splitTop ',' src with
  | none => none
  | some parts => readMembers src.length parts fun p hp => length_le_of_mem_splitFrom h p hp
termination_by (src.length, 3, 0)

/-- The properties in the parts that are not blank. -/
def readMembers (bound : Nat) (parts : List Text) (h : ∀ p ∈ parts, p.length ≤ bound) :
    Option Properties :=
  match parts, h with
  | [], _ => some []
  | part :: rest, h =>
    let more (_ : Unit) := readMembers bound rest fun p hp => h p (List.mem_cons_of_mem _ hp)
    let text := Text.trim part
    if text.isEmpty then more ()
    else if ['.', '.', '.'].isPrefixOf text || text.head? == some '[' then none
    else
      match splitTop ':' text with
      | none => none
      | some [] => none
      | some [only] =>
        let name := Text.trim only
        if isPath name && !name.contains '.' then (more ()).map ((name, .name name) :: ·) else none
      | some (key :: _ :: _) =>
        let value := Text.trim (text.drop (key.length + 1))
        match propertyKey? (Text.trim key) with
        | none => none
        | some key =>
          if value.isEmpty then none
          else
            match readArgument value with
            | none => none
            | some a => (more ()).map ((key, a) :: ·)
termination_by (bound, 2, parts.length)
decreasing_by
  · exact Prod.Lex.right _ (Prod.Lex.right _ (by simp))
  · have h1 := Nat.le_trans (Text.length_trim_le part) (h part (List.mem_cons_self ..))
    have h2 := Text.length_trim_le ((Text.trim part).drop (key.length + 1))
    have h3 : ((Text.trim part).drop (key.length + 1)).length ≤ (Text.trim part).length := by simp
    rcases Nat.lt_or_eq_of_le (Nat.le_trans h2 (Nat.le_trans h3 h1)) with hlt | heq
    · exact Prod.Lex.left _ _ hlt
    · rw [heq]; exact Prod.Lex.right _ (Prod.Lex.left _ _ (by decide))

end

end Localization
