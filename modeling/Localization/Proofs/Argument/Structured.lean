import Mathlib
import Localization.Inlining.Render
import Localization.Proofs.Argument.Enclosed
import Localization.Proofs.Argument.ReadBack
import Localization.Proofs.Inlining.Operand
import Localization.Proofs.Json.Numbers
import Localization.Proofs.Number.Scientific

/-! Structured values read back.

An array or an object goes into a text as JSON without blanks. The reader of arguments knows
less than JSON, but what it reads there is one argument, made like the value
(`readArguments_valueText`): its brackets enclose the whole text, its commas and colons are
those of the value, whatever stands in its strings, and each string, key and number is read as
what was written.

A number has to be regular for that, and those of a value that was read always are
(`readArguments_compact_ofText?`). -/
namespace Localization

open Json (Value compactEntries compactItems)
open Script

/-! ### The argument of a value -/

/-- The double that a number stands for. -/
def Json.Number.toDouble : Json.Number → Binary64
  | .integer i => Decimal.toBinary64 (i < 0) i.natAbs 0
  | .double x => x

namespace Json

mutual

/-- The argument that is made like a value: its strings are strings, its numbers are doubles,
and what else it holds goes by its name. -/
def Value.toArgument : Value → Argument
  | .null => .other "null"
  | .bool b => .other (if b then "true" else "false")
  | .number n => .number n.toDouble
  | .string s => .string s
  | .array items => .array (itemArguments items)
  | .object entries => .object (entryArguments entries)

def itemArguments : List Value → List Argument
  | [] => []
  | v :: rest => v.toArgument :: itemArguments rest

def entryArguments : List (Text × Value) → Properties
  | [] => []
  | (key, v) :: rest => (key, v.toArgument) :: entryArguments rest

end

end Json

/-! ### Numbers -/

/-- The text of a number is read as the double it stands for. -/
theorem ofScript?_toText {n : Json.Number} (h : n.IsRegular) :
    Decimal.ofScript? n.toText = some n.toDouble := by
  cases n with
  | integer i =>
    show Decimal.ofScript? (Decimal.sign (i < 0) ++ Text.ofNat i.natAbs) = _
    rw [Decimal.ofScript?_whole Text.isDigit_ofNat (Text.ofNat_ne_nil _),
      Decimal.ofDigitChars_ofNat]
    rfl
  | double x => exact Decimal.ofScript?_scientific h.1 h.2

theorem balanced_toText (n : Json.Number) : Balanced [',', ':'] n.toText :=
  .of_ordinary fun c hc => by
    have hnumber := Inlining.isNumberChar_of_mem_toText hc
    refine ⟨isOrdinary_of_isNumberChar hnumber, ?_⟩
    rintro hmem
    simp only [List.mem_cons, List.not_mem_nil, or_false] at hmem
    rcases hmem with rfl | rfl <;> exact absurd hnumber (by decide)

theorem not_isBlank_of_isNumberChar {c : Char} (h : isNumberChar c = true) :
    Text.isBlank c = false := by
  rw [isNumberChar, Bool.or_eq_true, List.contains_iff_mem] at h
  rcases h with hdigit | hmark
  · have hrange : 48 ≤ c.toNat ∧ c.toNat ≤ 57 := by
      simp only [Char.isDigit, Bool.and_eq_true, decide_eq_true_eq, ge_iff_le,
        UInt32.le_iff_toNat_le] at hdigit
      exact hdigit
    simp only [Text.isBlank, Bool.or_eq_false_iff, Bool.and_eq_false_iff, decide_eq_false_iff_not,
      beq_eq_false_iff_ne]
    omega
  · have hall : (".-+einfulNa".toList.all fun d => !Text.isBlank d) = true := by decide
    simpa using List.all_eq_true.mp hall c hmark

theorem toText_ne_nil {n : Json.Number} (h : n.IsRegular) : n.toText ≠ [] := by
  intro hnil
  have hread := ofScript?_toText h
  rw [hnil] at hread
  cases hread

theorem isTrimmed_toText {n : Json.Number} (h : n.IsRegular) : Text.IsTrimmed n.toText :=
  have hblank {c : Char} (hc : c ∈ n.toText) : Text.isBlank c = false :=
    not_isBlank_of_isNumberChar (Inlining.isNumberChar_of_mem_toText hc)
  ⟨toText_ne_nil h, fun _ hc => hblank (List.mem_of_mem_head? hc), fun _ hc =>
    hblank (List.mem_of_mem_getLast? hc)⟩

theorem readArgument_toText {n : Json.Number} (h : n.IsRegular) :
    readArgument n.toText = some (.number n.toDouble) := by
  have hread := ofScript?_toText h
  obtain ⟨c, rest, htext⟩ := List.exists_cons_of_ne_nil (toText_ne_nil h)
  have hc : c ∉ punctuation := by
    intro hmem
    have hall : (punctuation.all fun d => !isNumberChar d) = true := by decide
    have hnot := List.all_eq_true.mp hall c hmem
    rw [Inlining.isNumberChar_of_mem_toText (htext ▸ List.mem_cons_self)] at hnot
    cases hnot
  rw [htext] at hread ⊢
  have hplain : readPlain (c :: rest) = .number n.toDouble := by
    rw [readPlain.eq_def]
    simp only [hread]
  simp only [punctuation, List.mem_cons, List.not_mem_nil, or_false, not_or] at hc
  rw [readArgument.eq_def, ← hplain]
  simp [literal?, hc]

/-! ### Strings -/

theorem readArgument_quote (s : Text) : readArgument (Json.quote s) = some (.string s) := by
  rw [Json.quote, List.cons_append, readArgument_of_isClosedBy rfl (isClosedBy_escaped s),
    decode_escaped]

theorem balanced_quote (s : Text) : Balanced [',', ':'] (Json.quote s) := by
  rw [Json.quote, List.cons_append]
  exact balanced_literal rfl (by decide) (isClosedBy_escaped s)

/-! ### Values -/

mutual

/-- What is written for a value is one piece. -/
theorem balanced_compact (v : Value) : Balanced [',', ':'] v.compact := by
  cases v with
  | null => exact balanced_of_isPath (by decide)
  | bool b => cases b <;> exact balanced_of_isPath (by decide)
  | number n => exact balanced_toText n
  | string s => exact balanced_quote s
  | array items =>
    rw [Value.compact]
    exact .group rfl (by decide) (balanced_join_blanks (by simp) (balanced_compactItems items)) .nil
  | object entries =>
    rw [Value.compact]
    exact .group rfl (by decide) (balanced_join_blanks (by simp)
      (balanced_compactEntries entries)) .nil

theorem balanced_compactItems (items : List Value) :
    ∀ part ∈ compactItems items, Balanced [','] part := by
  cases items with
  | nil => simp [compactItems]
  | cons v rest =>
    rw [compactItems, List.forall_mem_cons]
    exact ⟨(balanced_compact v).mono (by simp), balanced_compactItems rest⟩

theorem balanced_compactEntries (entries : List (Text × Value)) :
    ∀ part ∈ compactEntries entries, Balanced [','] part := by
  cases entries with
  | nil => simp [compactEntries]
  | cons e rest =>
    obtain ⟨key, v⟩ := e
    rw [compactEntries, List.forall_mem_cons]
    refine ⟨?_, balanced_compactEntries rest⟩
    exact ((balanced_quote key).mono (by simp)).append
      (.ordinary (by decide) (by decide) ((balanced_compact v).mono (by simp)))

end

theorem isTrimmed_quote (s : Text) : Text.IsTrimmed (Json.quote s) := by
  rw [Json.quote, List.cons_append]
  exact Text.isTrimmed_between (by decide) (by decide) _

theorem isTrimmed_compact {v : Value} (h : ∀ n ∈ v.numbers, n.IsRegular) :
    Text.IsTrimmed v.compact := by
  cases v with
  | null => exact isTrimmed_of_isPath (by decide)
  | bool b => cases b <;> exact isTrimmed_of_isPath (by decide)
  | number n => exact isTrimmed_toText (h n (by simp [Value.numbers]))
  | string s => exact isTrimmed_quote s
  | array items =>
    rw [Value.compact]
    exact Text.isTrimmed_between (by decide) (by decide) _
  | object entries =>
    rw [Value.compact]
    exact Text.isTrimmed_between (by decide) (by decide) _

/-- A list without blanks is cut into its parts. -/
theorem splitTop_joinCommas {part : Text} {rest : List Text}
    (h : ∀ p ∈ part :: rest, Balanced [','] p) :
    splitTop ',' (Text.join "," (part :: rest)) = some (part :: rest) := by
  have hsplit := splitTop_join_blanks (by simp : ∀ c ∈ ([] : Text), c = ' ') h
  simpa using hsplit

mutual

/-- **What is written for a value is read as the argument that is made like it.** -/
theorem readArgument_compact (v : Value) (h : ∀ n ∈ v.numbers, n.IsRegular) :
    readArgument v.compact = some v.toArgument := by
  cases v with
  | null => exact readArgument_of_isPath (by decide)
  | bool b => cases b <;> exact readArgument_of_isPath (by decide)
  | number n => exact readArgument_toText (h n (by simp [Value.numbers]))
  | string s => exact readArgument_quote s
  | array items =>
    have hbalanced := balanced_compactItems items
    rw [Value.compact]
    refine readArgument_array (balanced_join_blanks (by simp) hbalanced) ?_
    cases items with
    | nil => exact readArguments_of_splitTop .nil rfl fun bound hb => readParts_empty hb
    | cons v rest =>
      exact readArguments_of_splitTop (balanced_join_blanks (by simp) hbalanced)
        (splitTop_joinCommas hbalanced)
        fun bound hb => readParts_compactItems (v :: rest) h hb
  | object entries =>
    have hbalanced := balanced_compactEntries entries
    rw [Value.compact]
    refine readArgument_object (balanced_join_blanks (by simp) hbalanced) ?_
    cases entries with
    | nil => exact readProperties_of_splitTop rfl fun bound hb => readMembers_empty hb
    | cons e rest =>
      exact readProperties_of_splitTop (splitTop_joinCommas hbalanced) fun bound hb =>
        readMembers_compactEntries (e :: rest) h hb

theorem readParts_compactItems (items : List Value) (h : ∀ n ∈ Json.itemNumbers items, n.IsRegular)
    {bound : Nat} (hb : ∀ p ∈ compactItems items, p.length ≤ bound) :
    readParts bound (compactItems items) hb = some (Json.itemArguments items) := by
  cases items with
  | nil => simp [compactItems, readParts, Json.itemArguments]
  | cons v rest =>
    rw [Json.itemNumbers, List.forall_mem_append] at h
    have htrim := isTrimmed_compact h.1
    refine readParts_cons hb (by rw [htrim.trim]; exact htrim.1) ?_ fun hrest =>
      readParts_compactItems rest h.2 hrest
    rw [htrim.trim]
    exact readArgument_compact v h.1

theorem readMembers_compactEntries (entries : List (Text × Value))
    (h : ∀ n ∈ Json.entryNumbers entries, n.IsRegular) {bound : Nat}
    (hb : ∀ p ∈ compactEntries entries, p.length ≤ bound) :
    readMembers bound (compactEntries entries) hb = some (Json.entryArguments entries) := by
  cases entries with
  | nil => simp [compactEntries, readMembers, Json.entryArguments]
  | cons e rest =>
    obtain ⟨key, v⟩ := e
    rw [Json.entryNumbers, List.forall_mem_append] at h
    have htrim := isTrimmed_compact h.1
    have hkey := isTrimmed_quote key
    have hpart : Text.trim (Json.quote key ++ ':' :: v.compact) =
        Json.quote key ++ ':' :: v.compact :=
      (hkey.append htrim [':']).trim
    refine readMembers_property hb hpart ⟨_, _,
      rfl, by decide, by decide⟩ ((balanced_quote key).mono (by simp)) ?_
      ((balanced_compact v).mono (by simp)) ?_ ?_ fun hrest =>
        readMembers_compactEntries rest h.2 hrest
    · rw [hkey.trim, propertyKey?_quote]
    · rw [htrim.trim]
      exact htrim.1
    · rw [htrim.trim]
      exact readArgument_compact v h.1

end

/-- What is written for a value is one argument. -/
theorem readArguments_compact {v : Value} (h : ∀ n ∈ v.numbers, n.IsRegular) :
    readArguments v.compact = some [v.toArgument] := by
  have htrim := isTrimmed_compact h
  have hbalanced := balanced_compact v
  refine readArguments_of_splitTop (hbalanced.mono (List.nil_subset _))
    (splitTop_last (hbalanced.mono (by simp)))
    fun bound hb => readParts_cons hb (by rw [htrim.trim]; exact htrim.1) ?_ fun hrest => by
      rw [readParts]
  rw [htrim.trim]
  exact readArgument_compact v h

/-- A value that was read as JSON is read back as an argument, whatever its numbers. -/
theorem readArguments_compact_ofText? {t : Text} {v : Value} (h : Value.ofText? t = some v) :
    readArguments v.compact = some [v.toArgument] :=
  readArguments_compact (Json.isRegular_ofText? h)

/-- Whether a value is an array or an object. -/
def Json.Value.IsStructured : Value → Prop
  | .array _ => True
  | .object _ => True
  | _ => False

/-- **A structured value goes into a text as one literal that mirrors it.** The reader finds one
argument in the text, with the same elements and keys in the same order, each string, key and
number as it was; and whatever follows the text, it ends with the bracket that closes its first.
-/
theorem readArguments_valueText {v : Value} (hv : v.IsStructured)
    (hnumbers : ∀ n ∈ v.numbers, n.IsRegular) (params : Properties) :
    ∃ text, Inlining.valueText? params (some v) = some text ∧
      readArguments text = some [v.toArgument] ∧
      ∀ rest, groupPrefix? (text ++ rest) = some (text, rest) := by
  have htext : Inlining.valueText? params (some v) = some v.compact := by
    cases v <;> first | rfl | exact hv.elim
  refine ⟨v.compact, htext, readArguments_compact hnumbers, fun rest => ?_⟩
  cases v with
  | array items =>
    rw [Value.compact]
    simpa using (balanced_join_blanks (by simp) (balanced_compactItems items)).groupPrefix? rfl
      rest
  | object entries =>
    rw [Value.compact]
    simpa using (balanced_join_blanks (by simp) (balanced_compactEntries entries)).groupPrefix?
      rfl rest
  | _ => exact hv.elim

/-- A value with everything that has a meaning in a literal or between literals. -/
def markedValue : Value :=
  .object [("say \"hi\"\n, b: c".toList, .string "\\`$\x7bx\x7d' \" // /* \x01, \x7b [".toList),
    ([], .array [.null, .bool true, .number (.integer (-12)), .array []]),
    ("x-1".toList, .number (.double (.finite false (2 ^ 52 + 2 ^ 51) 1022)))]

/-- Its keys are no names, and it holds the double 1.5. -/
theorem readArguments_markedValue :
    (markedValue.IsStructured ∧ ∀ n ∈ markedValue.numbers, n.IsRegular) ∧
      ∃ text, Inlining.valueText? [] (some markedValue) = some text ∧
        readArguments text = some [markedValue.toArgument] := by
  have hnumbers : ∀ n ∈ markedValue.numbers, n.IsRegular := by
    have hlist :
        markedValue.numbers = [.integer (-12), .double (.finite false (2 ^ 52 + 2 ^ 51) 1022)] :=
          rfl
    rw [hlist]
    simp [Json.Number.IsRegular, Binary64.isFinite, Binary64.IsNormal, Binary64.IsForm]
  obtain ⟨text, htext, hread, -⟩ := readArguments_valueText (v := markedValue) trivial hnumbers []
  exact ⟨⟨trivial, hnumbers⟩, text, htext, hread⟩

end Localization
