import Mathlib
import Localization.Argument.Basic
import Localization.Proofs.Json.Lexing
import Localization.Proofs.Script.Balanced
import Localization.Proofs.Script.Lexeme

/-! The script text of arguments.

`isPrintable` are the arguments that are made of strings, paths and the four words, by arrays
and objects. The text that `toScript` writes for one of them is balanced, holds no comma and no
colon outside of its brackets and quotes (`balanced_toScript`), and has no outer blanks
(`isTrimmed_toScript`): whatever stands in a string or a key stays inside of its quotes. -/
namespace Localization

namespace Text

theorem join_singleton (separator part : Text) : join separator [part] = part := by
  simp [join, List.intercalate]

/-! ### Trimming -/

/-- Whether a text starts and ends with a character that is no blank. -/
def IsTrimmed (t : Text) : Prop :=
  t ≠ [] ∧ (∀ c, t.head? = some c → isBlank c = false) ∧ ∀ c, t.getLast? = some c →
    isBlank c = false

theorem dropWhile_isBlank {t : Text} (h : ∀ c, t.head? = some c → isBlank c = false) :
    t.dropWhile isBlank = t := by
  cases t with
  | nil => rfl
  | cons c rest => rw [List.dropWhile_cons_of_neg (by simp [h c rfl])]

theorem IsTrimmed.trim {t : Text} (h : t.IsTrimmed) : trim t = t := by
  have hlast : ∀ c, t.reverse.head? = some c → isBlank c = false :=
    fun c hc => h.2.2 c (by simpa using hc)
  rw [Text.trim, dropWhile_isBlank h.2.1, dropWhile_isBlank hlast, List.reverse_reverse]

theorem IsTrimmed.trim_cons_blank {t : Text} (h : t.IsTrimmed) : Text.trim (' ' :: t) = t := by
  have hskip : (' ' :: t).dropWhile isBlank = t.dropWhile isBlank :=
    List.dropWhile_cons_of_pos (by decide)
  have := h.trim
  rw [Text.trim] at this ⊢
  rw [hskip, this]

theorem head?_dropWhile_isBlank {t : Text} {c : Char} (h : (t.dropWhile isBlank).head? = some c) :
    isBlank c = false := by
  have := List.head?_dropWhile_not isBlank t
  rw [h] at this
  simpa using this

/-- A text between the blanks that are taken from it. -/
theorem exists_trim (t : Text) : ∃ front back, t = front ++ (trim t ++ back) ∧
    (∀ c ∈ front, isBlank c = true) ∧ ∀ c ∈ back, isBlank c = true := by
  refine ⟨t.takeWhile isBlank, ((t.dropWhile isBlank).reverse.takeWhile isBlank).reverse, ?_,
    fun c hc => ?_, fun c hc => ?_⟩
  · rw [trim, ← List.reverse_append, List.takeWhile_append_dropWhile, List.reverse_reverse,
      List.takeWhile_append_dropWhile]
  · exact List.mem_takeWhile_imp hc
  · exact List.mem_takeWhile_imp (List.mem_reverse.mp hc)

theorem isTrimmed_trim {t : Text} (h : trim t ≠ []) : IsTrimmed (trim t) := by
  refine ⟨h, fun c hc => ?_, fun c hc => ?_⟩
  · have hprefix : trim t <+: t.dropWhile isBlank := by
      have hsuffix := List.dropWhile_suffix (l := (t.dropWhile isBlank).reverse) isBlank
      rwa [← List.reverse_prefix, List.reverse_reverse] at hsuffix
    obtain ⟨back, hback⟩ := hprefix
    refine head?_dropWhile_isBlank (t := t) ?_
    rw [← hback, List.head?_append_of_ne_nil _ h, hc]
  · rw [trim, List.getLast?_reverse] at hc
    exact head?_dropWhile_isBlank hc

/-- Between two texts without outer blanks anything may stand. -/
theorem IsTrimmed.append {a b : Text} (ha : IsTrimmed a) (hb : IsTrimmed b) (between : Text) :
    IsTrimmed (a ++ (between ++ b)) := by
  refine ⟨by simp [ha.1], fun c hc => ha.2.1 c ?_, fun c hc => hb.2.2 c ?_⟩
  · rwa [List.head?_append_of_ne_nil _ ha.1] at hc
  · rwa [List.getLast?_append_of_ne_nil _ (by simp [hb.1]),
      List.getLast?_append_of_ne_nil _ hb.1] at hc

/-- A text between two characters that are no blanks. -/
theorem isTrimmed_between {c d : Char} (hc : isBlank c = false) (hd : isBlank d = false)
    (t : Text) :
    IsTrimmed (c :: (t ++ [d])) := by
  refine ⟨List.cons_ne_nil _ _, fun e he => ?_, fun e he => ?_⟩
  · cases he
    exact hc
  · rw [← List.cons_append, List.getLast?_concat] at he
    cases he
    exact hd

end Text

namespace Script

/-! ### Literals -/

/-- The body that is written for a text ends with the backtick behind it. The `$` before a `{` of
the text is escaped, so it never opens a substitution. -/
theorem isClosedBy_encode (t : Text) : (State.inside .template).IsClosedBy (encode t ++ ['`']) := by
  suffices h : ∀ pending : Pending, pending = .none ∨ (pending = .dollar ∧ t.head? ≠ some '{') →
      State.IsClosedBy ⟨[.template], pending⟩ (encode t ++ ['`']) from h .none (.inl rfl)
  fun_induction encode t with
  | case1 =>
    intro pending hp
    rcases hp with rfl | ⟨rfl, -⟩ <;> rfl
  | case2 rest ih =>
    intro pending hp
    refine State.isClosedBy_cons.mpr ⟨⟨[.template], .escape⟩, ?_, .inr ⟨by simp, ?_⟩⟩
    · rcases hp with rfl | ⟨rfl, -⟩ <;> rfl
    · refine State.isClosedBy_cons.mpr ⟨⟨[.template], .none⟩, rfl, .inr ⟨by simp, ?_⟩⟩
      exact State.isClosedBy_cons.mpr ⟨⟨[.template], .none⟩, rfl,
        .inr ⟨by simp, ih .none (.inl rfl)⟩⟩
  | case3 c rest _ hc ih =>
    intro pending hp
    refine State.isClosedBy_cons.mpr ⟨⟨[.template], .escape⟩, ?_, .inr ⟨by simp, ?_⟩⟩
    · rcases hp with rfl | ⟨rfl, -⟩ <;> rfl
    · exact State.isClosedBy_cons.mpr ⟨⟨[.template], .none⟩, rfl,
        .inr ⟨by simp, ih .none (.inl rfl)⟩⟩
  | case4 c rest hdollar hc ih =>
    intro pending hp
    simp only [Bool.or_eq_true, beq_iff_eq, not_or] at hc
    have hopens : (pending == .dollar && c == '{') = false := by
      rcases hp with rfl | ⟨rfl, hne⟩
      · rfl
      · simpa using hne
    have hescape : (pending == .escape) = false := by rcases hp with rfl | ⟨rfl, -⟩ <;> rfl
    by_cases hd : c = '$'
    · refine State.isClosedBy_cons.mpr ⟨⟨[.template], .dollar⟩, ?_,
        .inr ⟨by simp, ih .dollar (.inr ⟨rfl, ?_⟩)⟩⟩
      · simp [State.step, hescape, hd]
      · intro he
        cases rest with
        | nil => cases he
        | cons d rest =>
          cases he
          exact hdollar rest hd rfl
    · refine State.isClosedBy_cons.mpr ⟨⟨[.template], .none⟩, ?_,
        .inr ⟨by simp, ih .none (.inl rfl)⟩⟩
      simp [State.step, hopens, hescape, hc, hd]

/-- What the JSON writer makes of a character: itself, a backslash and one character that stands for
it, or its code point. -/
theorem escapeChar_cases (c : Char) :
    (Json.escapeChar c = [c] ∧ c ≠ '"' ∧ c ≠ '\\' ∧ 0x20 ≤ c.toNat) ∨
      (∃ e, Json.escapeChar c = ['\\', e] ∧ escapedChar e = [c] ∧ e ≠ 'x' ∧ e ≠ 'u') ∨
      (c.toNat < 0x20 ∧ Json.escapeChar c = "\\u00" ++ Json.hexByte c.toNat) := by
  by_cases h : c ∈ ['"', '\\', '\x08', '\x0c', '\n', '\r', '\t']
  · refine .inr (.inl ?_)
    simp only [List.mem_cons, List.not_mem_nil, or_false] at h
    rcases h with rfl | rfl | rfl | rfl | rfl | rfl | rfl
    all_goals exact ⟨_, rfl, rfl, by decide, by decide⟩
  · simp only [List.mem_cons, List.not_mem_nil, or_false, not_or] at h
    by_cases hc : c.toNat < 0x20
    · exact .inr (.inr ⟨hc, by simp [Json.escapeChar, h, hc]⟩)
    · exact .inl ⟨by simp [Json.escapeChar, h, hc], h.1, h.2.1, by omega⟩

theorem isStringBody_cons {quote c : Char} (hq : c ≠ quote) (hb : c ≠ '\\') (hn : c ≠ '\n')
    (hr : c ≠ '\r') (rest : Text) :
    isStringBody quote (c :: rest) = isStringBody quote rest := by
  rw [isStringBody.eq_def]
  split <;> simp_all

theorem isStringBody_visible {c : Char} (hq : c ≠ '"') (hb : c ≠ '\\') (hc : 0x20 ≤ c.toNat)
    (rest : Text) :
    isStringBody '"' (c :: rest) = isStringBody '"' rest := by
  have hn : c ≠ '\n' := by rintro rfl; exact absurd hc (by decide)
  have hr : c ≠ '\r' := by rintro rfl; exact absurd hc (by decide)
  exact isStringBody_cons hq hb hn hr rest

/-- An escaped character stands in the body of a string. -/
theorem isStringBody_escapeChar (c : Char) (rest : Text) :
    isStringBody '"' (Json.escapeChar c ++ rest) = isStringBody '"' rest := by
  rcases escapeChar_cases c with ⟨he, hq, hb, hc⟩ | ⟨e, he, -⟩ | ⟨hc, he⟩
  · rw [he]
    exact isStringBody_visible hq hb hc rest
  · rw [he]
    rfl
  · have hdigits : ∀ n < 0x20, (Json.hexByte n).all (fun d => d != '"' && d != '\\' &&
        0x20 ≤ d.toNat) = true := by
      decide
    have hd := hdigits _ hc
    simp only [Json.hexByte, List.all_cons, List.all_nil, Bool.and_true, Bool.and_eq_true,
      bne_iff_ne, ne_eq, decide_eq_true_eq] at hd
    obtain ⟨⟨⟨hq1, hb1⟩, h1⟩, ⟨hq2, hb2⟩, h2⟩ := hd
    rw [he]
    show isStringBody '"' ('0' :: '0' :: Nat.digitChar (c.toNat / 16) ::
      Nat.digitChar (c.toNat % 16) :: rest) = _
    rw [isStringBody_visible (by decide) (by decide) (by decide),
      isStringBody_visible (by decide) (by decide) (by decide), isStringBody_visible hq1 hb1 h1,
      isStringBody_visible hq2 hb2 h2]

theorem isStringBody_escaped (t : Text) : isStringBody '"' (t.flatMap Json.escapeChar) = true := by
  induction t with
  | nil => rfl
  | cons c rest ih => rw [List.flatMap_cons, isStringBody_escapeChar, ih]

theorem isClosedBy_escaped (t : Text) :
    (State.inside (.quoted '"')).IsClosedBy (t.flatMap Json.escapeChar ++ ['"']) :=
  closing_string (.inr rfl) (isStringBody_escaped t) []

/-! ### Names -/

/-- The characters that are punctuation of the readers. -/
def punctuation : List Char := ['\'', '"', '`', '(', '[', '{', ')', ']', '}', '/', ',', ':']

theorem of_not_mem_punctuation {c : Char} (h : c ∉ punctuation) :
    isOrdinary c = true ∧ c ∉ [',', ':'] := by
  simp only [punctuation, List.mem_cons, List.not_mem_nil, or_false, not_or] at h
  simp [isOrdinary, literal?, closer?, isCloser, h]

/-- The characters of paths. -/
def isPathChar (c : Char) : Bool :=
  Text.isWord c || c == '$' || Text.isBlank c || c == '?' || c == '.'

theorem not_mem_punctuation {c : Char} (h : isPathChar c = true) : c ∉ punctuation := by
  have hall : (punctuation.all fun d => !isPathChar d) = true := rfl
  intro hc
  have hn := List.all_eq_true.mp hall c hc
  rw [h] at hn
  cases hn

theorem isWord_of_isNameChar {c : Char} (h : isNameChar c = true) :
    (Text.isWord c || c == '$') = true := by
  have hlt := (toNat_of_isNameChar h).2
  have hascii : c.toNat < 0x80 := by omega
  simp only [isNameChar, Text.isWord, hascii, if_true, Bool.or_eq_true] at h ⊢
  exact h

theorem isWord_of_isNameStart {c : Char} (h : isNameStart c = true) :
    (Text.isWord c || c == '$') = true :=
  isWord_of_isNameChar (isNameChar_of_isNameStart h)

/-- No blank is a character of a name. -/
theorem isBlank_of_isWord {c : Char} (h : (Text.isWord c || c == '$') = true) :
    Text.isBlank c = false := by
  have hall :
      ([9, 10, 11, 12, 13, 0x20, 0x85, 0xA0, 0x1680, 0x2000, 0x2001, 0x2002, 0x2003, 0x2004, 0x2005,
      0x2006, 0x2007, 0x2008, 0x2009, 0x200A, 0x2028, 0x2029, 0x202F, 0x205F, 0x3000].all fun n =>
      !(Text.isWord (Char.ofNat n) || Char.ofNat n == '$')) = true := by decide +kernel
  rw [Bool.eq_false_iff]
  intro hb
  have hn := List.all_eq_true.mp hall c.toNat (by
    simp only [Text.isBlank, Bool.or_eq_true, Bool.and_eq_true, decide_eq_true_eq, beq_iff_eq] at hb
    simp only [List.mem_cons, List.not_mem_nil, or_false]
    omega)
  rw [Char.ofNat_toNat, h] at hn
  cases hn

/-- Where a path goes on behind its first character: only a name may end it. -/
theorem exists_accepts {state : PathState} {c : Char} {rest : Text}
    (h : state.accepts (c :: rest) = true) :
    ∃ next : PathState, next.accepts rest = true ∧ isPathChar c = true ∧
      (next = .inName → (Text.isWord c || c == '$') = true) := by
  have ofWord (hc : (Text.isWord c || c == '$') = true) :
      isPathChar c = true := by simp_all [isPathChar]
  have ofStart (hc : isNameStart c = true) : isPathChar c = true :=
    ofWord (isWord_of_isNameStart hc)
  cases state with
  | start =>
    simp only [PathState.accepts, Bool.and_eq_true] at h
    exact ⟨.inName, h.2, ofStart h.1, fun _ => isWord_of_isNameStart h.1⟩
  | inName =>
    simp only [PathState.accepts] at h
    split at h
    · next hc => exact ⟨.inName, h, ofWord hc, fun _ => hc⟩
    split at h
    · next hc => exact ⟨.gap, h, by simp [isPathChar, hc], fun he => by cases he⟩
    split at h
    · next hc => exact ⟨.question, h, by simp_all [isPathChar], fun he => by cases he⟩
    · rw [Bool.and_eq_true] at h
      exact ⟨.point, h.2, by simp [isPathChar, h.1], fun he => by cases he⟩
  | gap =>
    simp only [PathState.accepts] at h
    split at h
    · next hc => exact ⟨.gap, h, by simp [isPathChar, hc], fun he => by cases he⟩
    split at h
    · next hc => exact ⟨.question, h, by simp_all [isPathChar], fun he => by cases he⟩
    · rw [Bool.and_eq_true] at h
      exact ⟨.point, h.2, by simp [isPathChar, h.1], fun he => by cases he⟩
  | question =>
    simp only [PathState.accepts, Bool.and_eq_true] at h
    exact ⟨.point, h.2, by simp [isPathChar, h.1], fun he => by cases he⟩
  | point =>
    simp only [PathState.accepts] at h
    split at h
    · next hc => exact ⟨.point, h, by simp [isPathChar, hc], fun he => by cases he⟩
    · rw [Bool.and_eq_true] at h
      exact ⟨.inName, h.2, ofStart h.1, fun _ => isWord_of_isNameStart h.1⟩

theorem accepts_nil {state : PathState} : state.accepts [] = true ↔ state = .inName := by
  cases state <;> simp [PathState.accepts]

/-- What a path is made of, and that it ends in a name. -/
theorem of_accepts {state : PathState} {t : Text} (h : state.accepts t = true) :
    (∀ c ∈ t, isPathChar c = true) ∧
      ∀ c, t.getLast? = some c → (Text.isWord c || c == '$') = true := by
  induction t generalizing state with
  | nil => simp
  | cons c rest ih =>
    obtain ⟨next, hrest, hc, hend⟩ := exists_accepts h
    obtain ⟨hall, hlast⟩ := ih hrest
    refine ⟨fun d hd => ?_, fun d hd => ?_⟩
    · rcases List.mem_cons.mp hd with rfl | hd
      · exact hc
      · exact hall d hd
    · cases rest with
      | nil =>
        cases hd
        exact hend (accepts_nil.mp hrest)
      | cons e rest => exact hlast d (by simpa using hd)

theorem exists_isNameStart {t : Text} (h : isPath t = true) :
    ∃ c rest, t = c :: rest ∧ isNameStart c = true := by
  cases t with
  | nil => cases h
  | cons c rest =>
    rw [isPath, PathState.accepts, Bool.and_eq_true] at h
    exact ⟨c, rest, rfl, h.1⟩

theorem isTrimmed_of_isPath {t : Text} (h : isPath t = true) : Text.IsTrimmed t := by
  obtain ⟨c, rest, rfl, hc⟩ := exists_isNameStart h
  refine ⟨List.cons_ne_nil _ _, fun d hd => ?_,
    fun d hd => isBlank_of_isWord ((of_accepts h).2 d hd)⟩
  cases hd
  exact isBlank_of_isWord (isWord_of_isNameStart hc)

theorem balanced_of_isPath {t : Text} (h : isPath t = true) : Balanced [',', ':'] t :=
  .of_ordinary fun c hc => of_not_mem_punctuation (not_mem_punctuation ((of_accepts h).1 c hc))

theorem isPath_of_isName {t : Text} (h : isName t = true) : isPath t = true := by
  have hmore : ∀ u : Text, u.all isNameChar = true → PathState.inName.accepts u = true := by
    intro u hu
    induction u with
    | nil => rfl
    | cons c u ih =>
      rw [List.all_cons, Bool.and_eq_true] at hu
      have hc : (Text.isWord c || c == '$') = true := isWord_of_isNameChar hu.1
      rw [PathState.accepts, if_pos hc]
      exact ih hu.2
  cases t with
  | nil => cases h
  | cons c rest =>
    rw [isName, Bool.and_eq_true] at h
    rw [isPath, PathState.accepts, h.1, hmore rest h.2]
    rfl

end Script

open Script

/-! ### Arguments -/

/-- The words that no argument takes for a name. -/
def isConstant (t : Text) : Bool := t == "undefined" || t == "null" || t == "true" || t == "false"

mutual

/-- Whether an argument is made of strings, paths and constants, by arrays and objects. -/
def Argument.isPrintable : Argument → Bool
  | .string _ => true
  | .name path => isPath path && !isConstant path
  | .array elements => arePrintable elements
  | .object properties => arePrintableProperties properties
  | .other raw => isConstant raw
  | .number _ => false
  | .call _ _ _ => false

def arePrintable : List Argument → Bool
  | [] => true
  | a :: rest => a.isPrintable && arePrintable rest

def arePrintableProperties : Properties → Bool
  | [] => true
  | (_, a) :: rest => a.isPrintable && arePrintableProperties rest

end

theorem isPath_of_isConstant {t : Text} (h : isConstant t = true) : isPath t = true := by
  simp only [isConstant, Bool.or_eq_true, beq_iff_eq] at h
  rcases h with ((rfl | rfl) | rfl) | rfl <;> decide

theorem isTrimmed_toScript {a : Argument} (h : a.isPrintable = true) :
    Text.IsTrimmed a.toScript := by
  cases a with
  | string value => exact Text.isTrimmed_between (by decide) (by decide) _
  | name path =>
    rw [Argument.isPrintable, Bool.and_eq_true] at h
    exact isTrimmed_of_isPath h.1
  | array elements => exact Text.isTrimmed_between (by decide) (by decide) _
  | object properties => exact Text.isTrimmed_between (by decide) (by decide) _
  | other raw => exact isTrimmed_of_isPath (isPath_of_isConstant h)
  | number value => cases h
  | call callee arguments raw => cases h

theorem balanced_literal {quote : Char} {r : Region} {body : Text} (h : literal? quote = some r)
    (ha : quote ∉ [',', ':']) (hbody : (State.inside r).IsClosedBy body) :
    Balanced [',', ':'] (quote :: body) := by
  simpa using Balanced.literal h ha hbody .nil

/-! ### Keys -/

/-- A key is written as a name or between quotes. -/
theorem keyScript_cases (key : Text) :
    (isName key = true ∧ keyScript key = key) ∨
      keyScript key = '"' :: (key.flatMap Json.escapeChar ++ ['"']) := by
  cases key with
  | nil => exact .inr rfl
  | cons c rest =>
    by_cases h : (isNameStart c && rest.all isNameChar) = true
    · exact .inl ⟨h, by simp only [keyScript, h, if_true]⟩
    · exact .inr (by rw [keyScript, if_neg h]; rfl)

theorem isTrimmed_keyScript (key : Text) : Text.IsTrimmed (keyScript key) := by
  rcases keyScript_cases key with ⟨hname, he⟩ | he
  · rw [he]
    exact isTrimmed_of_isPath (isPath_of_isName hname)
  · rw [he]
    exact Text.isTrimmed_between (by decide) (by decide) _

theorem balanced_keyScript (key : Text) : Balanced [',', ':'] (keyScript key) := by
  rcases keyScript_cases key with ⟨hname, he⟩ | he
  · rw [he]
    exact balanced_of_isPath (isPath_of_isName hname)
  · rw [he]
    exact balanced_literal rfl (by decide) (isClosedBy_escaped key)

theorem balanced_property (key : Text) {value : Text} (h : Balanced [',', ':'] value) :
    Balanced [','] (keyScript key ++ ':' :: ' ' :: value) := by
  have hkey : Balanced [','] (keyScript key) := (balanced_keyScript key).mono (by simp)
  have hvalue : Balanced [','] value := h.mono (by simp)
  exact hkey.append (.ordinary (by decide) (by decide) (.ordinary (by decide) (by decide) hvalue))

/-! ### Lists -/

/-- A list is balanced, whatever blanks stand behind its commas. -/
theorem balanced_join_blanks {blanks : Text} (hblanks : ∀ c ∈ blanks, c = ' ') {parts : List Text}
    (h : ∀ part ∈ parts, Balanced [','] part) : Balanced [] (Text.join (',' :: blanks) parts) := by
  have hblanks : Balanced [] blanks := .of_ordinary fun c hc => by rw [hblanks c hc]; decide
  induction parts with
  | nil => exact .nil
  | cons part rest ih =>
    have hpart := (h part List.mem_cons_self).mono (List.nil_subset _)
    have hrest := ih fun p hp => h p (List.mem_cons_of_mem _ hp)
    cases rest with
    | nil => rwa [Text.join_singleton]
    | cons next rest =>
      rw [Text.join_cons (List.cons_ne_nil _ _)]
      exact (hpart.append (.ordinary rfl (by simp) hblanks)).append hrest

theorem balanced_join {parts : List Text} (h : ∀ part ∈ parts, Balanced [','] part) :
    Balanced [] (Text.join ", " parts) :=
  balanced_join_blanks (by simp : ∀ c ∈ [' '], c = ' ') h

/-- A group around a list. -/
theorem balanced_group {opener closer : Char} (h : closer? opener = some closer)
    (ha : opener ∉ [',', ':']) {parts : List Text} (hparts : ∀ part ∈ parts, Balanced [','] part) :
    Balanced [',', ':'] (opener :: Text.join ", " parts ++ [closer]) :=
  .group h ha (balanced_join hparts) .nil

mutual

/-- **What is written for an argument is one piece.** -/
theorem balanced_toScript (a : Argument) (h : a.isPrintable = true) :
    Balanced [',', ':'] a.toScript := by
  cases a with
  | string value =>
    exact balanced_literal rfl (by decide) (isClosedBy_encode value)
  | name path =>
    rw [Argument.isPrintable, Bool.and_eq_true] at h
    exact balanced_of_isPath h.1
  | array elements =>
    rw [Argument.isPrintable] at h
    rw [Argument.toScript]
    exact balanced_group rfl (by decide) (balanced_elementScripts elements h)
  | object properties =>
    rw [Argument.isPrintable] at h
    rw [Argument.toScript]
    exact balanced_group rfl (by decide) (balanced_propertyScripts properties h)
  | other raw => exact balanced_of_isPath (isPath_of_isConstant h)
  | number value => cases h
  | call callee arguments raw => cases h

theorem balanced_elementScripts (elements : List Argument) (h : arePrintable elements = true) :
    ∀ part ∈ elementScripts elements, Balanced [','] part := by
  cases elements with
  | nil => simp [elementScripts]
  | cons a rest =>
    rw [arePrintable, Bool.and_eq_true] at h
    intro part hp
    rcases List.mem_cons.mp hp with rfl | hp
    · exact (balanced_toScript a h.1).mono (by simp)
    · exact balanced_elementScripts rest h.2 part hp

theorem balanced_propertyScripts (properties : Properties)
    (h : arePrintableProperties properties = true) :
    ∀ part ∈ propertyScripts properties, Balanced [','] part := by
  cases properties with
  | nil => simp [propertyScripts]
  | cons property rest =>
    obtain ⟨key, a⟩ := property
    rw [arePrintableProperties, Bool.and_eq_true] at h
    intro part hp
    rcases List.mem_cons.mp hp with rfl | hp
    · exact balanced_property key (balanced_toScript a h.1)
    · exact balanced_propertyScripts rest h.2 part hp

end

end Localization
