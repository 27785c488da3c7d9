import Mathlib
import Localization.Proofs.Argument.Rewritten
import Localization.Proofs.Number.Plain

/-! What an argument text means when it runs.

An `Engine` decides what a run of the script reads in the body of a literal, in a numeral and in
a key. With it a text spells an `Expression`: texts that the reader does not look into stand for
themselves, a template is its texts and its live substitutions in order, an object its
properties in order. Texts that spell one expression have one value in every run.

What is written for an argument spells the expression of its text exactly if nothing in the text
gets lost (`expression_rewritten_iff`): no template among its literals holds a substitution, for
one that was read is text ever after (`substitutions_rewritten`); no array has a gap; each body,
numeral and key is what the reader takes it for. -/
namespace Localization

open Script

/-! ### Engines -/

/-- The text of a template: every end of a line is one line feed. -/
def lineEnds : Text → Text
  | '\r' :: '\n' :: rest => '\n' :: lineEnds rest
  | c :: rest => (if c == '\r' then '\n' else c) :: lineEnds rest
  | [] => []

/-- What a run of a script reads in the parts of an expression. It reads what is written for a
text, a key and a double as these; in a template the ends of lines become line feeds. -/
structure Engine where
  /-- The text that a body without substitutions denotes between two quotes or backticks. -/
  denoted : Char → Text → Text
  /-- The number that a text spells if it is a numeral. -/
  number? : Text → Option Binary64
  /-- The name of the property whose key is a numeral. -/
  name : Text → Text
  denoted_encode : ∀ t, denoted '`' (encode t) = lineEnds t
  denoted_escaped : ∀ t : Text, denoted '"' (t.flatMap Json.escapeChar) = t
  number?_plain : ∀ x : Binary64, x.IsNormal → number? (Decimal.plain x) = if x.isFinite then
    some x else none

/-! ### Expressions -/

/-- What a property of an object literal sets. -/
inductive Key where
  | property (name : Text)
  /-- The prototype of the object. -/
  | prototype
  deriving DecidableEq

/-- The key that sets the prototype when a value stands behind it. -/
def prototypeName : Text := "__proto__".toList

def Key.ofName (name : Text) : Key := if name = prototypeName then .prototype else .property name

/-- What a text spells. -/
inductive Expression where
  /-- An expression that stands for itself. -/
  | verbatim (text : Text)
  | number (value : Binary64)
  /-- A string: a text, and the substitutions behind it, each with the text that follows it. -/
  | string (first : Text) (more : List (Text × Text))
  | array (elements : List Expression)
  | object (members : List (Key × Expression))
  /-- Nothing between two commas of an array. -/
  | gap

mutual

/-- The live substitutions of the strings of an expression, in order. -/
def Expression.substitutions : Expression → List Text
  | .string _ more => more.map (·.1)
  | .array elements => elementSubstitutions elements
  | .object members => memberSubstitutions members
  | _ => []

def elementSubstitutions : List Expression → List Text
  | [] => []
  | e :: rest => e.substitutions ++ elementSubstitutions rest

def memberSubstitutions : List (Key × Expression) → List Text
  | [] => []
  | (_, e) :: rest => e.substitutions ++ memberSubstitutions rest

end

/-- Whether a character leads from the text of a template into a substitution, or out of it. -/
def crosses (s next : State) : Bool :=
  s.regions.length == 1 && next.regions.length == 2 || s.regions.length == 2 &&
    next.regions.length == 1

/-- The body of a template cut at the braces of its substitutions: texts and substitutions in
turn. -/
def segments (s : State) : Text → List Text
  | [] => [[]]
  | c :: rest =>
    match s.step c with
    | none => [c :: rest]
    | some next =>
      if crosses s next then [] :: segments next rest else Text.consHead c (segments next rest)

/-- The texts of a template as what they denote, and its substitutions. A text in front of a
substitution ends with the dollar sign of that. -/
def templateParts (denoted : Text → Text) : List Text → Text × List (Text × Text)
  | [] => ([], [])
  | [text] => (denoted text, [])
  | text :: substitution :: rest =>
    let (next, more) := templateParts denoted rest
    (denoted text.dropLast, (substitution, next) :: more)

/-- What a literal spells. -/
def literalExpression (engine : Engine) (quote : Char) (body : Text) : Expression :=
  if quote = '`' then
    let (first, more) := templateParts (engine.denoted '`') (segments (.inside .template) body)
    .string first more
  else .string (engine.denoted quote body) []

/-- What a text spells that is no literal in quotes, array or object. -/
def plainExpression (engine : Engine) (text : Text) : Expression :=
  match engine.number? text with
  | some x => .number x
  | none => .verbatim text

/-- What the key of a property sets. A name that is its own value never sets the prototype. -/
def KeyForm.key (engine : Engine) : KeyForm → Key
  | word name => .ofName name
  | quoted quote body => .ofName (engine.denoted quote body)
  | numeral text => .property (engine.name text)
  | shorthand name => .property name

mutual

/-- What a text of a shape spells. -/
def Shape.expression (engine : Engine) : Shape → Expression
  | .plain text => plainExpression engine text
  | .literal quote body => literalExpression engine quote body
  | .array elements => .array (elementExpressions engine elements)
  | .object members => .object (memberExpressions engine members)
  | .gap => .gap

def elementExpressions (engine : Engine) : List Shape → List Expression
  | [] => []
  | s :: rest => s.expression engine :: elementExpressions engine rest

def memberExpressions (engine : Engine) : List (KeyForm × Shape) → List (Key × Expression)
  | [] => []
  | (key, s) :: rest => (key.key engine, s.expression engine) :: memberExpressions engine rest

end

/-- What a text spells. -/
def expressionOf (engine : Engine) (text : Text) : Expression := (shape text).expression engine

/-! ### What is kept -/

/-- Whether a text that spells a double is that double in a run. -/
def IsKeptPlain (engine : Engine) (text : Text) : Prop :=
  ∀ x, Decimal.ofScript? text = some x → x.isFinite = true ∧ engine.number? text = some x

/-- Whether a literal holds no substitution, and its body denotes what it is read as. -/
def IsKeptLiteral (engine : Engine) (quote : Char) (body : Text) : Prop :=
  (quote = '`' → segments (.inside .template) body = [body]) ∧
  engine.denoted quote body = lineEnds (decode body)

/-- Whether a key sets the property of the name that it is read as. -/
def KeyForm.IsKept (engine : Engine) : KeyForm → Prop
  | word _ => True
  | quoted quote body => engine.denoted quote body = decode body
  | numeral text => engine.name text = text ∧ text ≠ prototypeName
  | shorthand name => name ≠ prototypeName

mutual

/-- Whether nothing that a text spells gets lost when it is read and written again. -/
def Shape.IsKept (engine : Engine) : Shape → Prop
  | .plain text => IsKeptPlain engine text
  | .literal quote body => IsKeptLiteral engine quote body
  | .array elements => AreKeptElements engine elements
  | .object members => AreKeptMembers engine members
  | .gap => True

def AreKeptElements (engine : Engine) : List Shape → Prop
  | [] => True
  | s :: rest => (s ≠ .gap ∧ s.IsKept engine) ∧ AreKeptElements engine rest

def AreKeptMembers (engine : Engine) : List (KeyForm × Shape) → Prop
  | [] => True
  | (key, s) :: rest => (key.IsKept engine ∧ s.IsKept engine) ∧ AreKeptMembers engine rest

end

variable {engine : Engine}

/-! ### Numerals -/

/-- A numeral is read as a double in the one form of its value. -/
theorem isNormal_of_ofScript? {text : Text} {x : Binary64} (h : Decimal.ofScript? text = some x) :
    x.IsNormal := by
  have hread (negative : Bool) (digits : Nat) (exponent : Int) :
      (Decimal.toBinary64 negative digits exponent).IsNormal := by
    rw [Decimal.toBinary64]
    repeat' split
    · exact ⟨by decide, Nat.zero_le _, fun h => absurd rfl h⟩
    · trivial
    · exact ⟨by decide, Nat.zero_le _, fun h => absurd rfl h⟩
    · rw [Binary64.ofQuotient_eq_ofUnits]
      exact Binary64.isNormal_ofUnits _ _ Nat.one_pos
    · rw [Binary64.ofQuotient_eq_ofUnits]
      exact Binary64.isNormal_ofUnits _ _ (Nat.pow_pos (by decide))
  rw [Decimal.ofScript?] at h
  split at h
  · split at h
    · cases h
    · cases h
      exact hread _ _ _
  · cases h

/-- What is written for a double that is not finite is no numeral. -/
theorem ofScript?_plain_of_not_isFinite {x : Binary64} (h : x.isFinite = false) :
    Decimal.ofScript? (Decimal.plain x) = none := by
  cases x with
  | finite => cases h
  | infinite negative => cases negative <;> rfl
  | nan => rfl

theorem plainExpression_plainScript_iff (text : Text) :
    plainExpression engine (plainScript text) = plainExpression engine text ↔
      IsKeptPlain engine text := by
  rw [plainScript]
  cases hread : Decimal.ofScript? text with
  | none => exact ⟨fun _ x hx => (by rw [hread] at hx; cases hx), fun _ => rfl⟩
  | some x =>
    have hkept : IsKeptPlain engine text ↔ x.isFinite = true ∧ engine.number? text = some x := by
      rw [IsKeptPlain, hread]
      exact ⟨fun h => h x rfl, fun h y hy => Option.some.inj hy ▸ h⟩
    simp only [hkept, plainExpression, engine.number?_plain x (isNormal_of_ofScript? hread)]
    by_cases hfinite : x.isFinite = true
    · rw [if_pos hfinite]
      cases engine.number? text with
      | some y => simp [hfinite, eq_comm]
      | none => simp
    · rw [if_neg hfinite]
      have hfalse : x.isFinite = false := by simpa using hfinite
      cases engine.number? text with
      | some y => simp [hfalse]
      | none =>
        simp only [hfalse, Bool.false_eq_true, false_and, iff_false, Expression.verbatim.injEq]
        intro heq
        rw [← heq, ofScript?_plain_of_not_isFinite hfalse] at hread
        cases hread

/-! ### Literals -/

theorem segments_ne_nil (s : State) (t : Text) : segments s t ≠ [] := by
  cases t with
  | nil => exact List.cons_ne_nil _ _
  | cons c rest =>
    rw [segments]
    split
    · exact List.cons_ne_nil _ _
    · split
      · exact List.cons_ne_nil _ _
      · cases segments _ rest <;> exact List.cons_ne_nil _ _

/-- A body in one segment is that segment. -/
theorem eq_of_segments {s : State} {t u : Text} (h : segments s t = [u]) : u = t := by
  induction t generalizing s u with
  | nil => exact (List.cons.inj h).1.symm
  | cons c rest ih =>
    rw [segments] at h
    split at h
    · exact (List.cons.inj h).1.symm
    · next next _ =>
      split at h
      · exact absurd (List.cons.inj h).2 (segments_ne_nil next rest)
      · cases hrest : segments next rest with
        | nil => exact absurd hrest (segments_ne_nil next rest)
        | cons first others =>
          rw [hrest, Text.consHead, List.cons.injEq] at h
          have hfirst : first = rest := ih (by rw [hrest, h.2])
          rw [← h.1, hfirst]

theorem templateParts_snd_eq_nil (denoted : Text → Text) {l : List Text} (hne : l ≠ []) :
    (templateParts denoted l).2 = [] ↔ ∃ t, l = [t] := by
  cases l with
  | nil => exact absurd rfl hne
  | cons text others =>
    cases others with
    | nil => exact ⟨fun _ => ⟨text, rfl⟩, fun _ => rfl⟩
    | cons substitution rest =>
      rw [templateParts]
      exact ⟨fun h => (nomatch h), fun ⟨_, h⟩ => (nomatch h)⟩

/-- No substitution opens in the body that is written for a text. -/
theorem segments_encode (t : Text) : segments (.inside .template) (encode t) = [encode t] := by
  have hcons (next : State) {c : Char} {s : State} {rest : Text} (hstep : s.step c = some next)
      (hcross : crosses s next = false)
      (h : segments next rest = [rest]) : segments s (c :: rest) = [c :: rest] := by
    rw [segments, hstep]
    simp only [hcross, Bool.false_eq_true, if_false, h, Text.consHead]
  suffices h : ∀ pending : Pending, pending = .none ∨ (pending = .dollar ∧ t.head? ≠ some '\x7b') →
      segments ⟨[.template], pending⟩ (encode t) = [encode t] from h .none (.inl rfl)
  fun_induction encode t with
  | case1 => exact fun _ _ => rfl
  | case2 rest ih =>
    intro pending hp
    refine hcons ⟨[.template], .escape⟩ ?_ rfl ?_
    · rcases hp with rfl | ⟨rfl, -⟩ <;> rfl
    · exact hcons ⟨[.template], .none⟩ rfl rfl
        (hcons ⟨[.template], .none⟩ rfl rfl (ih .none (.inl rfl)))
  | case3 c rest _ hc ih =>
    intro pending hp
    refine hcons ⟨[.template], .escape⟩ ?_ rfl
      (hcons ⟨[.template], .none⟩ rfl rfl (ih .none (.inl rfl)))
    rcases hp with rfl | ⟨rfl, -⟩ <;> rfl
  | case4 c rest hdollar hc ih =>
    intro pending hp
    simp only [Bool.or_eq_true, beq_iff_eq, not_or] at hc
    have hopens : (pending == .dollar && c == '\x7b') = false := by
      rcases hp with rfl | ⟨rfl, hne⟩
      · rfl
      · simpa using hne
    have hescape : (pending == .escape) = false := by rcases hp with rfl | ⟨rfl, -⟩ <;> rfl
    by_cases hd : c = '$'
    · refine hcons ⟨[.template], .dollar⟩ ?_ rfl (ih .dollar (.inr ⟨rfl, ?_⟩))
      · simp [State.step, hescape, hd]
      · intro he
        cases rest with
        | nil => cases he
        | cons d rest =>
          cases he
          exact hdollar rest hd rfl
    · refine hcons ⟨[.template], .none⟩ ?_ rfl (ih .none (.inl rfl))
      simp [State.step, hopens, hescape, hc, hd]

/-- What is written for a string is its text, with line feeds for the ends of its lines. -/
theorem literalExpression_encode (t : Text) :
    literalExpression engine '`' (encode t) = .string (lineEnds t) [] := by
  rw [literalExpression, if_pos rfl, segments_encode, ← engine.denoted_encode]
  rfl

theorem literalExpression_encode_iff (quote : Char) (body : Text) :
    literalExpression engine '`' (encode (decode body)) = literalExpression engine quote body ↔
      IsKeptLiteral engine quote body := by
  rw [literalExpression_encode, literalExpression, IsKeptLiteral]
  by_cases hquote : quote = '`'
  · subst hquote
    simp only [if_true, true_implies, Expression.string.injEq]
    have hmore :=
      templateParts_snd_eq_nil (engine.denoted '`') (segments_ne_nil (.inside .template) body)
    constructor
    · rintro ⟨hfirst, hnone⟩
      obtain ⟨t, ht⟩ := hmore.mp hnone.symm
      obtain rfl := eq_of_segments ht
      rw [ht] at hfirst
      exact ⟨ht, hfirst.symm⟩
    · rintro ⟨hone, hdenoted⟩
      rw [hone]
      exact ⟨hdenoted.symm, rfl⟩
  · simp only [hquote, if_false, false_implies, true_and, Expression.string.injEq,
      and_true, eq_comm]

/-! ### Keys -/

theorem ofName_inj {a b : Text} : Key.ofName a = Key.ofName b ↔ a = b := by
  rw [Key.ofName, Key.ofName]
  split <;> split <;> simp_all [eq_comm]

/-- A key that is written sets the property of its name, or the prototype. -/
theorem key_written (name : Text) : (KeyForm.written name).key engine = .ofName name := by
  rw [KeyForm.written]
  split
  · rfl
  · rw [KeyForm.key, engine.denoted_escaped]

theorem key_written_iff (key : KeyForm) :
    (KeyForm.written key.text).key engine = key.key engine ↔ key.IsKept engine := by
  have hproperty {a b : Text} : Key.ofName a = .property b ↔ b = a ∧ a ≠ prototypeName := by
    rw [Key.ofName]
    split <;> simp_all [eq_comm]
  rw [key_written]
  cases key with
  | word name => exact iff_of_true rfl trivial
  | quoted quote body => exact ofName_inj.trans eq_comm
  | numeral text => exact hproperty
  | shorthand name => exact hproperty.trans (and_iff_right rfl)

/-! ### All of it -/

theorem length_elementExpressions (elements : List Shape) :
    (elementExpressions engine elements).length = elements.length := by
  induction elements with
  | nil => rfl
  | cons s rest ih => rw [elementExpressions, List.length_cons, ih, List.length_cons]

theorem length_rewrittenElements_le (elements : List Shape) :
    (rewrittenElements elements).length ≤ elements.length := by
  induction elements with
  | nil => exact Nat.le_refl _
  | cons s rest ih =>
    by_cases hgap : s = .gap
    · subst hgap
      exact Nat.le_succ_of_le ih
    · rw [rewrittenElements_cons hgap]
      exact Nat.succ_le_succ ih

mutual

/-- **What is written for an argument spells the expression of its text exactly if nothing in
that gets lost.** -/
theorem expression_rewritten_iff (s : Shape) :
    s.rewritten.expression engine = s.expression engine ↔ s.IsKept engine := by
  cases s with
  | plain text => exact plainExpression_plainScript_iff text
  | literal quote body => exact literalExpression_encode_iff quote body
  | array elements =>
    rw [Shape.rewritten, Shape.expression, Shape.expression, Expression.array.injEq, Shape.IsKept]
    exact elementExpressions_rewritten_iff elements
  | object members =>
    rw [Shape.rewritten, Shape.expression, Shape.expression, Expression.object.injEq, Shape.IsKept]
    exact memberExpressions_rewritten_iff members
  | gap => exact iff_of_true rfl trivial

theorem elementExpressions_rewritten_iff (elements : List Shape) :
    elementExpressions engine (rewrittenElements elements) = elementExpressions engine elements ↔
      AreKeptElements engine elements := by
  cases elements with
  | nil => exact iff_of_true rfl trivial
  | cons s rest =>
    by_cases hgap : s = .gap
    · subst hgap
      refine iff_of_false (fun heq => ?_) fun hkept => hkept.1.1 rfl
      -- Without the gap the list is shorter.
      have hlength := congrArg List.length heq
      rw [length_elementExpressions, length_elementExpressions, rewrittenElements,
        List.length_cons] at hlength
      have := length_rewrittenElements_le rest
      omega
    · rw [rewrittenElements_cons hgap, elementExpressions, elementExpressions, List.cons.injEq,
        AreKeptElements, expression_rewritten_iff s, elementExpressions_rewritten_iff rest,
        and_iff_right hgap]

theorem memberExpressions_rewritten_iff (members : List (KeyForm × Shape)) :
    memberExpressions engine (rewrittenMembers members) = memberExpressions engine members ↔
      AreKeptMembers engine members := by
  cases members with
  | nil => exact iff_of_true rfl trivial
  | cons m rest =>
    obtain ⟨key, s⟩ := m
    rw [rewrittenMembers, memberExpressions, memberExpressions, List.cons.injEq, Prod.mk.injEq,
      AreKeptMembers, key_written_iff, expression_rewritten_iff s,
      memberExpressions_rewritten_iff rest]

end

mutual

/-- What is written for an argument has no live substitution in its strings. -/
theorem substitutions_rewritten (s : Shape) :
    (s.rewritten.expression engine).substitutions = [] := by
  cases s with
  | plain text =>
    rw [Shape.rewritten, Shape.expression, plainExpression]
    cases engine.number? (plainScript text) <;> rfl
  | literal quote body => rw [Shape.rewritten, Shape.expression, literalExpression_encode]; rfl
  | array elements => exact elementSubstitutions_rewritten elements
  | object members => exact memberSubstitutions_rewritten members
  | gap => rfl

theorem elementSubstitutions_rewritten (elements : List Shape) :
    elementSubstitutions (elementExpressions engine (rewrittenElements elements)) = [] := by
  cases elements with
  | nil => rfl
  | cons s rest =>
    by_cases hgap : s = .gap
    · subst hgap
      exact elementSubstitutions_rewritten rest
    · rw [rewrittenElements_cons hgap, elementExpressions, elementSubstitutions,
        substitutions_rewritten s, elementSubstitutions_rewritten rest, List.append_nil]

theorem memberSubstitutions_rewritten (members : List (KeyForm × Shape)) :
    memberSubstitutions (memberExpressions engine (rewrittenMembers members)) = [] := by
  cases members with
  | nil => rfl
  | cons m rest =>
    obtain ⟨key, s⟩ := m
    rw [rewrittenMembers, memberExpressions, memberSubstitutions, substitutions_rewritten s,
      memberSubstitutions_rewritten rest, List.append_nil]

end

end Localization
