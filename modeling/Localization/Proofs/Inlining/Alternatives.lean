import Mathlib
import Localization.Inlining.Chunk
import Localization.Proofs.Argument.Written
import Localization.Proofs.Inlining.Nested

/-! Chains at run time.

A chain is a disjunction of conjunctions of guards and literals (`Disjunction`). At run time an
operator gives the value of one of its two sides, as the first one is taken for true or false; a
guard is true for the category that the selector answers, a template literal unless it denotes the
empty text, and a number unless it is zero. `Run` is what a run of the script decides of that.

The first guard that is true leads to the literal of its category, which is the value of the whole
chain if it is taken for true, and otherwise the literal at the end is (`eval_alternatives`). So the
literal of the selected category is the value of the chain exactly if it is taken for true or stands
at the end: a category whose text is empty at run time, or whose value is zero, is passed over. -/
namespace Localization

theorem Text.join_concat {separator part : Text} {parts : List Text} (h : parts ≠ []) :
    join separator (parts ++ [part]) = join separator parts ++ separator ++ part := by
  induction parts with
  | nil => exact absurd rfl h
  | cons first rest ih =>
    cases rest with
    | nil =>
      rw [List.singleton_append, join_cons (List.cons_ne_nil _ _), join_singleton, join_singleton]
    | cons next rest =>
      rw [List.cons_append, join_cons (by simp), ih (List.cons_ne_nil _ _),
        join_cons (List.cons_ne_nil _ _)]
      simp only [List.append_assoc]

/-- The categories that can be selected end with `other`. -/
theorem Plural.categories_eq (lang : Text) (o : Plural.Options) :
    Plural.categories lang o = (Plural.categories lang o).dropLast ++ [.other] := by
  have hsplit : ∀ p : Plural.Category → Bool, p .other = true →
      Plural.Category.all.filter p = [.zero, .one, .two, .few, .many].filter p ++ [.other] := by
    intro p hp
    have hall : Plural.Category.all = [.zero, .one, .two, .few, .many] ++ [.other] := rfl
    rw [hall, List.filter_append, List.filter_cons_of_pos hp]
    rfl
  rw [categories, hsplit _ rfl, List.dropLast_concat]

theorem Plural.ofNat_mem_samples {n : Nat} (h : n ≤ 200) : Binary64.ofNat n ∈ Plural.samples := by
  have : Binary64.ofNat n ∈ (List.range 201).map Binary64.ofNat :=
    List.mem_map_of_mem (List.mem_range.mpr (by omega))
  simp only [samples, List.append_assoc]
  exact List.mem_append_left _ this

/-- What a sample selects can be selected. -/
theorem Plural.mem_categories_of_select? {lang : Text} {o : Plural.Options} {rules : Plural.Rules}
    {sample : Binary64} {c : Plural.Category} (hr : Plural.rules? o.kind lang = some rules)
    (hs : sample ∈ Plural.samples) (hc : Plural.select? rules o sample = some c) :
    c ∈ Plural.categories lang o := by
  have hselected : (samples.filterMap (select? rules o)).contains c = true :=
    List.contains_iff_mem.mpr (List.mem_filterMap.mpr ⟨sample, hs, hc⟩)
  rw [categories, hr, List.mem_filter, hselected, Bool.or_true]
  exact ⟨Category.mem_all c, rfl⟩

namespace Inlining

open Marker (Call)
open Plural (Category)

/-! ### Literals -/

/-- A value as script text: a template literal, a number, or an array or object. -/
inductive Literal where
  | template (body : Text)
  | number (value : Json.Number)
  | structured (value : Json.Value)

def Literal.text : Literal → Text
  | template body => '`' :: body ++ ['`']
  | number value => value.toText
  | structured value => value.compact

/-- The literal of a value, none if it counts as missing. -/
def literal? (params : Properties) : Option Json.Value → Option Literal
  | some (.string (c :: rest)) => some (.template (templateBody params (c :: rest)))
  | some (.number n) => some (.number n)
  | some (.object entries) => some (.structured (.object entries))
  | some (.array items) => some (.structured (.array items))
  | _ => none

/-- The literal in place of a missing value. -/
def absent : Literal := .template []

theorem valueText?_eq (params : Properties) (v : Option Json.Value) :
    valueText? params v = (literal? params v).map Literal.text := by
  rcases v with _ | v
  · rfl
  · cases v with
    | string t => cases t <;> rfl
    | _ => rfl

/-- A key that is looked up gives the text of its literal. -/
theorem lookup_eq (x : Context) (lang raw : Text) (params : Properties) :
    (x.lookup lang raw params).1 = ((literal? params (x.valueOf? lang raw)).getD absent).text := by
  rw [lookup_eq_getD, valueText?_eq]
  cases literal? params (x.valueOf? lang raw) <;> rfl

/-! ### A run -/

/-- What a run of the script decides. -/
structure Run where
  /-- The category that the selector answers. -/
  selected : Category
  /-- The text that the body of a template literal denotes. -/
  denoted : Text → Text
  /-- The body that is written for a text denotes that text. -/
  denoted_encode : ∀ t, denoted (Script.encode t) = t

/-- A run in which every template denotes what is written in it. -/
def Run.verbatim (selected : Category) : Run := ⟨selected, Script.decode, Script.decode_encode⟩

/-- Whether a number is taken for false: zero, and one that is none, which is written as `null`. -/
def isFalsyNumber : Json.Number → Bool
  | .integer i => i == 0
  | .double x => x.isZero || !x.isFinite

/-- Whether a literal is taken for true. -/
def Literal.isTruthy (run : Run) : Literal → Bool
  | template body => !(run.denoted body).isEmpty
  | number value => !isFalsyNumber value
  | structured _ => true

/-- A text without substitutions is taken for true unless it is empty. -/
theorem isTruthy_encode (run : Run) {t : Text} (h : t ≠ []) :
    (Literal.template (Script.encode t)).isTruthy run = true := by
  rw [Literal.isTruthy, run.denoted_encode, List.isEmpty_eq_false_iff.mpr h]
  rfl

/-! ### Disjunctions -/

/-- An operand of a chain, for a category: its guard or its literal. -/
inductive Operand where
  | guard (category : Category) (text : Text)
  | value (category : Category) (literal : Literal)

namespace Operand

def text : Operand → Text
  | guard _ text => text
  | value _ literal => literal.text

/-- A guard is true for the category that the selector answers. -/
def isTruthy (run : Run) : Operand → Bool
  | guard category _ => category == run.selected
  | value _ literal => literal.isTruthy run

end Operand

/-- Operands joined by `&&`. -/
inductive Conjunction where
  | operand (last : Operand)
  | and (rest : Conjunction) (last : Operand)

namespace Conjunction

def text : Conjunction → Text
  | operand last => last.text
  | and rest last => rest.text ++ " && " ++ last.text

/-- The value of a conjunction: the first operand that is taken for false, or the last one. -/
def eval (run : Run) : Conjunction → Operand
  | operand last => last
  | and rest last => if (rest.eval run).isTruthy run then last else rest.eval run

end Conjunction

/-- Conjunctions joined by `||`. -/
inductive Disjunction where
  | conjunction (last : Conjunction)
  | or (rest : Disjunction) (last : Conjunction)

namespace Disjunction

def text : Disjunction → Text
  | conjunction last => last.text
  | or rest last => rest.text ++ " || " ++ last.text

/-- The value of a disjunction: the first conjunction that is taken for true, or the last one. -/
def eval (run : Run) : Disjunction → Operand
  | conjunction last => last.eval run
  | or rest last => if (rest.eval run).isTruthy run then rest.eval run else last.eval run

/-- One more conjunction at the end. -/
def extend : Option Disjunction → Conjunction → Disjunction
  | none, last => .conjunction last
  | some rest, last => .or rest last

/-- Conjunctions joined in order, none if there are none. -/
def join? (conjunctions : List Conjunction) : Option Disjunction :=
  conjunctions.foldl (fun rest last => some (extend rest last)) none

theorem join?_concat (conjunctions : List Conjunction) (last : Conjunction) :
    join? (conjunctions ++ [last]) = some (extend (join? conjunctions) last) := by
  rw [join?, List.foldl_append]
  rfl

theorem eq_nil_of_join? {conjunctions : List Conjunction} (h : join? conjunctions = none) :
    conjunctions = [] := by
  induction conjunctions using List.reverseRecOn with
  | nil => rfl
  | append_singleton conjunctions last _ =>
    rw [join?_concat] at h
    cases h

theorem eval_extend_of_isTruthy {run : Run} {rest : Disjunction}
    (h : (rest.eval run).isTruthy run = true) (last : Conjunction) :
    (extend (some rest) last).eval run = rest.eval run := by
  rw [extend, eval, if_pos h]

theorem eval_extend_of_not_isTruthy {run : Run} {rest : Option Disjunction}
    (h : ∀ d ∈ rest, (d.eval run).isTruthy run = false) (last : Conjunction) :
    (extend rest last).eval run = last.eval run := by
  cases rest with
  | none => rfl
  | some d => rw [extend, eval, if_neg (by simp [h d rfl])]

/-- The text of conjunctions in order. -/
theorem text_extend_join? (conjunctions : List Conjunction) (last : Conjunction) :
    (extend (join? conjunctions) last).text =
      Text.join " || " ((conjunctions ++ [last]).map Conjunction.text) := by
  induction conjunctions using List.reverseRecOn generalizing last with
  | nil => exact (Text.join_singleton _ _).symm
  | append_singleton conjunctions next ih =>
    have hne : (conjunctions ++ [next]).map Conjunction.text ≠ [] := by simp
    have hmap : (conjunctions ++ [next] ++ [last]).map Conjunction.text =
        (conjunctions ++ [next]).map Conjunction.text ++ [last.text] := List.map_append
    rw [join?_concat, extend, text, ih, hmap, Text.join_concat hne]

end Disjunction

/-! ### Chains -/

section

variable (x : Context) (lang : Text) (call : Call)

/-- The categories that a plural call tells apart. -/
def categoriesOf : List Category := Plural.categories lang (Extraction.pluralOptions call)

/-- The raw key of a category. -/
def categoryKey (c : Category) : Text :=
  Key.ofCategory (Extraction.pluralBase x.config call) c x.config.keySeparator

/-- The literal of a category, none if its value counts as missing. -/
def variant? (c : Category) : Option Literal :=
  literal? (pluralParams call) (x.valueOf? lang (categoryKey x call c))

/-- The literal of a category, present or not. -/
def variantOf (c : Category) : Literal := (variant? x lang call c).getD absent

/-- The conjunction of a category: its guard and its literal. -/
def guardedVariant (c : Category) : Conjunction :=
  let options := (call.options?.bind Argument.properties?).getD []
  .and (.operand (.guard c (guardText lang (pluralValue call) options c)))
    (.value c (variantOf x lang call c))

/-- The disjunction of a plural call: every category but the last one behind its guard. -/
def alternatives : Disjunction :=
  .extend (Disjunction.join? ((categoriesOf lang call).dropLast.map (guardedVariant x lang call)))
    (.operand (.value .other (variantOf x lang call .other)))

variable {x : Context} {lang : Text} {call : Call}

/-- The value of a guarded conjunction at run time. -/
theorem eval_guardedVariant (run : Run) (c : Category) :
    (guardedVariant x lang call c).eval run =
      if c == run.selected then .value c (variantOf x lang call c)
      else .guard c (guardText lang (pluralValue call)
        ((call.options?.bind Argument.properties?).getD []) c) := rfl

/-- Behind guards, the literal of the selected category is the value if it is taken for true, and no
other operand is taken for true. -/
theorem eval_join?_guardedVariant (run : Run) (cs : List Category) :
    ∀ d ∈ Disjunction.join? (cs.map (guardedVariant x lang call)),
      if run.selected ∈ cs ∧ (variantOf x lang call run.selected).isTruthy run = true then
        d.eval run = .value run.selected (variantOf x lang call run.selected)
      else (d.eval run).isTruthy run = false := by
  induction cs using List.reverseRecOn with
  | nil => exact fun d hd => by cases hd
  | append_singleton cs c ih =>
    intro d hd
    rw [List.map_append, List.map_singleton, Disjunction.join?_concat] at hd
    obtain rfl := Option.some.inj hd
    by_cases hbefore : run.selected ∈ cs ∧ (variantOf x lang call run.selected).isTruthy run = true
    · -- The guard that is true stands further to the front.
      rw [if_pos ⟨List.mem_append_left _ hbefore.1, hbefore.2⟩]
      cases hjoin : Disjunction.join? (cs.map (guardedVariant x lang call)) with
      | none =>
        have hnil := Disjunction.eq_nil_of_join? hjoin
        rw [List.map_eq_nil_iff] at hnil
        rw [hnil] at hbefore
        exact absurd hbefore.1 List.not_mem_nil
      | some d =>
        have hd := ih d hjoin
        rw [if_pos hbefore] at hd
        rw [Disjunction.eval_extend_of_isTruthy (by rw [hd]; exact hbefore.2), hd]
    · have hfalsy : ∀ d ∈ Disjunction.join? (cs.map (guardedVariant x lang call)),
          (d.eval run).isTruthy run = false := by
        intro d hd
        have := ih d hd
        rwa [if_neg hbefore] at this
      rw [Disjunction.eval_extend_of_not_isTruthy hfalsy, eval_guardedVariant]
      by_cases hc : c = run.selected
      · subst hc
        rw [beq_self_eq_true, if_pos rfl]
        split
        · rfl
        · next hnot =>
          have : ¬ (variantOf x lang call run.selected).isTruthy run = true := by simpa using hnot
          simpa [Operand.isTruthy] using this
      · have hbeq : (c == run.selected) = false := beq_eq_false_iff_ne.mpr hc
        have hnot : ¬ (run.selected ∈ cs ++ [c] ∧
            (variantOf x lang call run.selected).isTruthy run = true) := by
          intro h
          rcases List.mem_append.mp h.1 with hmem | hmem
          · exact hbefore ⟨hmem, h.2⟩
          · exact hc (List.mem_singleton.mp hmem).symm
        rw [if_neg hnot, hbeq]
        exact hbeq

/-- The value of a chain at run time: the literal of the selected category if it is taken for
true, and otherwise the one at the end. -/
theorem eval_alternatives (run : Run) (h : run.selected ∈ categoriesOf lang call) :
    (alternatives x lang call).eval run =
      if (variantOf x lang call run.selected).isTruthy run then
        .value run.selected (variantOf x lang call run.selected)
      else .value .other (variantOf x lang call .other) := by
  have hguarded := @eval_join?_guardedVariant x lang call run (categoriesOf lang call).dropLast
  rw [categoriesOf, Plural.categories_eq, List.mem_append, List.mem_singleton] at h
  by_cases htruthy : run.selected ∈ (categoriesOf lang call).dropLast ∧
      (variantOf x lang call run.selected).isTruthy run = true
  · rw [if_pos htruthy.2, alternatives]
    cases hjoin :
      Disjunction.join? ((categoriesOf lang call).dropLast.map (guardedVariant x lang call)) with
    | none =>
      have hnil := Disjunction.eq_nil_of_join? hjoin
      rw [List.map_eq_nil_iff] at hnil
      rw [hnil] at htruthy
      exact absurd htruthy.1 List.not_mem_nil
    | some d =>
      have hd := hguarded d hjoin
      rw [if_pos htruthy] at hd
      rw [Disjunction.eval_extend_of_isTruthy (by rw [hd]; exact htruthy.2), hd]
  · have hfalsy :
        ∀ d ∈ Disjunction.join? ((categoriesOf lang call).dropLast.map
          (guardedVariant x lang call)),
        (d.eval run).isTruthy run = false := by
      intro d hd
      have := hguarded d hd
      rwa [if_neg htruthy] at this
    rw [alternatives, Disjunction.eval_extend_of_not_isTruthy hfalsy]
    rcases h with h | h
    · have hnot : ¬ (variantOf x lang call run.selected).isTruthy run = true :=
        fun ht => htruthy ⟨h, ht⟩
      rw [if_neg hnot]
      rfl
    · rw [h, ite_self]
      rfl

/-! ### The text of a chain -/

theorem map_zipIdx_of_lt {α β : Type} (f : α → Bool → β) (front : List α) (last : α) :
    ((front ++ [last]).zipIdx.map fun (a, index) =>
      f a (decide (index + 1 < (front ++ [last]).length))) =
      front.map (fun a => f a true) ++ [f last false] := by
  rw [List.zipIdx_append, List.map_append, List.length_append, List.length_singleton]
  congr 1
  · conv_rhs => rw [← List.zipIdx_map_fst 0 front, List.map_map]
    refine List.map_congr_left fun p hp => ?_
    obtain ⟨a, index⟩ := p
    have hlt : index + 1 < front.length + 1 := by
      have := (List.mem_zipIdx' hp).1
      omega
    simp [hlt]
  · simp

/-- The terms of a plural call, the last one apart. -/
theorem terms_eq (config : Config) (lang : Text) (call : Call) :
    terms config lang call =
      (categoriesOf lang call).dropLast.map (fun c =>
        ⟨c, some (guardText lang (pluralValue call)
          ((call.options?.bind Argument.properties?).getD []) c),
          Key.ofCategory (Extraction.pluralBase config call) c config.keySeparator⟩) ++
      [⟨.other, none, Key.ofCategory (Extraction.pluralBase config call) .other
        config.keySeparator⟩] := by
  have hall :
      Plural.categories lang (Plural.Options.ofProperties
        ((call.options?.bind Argument.properties?).getD [])) =
      (categoriesOf lang call).dropLast ++ [.other] := Plural.categories_eq lang _
  have hmap := map_zipIdx_of_lt (fun (c : Category) (guarded : Bool) => (⟨c,
      if guarded then some (guardText lang (pluralValue call)
        ((call.options?.bind Argument.properties?).getD []) c)
      else none,
      Key.ofCategory (Extraction.pluralBase config call) c config.keySeparator⟩ : Term))
    (categoriesOf lang call).dropLast .other
  simp only [terms, hall]
  simpa only [decide_eq_true_eq, if_true, Bool.false_eq_true, if_false] using hmap

/-- A category's key gives the text of its literal. -/
theorem lookup_categoryKey (x : Context) (lang : Text) (call : Call) (c : Category) :
    (x.lookup lang (categoryKey x call c) (pluralParams call)).1 = (variantOf x lang call c).text :=
  lookup_eq x _ _ _

/-- The terms with their values are the texts of the conjunctions. -/
theorem map_terms_eq (x : Context) (lang : Text) (call : Call) :
    (terms x.config lang call).map (fun t =>
        match t.guard with
        | some guard => guard ++ " && " ++ (x.lookup lang t.key (pluralParams call)).1
        | none => (x.lookup lang t.key (pluralParams call)).1) =
      ((categoriesOf lang call).dropLast.map (guardedVariant x lang call) ++
        [Conjunction.operand (.value .other (variantOf x lang call .other))]).map
          Conjunction.text := by
  have hvalue (c : Category) :
      (x.lookup lang (Key.ofCategory (Extraction.pluralBase x.config call) c
      x.config.keySeparator) (pluralParams call)).1 = (variantOf x lang call c).text :=
    lookup_categoryKey x lang call c
  rw [terms_eq, List.map_append, List.map_append, List.map_map, List.map_map, List.map_singleton,
    List.map_singleton]
  refine congrArg₂ (· ++ ·) (List.map_congr_left fun c _ => ?_) ?_
  · simp only [Function.comp_apply, hvalue]
    rfl
  · simp only [hvalue]
    rfl

/-- A plural call becomes the text of its disjunction in parentheses. -/
theorem render_plural (x : Context) (lang : Text) (call : Call) :
    (x.render lang call .plural).1 = '(' ::
      (alternatives x (x.langOf call lang) call).text ++ [')'] := by
  rw [alternatives, Disjunction.text_extend_join?, ← map_terms_eq]
  simp only [Context.render, chain, List.map_map]
  rfl

end

/-- **The value of a plural call at run time.** A plural call becomes the text of its
disjunction, in which the texts of calls nested in it are replaced. A present value of the
category that the selector answers is the value of the disjunction if it is taken for true, as
every text without parameters is, and otherwise the one of `other` is. -/
theorem eval_render_plural (x : Context) (lang : Text) (call : Call) (run : Run)
    (h : run.selected ∈ categoriesOf (x.langOf call lang) call) :
    (x.render lang call .plural).1 = '(' ::
      (alternatives x (x.langOf call lang) call).text ++ [')'] ∧
      (∀ nested, (resolve x lang (.mk call .plural nested)).1 =
        Text.replaceAll (replacement? (resolveCarried x lang (x.render lang call .plural).1
          nested).1) 0
          (x.render lang call .plural).1) ∧
      ∀ value ∈ variant? x (x.langOf call lang) call run.selected,
        (x.lookup (x.langOf call lang) (categoryKey x call run.selected) (pluralParams call)).1 =
          value.text ∧
          (alternatives x (x.langOf call lang) call).eval run =
            (if value.isTruthy run then .value run.selected value
            else .value .other (variantOf x (x.langOf call lang) call .other)) ∧
          ((alternatives x (x.langOf call lang) call).eval run = .value run.selected value ↔
            run.selected = .other ∨ value.isTruthy run = true) ∧
          ∀ t ≠ [], value = .template (Script.encode t) → value.isTruthy run = true := by
  refine ⟨render_plural x lang call, fun nested => resolve_mk x lang call .plural nested,
    fun value hvalue => ?_⟩
  have hvariant : variantOf x (x.langOf call lang) call run.selected = value := by
    rw [variantOf, hvalue, Option.getD_some]
  have heval := eval_alternatives (x := x) run h
  rw [hvariant] at heval
  refine ⟨by rw [lookup_categoryKey, hvariant], heval, ?_, fun t ht he => ?_⟩
  · rw [heval]
    constructor
    · intro heq
      split at heq
      · next htruthy => exact .inr htruthy
      · injection heq with hcategory _
        exact .inl hcategory.symm
    · intro hcases
      split
      · rfl
      · next hfalsy =>
        have hother := hcases.resolve_right hfalsy
        rw [← hother, hvariant]
  · rw [he]
    exact isTruthy_encode run ht

/-! ### A value that is zero -/

/-- A call whose texts tell one thing from several. -/
def countCall : Call := ⟨.plural, 0, "$plural(n, 'k')", [.name "n", .string ['k']]⟩

/-- A text or number for one thing, and a text for several. -/
def countTexts (one : Json.Value) : Context :=
  ⟨Config.standard, [("en-US", [("k", .object [("one", one), ("other", .string "x")])])]⟩

theorem one_mem_categoriesOf_countCall : Category.one ∈ categoriesOf "en-US" countCall := by
  have hrules :
      Plural.rules? .cardinal "en-US" = some [(.one, Plural.Term.i.is 1 &&& Plural.Term.v.is 0)] ∧
      Plural.select? [(.one, Plural.Term.i.is 1 &&& Plural.Term.v.is 0)] .plain (Binary64.ofNat 1) =
        some .one := by
    decide +kernel
  exact Plural.mem_categories_of_select? hrules.1 (Plural.ofNat_mem_samples (by decide)) hrules.2

theorem eval_render_plural_countCall :
    Category.one ∈ categoriesOf "en-US" countCall ∧
      variant? (countTexts (.string "\x7b\x7bvalue\x7d\x7d item")) "en-US" countCall .one =
        some (.template "$\x7bn\x7d item") ∧
      (alternatives (countTexts (.string "\x7b\x7bvalue\x7d\x7d item")) "en-US" countCall).eval
        (.verbatim .one) =
        .value .one (.template "$\x7bn\x7d item") := by
  have hvariant :
      variant? (countTexts (.string "\x7b\x7bvalue\x7d\x7d item")) "en-US" countCall .one =
      some (.template "$\x7bn\x7d item") := by cbv
  have htruthy : (Literal.template "$\x7bn\x7d item").isTruthy (.verbatim .one) = true := by cbv
  exact ⟨one_mem_categoriesOf_countCall, hvariant,
    ((eval_render_plural (countTexts (.string "\x7b\x7bvalue\x7d\x7d item")) "en-US" countCall
      (.verbatim .one)
      one_mem_categoriesOf_countCall).2.2 _ hvariant).2.2.1.mpr (.inr htruthy)⟩

/-- A zero for one thing is present, and is passed over. -/
theorem eval_alternatives_ne_countCall :
    classify countCall = .ok .plural ∧ Category.one ∈ categoriesOf "en-US" countCall ∧
      variant? (countTexts (.number (.integer 0))) "en-US" countCall .one =
        some (.number (.integer 0)) ∧
      (alternatives (countTexts (.number (.integer 0))) "en-US" countCall).eval (.verbatim .one) ≠
        .value .one (.number (.integer 0)) := by
  refine ⟨rfl, one_mem_categoriesOf_countCall, rfl, ?_⟩
  rw [eval_alternatives _ one_mem_categoriesOf_countCall]
  intro h
  cases h

end Inlining

end Localization
