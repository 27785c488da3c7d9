import Mathlib
import Localization.Proofs.Argument.Enclosed
import Localization.Proofs.Inlining.Splice
import Localization.Proofs.Inlining.Values

/-! Values among their neighbours.

A call is an operand where it stands. Its value is one too unless it is read together with what
stands next to it: where a statement or the body of an arrow starts, a brace opens a block;
behind a minus, the sign of a number makes a decrement; in front of a point or a name, an
integer goes on as a longer numeral. Template literals, arrays and chains stand between
characters of their own, while objects and numbers are written bare, so it is for them that a
value loses its role (`keepsRole_iff`). -/
namespace Localization.Inlining

open Script (isNameStart isWord_of_isNameChar)

/-! ### Texts that end in an integer -/

/-- The characters of names and of numerals. -/
def isWordChar (c : Char) : Bool := Text.isWord c || c == '$' || c == '.'

theorem isWordChar_of_isDigit {c : Char} (h : c.isDigit = true) : isWordChar c = true := by
  rw [isWordChar, isWord_of_isNameChar (Script.isNameChar_of_isDigit h), Bool.true_or]

/-- Whether a text, given from its end, is open for the digits of an exponent: a numeral, its
mark and a sign. -/
def awaitsExponent : Text → Bool
  | sign :: mark :: rest =>
    (sign == '+' || sign == '-') && (mark == 'e' || mark == 'E') &&
      (rest.takeWhile isWordChar).getLast?.any fun c => c.isDigit || c == '.'
  | _ => false

/-- Whether a text ends in digits that are all of a numeral. -/
def endsInInteger (t : Text) : Bool :=
  let front := t.reverse.dropWhile Char.isDigit
  t.getLast?.any Char.isDigit && !front.head?.any isWordChar && !awaitsExponent front

theorem endsInInteger_of_getLast? {t : Text} {c : Char} (h : t.getLast? = some c)
    (hc : c.isDigit = false) :
    endsInInteger t = false := by
  rw [endsInInteger, h, Option.any_some, hc, Bool.false_and, Bool.false_and]

/-- A run of characters at the end of a text. -/
theorem span_reverse_append {p : Char → Bool} {front run : Text} (hrun : ∀ c ∈ run, p c = true)
    (hfront : front.getLast?.any p = false) :
    (front ++ run).reverse.takeWhile p = run.reverse ∧
      (front ++ run).reverse.dropWhile p = front.reverse := by
  have hrun : ∀ c ∈ run.reverse, p c = true := fun c hc => hrun c (List.mem_reverse.mp hc)
  rw [List.reverse_append, List.takeWhile_append_of_pos hrun, List.dropWhile_append_of_pos hrun]
  rw [← List.head?_reverse] at hfront
  cases hr : front.reverse with
  | nil => simp
  | cons c rest =>
    rw [hr, List.head?_cons, Option.any_some] at hfront
    rw [List.takeWhile_cons_of_neg (by simp [hfront]),
      List.dropWhile_cons_of_neg (by simp [hfront])]
    exact ⟨List.append_nil _, rfl⟩

section

variable {digits : Text} (hne : digits ≠ []) (hdigits : ∀ c ∈ digits, c.isDigit = true)

include hne hdigits

/-- What comes before the digits at the end decides. -/
theorem endsInInteger_append {front : Text} (hfront : front.getLast?.any Char.isDigit = false) :
    endsInInteger (front ++ digits) = (!front.getLast?.any isWordChar &&
      !awaitsExponent front.reverse) := by
  have hlast : (front ++ digits).getLast?.any Char.isDigit = true := by
    rw [List.getLast?_append, List.getLast?_eq_some_getLast hne]
    exact hdigits _ (List.getLast_mem hne)
  simp only [endsInInteger, hlast, (span_reverse_append hdigits hfront).2, Bool.true_and,
    List.head?_reverse]

/-- The digits of a fraction. -/
theorem endsInInteger_fraction (front : Text) : endsInInteger (front ++ '.' :: digits) = false := by
  rw [List.append_cons, endsInInteger_append hne hdigits]
  · simp [isWordChar]
  · simp

/-- The digits of an exponent. -/
theorem endsInInteger_exponent {sign : Char} (hsign : sign = '+' ∨ sign = '-') {front head : Text}
    (hfront : front.getLast?.any isWordChar = false) (hhead : StartsWithDigit head)
    (hword : ∀ c ∈ head, isWordChar c = true) :
    endsInInteger (front ++ (head ++ ['e', sign] ++ digits)) = false := by
  have hreverse : (front ++ (head ++ ['e', sign])).reverse =
      sign :: 'e' :: (front ++ head).reverse := by
    simp
  have hmark : (front ++ (head ++ ['e', sign])).getLast? = some sign := by
    rw [← List.head?_reverse, hreverse, List.head?_cons]
  have hdigit : sign.isDigit = false := by rcases hsign with rfl | rfl <;> rfl
  have hawaits : awaitsExponent (sign :: 'e' :: (front ++ head).reverse) = true := by
    obtain ⟨c, rest, rfl, hc⟩ := hhead
    rw [awaitsExponent, (span_reverse_append hword hfront).1, List.getLast?_reverse]
    rcases hsign with rfl | rfl <;> simp [hc]
  rw [← List.append_assoc, endsInInteger_append hne hdigits, hreverse, hawaits, Bool.not_true,
    Bool.and_false]
  rw [hmark]
  exact hdigit

end

/-! ### Numbers -/

theorem ofNat_ne_nil (n : Nat) : Text.ofNat n ≠ [] :=
  List.ne_nil_of_length_pos Nat.length_toDigits_pos

/-- Digits that are multiplied by a negative power of ten are written with a fraction. -/
theorem endsInInteger_positional {d : Decimal.Digits} (h : ¬ 0 ≤ d.exponent) (front : Text) :
    endsInInteger (front ++ Decimal.positional d) = false := by
  have hlength := List.length_pos_of_ne_nil (ofNat_ne_nil d.digits)
  simp only [Decimal.positional, if_neg h]
  split
  · rw [← List.append_assoc]
    refine endsInInteger_fraction (fun hnil => ?_) (fun c hc =>
      isDigit_of_mem_ofNat (List.mem_of_mem_drop hc)) _
    have hdrop := congrArg List.length hnil
    rw [List.length_drop, List.length_nil] at hdrop
    omega
  · have hfraction (zeros text : Text) :
        front ++ ("0.".toList ++ zeros ++ text) = front ++ ['0'] ++ '.' :: (zeros ++ text) := by
      simp
    rw [hfraction]
    refine endsInInteger_fraction (List.append_ne_nil_of_right_ne_nil _ (ofNat_ne_nil _))
      (fun c hc => ?_) _
    exact (List.mem_append.mp hc).elim isDigit_of_mem_zeros isDigit_of_mem_ofNat

/-- A sign ends no word and no number. -/
theorem any_getLast?_sign {p : Char → Bool} (hp : p '-' = false) (negative : Bool) :
    (Decimal.sign negative).getLast?.any p = false := by
  cases negative with
  | true => exact hp
  | false => rfl

theorem endsInInteger_withExponent (negative : Bool) (d : Decimal.Digits) :
    endsInInteger (Decimal.sign negative ++ Decimal.withExponent d) = false := by
  simp only [Decimal.withExponent]
  refine endsInInteger_exponent (ofNat_ne_nil _) (fun c hc => isDigit_of_mem_ofNat hc) ?_
    (any_getLast?_sign (by decide) negative)
      (((startsWithDigit_ofNat d.digits).take Nat.one_pos).append _) fun c hc => ?_
  · split
    · exact .inr rfl
    · exact .inl rfl
  · have hdigit {c : Char} (hc : c ∈ Text.ofNat d.digits) : isWordChar c = true :=
      isWordChar_of_isDigit (isDigit_of_mem_ofNat hc)
    rcases List.mem_append.mp hc with hc | hc
    · exact hdigit (List.mem_of_mem_take hc)
    · split at hc
      · cases hc
      · rcases List.mem_cons.mp hc with rfl | hc
        · rfl
        · exact hdigit (List.mem_of_mem_drop hc)

/-- Doubles are written with a fraction or an exponent. -/
theorem endsInInteger_scientific (x : Binary64) : endsInInteger (Decimal.scientific x) = false := by
  unfold Decimal.scientific
  split
  · next s _ =>
    have hzero : Decimal.sign s ++ "0.0".toList = Decimal.sign s ++ ['0'] ++ '.' :: ['0'] := by simp
    rw [hzero]
    exact endsInInteger_fraction (by simp) (by simp) _
  · next s m e _ =>
    simp only
    split
    · split
      · rw [← List.append_assoc]
        exact endsInInteger_fraction (by simp) (by simp) _
      · next h =>
        rw [List.append_nil]
        exact endsInInteger_positional h _
    · exact endsInInteger_withExponent s _
  · rfl

/-- **A number is written as an integer exactly if it is kept as one.** -/
theorem endsInInteger_toText_iff (n : Json.Number) :
    endsInInteger n.toText = true ↔ ∃ i, n = .integer i := by
  cases n with
  | integer i =>
    refine ⟨fun _ => ⟨i, rfl⟩, fun _ => ?_⟩
    rw [Json.Number.toText, endsInInteger_append (ofNat_ne_nil _) (fun c hc =>
      isDigit_of_mem_ofNat hc) (any_getLast?_sign (by decide) _), any_getLast?_sign (by decide)]
    cases decide (i < 0) <;> rfl
  | double x =>
    have hnone : endsInInteger (Json.Number.double x).toText = false := endsInInteger_scientific x
    simp [hnone]

example : (["-42", "x1", "a.b1", "1.5", "1.5e-7", "x1e-7"].map fun t : String => endsInInteger t) =
    [true, false, false, false, false, true] := by decide

/-- The text of a number starts with a minus exactly if the number has a sign. -/
theorem head?_toText_eq_minus_iff (n : Json.Number) :
    n.toText.head? = some '-' ↔ isNegative n = true := by
  cases hn : isFinite n with
  | true =>
    obtain ⟨t, ⟨c, rest, rfl, hc⟩, htext⟩ := exists_toText_eq hn
    have hdigit : c ≠ '-' := by rintro rfl; cases hc
    rw [htext]
    cases isNegative n with
    | true => simp [Decimal.sign]
    | false => simp [Decimal.sign, hdigit]
  | false =>
    rw [toText_of_not_isFinite hn]
    cases n with
    | integer i => cases hn
    | double x =>
      cases x with
      | finite s m e => cases hn
      | infinite s => simp [isNegative]
      | nan => simp [isNegative]

theorem isNumberChar_of_mem_withExponent {d : Decimal.Digits} {c : Char}
    (h : c ∈ Decimal.withExponent d) :
    isNumberChar c = true := by
  simp only [Decimal.withExponent, List.mem_append] at h
  rcases h with ((h | h) | h) | h
  · exact isNumberChar_of_mem_ofNat (List.mem_of_mem_take h)
  · split at h
    · cases h
    · rcases List.mem_cons.mp h with rfl | h
      · rfl
      · exact isNumberChar_of_mem_ofNat (List.mem_of_mem_drop h)
  · rcases List.mem_cons.mp h with rfl | h
    · rfl
    · rw [List.mem_singleton.mp h]
      split <;> rfl
  · exact isNumberChar_of_mem_ofNat h

theorem isNumberChar_of_mem_toText {n : Json.Number} {c : Char} (h : c ∈ n.toText) :
    isNumberChar c = true := by
  cases n with
  | integer i =>
    exact (List.mem_append.mp h).elim isNumberChar_of_mem_sign isNumberChar_of_mem_ofNat
  | double x =>
    have h : c ∈ Decimal.scientific x := h
    unfold Decimal.scientific at h
    split at h
    · exact (List.mem_append.mp h).elim isNumberChar_of_mem_sign
        (isNumberChar_of_mem_word (by decide))
    · refine (List.mem_append.mp h).elim isNumberChar_of_mem_sign fun h => ?_
      split at h
      · refine (List.mem_append.mp h).elim isNumberChar_of_mem_positional fun h => ?_
        split at h
        · exact isNumberChar_of_mem_word (w := ".0") (by decide) h
        · cases h
      · exact isNumberChar_of_mem_withExponent h
    · exact isNumberChar_of_mem_word (by decide) h

/-! ### What a site asks for -/

/-- Whether a site asks for one key, for which the trees hold this value. -/
def Asks (x : Context) (lang : Text) (site : Site) (value : Json.Value) : Prop :=
  ∃ raw, site.request = .key raw ∧ x.valueOf? (x.langOf site.call lang) raw = some value

section

variable {x : Context} {lang : Text} {site : Site}

theorem asks_iff {raw : Text} (hr : site.request = .key raw) (v : Json.Value) :
    Asks x lang site v ↔ x.valueOf? (x.langOf site.call lang) raw = some v := by
  constructor
  · rintro ⟨raw', hr', hv⟩
    cases hr.symm.trans hr'
    exact hv
  · exact fun hv => ⟨raw, hr, hv⟩

theorem not_asks (hr : ∀ raw, site.request ≠ .key raw) (v : Json.Value) : ¬ Asks x lang site v := by
  rintro ⟨raw, hraw, -⟩
  exact hr raw hraw

theorem Asks.eq {v w : Json.Value} (hv : Asks x lang site v) (hw : Asks x lang site w) : v = w := by
  obtain ⟨raw, hr, hv⟩ := hv
  exact Option.some.inj (hv.symm.trans ((asks_iff hr w).mp hw))

end

/-- The characters that values other than numbers stand between. -/
def delimiters : List (Char × Char) := [('`', '`'), ('[', ']'), ('{', '}'), ('(', ')')]

/-- No delimiter starts a name, is a sign or a digit. -/
theorem of_mem_delimiters {opener closer : Char} (h : (opener, closer) ∈ delimiters) :
    isNameStart opener = false ∧ opener ≠ '-' ∧ closer.isDigit = false := by
  have hall : ∀ p ∈ delimiters, isNameStart p.1 = false ∧ p.1 ≠ '-' ∧
      p.2.isDigit = false := by decide
  exact hall _ h

/-- The value of one key is the text of a number or stands between delimiters, which are braces
if the trees hold an object. -/
theorem lookup_cases (x : Context) (lang raw : Text) (params : Properties) :
    (∃ n, x.valueOf? lang raw = some (.number n) ∧ (x.lookup lang raw params).1 = n.toText) ∨
      (∀ n, x.valueOf? lang raw ≠ some (.number n)) ∧
        ∃ opener inner closer, (opener, closer) ∈ delimiters ∧
        (x.lookup lang raw params).1 = opener :: (inner ++ [closer]) ∧
        (opener = '{' ↔ ∃ entries, x.valueOf? lang raw = some (.object entries)) ∧
        closer ≠ ')' := by
  rw [lookup_eq_getD]
  cases x.valueOf? lang raw with
  | none => exact .inr ⟨by simp, '`', [], '`', by decide, rfl, by simp, by decide⟩
  | some v =>
    cases v with
    | number n => exact .inl ⟨n, rfl, rfl⟩
    | null | bool => exact .inr ⟨by simp, '`', [], '`', by decide, rfl, by simp, by decide⟩
    | string t =>
      cases t with
      | nil => exact .inr ⟨by simp, '`', [], '`', by decide, rfl, by simp, by decide⟩
      | cons c rest => exact .inr ⟨by simp, '`', _, '`', by decide, rfl, by simp, by decide⟩
    | array items =>
      have hcompact : (Json.Value.array items).compact =
          '[' :: (Text.join "," (Json.compactItems items) ++ [']']) := by
        rw [Json.Value.compact]
        rfl
      exact .inr ⟨by simp, '[', _, ']', by decide, hcompact, by simp, by decide⟩
    | object entries =>
      have hcompact : (Json.Value.object entries).compact =
          '{' :: (Text.join "," (Json.compactEntries entries) ++ ['}']) := by
        rw [Json.Value.compact]
        rfl
      exact .inr ⟨by simp, '{', _, '}', by decide, hcompact, by simp, by decide⟩

/-- **A value is the text of a number or stands between delimiters**: braces if the trees hold
an object, and parentheses if the site is a plural call. -/
theorem render_cases (x : Context) (lang : Text) (site : Site) :
    (∃ n, Asks x lang site (.number n) ∧ (x.render lang site.call site.request).1 = n.toText) ∨
      (∀ n, ¬ Asks x lang site (.number n)) ∧ ∃ opener inner closer, (opener, closer) ∈ delimiters ∧
        (x.render lang site.call site.request).1 = opener :: (inner ++ [closer]) ∧
        (opener = '{' ↔ ∃ entries, Asks x lang site (.object entries)) ∧
        (closer = ')' ↔ site.request = .plural) := by
  cases hr : site.request with
  | keys raws =>
    have hnone (v : Json.Value) : ¬ Asks x lang site v :=
      not_asks (fun raw h => by cases hr.symm.trans h) v
    exact .inr ⟨fun n => hnone _, '[', _, ']', by decide, rfl, by simp [hnone], by simp⟩
  | plural =>
    have hnone (v : Json.Value) : ¬ Asks x lang site v :=
      not_asks (fun raw h => by cases hr.symm.trans h) v
    exact .inr ⟨fun n => hnone _, '(', _, ')', by decide, rfl, by simp [hnone], by simp⟩
  | key raw =>
    simp only [asks_iff hr]
    rcases lookup_cases x (x.langOf site.call lang) raw
      ((site.call.params?.bind Argument.properties?).getD []) with
      hnumber | ⟨hnone, opener, inner, closer, hmem, htext, hobject, hcloser⟩
    · exact .inl hnumber
    · exact .inr ⟨hnone, opener, inner, closer, hmem, htext, hobject, by simp [hcloser]⟩

/-! ### What a site becomes -/

/-- A text ends as before when values are put in, unless it ends with the text of a nested site. -/
theorem Rendered.getLast?_eq_or {x : Context} {lang t u : Text} {sites : List Site}
    (h : Rendered x lang sites t u) :
    u.getLast? = t.getLast? ∨ ∃ site ∈ sites, site.call.raw <:+ t ∧
      (resolve x lang site).1 <:+ u := by
  induction h with
  | nil => exact .inl rfl
  | kept _ _ ih =>
    rcases ih with ih | ⟨site, hs, ht, hu⟩
    · rw [List.getLast?_cons, List.getLast?_cons, ih]
      exact .inl rfl
    · exact .inr ⟨site, hs, ht.trans (List.suffix_cons _ _), hu.trans (List.suffix_cons _ _)⟩
  | @replaced site t u hs _ ih =>
    rcases ih with ih | ⟨site, hs, ht, hu⟩
    · cases t with
      | nil =>
        obtain rfl : u = [] := List.getLast?_eq_none_iff.mp ih
        exact .inr ⟨site, hs, by simp, by simp⟩
      | cons c rest =>
        rw [List.getLast?_append, List.getLast?_append, ih, List.getLast?_cons]
        exact .inl rfl
    · exact .inr ⟨site, hs, ht.trans (List.suffix_append _ _), hu.trans (List.suffix_append _ _)⟩

section

/-- Whether a chain ends with the text of a nested site, in place of its own parenthesis. -/
def EndsInNested (x : Context) (lang : Text) (site : Site) : Prop :=
  site.request = .plural ∧ ∃ inner ∈ site.nested,
    inner.call.raw <:+ (x.render lang site.call site.request).1 ∧
    (resolve x lang inner).1 <:+ (resolve x lang site).1

variable {site : Site} (h : AreCalls site.nested)

include h

theorem resolve_cases (x : Context) (lang : Text) :
    (∃ n, Asks x lang site (.number n) ∧ (resolve x lang site).1 = n.toText) ∨
      (∀ n, ¬ Asks x lang site (.number n)) ∧ ∃ opener closer, (opener, closer) ∈ delimiters ∧
        (resolve x lang site).1.head? = some opener ∧
        (opener = '{' ↔ ∃ entries, Asks x lang site (.object entries)) ∧
        ((resolve x lang site).1.getLast? = some closer ∨ EndsInNested x lang site) := by
  have hrendered := h.rendered x lang
  rcases render_cases x lang site with ⟨n, hn, htext⟩
    | ⟨hnone, opener, inner, closer, hmem, htext, hobject, hplural⟩
  · refine .inl ⟨n, hn, ?_⟩
    rw [htext] at hrendered
    refine hrendered.eq_of_not_mem h fun hparenthesis => ?_
    have hparenthesis : isNumberChar '(' = true := isNumberChar_of_mem_toText hparenthesis
    exact absurd hparenthesis (by decide)
  · refine .inr ⟨hnone, opener, closer, hmem, ?_, hobject, ?_⟩
    · exact hrendered.head?_eq h (by rw [htext]; rfl) (of_mem_delimiters hmem).1
    · have hlast : (x.render lang site.call site.request).1.getLast? = some closer := by
        rw [htext, ← List.cons_append, List.getLast?_concat]
      rcases hrendered.getLast?_eq_or with hkept | ⟨nested, hs, hraw, hvalue⟩
      · exact .inl (hkept.trans hlast)
      · -- A call ends with a parenthesis, which no value but a chain does.
        obtain ⟨name, hname⟩ := h.of_mem hs
        have hcloser : closer = ')' := by
          obtain ⟨front, hfront⟩ := hraw
          rw [← hfront, List.getLast?_append, hname.getLast?_eq] at hlast
          exact (Option.some.inj hlast).symm
        exact .inr ⟨hplural.mp hcloser, nested, hs, hraw, hvalue⟩

/-- A value opens a brace exactly if it is an object. -/
theorem head?_resolve_eq_brace_iff (x : Context) (lang : Text) :
    (resolve x lang site).1.head? = some '{' ↔ ∃ entries, Asks x lang site (.object entries) := by
  rcases resolve_cases h x lang with ⟨n, hn, htext⟩ | ⟨-, opener, closer, -, hhead, hobject, -⟩
  · rw [htext]
    constructor
    · intro hbrace
      have hbrace : isNumberChar '{' = true :=
        isNumberChar_of_mem_toText (List.mem_of_mem_head? hbrace)
      exact absurd hbrace (by decide)
    · rintro ⟨entries, hentries⟩
      cases hn.eq hentries
  · rw [hhead, Option.some.injEq, hobject]

/-- A value starts with a minus exactly if it is a negative number. -/
theorem head?_resolve_eq_minus_iff (x : Context) (lang : Text) :
    (resolve x lang site).1.head? = some '-' ↔ ∃ n, isNegative n = true ∧
      Asks x lang site (.number n) := by
  rcases resolve_cases h x lang with ⟨n, hn, htext⟩ | ⟨hnone, opener, closer, hmem, hhead, -, -⟩
  · rw [htext, head?_toText_eq_minus_iff]
    constructor
    · exact fun hnegative => ⟨n, hnegative, hn⟩
    · rintro ⟨n', hnegative, hn'⟩
      cases hn.eq hn'
      exact hnegative
  · rw [hhead, Option.some.injEq]
    exact ⟨fun hopener => absurd hopener (of_mem_delimiters hmem).2.1, fun ⟨n, _, hn⟩ =>
      absurd hn (hnone n)⟩

/-- A value ends in an integer exactly if it is one, or a chain that ends with the integer of a
nested site. -/
theorem endsInInteger_resolve_iff (x : Context) (lang : Text) :
    endsInInteger (resolve x lang site).1 = true ↔
      (∃ i, Asks x lang site (.number (.integer i))) ∨
        EndsInNested x lang site ∧ endsInInteger (resolve x lang site).1 = true := by
  constructor
  · intro hends
    rcases resolve_cases h x lang with ⟨n, hn, htext⟩
      | ⟨-, opener, closer, hmem, -, -, hlast | hnested⟩
    · rw [htext, endsInInteger_toText_iff] at hends
      obtain ⟨i, rfl⟩ := hends
      exact .inl ⟨i, hn⟩
    · rw [endsInInteger_of_getLast? hlast (of_mem_delimiters hmem).2.2] at hends
      cases hends
    · exact .inr ⟨hnested, hends⟩
  · rintro (⟨i, hi⟩ | ⟨-, hends⟩)
    · rcases resolve_cases h x lang with ⟨n, hn, htext⟩ | ⟨hnone, -⟩
      · cases hi.eq hn
        rw [htext, endsInInteger_toText_iff]
        exact ⟨i, rfl⟩
      · exact absurd hi (hnone _)
    · exact hends

end

/-! ### Roles -/

/-- Whether a statement, or the body of an arrow function, starts behind a text. Which texts
start a statement takes a parser to say. -/
def OpensBody (startsStatement : Text → Prop) (before : Text) : Prop :=
  "=>".toList <:+ Text.trim before ∨ startsStatement before

/-- Whether a text goes on a name or a numeral in front of it. -/
def ContinuesWord (after : Text) : Prop := ∃ c, after.head? = some c ∧ isWordChar c = true

/-- Whether a value is one operand between what stands before it and behind it. -/
structure KeepsRole (startsStatement : Text → Prop) (before value after : Text) : Prop where
  noBlock : OpensBody startsStatement before → value.head? ≠ some '{'
  noDecrement : before.getLast? = some '-' → value.head? ≠ some '-'
  noNumeral : ContinuesWord after → endsInInteger value = false

/-- **The value of an outermost call keeps the role of the call exactly if** no object stands
where a body starts, no negative number behind a minus, and no integer in front of a point or a
name. -/
theorem keepsRole_iff (x : Context) (lang code : Text) (startsStatement : Text → Prop) {site : Site}
    (hs : site ∈ (Plan.of x.config code).sites) :
    (inlineText x lang code).1 = splice 0 code ((Plan.of x.config code).sites.map fun site =>
        (site.call.start, site.call.stop, (resolve x lang site).1)) ∧
      (KeepsRole startsStatement (code.take site.call.start) (resolve x lang site).1
        (code.drop site.call.stop) ↔
        (OpensBody startsStatement (code.take site.call.start) →
          ∀ entries, ¬ Asks x lang site (.object entries)) ∧
        ((code.take site.call.start).getLast? = some '-' → ∀ n, isNegative n = true →
          ¬ Asks x lang site (.number n)) ∧
        (ContinuesWord (code.drop site.call.stop) →
          (∀ i, ¬ Asks x lang site (.number (.integer i))) ∧
          ¬ (EndsInNested x lang site ∧ endsInInteger (resolve x lang site).1 = true))) := by
  have hnested : AreCalls site.nested := (areCalls_of x.config code).nested hs
  have hbrace := head?_resolve_eq_brace_iff hnested x lang
  have hminus := head?_resolve_eq_minus_iff hnested x lang
  have hinteger := endsInInteger_resolve_iff hnested x lang
  refine ⟨by rw [inlineText_eq_splice, replacements, List.map_map]; rfl, ?_⟩
  constructor
  · intro hrole
    refine ⟨fun hbody entries hentries => hrole.noBlock hbody (hbrace.mpr ⟨entries, hentries⟩),
      fun hbefore n hn hasks => hrole.noDecrement hbefore (hminus.mpr ⟨n, hn, hasks⟩),
      fun hafter => ?_⟩
    have hnone := hrole.noNumeral hafter
    exact ⟨fun i hi => Bool.eq_false_iff.mp hnone (hinteger.mpr (.inl ⟨i, hi⟩)),
      fun hends => Bool.eq_false_iff.mp hnone hends.2⟩
  · rintro ⟨hobject, hnegative, hnumeral⟩
    refine ⟨fun hbody hhead => ?_, fun hbefore hhead => ?_, fun hafter =>
      Bool.eq_false_iff.mpr fun hends => ?_⟩
    · obtain ⟨entries, hentries⟩ := hbrace.mp hhead
      exact hobject hbody entries hentries
    · obtain ⟨n, hn, hasks⟩ := hminus.mp hhead
      exact hnegative hbefore n hn hasks
    · rcases hinteger.mp hends with ⟨i, hi⟩ | hchain
      · exact (hnumeral hafter).1 i hi
      · exact (hnumeral hafter).2 hchain

/-! ### Values that lose their role -/

/-- An arrow function whose body is a call. -/
def arrowCall : Text := "() => $translate('k')"

/-- The call of `arrowCall`. -/
def arrowSite : Site := .mk ⟨.translate, 6, "$translate('k')", [.string "k"]⟩ (.key "k") []

/-- A value for the call. -/
def arrowValue (value : Json.Value) : Context := ⟨Config.standard, [("en-US", [("k", value)])]⟩

theorem sites_arrowCall : (Plan.of Config.standard arrowCall).sites = [arrowSite] := by cbv

theorem asks_arrowSite (value : Json.Value) : Asks (arrowValue value) "en-US" arrowSite value :=
  ⟨"k", rfl, rfl⟩

theorem keepsRole_arrowCall :
    arrowSite ∈ (Plan.of (arrowValue (.string "K")).config arrowCall).sites ∧
      KeepsRole (· = []) (arrowCall.take arrowSite.call.start)
        (resolve (arrowValue (.string "K")) "en-US" arrowSite).1
        (arrowCall.drop arrowSite.call.stop) := by
  have hs : arrowSite ∈ (Plan.of (arrowValue (.string "K")).config arrowCall).sites := by
    have hsites : (Plan.of (arrowValue (.string "K")).config arrowCall).sites = [arrowSite] :=
      sites_arrowCall
    rw [hsites]
    exact List.mem_cons_self
  have hasks := asks_arrowSite (.string "K")
  refine ⟨hs, (keepsRole_iff (arrowValue (.string "K")) "en-US" arrowCall (· = []) hs).2.mpr
    ⟨fun _ entries h => ?_, fun _ n _ h => ?_, fun _ => ⟨fun i h => ?_, fun h => ?_⟩⟩⟩
  · cases hasks.eq h
  · cases hasks.eq h
  · cases hasks.eq h
  · cases h.1.1

/-- The braces of an object that is the body of an arrow function are those of a block. -/
theorem not_keepsRole_arrowCall :
    (Plan.of (arrowValue (.object [("a", .string "b")])).config arrowCall).sites = [arrowSite] ∧
      (inlineText (arrowValue (.object [("a", .string "b")])) "en-US" arrowCall).1 =
        "() => \x7b\"a\":\"b\"\x7d".toList ∧
      ¬ KeepsRole (· = []) (arrowCall.take arrowSite.call.start)
        (resolve (arrowValue (.object [("a", .string "b")])) "en-US" arrowSite).1
          (arrowCall.drop arrowSite.call.stop) := by
  refine ⟨sites_arrowCall, by cbv, fun h => ?_⟩
  have hbody : OpensBody (· = []) (arrowCall.take arrowSite.call.start) :=
    .inl ⟨"() ".toList, by cbv⟩
  exact h.noBlock hbody (by cbv)

end Localization.Inlining
