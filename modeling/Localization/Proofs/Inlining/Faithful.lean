import Mathlib
import Localization.Proofs.Argument.Visible
import Localization.Proofs.Inlining.Closed
import Localization.Proofs.Script.Token

/-! Literals that denote their text.

The literal of a text with strings for parameters denotes the text with its tokens replaced, and
holds no substitution, if every string that is put in is escaped and no `$` at its end meets a brace
(`denotes_iff`). It does so only then: a string that holds a substitution is put in as it is, so
the literal has a substitution of its own or, where a backslash comes before the `$`, denotes fewer
characters (`units` bounds them). -/
namespace Localization.Script

/-! ### Texts without substitutions -/

section

variable {a b : Text} {c : Char}

theorem isTemplateText_cons (hescape : c ≠ '\\') :
    isTemplateText (c :: b) = true ↔ c ≠ '`' ∧ (c = '$' → b.head? ≠ some '{') ∧
      isTemplateText b = true := by
  rw [isTemplateText.eq_def]
  split
  · next heq => cases heq
  · next heq => cases heq; exact absurd rfl hescape
  · next heq => cases heq; exact absurd rfl hescape
  · next heq => cases heq; simp
  · next heq => cases heq; simp
  · next d rest _ _ htick hdollar heq =>
    cases heq
    have hne : c = '$' → b.head? ≠ some '{' := by
      intro hc hb
      obtain ⟨tail, rfl⟩ := List.head?_eq_some_iff.mp hb
      exact hdollar tail hc rfl
    exact ⟨fun h => ⟨htick, hne, h⟩, fun h => h.2.2⟩

theorem within_of_isTemplateText (h : isTemplateText a = true) : Within .backticks a := by
  fun_induction isTemplateText a with
  | case1 => exact .nil
  | case2 => cases h
  | case3 c rest ih => exact .escape (ih h)
  | case4 => cases h
  | case5 => cases h
  | case6 c rest h1 h2 htick hdollar ih =>
    refine .char (fun hc => ?_) htick (fun hc hb => ?_) (ih h)
    · cases rest with
      | nil => exact h1 hc rfl
      | cons d rest => exact h2 d rest hc rfl
    · obtain ⟨tail, rfl⟩ := List.head?_eq_some_iff.mp hb
      exact hdollar tail hc rfl

/-- The escapes of the writer. -/
theorem decode_escaped_cons (hc : c ∈ ['\\', '`', '$']) (b : Text) :
    decode ('\\' :: c :: b) = c :: decode b := by
  have hx : c ≠ 'x' := by rintro rfl; revert hc; decide
  have hu : c ≠ 'u' := by rintro rfl; revert hc; decide
  rw [decode_backslash hx hu]
  simp only [List.mem_cons, List.not_mem_nil, or_false] at hc
  rcases hc with rfl | rfl | rfl <;> rfl

/-- Whether a dollar sign and a brace meet between two texts. -/
def OpensBetween (a b : Text) : Prop := a.getLast? = some '$' ∧ b.head? = some '{'

instance (a b : Text) : Decidable (OpensBetween a b) :=
  inferInstanceAs (Decidable (a.getLast? = some '$' ∧ b.head? = some '{'))

theorem opensBetween_cons (h : a ≠ []) : OpensBetween (c :: a) b ↔ OpensBetween a b := by
  obtain ⟨d, a, rfl⟩ := List.exists_cons_of_ne_nil h
  rw [OpensBetween, OpensBetween, List.getLast?_cons_cons]

/-- An escaped text holds no substitution, and neither does what follows it unless one is opened
where they meet. -/
theorem isTemplateText_encode_append :
    isTemplateText (encode a ++ b) = true ↔ isTemplateText b = true ∧ ¬ OpensBetween a b := by
  induction a with
  | nil => simp [encode, OpensBetween]
  | cons c rest ih =>
    rw [encode_cons, List.append_assoc]
    rcases encodeHead_cases c rest with ⟨he, hescape, htick, hdollar⟩ | ⟨he, hc⟩
    · rw [he, List.singleton_append, isTemplateText_cons hescape, ih]
      by_cases hrest : rest = []
      · subst hrest
        simp only [encode, OpensBetween, List.nil_append, List.getLast?_nil,
          List.getLast?_singleton, Option.some.injEq, reduceCtorEq, false_and, not_false_eq_true,
          and_true, not_and]
        exact ⟨fun h => ⟨h.2.2, h.2.1⟩, fun h => ⟨htick, h.2, h.1⟩⟩
      · rw [opensBetween_cons hrest]
        have hhead : (encode rest ++ b).head? = (encode rest).head? := by
          obtain ⟨d, tail, rfl⟩ := List.exists_cons_of_ne_nil hrest
          rw [encode_cons]
          rcases encodeHead_cases d tail with ⟨he, -⟩ | ⟨he, -⟩ <;> rw [he] <;> rfl
        have hopen : c = '$' → (encode rest ++ b).head? ≠ some '{' := fun hc hb =>
          hdollar hc ((head?_encode_eq_brace_iff (.inl rfl) rest).mp (hhead ▸ hb))
        exact ⟨fun h => h.2.2, fun h => ⟨htick, hopen, h⟩⟩
    · rw [he, List.cons_append, List.singleton_append, isTemplateText, ih]
      by_cases hrest : rest = []
      · subst hrest
        have hne : c ≠ '$' := by rintro rfl; cases he
        simp [OpensBetween, hne]
      · rw [opensBetween_cons hrest]

/-- An escaped text denotes itself in front of any other text. -/
theorem decode_encode_append (a b : Text) : decode (encode a ++ b) = a ++ decode b := by
  induction a with
  | nil => rfl
  | cons c rest ih =>
    rw [encode_cons, List.append_assoc]
    rcases encodeHead_cases c rest with ⟨he, hescape, -⟩ | ⟨he, hc⟩
    · rw [he, List.singleton_append, decode_cons_of_ne hescape, ih]
      rfl
    · rw [he, List.cons_append, List.singleton_append, decode_escaped_cons hc, ih]
      rfl

end

/-! ### How many characters a text can denote -/

/-- The characters and the escapes of a text. -/
def units : Text → Nat
  | [] => 0
  | '\\' :: _ :: rest => units rest + 1
  | _ :: rest => units rest + 1

theorem units_cons_of_ne {c : Char} (h : c ≠ '\\') (rest : Text) :
    units (c :: rest) = units rest + 1 := by
  rw [units.eq_def]
  split <;> simp_all

theorem units_cons (c : Char) (t : Text) :
    units t ≤ units (c :: t) ∧ units (c :: t) ≤ units t + 1 := by
  induction t generalizing c with
  | nil =>
    by_cases hc : c = '\\'
    · subst hc; decide
    · simp [units_cons_of_ne hc, units]
  | cons d rest ih =>
    by_cases hc : c = '\\'
    · subst hc
      have := ih d
      rw [units]
      omega
    · rw [units_cons_of_ne hc]
      omega

theorem units_le_of_suffix {t u : Text} (h : u <:+ t) : units u ≤ units t := by
  obtain ⟨front, rfl⟩ := h
  induction front with
  | nil => exact Nat.le_refl _
  | cons c front ih => exact ih.trans (units_cons c _).1

theorem units_append_le (a b : Text) : units (a ++ b) ≤ a.length + units b := by
  induction a with
  | nil => simp
  | cons c rest ih =>
    have := (units_cons c (rest ++ b)).2
    rw [List.cons_append, List.length_cons]
    omega

theorem units_encode_append_le (a b : Text) : units (encode a ++ b) ≤ a.length + units b := by
  induction a with
  | nil => simp [encode]
  | cons c rest ih =>
    rw [encode_cons, List.append_assoc, List.length_cons]
    rcases encodeHead_cases c rest with ⟨he, hescape, -⟩ | ⟨he, -⟩
    · rw [he, List.singleton_append, units_cons_of_ne hescape]
      omega
    · rw [he, List.cons_append, List.singleton_append, units]
      omega

/-- Every character or escape denotes one character at most. -/
theorem length_decode_le (t : Text) : (decode t).length ≤ units t := by
  fun_induction decode t with
  | case1 => exact Nat.le_refl _
  | case2 => exact Nat.le_refl _
  | case3 rest ih =>
    have hcode := length_codePoint_le (rest.take 2)
    have hrest := units_le_of_suffix (List.drop_suffix 2 rest)
    rw [List.length_append, units]
    omega
  | case4 rest ih =>
    have hcode := length_codePoint_le (rest.takeWhile (· != '}'))
    have hrest :=
      units_le_of_suffix (((List.drop_suffix 1 _).trans
        (List.dropWhile_suffix (l := rest) (· != '}'))).trans
      (List.suffix_cons '{' rest))
    rw [List.length_append, units]
    omega
  | case5 rest _ ih =>
    have hcode := length_codePoint_le (rest.take 4)
    have hrest := units_le_of_suffix (List.drop_suffix 4 rest)
    rw [List.length_append, units]
    omega
  | case6 c rest _ _ _ ih =>
    have hc := length_escapedChar_le c
    rw [List.length_append, units]
    omega
  | case7 c rest hend _ _ _ hmore ih =>
    have hc : c ≠ '\\' := by
      intro hc
      cases rest with
      | nil => exact hend hc rfl
      | cons d rest => exact hmore d rest hc rfl
    rw [units_cons_of_ne hc, List.length_cons]
    omega

/-- Where a `${` is passed over, a backslash is. -/
theorem units_append_lt {a b : Text} (h : isTemplateText (a ++ b) = true) (ha : ['$', '{'] <:+: a) :
    units (a ++ b) < a.length + units b := by
  induction a with
  | nil => exact absurd (List.eq_nil_of_infix_nil ha) (by simp)
  | cons c rest ih =>
    by_cases hc : c = '\\'
    · subst hc
      cases rest with
      | nil => exact absurd ha.length_le (by simp)
      | cons d rest =>
        have := units_append_le rest b
        rw [List.cons_append, List.cons_append, units, List.length_cons, List.length_cons]
        omega
    · rw [List.cons_append, isTemplateText_cons hc] at h
      have hrest : ['$', '{'] <:+: rest := by
        rcases List.infix_cons_iff.mp ha with hprefix | hrest
        · obtain ⟨tail, hz⟩ := hprefix
          cases hz
          exact absurd rfl (h.2.1 rfl)
        · exact hrest
      have := ih h.2.2 hrest
      rw [List.cons_append, units_cons_of_ne hc, List.length_cons]
      omega

end Localization.Script

namespace Localization.Inlining

open Script (encode decode encodeHead encodeHead_cases isTemplateText hasSubstitution OpensBetween
  units)

/-! ### Texts with their tokens replaced -/

/-- A text in which every token is replaced by what there is for its name. -/
def substituted (find : Text → Option Text) (t : Text) : Text :=
  Text.replaceAll (fun t => (token? t).map fun (name, n) => ((find name).getD (t.take n), n)) 0 t

variable {find : Text → Option Text}

theorem substituted_cons {c : Char} {rest : Text} (h : token? (c :: rest) = none) :
    substituted find (c :: rest) = c :: substituted find rest :=
  Text.replaceAll_cons_of_none (by rw [h]; rfl)

theorem substituted_token {t name : Text} {n : Nat} (h : token? t = some (name, n)) :
    substituted find t = (find name).getD (t.take n) ++ substituted find (t.drop n) := by
  obtain ⟨inner, rest, rfl, rfl, -⟩ := exists_of_token? h
  have htake : (braced inner ++ rest).take (braced inner).length = braced inner := List.take_left
  rw [htake, List.drop_left]
  refine Text.replaceAll_match (List.cons_ne_nil _ _) ?_
  rw [h]
  simp only [Option.map_some, htake]

/-- Only what there is for the names of tokens matters. -/
theorem substituted_congr {find' : Text → Option Text} {t : Text}
    (h : ∀ p ∈ tokensOf t, find p.1 = find' p.1) :
    substituted find t = substituted find' t := by
  induction t using tokenInduction with
  | nil => rfl
  | char c rest hnone ih =>
    rw [tokensOf_cons hnone] at h
    rw [substituted_cons hnone, substituted_cons hnone, ih h]
  | token t name n htoken ih =>
    rw [tokensOf_token htoken, List.forall_mem_cons] at h
    rw [substituted_token htoken, substituted_token htoken, ih h.2, h.1]

/-! ### Strings as parameters -/

/-- Strings as the parameters of a call. -/
def stringParams (strings : List (Text × Text)) : Properties :=
  strings.map fun (name, s) => (name, .string s)

variable {strings : List (Text × Text)}

theorem lookup_stringParams (key : Text) :
    (stringParams strings).lookup key = (strings.lookup key).map .string := by
  induction strings with
  | nil => rfl
  | cons p strings ih =>
    rw [stringParams, List.map_cons, List.lookup, List.lookup]
    split
    · rfl
    · exact ih

/-- The string that a token of this name stands for: names are looked up escaped. -/
def stringOf (strings : List (Text × Text)) (name : Text) : Option Text :=
  strings.lookup (encode name)

theorem tokenText_of_stringOf {name s : Text} (h : stringOf strings name = some s) (token : Text) :
    tokenText (stringParams strings) name token = if hasSubstitution s then s else encode s := by
  have hlookup : strings.lookup (encode name) = some s := h
  rw [tokenText, lookup_stringParams, hlookup]
  rfl

theorem tokenText_of_stringOf_eq_none {name : Text} (h : stringOf strings name = none)
    (token : Text) :
    tokenText (stringParams strings) name token = encode token := by
  have hlookup : strings.lookup (encode name) = none := h
  rw [tokenText, lookup_stringParams, hlookup]
  rfl

/-- The body of a literal has no more units than the text with its tokens replaced has
characters. -/
theorem units_templateBody_le (t : Text) :
    units (templateBody (stringParams strings) t) ≤ (substituted (stringOf strings) t).length := by
  induction t using tokenInduction with
  | nil => exact Nat.le_refl _
  | char c rest hnone ih =>
    rw [templateBody_cons hnone, substituted_cons hnone, List.length_cons]
    rcases encodeHead_cases c rest with ⟨he, hescape, -⟩ | ⟨he, -⟩
    · rw [he, List.singleton_append, Script.units_cons_of_ne hescape]
      omega
    · rw [he, List.cons_append, List.singleton_append, units]
      omega
  | token t name n htoken ih =>
    rw [templateBody_token htoken, substituted_token htoken, List.length_append]
    cases hs : stringOf strings name with
    | none =>
      have :=
        Script.units_encode_append_le (t.take n) (templateBody (stringParams strings) (t.drop n))
      rw [tokenText_of_stringOf_eq_none hs, Option.getD_none]
      omega
    | some s =>
      rw [tokenText_of_stringOf hs, Option.getD_some]
      split
      · have := Script.units_append_le s (templateBody (stringParams strings) (t.drop n))
        omega
      · have := Script.units_encode_append_le s (templateBody (stringParams strings) (t.drop n))
        omega

theorem infix_of_hasSubstitution {s : Text} (h : hasSubstitution s = true) : ['$', '{'] <:+: s := by
  fun_induction hasSubstitution s with
  | case1 => cases h
  | case2 rest _ => exact ⟨[], rest, rfl⟩
  | case3 c rest _ ih => exact List.infix_cons (ih h)

/-! ### What a literal denotes -/

/-- Whether the strings that are put in for the tokens of a text are escaped, and none opens a
substitution with what follows its token. -/
def ArePlainIn (strings : List (Text × Text)) (t : Text) : Prop :=
  ∀ name rest s, (name, rest) ∈ tokensOf t → stringOf strings name = some s →
    hasSubstitution s = false ∧ ¬ OpensBetween s (templateBody (stringParams strings) rest)

theorem arePlainIn_cons {c : Char} {rest : Text} (h : token? (c :: rest) = none) :
    ArePlainIn strings (c :: rest) ↔ ArePlainIn strings rest := by
  rw [ArePlainIn, ArePlainIn, tokensOf_cons h]

theorem arePlainIn_token {t name : Text} {n : Nat} (h : token? t = some (name, n)) :
    ArePlainIn strings t ↔
      (∀ s, stringOf strings name = some s →
        hasSubstitution s = false ∧
        ¬ OpensBetween s (templateBody (stringParams strings) (t.drop n))) ∧
      ArePlainIn strings (t.drop n) := by
  simp only [ArePlainIn, tokensOf_token h, List.mem_cons, Prod.mk.injEq]
  constructor
  · exact fun hall => ⟨fun s hs => hall name _ s (.inl ⟨rfl, rfl⟩) hs, fun name' rest s hmem =>
      hall name' rest s (.inr hmem)⟩
  · rintro ⟨hfirst, hall⟩ name' rest s (⟨rfl, rfl⟩ | hmem) hs
    · exact hfirst s hs
    · exact hall name' rest s hmem hs

/-- A token that is left alone opens nothing. -/
theorem not_opensBetween_token {t name : Text} {n : Nat} (h : token? t = some (name, n))
    (b : Text) :
    ¬ OpensBetween (t.take n) b := by
  rw [OpensBetween, getLast?_token h]
  rintro ⟨he, -⟩
  cases he

/-- **A body denotes the text with its tokens replaced exactly if its strings are plain.** -/
theorem isTemplateText_and_decode_iff (t : Text) :
    isTemplateText (templateBody (stringParams strings) t) = true ∧
        decode (templateBody (stringParams strings) t) = substituted (stringOf strings) t ↔
          ArePlainIn strings t := by
  induction t using tokenInduction with
  | nil => simp [templateBody_empty, isTemplateText, decode, substituted, Text.replaceAll,
    ArePlainIn, tokensOf, Text.findAll]
  | char c rest hnone ih =>
    rw [arePlainIn_cons hnone, ← ih, templateBody_cons hnone, substituted_cons hnone]
    rcases encodeHead_cases c rest with ⟨he, hescape, htick, hdollar⟩ | ⟨he, hc⟩
    · rw [he, List.singleton_append, Script.isTemplateText_cons hescape,
        Script.decode_cons_of_ne hescape, List.cons.injEq]
      have hopen : c = '$' → (templateBody (stringParams strings) rest).head? ≠ some '{' :=
        fun hc =>
        head?_templateBody_ne (hdollar hc)
      exact ⟨fun h => ⟨h.1.2.2, h.2.2⟩, fun h => ⟨⟨htick, hopen, h.1⟩, rfl, h.2⟩⟩
    · rw [he, List.cons_append, List.singleton_append, isTemplateText,
        Script.decode_escaped_cons hc, List.cons.injEq]
      exact ⟨fun h => ⟨h.1, h.2.2⟩, fun h => ⟨h.1, rfl, h.2⟩⟩
  | token t name n htoken ih =>
    rw [arePlainIn_token htoken, ← ih, templateBody_token htoken, substituted_token htoken]
    cases hs : stringOf strings name with
    | none =>
      rw [tokenText_of_stringOf_eq_none hs, Option.getD_none, Script.isTemplateText_encode_append,
        Script.decode_encode_append, List.append_cancel_left_eq]
      have := not_opensBetween_token htoken (templateBody (stringParams strings) (t.drop n))
      simp [this]
    | some s =>
      rw [tokenText_of_stringOf hs, Option.getD_some]
      cases hsubstitution : hasSubstitution s with
      | false =>
        rw [if_neg (by simp), Script.isTemplateText_encode_append, Script.decode_encode_append,
          List.append_cancel_left_eq]
        simp only [Option.some.injEq, forall_eq', hsubstitution, true_and]
        tauto
      | true =>
        -- Without its backslash the string denotes fewer characters than it has.
        rw [if_pos rfl]
        simp only [Option.some.injEq, forall_eq', hsubstitution, reduceCtorEq, false_and,
          iff_false, not_and]
        intro htext hdecode
        have hlength := congrArg List.length hdecode
        have hle := Script.length_decode_le (s ++ templateBody (stringParams strings) (t.drop n))
        have hlt := Script.units_append_lt htext (infix_of_hasSubstitution hsubstitution)
        have hbody : units (templateBody (stringParams strings) (t.drop n)) ≤
            (substituted (stringOf strings) (t.drop n)).length :=
          units_templateBody_le _
        rw [List.length_append] at hlength
        omega

/-- Whether a text is one template literal without substitutions that denotes another text. -/
def Denotes (v w : Text) : Prop :=
  IsLiteral v ∧ ∃ body, v = '`' :: body ++ ['`'] ∧ isTemplateText body = true ∧ decode body = w

theorem denotes_iff_body {body w : Text} :
    Denotes ('`' :: body ++ ['`']) w ↔ isTemplateText body = true ∧ decode body = w := by
  constructor
  · rintro ⟨-, body', hbody, h⟩
    have hsame : body = body' := (List.append_inj' (List.cons.inj hbody).2 rfl).1
    rwa [hsame]
  · exact fun h => ⟨isLiteral_iff_within.mpr (Script.within_of_isTemplateText h.1), body, rfl, h⟩

/-- **What the literal of a text with string parameters denotes.** It is one literal without
substitutions that denotes the text with its tokens replaced, each by the string of its escaped
name, exactly if the strings put in are plain there. Where escaping changes no name that has a
string, these are the strings of the names themselves. -/
theorem denotes_iff (strings : List (Text × Text)) {t : Text} (ht : t ≠ []) :
    ∃ v, valueText? (stringParams strings) (some (.string t)) = some v ∧
      (Denotes v (substituted (stringOf strings) t) ↔ ArePlainIn strings t) ∧
      ((∀ p ∈ tokensOf t, stringOf strings p.1 = strings.lookup p.1) →
        (Denotes v (substituted (fun name => strings.lookup name) t) ↔ ArePlainIn strings t)) := by
  have hiff :
      Denotes ('`' :: templateBody (stringParams strings) t ++ ['`'])
        (substituted (stringOf strings) t) ↔
      ArePlainIn strings t := by
    rw [denotes_iff_body, isTemplateText_and_decode_iff]
  refine ⟨_, valueText?_of_ne_nil ht, hiff, fun hnames => ?_⟩
  rw [← substituted_congr hnames]
  exact hiff

/-- Strings with a backslash, dollar signs, a backtick and braces. -/
def priceStrings : List (Text × Text) := [(['p'], "\\$"), (['q'], "5` \x7b\x7b$")]

/-- A text with a token for each. -/
def priceText : Text := "\x7b\x7bp\x7d\x7d\x7b\x7b q \x7d\x7d!"

theorem denotes_price :
    priceText ≠ [] ∧ (∀ p ∈ tokensOf priceText, stringOf priceStrings p.1 =
      priceStrings.lookup p.1) ∧
      substituted (fun name => priceStrings.lookup name) priceText = "\\$5` \x7b\x7b$!" ∧
      Denotes "`\\\\$5\\` \x7b\x7b$!`" (substituted (fun name =>
        priceStrings.lookup name) priceText) := by
  have hne : priceText ≠ [] := by decide
  have hnames : ∀ p ∈ tokensOf priceText, stringOf priceStrings p.1 =
      priceStrings.lookup p.1 := by decide
  obtain ⟨v, hv, -, hiff⟩ := denotes_iff priceStrings hne
  have hvalue : valueText? (stringParams priceStrings) (some (.string priceText)) =
      some "`\\\\$5\\` \x7b\x7b$!`" := by decide
  obtain rfl := Option.some.inj (hv.symm.trans hvalue)
  refine ⟨hne, hnames, by decide, (hiff hnames).mpr fun name rest s hmem hs => ?_⟩
  have htokens :
      tokensOf priceText = [(['p'], "\x7b\x7b q \x7d\x7d!".toList), (['q'], ['!'])] := by decide
  rw [htokens] at hmem
  simp only [List.mem_cons, Prod.mk.injEq, List.not_mem_nil, or_false] at hmem
  rcases hmem with ⟨rfl, rfl⟩ | ⟨rfl, rfl⟩
  · obtain rfl : "\\$".toList = s := Option.some.inj hs
    exact ⟨by decide, by decide⟩
  · obtain rfl : "5` \x7b\x7b$".toList = s := Option.some.inj hs
    exact ⟨by decide, by decide⟩

/-- A string that only looks like a template is put in as one: its substitution is live. -/
theorem not_denotes_substitution :
    valueText? (stringParams [(['p'], "$\x7bx\x7d")]) (some (.string "\x7b\x7bp\x7d\x7d")) =
      some "`$\x7bx\x7d`" ∧
      substituted (fun name => List.lookup name [("p".toList, "$\x7bx\x7d".toList)])
        "\x7b\x7bp\x7d\x7d" = "$\x7bx\x7d" ∧
      ¬ Denotes "`$\x7bx\x7d`" "$\x7bx\x7d" := by
  refine ⟨by decide, by decide, fun h => ?_⟩
  have hbody : Denotes ('`' :: "$\x7bx\x7d".toList ++ ['`']) "$\x7bx\x7d" := h
  exact absurd (denotes_iff_body.mp hbody).1 (by decide)

end Localization.Inlining
