import Mathlib
import Localization.Proofs.Json.Distinct
import Localization.Proofs.Json.Lexing

/-! Reading written JSON back.

What the writer makes of a value is read as that value (`ofText?_pretty`) if no object in it
has a key twice, its containers nest no deeper than the reader allows, and every number in
it is the one that its own text denotes. The last is no matter of course: the reader rounds
twice, so that the text of a double may denote the one beside it. -/
namespace Localization.Json

/-! ### Values that can be read back -/

/-- Whether the text of a number denotes the number. -/
def Number.isKept (n : Number) : Bool :=
  match bare? n.toText with
  | some (.numeral m) => decide (Number.ofNumeral? m = some n)
  | _ => false

mutual

/-- Whether a value can be read back where `depth` containers may nest. -/
def Value.isKept (depth : Nat) : Value → Bool
  | .null => true
  | .bool _ => true
  | .number n => n.isKept
  | .string _ => true
  | .array items => 0 < depth && areItemsKept (depth - 1) items
  | .object entries => 0 < depth && areEntriesKept (depth - 1) entries

def areItemsKept (depth : Nat) : List Value → Bool
  | [] => true
  | v :: rest => v.isKept depth && areItemsKept depth rest

def areEntriesKept (depth : Nat) : List (Text × Value) → Bool
  | [] => true
  | (_, v) :: rest => v.isKept depth && areEntriesKept depth rest

end

theorem areItemsKept_iff {items : List Value} {depth : Nat} :
    areItemsKept depth items = true ↔ ∀ v ∈ items, v.isKept depth = true := by
  induction items with
  | nil => simp [areItemsKept]
  | cons v rest ih => simp [areItemsKept, ih]

theorem areEntriesKept_iff {entries : List (Text × Value)} {depth : Nat} :
    areEntriesKept depth entries = true ↔ ∀ e ∈ entries, e.2.isKept depth = true := by
  induction entries with
  | nil => simp [areEntriesKept]
  | cons e rest ih => simp [areEntriesKept, ih]

/-! ### Tokens of a value -/

/-- The numeral that a number is written as. -/
def Number.numeral (n : Number) : Decimal.Numeral :=
  match bare? n.toText with
  | some (.numeral m) => m
  | _ => ⟨false, [], none, none⟩

mutual

/-- The tokens of a written value. -/
def Value.tokens : Value → List Token
  | .null => [.null]
  | .bool b => [.bool b]
  | .number n => [.numeral n.numeral]
  | .string s => [.string (glyphs s)]
  | .array [] => [.openBracket, .closeBracket]
  | .array (v :: items) => .openBracket :: (v.tokens ++ (itemTokens items ++ [.closeBracket]))
  | .object [] => [.openBrace, .closeBrace]
  | .object ((key, v) :: entries) =>
    .openBrace :: .string (glyphs key) :: .colon ::
      (v.tokens ++ (entryTokens entries ++ [.closeBrace]))

/-- The tokens of the items behind the first one. -/
def itemTokens : List Value → List Token
  | [] => []
  | v :: items => .comma :: (v.tokens ++ itemTokens items)

/-- The tokens of the entries behind the first one. -/
def entryTokens : List (Text × Value) → List Token
  | [] => []
  | (key, v) :: entries =>
    .comma :: .string (glyphs key) :: .colon :: (v.tokens ++ entryTokens entries)

end

/-! ### Words of numbers -/

theorem isBare_of_isDigit {c : Char} (h : c.isDigit = true) : isBare c = true := by
  simp [isBare, Char.isAlphanum, h]

theorem all_isBare_ofNat (n : Nat) : (Text.ofNat n).all isBare = true := by
  rw [List.all_eq_true]
  intro c hc
  exact isBare_of_isDigit (Nat.isDigit_of_mem_toDigits (by decide) (by decide) hc)

theorem all_isBare_zeros (n : Nat) : (Decimal.zeros n).all isBare = true := by
  rw [List.all_eq_true]
  intro c hc
  obtain rfl := List.eq_of_mem_replicate hc
  rfl

theorem all_isBare_sign (negative : Bool) : (Decimal.sign negative).all isBare = true := by
  cases negative <;> rfl

theorem all_isBare_take {t : Text} (h : t.all isBare = true) (n : Nat) :
    (t.take n).all isBare = true := by
  rw [List.all_eq_true] at h ⊢
  exact fun c hc => h c (List.mem_of_mem_take hc)

theorem all_isBare_drop {t : Text} (h : t.all isBare = true) (n : Nat) :
    (t.drop n).all isBare = true := by
  rw [List.all_eq_true] at h ⊢
  exact fun c hc => h c (List.mem_of_mem_drop hc)

theorem all_isBare_positional (d : Decimal.Digits) : (Decimal.positional d).all isBare = true := by
  have hdigits := all_isBare_ofNat d.digits
  simp only [Decimal.positional]
  split
  · simp only [List.all_append, hdigits, all_isBare_zeros, Bool.and_self]
  · split
    · have hpoint : isBare '.' = true := rfl
      simp only [List.all_append, List.all_cons, hpoint, all_isBare_take hdigits,
        all_isBare_drop hdigits, Bool.and_self]
    · have hzero : ("0." : String).toList.all isBare = true := rfl
      simp only [List.all_append, hzero, all_isBare_zeros, hdigits, Bool.and_self]

theorem all_isBare_withExponent (d : Decimal.Digits) :
    (Decimal.withExponent d).all isBare = true := by
  have hdigits := all_isBare_ofNat d.digits
  have hpoint : isBare '.' = true := rfl
  have hexp : isBare 'e' = true := rfl
  have hsign (b : Bool) : isBare (if b then '-' else '+') = true := by cases b <;> rfl
  have hfraction (b : Bool) :
      List.all (if b then [] else '.' :: List.drop 1 (Text.ofNat d.digits)) isBare = true := by
    cases b with
    | true => rfl
    | false =>
      show (isBare '.' && List.all (List.drop 1 (Text.ofNat d.digits)) isBare) = true
      rw [hpoint, all_isBare_drop hdigits, Bool.and_self]
  have hpower (power : Int) : isBare (if power < 0 then '-' else '+') = true := by
    simpa using hsign (decide (power < 0))
  simp only [Decimal.withExponent, List.all_append, List.all_cons, List.all_nil,
    all_isBare_take hdigits, all_isBare_ofNat, hexp, hpower, hfraction, Bool.and_self]

theorem all_isBare_toText (n : Number) : n.toText.all isBare = true := by
  cases n with
  | integer i =>
    simp only [Number.toText, List.all_append, all_isBare_sign, all_isBare_ofNat, Bool.and_self]
  | double x =>
    have hnull : ("null" : String).toList.all isBare = true := rfl
    have hzero : ("0.0" : String).toList.all isBare = true := rfl
    cases x with
    | finite s m e =>
      simp only [Number.toText]
      unfold Decimal.scientific
      split
      · simp only [List.all_append, all_isBare_sign, hzero, Bool.and_self]
      · rw [List.all_append, all_isBare_sign, Bool.true_and]
        split
        · rw [List.all_append, all_isBare_positional, Bool.true_and]
          split <;> rfl
        · exact all_isBare_withExponent _
      · exact hnull
    | infinite s => exact hnull
    | nan => exact hnull

theorem bare?_of_isKept {n : Number} (h : n.isKept = true) :
    bare? n.toText = some (.numeral n.numeral) ∧ Number.ofNumeral? n.numeral = some n := by
  unfold Number.isKept at h
  unfold Number.numeral
  split at h
  · next m hm =>
    rw [hm]
    exact ⟨rfl, of_decide_eq_true h⟩
  · cases h

theorem toText_ne_nil {n : Number} (h : n.isKept = true) : n.toText ≠ [] := by
  intro hnil
  have hnone : bare? [] = none := rfl
  have := (bare?_of_isKept h).1
  rw [hnil, hnone] at this
  cases this

/-! ### Lexing a written value -/

theorem isOutsideWord_itemsBefore {depth : Nat} {rest : Text} (h : isOutsideWord rest = true)
    (items : List Value) :
    isOutsideWord (itemsBefore depth rest items) = true := by
  cases items with
  | nil => exact h
  | cons v items => rfl

theorem isOutsideWord_entriesBefore {depth : Nat} {rest : Text} (h : isOutsideWord rest = true)
    (entries : List (Text × Value)) : isOutsideWord (entriesBefore depth rest entries) = true := by
  cases entries with
  | nil => exact h
  | cons e entries => rfl

mutual

/-- The text of a value is read as the tokens of the value. -/
theorem lex_prettyBefore {limit : Nat} (depth : Nat) {rest : Text}
    (hrest : isOutsideWord rest = true) :
    ∀ v : Value, v.isKept limit = true →
      lex .between (v.prettyBefore depth rest) = (lex .between rest).map (v.tokens ++ ·)
  | .null, _ => lex_word (w := "null") (by decide) (by decide) rfl hrest
  | .bool true, _ => lex_word (w := "true") (by decide) (by decide) rfl hrest
  | .bool false, _ => lex_word (w := "false") (by decide) (by decide) rfl hrest
  | .number n, h => lex_word (all_isBare_toText n) (toText_ne_nil h) (bare?_of_isKept h).1 hrest
  | .string s, _ => lex_quote s rest
  | .array [], _ => by
    show lex .between ('[' :: ']' :: rest) = _
    rw [lex_mark .openBracket rfl, lex_mark .closeBracket rfl, Option.map_map]
    rfl
  | .array (v :: items), h => by
    simp only [Value.isKept, areItemsKept, Bool.and_eq_true] at h
    have hclose : isOutsideWord (newLine depth (']' :: rest)) = true := rfl
    rw [Value.prettyBefore, lex_mark .openBracket rfl, lex_newLine,
      lex_prettyBefore (depth + 1) (isOutsideWord_itemsBefore hclose items) v h.2.1,
      lex_itemsBefore (depth + 1) hclose items h.2.2, lex_newLine, lex_mark .closeBracket rfl]
    simp [Value.tokens, Function.comp_def]
  | .object [], _ => by
    show lex .between ('{' :: '}' :: rest) = _
    rw [lex_mark .openBrace rfl, lex_mark .closeBrace rfl, Option.map_map]
    rfl
  | .object ((key, v) :: entries), h => by
    simp only [Value.isKept, areEntriesKept, Bool.and_eq_true] at h
    have hclose : isOutsideWord (newLine depth ('}' :: rest)) = true := rfl
    rw [Value.prettyBefore, lex_mark .openBrace rfl, lex_newLine, lex_quote,
      lex_mark .colon rfl, lex_space rfl,
      lex_prettyBefore (depth + 1) (isOutsideWord_entriesBefore hclose entries) v h.2.1,
      lex_entriesBefore (depth + 1) hclose entries h.2.2, lex_newLine, lex_mark .closeBrace rfl]
    simp [Value.tokens, Function.comp_def]

theorem lex_itemsBefore {limit : Nat} (depth : Nat) {rest : Text}
    (hrest : isOutsideWord rest = true) :
    ∀ items : List Value, areItemsKept limit items = true →
      lex .between (itemsBefore depth rest items) = (lex .between rest).map (itemTokens items ++ ·)
  | [], _ => by simp [itemsBefore, itemTokens]
  | v :: items, h => by
    simp only [areItemsKept, Bool.and_eq_true] at h
    rw [itemsBefore, lex_mark .comma rfl, lex_newLine,
      lex_prettyBefore depth (isOutsideWord_itemsBefore hrest items) v h.1,
      lex_itemsBefore depth hrest items h.2]
    simp [itemTokens, Function.comp_def]

theorem lex_entriesBefore {limit : Nat} (depth : Nat) {rest : Text}
    (hrest : isOutsideWord rest = true) :
    ∀ entries : List (Text × Value), areEntriesKept limit entries = true →
      lex .between (entriesBefore depth rest entries) =
        (lex .between rest).map (entryTokens entries ++ ·)
  | [], _ => by simp [entriesBefore, entryTokens]
  | (key, v) :: entries, h => by
    simp only [areEntriesKept, Bool.and_eq_true] at h
    rw [entriesBefore, lex_mark .comma rfl, lex_newLine, lex_quote,
      lex_mark .colon rfl, lex_space rfl,
      lex_prettyBefore depth (isOutsideWord_entriesBefore hrest entries) v h.1,
      lex_entriesBefore depth hrest entries h.2]
    simp [entryTokens, Function.comp_def]

end

/-! ### Nesting the tokens of a value -/

mutual

/-- A value as it is written. -/
def Value.raw : Value → Raw
  | .null => .null
  | .bool b => .bool b
  | .number n => .numeral n.numeral
  | .string s => .string (glyphs s)
  | .array items => .array (rawItems items)
  | .object entries => .object (rawEntries entries)

def rawItems : List Value → List Raw
  | [] => []
  | v :: items => v.raw :: rawItems items

def rawEntries : List (Text × Value) → List (List Glyph × Raw)
  | [] => []
  | (key, v) :: entries => (glyphs key, v.raw) :: rawEntries entries

end

theorem advanceAll_cons {r next : Reading} {t : Token} (h : advance t r = some next)
    (ts : List Token) :
    advanceAll r (t :: ts) = advanceAll next ts := by
  rw [advanceAll, h]

/-- The tokens of a scalar complete it. -/
theorem advanceAll_scalar {r : Reading} {t : Token} {v : Raw} {outer : List Open}
    (h : advance t r = complete v outer) (ts : List Token) :
    advanceAll r (t :: ts) = (complete v outer).bind (advanceAll · ts) := by
  rw [advanceAll, h]
  cases complete v outer <;> rfl

/-- Where a value is expected, first in an array or not. -/
def ExpectsValue (outer : List Open) (r : Reading) : Prop :=
  r = .inside .value outer ∨ r = .inside .firstItem outer

theorem ExpectsValue.advance {outer : List Open} {r : Reading} (h : ExpectsValue outer r)
    {t : Token} (ht : t ≠ .closeBracket) : Json.advance t r = begin? t outer := by
  rcases h with rfl | rfl
  · rfl
  · cases t with
    | closeBracket => exact absurd rfl ht
    | _ => rfl

mutual

/-- The tokens of a value complete the value. -/
theorem advanceAll_tokens (outer : List Open) {r : Reading} (hr : ExpectsValue outer r)
    (ts : List Token) :
    ∀ v : Value, advanceAll r (v.tokens ++ ts) = (complete v.raw outer).bind (advanceAll · ts)
  | .null => advanceAll_scalar (hr.advance (by decide)) ts
  | .bool b => advanceAll_scalar (hr.advance (by rintro ⟨⟩)) ts
  | .number n => advanceAll_scalar (hr.advance (by rintro ⟨⟩)) ts
  | .string s => advanceAll_scalar (hr.advance (by rintro ⟨⟩)) ts
  | .array [] => by
    show advanceAll r (.openBracket :: .closeBracket :: ts) = _
    rw [advanceAll_cons (hr.advance (by decide))]
    exact advanceAll_scalar rfl ts
  | .array (v :: items) => by
    have htext : (Value.array (v :: items)).tokens ++ ts =
        .openBracket :: (v.tokens ++ (itemTokens items ++ .closeBracket :: ts)) := by
      simp [Value.tokens]
    rw [htext, advanceAll_cons (hr.advance (by decide)),
      advanceAll_tokens (.array [] :: outer) (.inr rfl) _ v]
    exact advanceAll_itemTokens _ ts items
  | .object [] => by
    show advanceAll r (.openBrace :: .closeBrace :: ts) = _
    rw [advanceAll_cons (hr.advance (by decide))]
    exact advanceAll_scalar rfl ts
  | .object ((key, v) :: entries) => by
    have htext : (Value.object ((key, v) :: entries)).tokens ++ ts =
        .openBrace :: .string (glyphs key) :: .colon ::
          (v.tokens ++ (entryTokens entries ++ .closeBrace :: ts)) := by
      simp [Value.tokens]
    rw [htext, advanceAll_cons (hr.advance (by decide)), advanceAll_cons rfl, advanceAll_cons rfl,
      advanceAll_tokens (.member [] (glyphs key) :: outer) (.inl rfl) _ v]
    exact advanceAll_entryTokens _ ts entries

/-- The items behind the first ones complete the array. -/
theorem advanceAll_itemTokens {outer : List Open} (read : List Raw) (ts : List Token) :
    ∀ items : List Value,
      advanceAll (.inside .next (.array read :: outer)) (itemTokens items ++ .closeBracket :: ts) =
        (complete (.array (read.reverse ++ rawItems items)) outer).bind (advanceAll · ts)
  | [] => by
    rw [rawItems, List.append_nil]
    exact advanceAll_scalar rfl ts
  | v :: items => by
    have htext : itemTokens (v :: items) ++ .closeBracket :: ts =
        .comma :: (v.tokens ++ (itemTokens items ++ .closeBracket :: ts)) := by
      simp [itemTokens]
    rw [htext, advanceAll_cons rfl, advanceAll_tokens (.array read :: outer) (.inl rfl) _ v]
    refine (advanceAll_itemTokens (v.raw :: read) ts items).trans ?_
    rw [rawItems, List.reverse_cons, List.append_assoc]
    rfl

/-- The entries behind the first ones complete the object. -/
theorem advanceAll_entryTokens {outer : List Open} (read : List (List Glyph × Raw))
    (ts : List Token) :
    ∀ entries : List (Text × Value),
      advanceAll (.inside .next (.object read :: outer))
        (entryTokens entries ++ .closeBrace :: ts) =
        (complete (.object (read.reverse ++ rawEntries entries)) outer).bind (advanceAll · ts)
  | [] => by
    rw [rawEntries, List.append_nil]
    exact advanceAll_scalar rfl ts
  | (key, v) :: entries => by
    have htext : entryTokens ((key, v) :: entries) ++ .closeBrace :: ts =
        .comma :: .string (glyphs key) :: .colon ::
          (v.tokens ++ (entryTokens entries ++ .closeBrace :: ts)) := by
      simp [entryTokens]
    rw [htext, advanceAll_cons rfl, advanceAll_cons rfl, advanceAll_cons rfl,
      advanceAll_tokens (.member read (glyphs key) :: outer) (.inl rfl) _ v]
    refine (advanceAll_entryTokens ((glyphs key, v.raw) :: read) ts entries).trans ?_
    rw [rawEntries, List.reverse_cons, List.append_assoc]
    rfl

end

/-! ### The value of what was written -/

theorem decode?_unit {code : Nat} (h : code < 0xD800) (rest : List Glyph) :
    decode? (.unit code :: rest) = (decode? rest).map (Char.ofNat code :: ·) := by
  have hlow : (decide (0xD800 ≤ code) && decide (code ≤ 0xDBFF)) = false := by
    simp only [Bool.and_eq_false_iff, decide_eq_false_iff_not]
    omega
  have hhigh : (decide (0xDC00 ≤ code) && decide (code ≤ 0xDFFF)) = false := by
    simp only [Bool.and_eq_false_iff, decide_eq_false_iff_not]
    omega
  rw [decode?.eq_def]
  simp only [hlow, hhigh, Bool.false_eq_true, if_false]

theorem decode?_glyphs (t : Text) : decode? (glyphs t) = some t := by
  induction t with
  | nil => rfl
  | cons c t ih =>
    have hcons : glyphs (c :: t) = glyph c :: glyphs t := rfl
    rw [hcons, glyph]
    split
    · next hc =>
      simp only [Bool.and_eq_true, decide_eq_true_eq] at hc
      rw [decode?_unit (by omega), ih, Char.ofNat_toNat]
      rfl
    · rw [decode?, ih]
      rfl

mutual

theorem toValue?_raw {depth : Nat} : ∀ v : Value, v.isKept depth = true → v.hasDistinctKeys →
    v.raw.toValue? depth = some v
  | .null, _, _ => by rw [Value.raw, Raw.toValue?]
  | .bool b, _, _ => by rw [Value.raw, Raw.toValue?]
  | .number n, h, _ => by
    rw [Value.raw, Raw.toValue?, (bare?_of_isKept h).2]
    rfl
  | .string s, _, _ => by
    rw [Value.raw, Raw.toValue?, decode?_glyphs]
    rfl
  | .array items, h, hk => by
    simp only [Value.isKept, Bool.and_eq_true, decide_eq_true_eq] at h
    obtain ⟨depth, rfl⟩ := Nat.exists_eq_add_one_of_ne_zero (Nat.ne_of_gt h.1)
    rw [Nat.add_sub_cancel] at h
    rw [Value.raw, Raw.toValue?, toValues?_rawItems items h.2 hk]
    rfl
  | .object entries, h, hk => by
    simp only [Value.isKept, Bool.and_eq_true, decide_eq_true_eq] at h
    obtain ⟨depth, rfl⟩ := Nat.exists_eq_add_one_of_ne_zero (Nat.ne_of_gt h.1)
    rw [Nat.add_sub_cancel] at h
    rw [Value.hasDistinctKeys] at hk
    rw [Value.raw, Raw.toValue?, toEntries?_rawEntries entries h.2 hk.2, Option.map_some,
      Object.ofList_of_nodup hk.1]

theorem toValues?_rawItems {depth : Nat} : ∀ items : List Value, areItemsKept depth items = true →
    haveDistinctKeys items → Raw.toValues? depth (rawItems items) = some items
  | [], _, _ => by rw [rawItems, Raw.toValues?]
  | v :: items, h, hk => by
    rw [areItemsKept, Bool.and_eq_true] at h
    rw [haveDistinctKeys] at hk
    rw [rawItems, Raw.toValues?, toValue?_raw v h.1 hk.1, toValues?_rawItems items h.2 hk.2]
    rfl

theorem toEntries?_rawEntries {depth : Nat} : ∀ entries : List (Text × Value),
    areEntriesKept depth entries = true → entriesHaveDistinctKeys entries →
      Raw.toEntries? depth (rawEntries entries) = some entries
  | [], _, _ => by rw [rawEntries, Raw.toEntries?]
  | (key, v) :: entries, h, hk => by
    rw [areEntriesKept, Bool.and_eq_true] at h
    rw [entriesHaveDistinctKeys] at hk
    rw [rawEntries, Raw.toEntries?, decode?_glyphs, toValue?_raw v h.1 hk.1,
      toEntries?_rawEntries entries h.2 hk.2]
    rfl

end

/-- A written value is read as it is written, also with blanks behind it. -/
theorem rawOfText?_pretty {v : Value} (hv : v.isKept maxDepth = true) {behind : Text}
    (hb : behind.all isSpace = true) :
    Raw.ofText? (v.pretty ++ behind) = some v.raw := by
  have hblank : ∀ t : Text, t.all isSpace = true → lex .between t = some [] := by
    intro t ht
    induction t with
    | nil => rfl
    | cons c t ih =>
      rw [List.all_cons, Bool.and_eq_true] at ht
      rw [lex_space ht.1, ih ht.2]
  have hout : isOutsideWord behind = true := by
    cases behind with
    | nil => rfl
    | cons c t =>
      rw [List.all_cons, Bool.and_eq_true] at hb
      have hc := hb.1
      simp only [isSpace, Bool.or_eq_true, beq_iff_eq] at hc
      rcases hc with ((rfl | rfl) | rfl) | rfl <;> rfl
  have hlex : lex .between (v.pretty ++ behind) = some v.tokens := by
    rw [Value.pretty, ← Value.prettyBefore_append, List.nil_append, lex_prettyBefore 0 hout v hv,
      hblank behind hb, Option.map_some, List.append_nil]
  have hread : advanceAll (.inside .value []) v.tokens = some (.finished v.raw) := by
    have := advanceAll_tokens [] (.inl rfl) [] v
    rw [List.append_nil] at this
    exact this
  rw [Raw.ofText?, hlex, Option.bind_some, hread]

/-- **A written value is read back as the value**, also with blanks behind it. -/
theorem ofText?_pretty {v : Value} (hv : v.isKept maxDepth = true) (hk : v.hasDistinctKeys)
    {behind : Text} (hb : behind.all isSpace = true) :
    Value.ofText? (v.pretty ++ behind) = some v := by
  rw [Value.ofText?, rawOfText?_pretty hv hb]
  exact toValue?_raw v hv hk

end Localization.Json
