import Mathlib
import Localization.Inlining.Render
import Localization.Proofs.Text.Replace

/-! Parameter tokens of escaped texts.

Tokens are looked for in the text of a literal, that is behind escaping. They are the tokens of
the text itself, each with its name escaped (`token?_encode`): no backslash stands in the braces
of a token or splits them. So the body of a literal is made of the text's own characters,
escaped, and of what stands for its tokens (`templateBody_cons`, `templateBody_token`), and what
holds of such bodies is shown by induction on the characters and tokens of the text
(`tokenInduction`). -/
namespace Localization.Script

/-- What is written for a character in front of a text. -/
def encodeHead (c : Char) (rest : Text) : Text :=
  if c == '\\' || c == '`' || (c == '$' && rest.head? == some '{') then ['\\', c] else [c]

theorem encode_cons (c : Char) (rest : Text) :
    encode (c :: rest) = encodeHead c rest ++ encode rest := by
  rw [encode.eq_def]
  split
  · next heq => cases heq
  · next rest heq =>
    cases heq
    have hbrace : encode ('{' :: rest) = '{' :: encode rest := by rw [encode.eq_def]; rfl
    rw [hbrace]
    rfl
  · next d rest' hdollar heq =>
    cases heq
    have hhead : (c == '$' && rest.head? == some '{') = false := by
      rw [Bool.eq_false_iff]
      intro h
      rw [Bool.and_eq_true, beq_iff_eq, beq_iff_eq, List.head?_eq_some_iff] at h
      obtain ⟨rfl, tail, rfl⟩ := h
      exact hdollar tail rfl rfl
    rw [encodeHead, hhead, Bool.or_false]
    split <;> rfl

/-- Texts are escaped apart from each other but for a `$` and a `{` that meet. -/
theorem encode_append {a b : Text} (h : a.getLast? = some '$' → b.head? ≠ some '{') :
    encode (a ++ b) = encode a ++ encode b := by
  induction a with
  | nil => rfl
  | cons c rest ih =>
    have hhead : encodeHead c (rest ++ b) = encodeHead c rest := by
      cases rest with
      | cons d rest => rfl
      | nil =>
        by_cases hc : c = '$'
        · have hb : b.head? ≠ some '{' := h (by rw [hc]; rfl)
          simp [encodeHead, hb]
        · simp [encodeHead, hc]
    have hrest : rest.getLast? = some '$' → b.head? ≠ some '{' := by
      intro hlast
      cases rest with
      | nil => cases hlast
      | cons d rest => exact h (by rw [List.getLast?_cons, hlast]; rfl)
    rw [List.cons_append, encode_cons, encode_cons, hhead, ih hrest, List.append_assoc]

theorem encodeHead_of_not_mem {c : Char} (h : c ∉ ['\\', '`', '$']) (rest : Text) :
    encodeHead c rest = [c] := by
  simp only [List.mem_cons, List.not_mem_nil, or_false, not_or] at h
  simp [encodeHead, h]

theorem encodeHead_cases (c : Char) (rest : Text) :
    encodeHead c rest = [c] ∧ c ≠ '\\' ∧ c ≠ '`' ∧ (c = '$' → rest.head? ≠ some '{') ∨
      encodeHead c rest = ['\\', c] ∧ c ∈ ['\\', '`', '$'] := by
  rw [encodeHead]
  split
  · next h =>
    simp only [Bool.or_eq_true, beq_iff_eq, Bool.and_eq_true] at h
    refine .inr ⟨rfl, ?_⟩
    rcases h with (rfl | rfl) | ⟨rfl, -⟩ <;> simp
  · next h =>
    simp only [Bool.or_eq_true, beq_iff_eq, Bool.and_eq_true, not_or, not_and] at h
    exact .inl ⟨rfl, h.1.1, h.1.2, h.2⟩

/-- A text is escaped behind a brace as by itself. -/
theorem encode_brace {c : Char} (h : c = '{' ∨ c = '}') (rest : Text) :
    encode (c :: rest) = c :: encode rest := by
  rw [encode_cons, encodeHead_of_not_mem (by rcases h with rfl | rfl <;> decide)]
  rfl

theorem head?_encode_eq_brace_iff {c : Char} (h : c = '{' ∨ c = '}') (t : Text) :
    (encode t).head? = some c ↔ t.head? = some c := by
  cases t with
  | nil => rfl
  | cons d rest =>
    rw [encode_cons]
    rcases encodeHead_cases d rest with ⟨he, -⟩ | ⟨he, hd⟩
    · rw [he]; rfl
    · have hne : '\\' ≠ c := by rcases h with rfl | rfl <;> decide
      have hne' : d ≠ c := by
        rintro rfl
        rcases h with rfl | rfl <;> revert hd <;> decide
      simp [he, hne, hne']

end Localization.Script

namespace Localization.Inlining

open Script (encode encodeHead encode_cons encode_append encodeHead_of_not_mem encodeHead_cases
  encode_brace head?_encode_eq_brace_iff)

/-! ### Tokens -/

/-- The name of the token whose braces open in front of a text, and what follows the token. -/
def tokenBehind? (t : Text) : Option (Text × Text) :=
  match dropBlank ((dropBlank t).dropWhile isTokenChar) with
  | '}' :: '}' :: rest => some ((dropBlank t).takeWhile isTokenChar, rest)
  | _ => none

theorem token?_braces (t : Text) :
    token? ('{' :: '{' :: t) = (tokenBehind? t).map fun (name, rest) =>
      (name, t.length + 2 - rest.length) := by
  have hdrop : (dropBlank t).drop ((dropBlank t).takeWhile isTokenChar).length =
      (dropBlank t).dropWhile isTokenChar := by
    have hsplit := List.takeWhile_append_dropWhile (p := isTokenChar) (l := dropBlank t)
    exact (congrArg (List.drop _) hsplit.symm).trans List.drop_left
  simp only [token?, tokenBehind?, hdrop]
  split
  · next heq => simp [heq]
  · simp

/-- A token starts with two braces. -/
theorem token?_eq_none {t : Text} (h : ¬ ['{', '{'] <+: t) : token? t = none := by
  rw [token?.eq_def]
  split
  · next rest => exact absurd ⟨rest, rfl⟩ h
  · rfl

theorem exists_dropBlank (t : Text) : dropBlank t <:+ t := by
  cases t with
  | nil => exact List.suffix_rfl
  | cons c rest =>
    rw [dropBlank]
    split
    · exact List.suffix_cons _ _
    · exact List.suffix_rfl

theorem exists_tokenBehind? {t name rest : Text} (h : tokenBehind? t = some (name, rest)) :
    ∃ inner, t = inner ++ '}' :: '}' :: rest := by
  unfold tokenBehind? at h
  split at h
  · next heq =>
    cases h
    have hsuffix : '}' :: '}' :: rest <:+ t := by
      rw [← heq]
      exact (exists_dropBlank _).trans ((List.dropWhile_suffix _).trans (exists_dropBlank t))
    obtain ⟨inner, ht⟩ := hsuffix
    exact ⟨inner, ht.symm⟩
  · cases h

/-- A text between two braces and two braces. -/
def braced (inner : Text) : Text := '{' :: '{' :: (inner ++ ['}', '}'])

theorem braced_append (inner rest : Text) :
    braced inner ++ rest = '{' :: '{' :: (inner ++ '}' :: '}' :: rest) := by
  simp [braced]

theorem getLast?_braced (inner : Text) : (braced inner).getLast? = some '}' := by
  rw [braced, ← List.cons_append, ← List.cons_append, List.getLast?_append]
  rfl

/-- A token is the part of a text from two braces to two braces. -/
theorem exists_of_token? {t name : Text} {n : Nat} (h : token? t = some (name, n)) :
    ∃ inner rest, t = braced inner ++ rest ∧ n = (braced inner).length ∧
      tokenBehind? (inner ++ '}' :: '}' :: rest) = some (name, rest) := by
  by_cases hbraces : ['{', '{'] <+: t
  · obtain ⟨u, rfl⟩ := hbraces
    rw [List.cons_append, List.cons_append, List.nil_append, token?_braces] at h
    obtain ⟨⟨name', rest⟩, hbehind, he⟩ := Option.map_eq_some_iff.mp h
    cases he
    obtain ⟨inner, rfl⟩ := exists_tokenBehind? hbehind
    refine ⟨inner, rest, (braced_append inner rest).symm, ?_, hbehind⟩
    simp only [braced, List.length_append, List.length_cons, List.length_nil]
    omega
  · rw [token?_eq_none hbraces] at h
    cases h

/-- A token ends with a brace. -/
theorem getLast?_token {t name : Text} {n : Nat} (h : token? t = some (name, n)) :
    (t.take n).getLast? = some '}' := by
  obtain ⟨inner, rest, rfl, rfl, -⟩ := exists_of_token? h
  have htake : (braced inner ++ rest).take (braced inner).length = braced inner := List.take_left
  rw [htake, getLast?_braced]

/-! ### Tokens of escaped texts -/

theorem not_mem_of_not_isTokenChar {c : Char} (h : isTokenChar c = false) :
    c ∉ ['\\', '`', '$'] := by
  intro hc
  simp only [List.mem_cons, List.not_mem_nil, or_false] at hc
  rcases hc with rfl | rfl | rfl <;> revert h <;> decide

theorem isTokenChar_of_mem_encodeHead {c d : Char} {rest : Text} (h : isTokenChar c = true)
    (hd : d ∈ encodeHead c rest) : isTokenChar d = true := by
  rcases encodeHead_cases c rest with ⟨he, -⟩ | ⟨he, -⟩
  · rw [he, List.mem_singleton] at hd
    rw [hd, h]
  · rw [he, List.mem_cons, List.mem_singleton] at hd
    rcases hd with rfl | rfl
    · decide
    · exact h

theorem dropWhile_encode (t : Text) :
    (encode t).dropWhile isTokenChar = encode (t.dropWhile isTokenChar) := by
  induction t with
  | nil => rfl
  | cons c rest ih =>
    cases hc : isTokenChar c with
    | true =>
      rw [List.dropWhile_cons_of_pos hc, encode_cons,
        List.dropWhile_append_of_pos fun d hd => isTokenChar_of_mem_encodeHead hc hd, ih]
    | false =>
      rw [List.dropWhile_cons_of_neg (by simp [hc]), encode_cons,
        encodeHead_of_not_mem (not_mem_of_not_isTokenChar hc), List.singleton_append,
        List.dropWhile_cons_of_neg (by simp [hc])]

/-- A run of token characters is escaped apart from what follows it, which is no brace. -/
theorem takeWhile_encode {t : Text} (h : (t.dropWhile isTokenChar).head? ≠ some '{') :
    (encode t).takeWhile isTokenChar = encode (t.takeWhile isTokenChar) := by
  induction t with
  | nil => rfl
  | cons c rest ih =>
    cases hc : isTokenChar c with
    | true =>
      rw [List.dropWhile_cons_of_pos hc] at h
      have hhead : encodeHead c rest = encodeHead c (rest.takeWhile isTokenChar) := by
        cases rest with
        | nil => rfl
        | cons d rest =>
          cases hd : isTokenChar d with
          | true => rw [List.takeWhile_cons_of_pos hd]; rfl
          | false =>
            rw [List.dropWhile_cons_of_neg (by simp [hd])] at h
            have hne : d ≠ '{' := by simpa using h
            rw [List.takeWhile_cons_of_neg (by simp [hd])]
            simp [encodeHead, hne]
      rw [List.takeWhile_cons_of_pos hc, encode_cons, encode_cons, ← hhead, ← ih h,
        List.takeWhile_append_of_pos fun d hd => isTokenChar_of_mem_encodeHead hc hd]
    | false =>
      rw [List.takeWhile_cons_of_neg (by simp [hc]), encode_cons,
        encodeHead_of_not_mem (not_mem_of_not_isTokenChar hc), List.singleton_append,
        List.takeWhile_cons_of_neg (by simp [hc])]
      rfl

theorem dropBlank_encode (t : Text) : dropBlank (encode t) = encode (dropBlank t) := by
  cases t with
  | nil => rfl
  | cons c rest =>
    rcases encodeHead_cases c rest with ⟨he, -⟩ | ⟨he, hc⟩
    · rw [encode_cons, he, List.singleton_append, dropBlank, dropBlank]
      split
      · rfl
      · rw [encode_cons, he, List.singleton_append]
    · have hblank : Text.isBlank c = false := by
        simp only [List.mem_cons, List.not_mem_nil, or_false] at hc
        rcases hc with rfl | rfl | rfl <;> decide
      rw [dropBlank, if_neg (by simp [hblank]), encode_cons, he]
      rfl

theorem tokenBehind?_encode (t : Text) :
    tokenBehind? (encode t) = (tokenBehind? t).map fun (name, rest) =>
      (encode name, encode rest) := by
  have hbehind : dropBlank ((dropBlank (encode t)).dropWhile isTokenChar) =
      encode (dropBlank ((dropBlank t).dropWhile isTokenChar)) := by
    rw [dropBlank_encode, dropWhile_encode, dropBlank_encode]
  unfold tokenBehind?
  rw [hbehind]
  generalize hu : dropBlank ((dropBlank t).dropWhile isTokenChar) = u
  split
  · next rest heq =>
    obtain ⟨tail, rfl⟩ :=
      List.head?_eq_some_iff.mp ((head?_encode_eq_brace_iff (.inr rfl) u).mp (by rw [heq]; rfl))
    rw [encode_brace (.inr rfl), List.cons.injEq] at heq
    obtain ⟨tail, rfl⟩ :=
      List.head?_eq_some_iff.mp ((head?_encode_eq_brace_iff (.inr rfl) tail).mp
        (by rw [heq.2]; rfl))
    rw [encode_brace (.inr rfl), List.cons.injEq] at heq
    have hhead : ((dropBlank t).dropWhile isTokenChar).head? ≠ some '{' := by
      intro h
      obtain ⟨tail, h⟩ := List.head?_eq_some_iff.mp h
      rw [h] at hu
      cases hu
    rw [dropBlank_encode, takeWhile_encode hhead, ← heq.2.2]
    rfl
  · next hnone =>
    split
    · next rest =>
      rw [encode_brace (.inr rfl), encode_brace (.inr rfl)] at hnone
      exact absurd rfl (hnone _)
    · rfl

/-- A token is escaped apart from what follows it. -/
theorem encode_braced_append (inner rest : Text) :
    encode (braced inner ++ rest) = encode (braced inner) ++ encode rest :=
  encode_append fun h => by
    rw [getLast?_braced] at h
    cases h

/-- **The tokens of an escaped text are those of the text**, with their names and themselves
escaped. -/
theorem token?_encode (t : Text) :
    token? (encode t) = (token? t).map fun (name, n) =>
      (encode name, (encode (t.take n)).length) := by
  cases htoken : token? t with
  | some p =>
    obtain ⟨name, n⟩ := p
    obtain ⟨inner, rest, rfl, rfl, hbehind⟩ := exists_of_token? htoken
    have hlength := congrArg List.length (encode_braced_append inner rest)
    rw [braced_append, encode_brace (.inl rfl), encode_brace (.inl rfl), List.length_cons,
      List.length_cons, List.length_append] at hlength
    have htake : (braced inner ++ rest).take (braced inner).length = braced inner := List.take_left
    simp only [Option.map_some, htake]
    rw [braced_append, encode_brace (.inl rfl), encode_brace (.inl rfl), token?_braces,
      tokenBehind?_encode, hbehind]
    simp only [Option.map_some, Option.some.injEq, Prod.mk.injEq, true_and]
    omega
  | none =>
    refine Option.eq_none_iff_forall_ne_some.mpr fun p hp => ?_
    obtain ⟨name, n⟩ := p
    obtain ⟨inner, rest, ht, -, hbehind⟩ := exists_of_token? hp
    rw [braced_append] at ht
    obtain ⟨u, rfl⟩ :=
      List.head?_eq_some_iff.mp ((head?_encode_eq_brace_iff (.inl rfl) t).mp (by rw [ht]; rfl))
    rw [encode_brace (.inl rfl), List.cons.injEq] at ht
    obtain ⟨u, rfl⟩ :=
      List.head?_eq_some_iff.mp ((head?_encode_eq_brace_iff (.inl rfl) u).mp (by rw [ht.2]; rfl))
    rw [encode_brace (.inl rfl), List.cons.injEq] at ht
    rw [← ht.2.2, tokenBehind?_encode] at hbehind
    rw [token?_braces, Option.map_eq_none_iff] at htoken
    rw [htoken] at hbehind
    cases hbehind

/-! ### The body of a literal -/

section

variable {params : Properties}

theorem templateBody_empty : templateBody params [] = [] := rfl

/-- A character at which no token starts is escaped. -/
theorem templateBody_cons {c : Char} {rest : Text} (h : token? (c :: rest) = none) :
    templateBody params (c :: rest) = encodeHead c rest ++ templateBody params rest := by
  have hnone (t : Text) (ht : token? t = none) :
      parameter? params t = none := by rw [parameter?, ht]; rfl
  have hfirst : parameter? params (encode (c :: rest)) = none :=
    hnone _ (by rw [token?_encode, h]; rfl)
  rw [templateBody, templateBody]
  rw [encode_cons] at hfirst ⊢
  rcases encodeHead_cases c rest with ⟨he, -⟩ | ⟨he, hc⟩
  · rw [he, List.singleton_append] at hfirst ⊢
    exact Text.replaceAll_cons_of_none hfirst
  · have hsecond : parameter? params (c :: encode rest) = none := by
      refine hnone _ (token?_eq_none ?_)
      rintro ⟨u, hu⟩
      rw [List.cons_append, List.cons.injEq] at hu
      rw [← hu.1] at hc
      revert hc
      decide
    rw [he, List.cons_append, List.singleton_append] at hfirst ⊢
    rw [Text.replaceAll_cons_of_none hfirst, Text.replaceAll_cons_of_none hsecond]
    rfl

/-- What stands for a token in the body of a literal: the parameter of its escaped name, or the
token itself, escaped. -/
def tokenText (params : Properties) (name token : Text) : Text :=
  ((params.lookup (encode name)).map insertion).getD (encode token)

theorem templateBody_token {t name : Text} {n : Nat} (h : token? t = some (name, n)) :
    templateBody params t = tokenText params name (t.take n) ++ templateBody params (t.drop n) := by
  obtain ⟨inner, rest, rfl, rfl, -⟩ := exists_of_token? h
  have hparameter : parameter? params (encode (braced inner) ++ encode rest) =
      some (tokenText params name (braced inner), (encode (braced inner)).length) := by
    have htake : (braced inner ++ rest).take (braced inner).length = braced inner := List.take_left
    have htake' : (encode (braced inner) ++ encode rest).take (encode (braced inner)).length =
        encode (braced inner) :=
      List.take_left
    rw [parameter?, ← encode_braced_append, token?_encode, h]
    simp only [Option.map_some, htake, encode_braced_append, htake', tokenText]
  have hne : encode (braced inner) ≠ [] := by
    rw [braced, encode_brace (.inl rfl)]
    exact List.cons_ne_nil _ _
  rw [templateBody, encode_braced_append, Text.replaceAll_match hne hparameter, List.take_left,
    List.drop_left]
  rfl

end

/-! ### The tokens of a text -/

/-- The tokens from left to right: the name of each and the text behind it. -/
def tokensOf (t : Text) : List (Text × Text) :=
  Text.findAll (fun t => (token? t).map fun (name, n) => ((name, t.drop n), n)) 0 t

theorem tokensOf_cons {c : Char} {rest : Text} (h : token? (c :: rest) = none) :
    tokensOf (c :: rest) = tokensOf rest :=
  Text.findAll_cons_of_none (by rw [h]; rfl)

theorem tokensOf_token {t name : Text} {n : Nat} (h : token? t = some (name, n)) :
    tokensOf t = (name, t.drop n) :: tokensOf (t.drop n) := by
  obtain ⟨inner, rest, rfl, rfl, -⟩ := exists_of_token? h
  rw [List.drop_left]
  refine Text.findAll_match (List.cons_ne_nil _ _) ?_
  rw [h]
  simp only [Option.map_some, List.drop_left]

/-- Induction on the characters and tokens of a text. -/
theorem tokenInduction {P : Text → Prop} (nil : P [])
    (char : ∀ c rest, token? (c :: rest) = none → P rest → P (c :: rest))
    (token : ∀ t name n, token? t = some (name, n) → P (t.drop n) → P t) (t : Text) : P t := by
  generalize hn : t.length = n
  induction n using Nat.strongRecOn generalizing t with
  | ind n ih =>
    subst hn
    cases t with
    | nil => exact nil
    | cons c rest =>
      cases htoken : token? (c :: rest) with
      | none => exact char c rest htoken (ih rest.length (Nat.lt_succ_self _) rest rfl)
      | some p =>
        obtain ⟨name, n⟩ := p
        refine token _ name n htoken (ih _ ?_ _ rfl)
        obtain ⟨inner, behind, -, rfl, -⟩ := exists_of_token? htoken
        rw [List.length_drop, List.length_cons]
        simp only [braced, List.length_cons]
        omega

/-! ### Names -/

/-- Whether a text may be the name of a token. -/
def IsTokenName (name : Text) : Prop := ∀ c ∈ name, isTokenChar c = true

theorem IsTokenName.of_token? {t name : Text} {n : Nat} (h : token? t = some (name, n)) :
    IsTokenName name := by
  obtain ⟨inner, rest, -, -, hbehind⟩ := exists_of_token? h
  unfold tokenBehind? at hbehind
  split at hbehind
  · cases hbehind
    exact fun c hc => List.mem_takeWhile_imp hc
  · cases hbehind

/-- Between braces a name is a token. -/
theorem token?_braced {name : Text} (h : IsTokenName name) (rest : Text) :
    token? (braced name ++ rest) = some (name, (braced name).length) := by
  have hblank : dropBlank (name ++ '}' :: '}' :: rest) = name ++ '}' :: '}' :: rest := by
    cases name with
    | nil => rfl
    | cons c name =>
      have hc := h c List.mem_cons_self
      have hb : Text.isBlank c = false := by
        simp only [isTokenChar, Bool.and_eq_true, Bool.not_eq_true'] at hc
        exact hc.2
      rw [List.cons_append, dropBlank, hb]
      rfl
  have hstop : isTokenChar '}' = false := rfl
  have hbehind : tokenBehind? (name ++ '}' :: '}' :: rest) = some (name, rest) := by
    unfold tokenBehind?
    rw [hblank, List.dropWhile_append_of_pos h, List.takeWhile_append_of_pos h,
      List.dropWhile_cons_of_neg (by simp [hstop]), List.takeWhile_cons_of_neg (by simp [hstop]),
      List.append_nil]
    rfl
  rw [braced_append, token?_braces, hbehind]
  simp only [Option.map_some, braced, List.length_append, List.length_cons, List.length_nil,
    Option.some.injEq, Prod.mk.injEq, true_and]
  omega

theorem isTokenName_of_mem_tokensOf {t name rest : Text} (h : (name, rest) ∈ tokensOf t) :
    IsTokenName name := by
  induction t using tokenInduction with
  | nil => cases h
  | char c t hnone ih => exact ih (tokensOf_cons hnone ▸ h)
  | token t first n htoken ih =>
    rw [tokensOf_token htoken] at h
    rcases List.mem_cons.mp h with he | h
    · cases he
      exact .of_token? htoken
    · exact ih h

end Localization.Inlining
