import Localization.Text.Basic

/-! Path patterns.

`?` stands for any character, `*` for any characters, `[…]` for one of a set, and `**`,
which must be a whole component, for any number of components. The slash is a
character like others, except that what `**` stands for ends at one.

`accepts` tries all that a pattern may stand for, one after the other. `isMatch` keeps what
may be left of the text after each token, which takes one pass over the pattern;
`isMatch_eq_accepts` says that they agree. -/
namespace Localization

/-- One character of a set, or a range of characters. -/
inductive CharRange where
  | one (c : Char)
  | range (low high : Char)
  deriving DecidableEq, Repr

def CharRange.has (c : Char) : CharRange → Bool
  | one d => c == d
  | range low high => low ≤ c && c ≤ high

/-- What a piece of a pattern stands for. -/
inductive PatternToken where
  | char (c : Char)
  | anyChar
  | anyText
  /-- Components up to a slash, or everything that is left. -/
  | components
  | among (ranges : List CharRange)
  | except (ranges : List CharRange)
  deriving DecidableEq, Repr

/-- A path pattern. -/
abbrev Pattern := List PatternToken

namespace Pattern

/-- Whether a text is a pattern and not the spelling of one path. -/
def isPattern (t : Text) : Bool := t.contains '*' || t.contains '?'

/-- The ranges of a set. -/
def ranges : Text → List CharRange
  | low :: '-' :: high :: rest => .range low high :: ranges rest
  | c :: rest => .one c :: ranges rest
  | [] => []

/-- The set that a `[` opens, from the text behind it: its token and how many characters it
takes with its `]`. The first character of a set is never its end. -/
def set? (t : Text) : Option (PatternToken × Nat) :=
  let upTo (first : Char) (rest : Text) : Option Text :=
    if rest.contains ']' then some (first :: rest.takeWhile (· != ']')) else none
  match t with
  | '!' :: first :: rest => (upTo first rest).map fun s => (.except (ranges s), s.length + 2)
  | '!' :: [] => none
  | first :: rest => (upTo first rest).map fun s => (.among (ranges s), s.length + 1)
  | [] => none

/-- The tokens of a text; `previous` is the character before it, and `skip` characters of it
belong to a token already read. -/
def parse? (previous : Option Char) (skip : Nat) : Text → Option Pattern
  | [] => some []
  | c :: rest =>
    match skip with
    | skip + 1 => parse? (some c) skip rest
    | 0 =>
      if c == '?' then (parse? (some c) 0 rest).map (.anyChar :: ·)
      else if c == '[' then
        match set? rest with
        | some (token, length) => (parse? (some c) length rest).map (token :: ·)
        | none => none
      else if c == '*' then
        match rest with
        | '*' :: '*' :: _ => none
        | '*' :: more =>
          if previous.isNone || previous == some '/' then
            match more with
            | [] => some [.components]
            | '/' :: _ => (parse? (some c) 2 rest).map (.components :: ·)
            | _ => none
          else none
        | _ => (parse? (some c) 0 rest).map (.anyText :: ·)
      else (parse? (some c) 0 rest).map (.char c :: ·)

/-- The pattern that a text spells. -/
def ofText? (t : Text) : Option Pattern := parse? none 0 t

/-- Where a text may go on behind what `**` stands for. -/
def afterComponents : Text → List Text
  | [] => [[]]
  | c :: rest => if c == '/' then rest :: afterComponents rest else afterComponents rest

def suffixes : Text → List Text
  | [] => [[]]
  | c :: rest => (c :: rest) :: suffixes rest

/-- Whether a token stands for a character. -/
def PatternToken.accepts (c : Char) : PatternToken → Bool
  | .char d => c == d
  | .anyChar => true
  | .among ranges => ranges.any (·.has c)
  | .except ranges => !ranges.any (·.has c)
  | .anyText => false
  | .components => false

/-- Whether a pattern stands for the whole text. -/
def accepts : Pattern → Text → Bool
  | [], t => t.isEmpty
  | .anyText :: rest, t => (suffixes t).any (accepts rest)
  | .components :: rest, t => (t :: afterComponents t).any (accepts rest)
  | token :: rest, t =>
    match t with
    | [] => false
    | c :: t => PatternToken.accepts c token && accepts rest t

/-! ### In one pass -/

/-- The longest of some texts. -/
def longest : List Text → Text
  | [] => []
  | t :: rest => if (longest rest).length ≤ t.length then t else longest rest

/-- What may be left of a text behind one more token. All that is left are ends of one text, so
the longest has the others in it. -/
def advance (left : List Text) (token : PatternToken) : List Text :=
  if left.isEmpty then []
  else match token with
    | .anyText => suffixes (longest left)
    | .components => left ++ afterComponents (longest left)
    | token => left.filterMap fun
      | c :: t => if PatternToken.accepts c token then some t else none
      | [] => none

/-- Whether a pattern stands for the whole text. -/
def isMatch (p : Pattern) (t : Text) : Bool := (p.foldl advance [t]).any List.isEmpty

theorem mem_suffixes {s t : Text} : s ∈ suffixes t ↔ s <:+ t := by
  induction t with
  | nil => simp [suffixes]
  | cons c rest ih => simp [suffixes, ih, List.suffix_cons_iff]

theorem suffix_of_mem_afterComponents {s t : Text} (h : s ∈ afterComponents t) : s <:+ t := by
  induction t with
  | nil => simp_all [afterComponents]
  | cons c rest ih =>
    refine List.IsSuffix.trans ?_ (List.suffix_cons c rest)
    simp only [afterComponents] at h
    split at h
    · rcases List.mem_cons.mp h with rfl | h
      · exact List.suffix_refl _
      · exact ih h
    · exact ih h

theorem afterComponents_subset {s t : Text} (h : s <:+ t) :
    ∀ u ∈ afterComponents s, u ∈ afterComponents t := by
  induction t with
  | nil => simp_all
  | cons c rest ih =>
    rcases List.suffix_cons_iff.mp h with rfl | h
    · exact fun u hu => hu
    · intro u hu
      have := ih h u hu
      simp only [afterComponents]
      split <;> simp [this]

theorem longest_mem {left : List Text} (h : left ≠ []) : longest left ∈ left := by
  induction left with
  | nil => contradiction
  | cons t rest ih =>
    simp only [longest]
    split
    · simp
    · next hlt =>
      cases rest with
      | nil => simp [longest] at hlt
      | cons u us => exact List.mem_cons_of_mem _ (ih (by simp))

theorem length_le_longest {left : List Text} : ∀ t ∈ left, t.length ≤ (longest left).length := by
  induction left with
  | nil => simp
  | cons t rest ih =>
    intro u hu
    simp only [longest]
    rcases List.mem_cons.mp hu with rfl | hu
    · split <;> omega
    · have := ih u hu
      split <;> omega

/-- Of the ends of one text the longest has all others at its end. -/
theorem suffix_longest {whole : Text} {left : List Text} (h : ∀ t ∈ left, t <:+ whole) :
    ∀ t ∈ left, t <:+ longest left := fun t ht =>
  List.suffix_of_suffix_length_le (h t ht)
    (h _ (longest_mem (List.ne_nil_of_mem ht))) (length_le_longest t ht)

theorem suffix_of_mem_advance {whole : Text} {left : List Text} {token : PatternToken}
    (h : ∀ t ∈ left, t <:+ whole) : ∀ t ∈ advance left token, t <:+ whole := by
  intro t ht
  simp only [advance] at ht
  split at ht
  · simp at ht
  · next hne =>
    have hl := h _ (@longest_mem left (by simpa using hne))
    split at ht
    · exact (mem_suffixes.mp ht).trans hl
    · rcases List.mem_append.mp ht with ht | ht
      · exact h t ht
      · exact (suffix_of_mem_afterComponents ht).trans hl
    · obtain ⟨u, hu, he⟩ := List.mem_filterMap.mp ht
      split at he
      · next c v =>
        split at he
        · cases he
          exact (List.suffix_cons c _).trans (h _ hu)
        · cases he
      · cases he

/-- One token, and the rest of the pattern behind it. -/
theorem any_advance {whole : Text} {left : List Text} (token : PatternToken) (rest : Pattern)
    (h : ∀ t ∈ left, t <:+ whole) :
    (advance left token).any (accepts rest) = left.any (accepts (token :: rest)) := by
  rw [Bool.eq_iff_iff]
  simp only [List.any_eq_true]
  by_cases hne : left = []
  · subst hne; simp [advance]
  have hle := suffix_longest h
  have hmem := longest_mem hne
  have he : left.isEmpty = false := by cases left <;> simp_all
  cases token with
  | anyText =>
    simp only [advance, he, accepts, List.any_eq_true, mem_suffixes]
    constructor
    · rintro ⟨t, ht, ha⟩
      exact ⟨_, hmem, t, by simpa [mem_suffixes] using ht, ha⟩
    · rintro ⟨t, ht, u, hu, ha⟩
      exact ⟨u, by simpa [mem_suffixes] using hu.trans (hle t ht), ha⟩
  | components =>
    simp only [advance, he, accepts, List.any_eq_true, List.mem_cons]
    constructor
    · rintro ⟨t, ht, ha⟩
      rcases List.mem_append.mp (by simpa using ht) with ht | ht
      · exact ⟨t, ht, t, .inl rfl, ha⟩
      · exact ⟨_, hmem, t, .inr ht, ha⟩
    · rintro ⟨t, ht, u, hu | hu, ha⟩
      · exact ⟨t, by simp [ht], hu ▸ ha⟩
      · exact ⟨u, by simp [afterComponents_subset (hle t ht) u hu], ha⟩
  | _ =>
    simp only [advance, he, Bool.false_eq_true, if_false, List.mem_filterMap]
    constructor
    · rintro ⟨u, ⟨t, ht, hu⟩, ha⟩
      refine ⟨t, ht, ?_⟩
      cases t with
      | nil => simp at hu
      | cons c v =>
        simp only [Option.ite_none_right_eq_some, Option.some.injEq] at hu
        obtain ⟨hc, rfl⟩ := hu
        simp [accepts, hc, ha]
    · rintro ⟨t, ht, ha⟩
      cases t with
      | nil => simp [accepts] at ha
      | cons c v =>
        simp only [accepts, Bool.and_eq_true] at ha
        exact ⟨v, ⟨_, ht, by simp [ha.1]⟩, ha.2⟩

theorem isMatch_eq_accepts (p : Pattern) (t : Text) : isMatch p t = accepts p t := by
  have key (left : List Text) (h : ∀ u ∈ left, u <:+ t) :
      (p.foldl advance left).any List.isEmpty = left.any (accepts p) := by
    induction p generalizing left with
    | nil => simp only [List.foldl_nil]; congr 1
    | cons token rest ih =>
      rw [List.foldl_cons, ih _ (suffix_of_mem_advance h), any_advance token rest h]
  simpa [isMatch] using key [t] (by simp)

/-- The text that a pattern without wildcards stands for. -/
def literal? : Pattern → Option Text
  | [] => some []
  | .char c :: rest => (literal? rest).map (c :: ·)
  | _ => none

/-- Whether the pattern is that of a whole number of components. -/
def isRecursive (p : Pattern) : Bool := p.contains .components

end Pattern

end Localization
