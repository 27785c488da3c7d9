/-! Text.

A text is the list of its characters, so that what is said about reading and
writing it is said by recursion on that list. Sizes and offsets that leave the
library are counted in UTF-8 bytes (`size`); everywhere else a position is a number
of characters.

`join_splitOn` is the law of splitting: joining the parts at the separator
gives the text back. -/
namespace Localization

/-- A list of characters. -/
abbrev Text := List Char

instance : Coe String Text := ⟨String.toList⟩

namespace Text

/-- Bytes of the UTF-8 form. -/
def size : Text → Nat
  | [] => 0
  | c :: rest => c.utf8Size + size rest

theorem size_append (a b : Text) : size (a ++ b) = size a + size b := by
  induction a with
  | nil => rw [List.nil_append, size, Nat.zero_add]
  | cons c rest ih => rw [List.cons_append, size, size, ih, Nat.add_assoc]

/-! ### Order -/

/-- The order of texts by code points, which is also the order of their UTF-8
bytes. -/
def le : Text → Text → Bool
  | [], _ => true
  | _ :: _, [] => false
  | a :: as, b :: bs => decide (a < b) || (a == b && le as bs)

/-- Whether a character is in one of some closed ranges of code points. -/
def inRanges (ranges : List (Nat × Nat)) (c : Char) : Bool :=
  ranges.any fun (low, high) => low ≤ c.toNat && c.toNat ≤ high

/-! ### Blanks -/

/-- The characters with the White_Space property. -/
def isBlank (c : Char) : Bool :=
  let n := c.toNat
  (9 ≤ n && n ≤ 13) || n == 0x20 || n == 0x85 || n == 0xA0 || n == 0x1680 ||
    (0x2000 ≤ n && n ≤ 0x200A) || n == 0x2028 || n == 0x2029 || n == 0x202F ||
    n == 0x205F || n == 0x3000

/-- The blanks among the ASCII characters, without the vertical tab. -/
def isAsciiBlank (c : Char) : Bool :=
  c == ' ' || c == '\t' || c == '\n' || c == '\x0c' || c == '\r'

/-- Every blank that scripts are skipped over is one of the general blanks. -/
theorem isBlank_of_isAsciiBlank {c : Char} (h : isAsciiBlank c = true) : isBlank c = true := by
  simp only [isAsciiBlank, Bool.or_eq_true, beq_iff_eq] at h
  rcases h with (((h | h) | h) | h) | h <;> subst h <;> decide

/-- The text without its outer blanks. -/
def trim (t : Text) : Text := ((t.dropWhile isBlank).reverse.dropWhile isBlank).reverse

theorem length_trim_le (t : Text) : (trim t).length ≤ t.length := by
  have h : ∀ u : Text, (u.dropWhile isBlank).length ≤ u.length :=
    fun u => (List.dropWhile_sublist isBlank).length_le
  rw [trim, List.length_reverse]
  exact Nat.le_trans (h _) (by rw [List.length_reverse]; exact h t)

/-- The maximal runs without blanks. -/
def words : Text → List Text
  | [] => []
  | c :: rest =>
    if isBlank c then words rest
    else match rest with
      | [] => [[c]]
      | d :: _ =>
        if isBlank d then [c] :: words rest
        else match words rest with
          | [] => [[c]]
          | w :: ws => (c :: w) :: ws

/-! ### Parts -/

/-- Puts a character in front of the first part. -/
def consHead (c : Char) : List Text → List Text
  | [] => [[c]]
  | part :: parts => (c :: part) :: parts

/-- The parts between the occurrences of `separator`, found from the left without
overlap; `skip` characters of an occurrence are still to be passed over. -/
def splitFrom (separator : Text) : Nat → Text → List Text
  | _, [] => [[]]
  | skip + 1, _ :: rest => splitFrom separator skip rest
  | 0, c :: rest =>
    if separator.isPrefixOf (c :: rest) then [] :: splitFrom separator (separator.length - 1) rest
    else consHead c (splitFrom separator 0 rest)

/-- The parts of a text between occurrences of a separator. The empty separator
stands between all characters and at both ends. -/
def splitOn (separator t : Text) : List Text :=
  if separator.isEmpty then [] :: (t.map fun c => [c]) ++ [[]]
  else splitFrom separator 0 t

/-- The texts joined by a separator. -/
def join (separator : Text) (parts : List Text) : Text := separator.intercalate parts

theorem splitFrom_ne_nil (separator : Text) (skip : Nat) (t : Text) :
    splitFrom separator skip t ≠ [] := by
  induction t generalizing skip with
  | nil => simp [splitFrom]
  | cons c rest ih =>
    cases skip with
    | succ n => simpa [splitFrom] using ih n
    | zero =>
      unfold splitFrom
      split
      · simp
      · cases h : splitFrom separator 0 rest <;> simp [consHead]

/-- Splitting at a text's end of a separator already begun only drops characters. -/
theorem splitFrom_skip (separator : Text) (n : Nat) (t : Text) :
    splitFrom separator n t = splitFrom separator 0 (t.drop n) := by
  induction t generalizing n with
  | nil => cases n <;> simp [splitFrom]
  | cons c rest ih =>
    cases n with
    | zero => simp
    | succ n => simp [splitFrom, ih n]

theorem join_cons {separator part : Text} {parts : List Text} (h : parts ≠ []) :
    join separator (part :: parts) = part ++ separator ++ join separator parts := by
  cases parts with
  | nil => exact absurd rfl h
  | cons next rest => simp [join, List.intercalate, List.intersperse]

theorem join_consHead (separator : Text) (c : Char) (parts : List Text) :
    join separator (consHead c parts) = c :: join separator parts := by
  cases parts with
  | nil => rfl
  | cons part rest =>
    cases rest <;> simp [consHead, join, List.intercalate, List.intersperse]

theorem join_splitFrom {separator : Text} (hs : separator ≠ []) (t : Text) :
    join separator (splitFrom separator 0 t) = t := by
  generalize hn : t.length = n
  induction n using Nat.strongRecOn generalizing t with
  | ind n ih =>
    cases t with
    | nil => rfl
    | cons c rest =>
      unfold splitFrom
      split
      · next hp =>
        obtain ⟨tail, ht⟩ := List.isPrefixOf_iff_prefix.mp hp
        obtain ⟨s, ss, rfl⟩ : ∃ s ss, separator = s :: ss := by
          cases separator with
          | nil => exact absurd rfl hs
          | cons s ss => exact ⟨s, ss, rfl⟩
        simp only [List.cons_append, List.cons.injEq] at ht
        obtain ⟨rfl, rfl⟩ := ht
        rw [splitFrom_skip, join_cons (splitFrom_ne_nil _ _ _)]
        simp only [List.length_cons, Nat.add_sub_cancel, List.drop_left, List.nil_append]
        have hlt : tail.length < n := by
          subst hn; simp only [List.length_cons, List.length_append]; omega
        rw [ih tail.length hlt tail rfl]
        simp
      · rw [join_consHead, ih rest.length (by subst hn; simp) rest rfl]

/-- Joining the parts of a text at the separator gives the text back. -/
theorem join_splitOn (separator t : Text) : join separator (splitOn separator t) = t := by
  cases separator with
  | nil =>
    have h : ∀ u : Text, join [] ((u.map fun c => [c]) ++ [[]]) = u := by
      intro u
      induction u with
      | nil => rfl
      | cons c rest ih => simp [join_cons, ih]
    simp [splitOn, join_cons, h]
  | cons s ss => simpa [splitOn] using join_splitFrom (by simp) t

/-! ### Occurrences -/

/-- Whether `needle` stands somewhere in the text. -/
def occursIn (needle : Text) : Text → Bool
  | [] => needle.isEmpty
  | c :: rest => needle.isPrefixOf (c :: rest) || occursIn needle rest

/-- The matches of `find` from left to right without overlap. `find` says what it
read at the head of a text and how many characters it took; `skip` characters of
a match are still to be passed over. -/
def findAll {α : Type} (find : Text → Option (α × Nat)) : Nat → Text → List α
  | _, [] => []
  | skip + 1, _ :: rest => findAll find skip rest
  | 0, c :: rest =>
    match find (c :: rest) with
    | some (a, length) => a :: findAll find (length - 1) rest
    | none => findAll find 0 rest

/-- The text with every match of `find` replaced by what it gives. -/
def replaceAll (find : Text → Option (Text × Nat)) : Nat → Text → Text
  | _, [] => []
  | skip + 1, _ :: rest => replaceAll find skip rest
  | 0, c :: rest =>
    match find (c :: rest) with
    | some (t, length) => t ++ replaceAll find (length - 1) rest
    | none => c :: replaceAll find 0 rest

/-! ### Numerals -/

/-- The value of a text of ASCII digits, none for any other and for the empty text. -/
def decimal? (t : Text) : Option Nat :=
  if t.isEmpty || !t.all Char.isDigit then none
  else some (t.foldl (fun n c => 10 * n + (c.toNat - '0'.toNat)) 0)

/-- The value of one hexadecimal digit. -/
def hexDigit? (c : Char) : Option Nat :=
  if c.isDigit then some (c.toNat - '0'.toNat)
  else if 'a' ≤ c && c ≤ 'f' then some (c.toNat - 'a'.toNat + 10)
  else if 'A' ≤ c && c ≤ 'F' then some (c.toNat - 'A'.toNat + 10)
  else none

/-- The value of a text of hexadecimal digits, none for any other and for the empty
text. -/
def hex? (t : Text) : Option Nat :=
  if t.isEmpty then none
  else t.foldl (fun n c => do return 16 * (← n) + (← hexDigit? c)) (some 0)

/-- The decimal digits of a number. -/
def ofNat (n : Nat) : Text := Nat.toDigits 10 n

end Text

end Localization
