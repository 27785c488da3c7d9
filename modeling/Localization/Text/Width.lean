import Localization.Text.Columns
import Localization.Text.Emoji

/-! Display width.

A text is as wide as the columns it takes on a terminal: mostly the columns of its
characters, but some characters are drawn as one with those behind them. A line end of two
characters is one, an emoji may be made of several, and some scripts have ligatures. The
width is therefore taken from the end of the text to its start: `Following` is what a
character may combine with, and `step` says how many columns one more character adds. -/
namespace Localization.Text

/-- What the rest of a ligature begins with. -/
inductive Ligature where
  /-- Hebrew lamed, behind alef and a joiner. -/
  | lamed
  /-- Buginese ya, behind a, the vowel i and a joiner. -/
  | ya
  /-- Buginese i, a joiner and ya. -/
  | vowelAndYa
  /-- A Tifinagh consonant, behind another and either joiner. -/
  | consonant
  /-- The Tifinagh joiner and a consonant. -/
  | joinerAndConsonant
  /-- The second letter of a Lisu tone. -/
  | tone
  /-- Old Turkic I, behind EC and a joiner. -/
  | orkhonI
  /-- A Khmer letter that can stand below another. -/
  | subscript
  deriving DecidableEq, Repr

/-- What the text behind a character begins with, as far as that character's columns depend
on it. In what is joined, a joiner and an emoji end the sequence. -/
inductive Following where
  | nothing
  | lineFeed
  | emoji
  | tone
  | region
  | regions
  | joined
  | joinedKeycap
  | joinedRegion
  | joinedRegions (even : Bool)
  | joinedTagLetters (count : Nat)
  | joinedTagDigits (count : Nat)
  /-- An odd number of Kirat Rai vowels E. -/
  | oddVowels
  /-- An even number of them. -/
  | evenVowels
  /-- An Arabic alef, behind lam. -/
  | alef
  /-- The rest of a ligature, and whether a joiner stands before it. -/
  | ligature (rest : Ligature) (hasJoiner : Bool)
  deriving DecidableEq, Repr

/-- How a selector wants the character before it shown. -/
inductive Look where
  | sign
  | emoji
  deriving DecidableEq, Repr

/-- What follows a character, with the selector right behind it. -/
structure Context where
  following : Following
  look : Option Look
  deriving DecidableEq, Repr

def joiner : Nat := 0x200D

/-- Whether a mark inside of a ligature changes nothing. -/
def isLigatureMark (c : Char) : Bool :=
  let n := c.toNat
  n == 0x34F || n == 0x17B4 || n == 0x17B5 || (0x180B ≤ n && n ≤ 0x180D) || n == 0x180F ||
    (0xFE00 ≤ n && n ≤ 0xFE0F) || (0xE0100 ≤ n && n ≤ 0xE01EF)

def isTifinaghConsonant (c : Char) : Bool :=
  (0x2D31 ≤ c.toNat && c.toNat ≤ 0x2D65) || c.toNat == 0x2D6F

def isLam (c : Char) : Bool :=
  let n := c.toNat
  n == 0x644 || (0x6B5 ≤ n && n ≤ 0x6B8) || n == 0x76A || n == 0x8A6 || n == 0x8C7

def isAlef (c : Char) : Bool :=
  let n := c.toNat
  n == 0x622 || n == 0x623 || n == 0x625 || n == 0x627 || (0x671 ≤ n && n ≤ 0x673) ||
    n == 0x675 || n == 0x773 || n == 0x774 || (0x870 ≤ n && n ≤ 0x882)

/-- The Khmer letters with a form below the line. -/
def subscriptRanges : List (Nat × Nat) := [
  (0x1780, 0x1782), (0x1784, 0x1787), (0x1789, 0x178C), (0x178E, 0x1793), (0x1795, 0x1798),
  (0x179B, 0x179D), (0x17A0, 0x17A0), (0x17A2, 0x17A2), (0x17A7, 0x17A7), (0x17AB, 0x17AC),
  (0x17AF, 0x17AF)]

namespace Following

/-- What a character alone is for the one before it. -/
def ofChar (c : Char) : Following :=
  let n := c.toNat
  if Emoji.isRegionLetter c then region
  else if Emoji.isTone c then tone
  else if Emoji.isPresented c then emoji
  else if isAlef c then alef
  else if n == 0x16D67 then oddVowels
  else if n == 0x16D68 then evenVowels
  else if n == 0x5DC then ligature .lamed false
  else if n == 0x1A10 then ligature .ya false
  else if isTifinaghConsonant c then ligature .consonant false
  else if n == 0xA4FC || n == 0xA4FD then ligature .tone true
  else if n == 0x10C03 then ligature .orkhonI false
  else if inRanges subscriptRanges c then ligature .subscript true
  else nothing

/-- Whether a selector leaves what follows in place. -/
def isLigature : Following → Bool
  | alef => true
  | ligature _ _ => true
  | _ => false

/-- Whether a joiner and an emoji follow, so that one more emoji adds no column. -/
def isJoined : Following → Bool
  | joined => true
  | joinedKeycap => true
  | _ => false

end Following

/-- The columns that a letter adds as part of a ligature, and what it is then for the
character before it. -/
def Ligature.step? (rest : Ligature) (hasJoiner : Bool) (c : Char) : Option (Int × Following) :=
  let n := c.toNat
  if n == joiner then some (0, .ligature rest true)
  else if isLigatureMark c then some (0, .ligature rest hasJoiner)
  else match rest with
    | .lamed => if hasJoiner && n == 0x5D0 then some (0, .nothing) else none
    | .ya => if hasJoiner && n == 0x1A17 then some (0, .ligature .vowelAndYa true) else none
    | .vowelAndYa => if n == 0x1A15 then some (0, .nothing) else none
    | .consonant =>
      if n == 0x2D7F then some (1, .ligature .joinerAndConsonant true)
      else if hasJoiner && isTifinaghConsonant c then some (0, .nothing)
      else none
    | .joinerAndConsonant => if isTifinaghConsonant c then some (-1, .nothing) else none
    | .tone => if 0xA4F8 ≤ n && n ≤ 0xA4FB then some (0, .nothing) else none
    | .orkhonI => if hasJoiner && n == 0x10C32 then some (0, .nothing) else none
    | .subscript => if n == 0x17D2 then some (-1, .nothing) else none

/-- The columns that a character adds to an emoji joined to others, and what they are then
together. The name of a flag is three to six letters, or a number of three digits that up
to four letters may follow. -/
def joinedStep? (following : Following) (c : Char) : Option (Int × Following) :=
  match following with
  | .joined =>
    if c.toNat == 0x20E3 then some (0, .joinedKeycap)
    else if Emoji.isRegionLetter c then some (1, .joinedRegion)
    else if Emoji.isTone c then some (0, .tone)
    else if c.toNat == 0xE007F then some (0, .joinedTagLetters 0)
    else if Emoji.isPresented c then some (0, .emoji)
    else none
  | .joinedRegion => if Emoji.isRegionLetter c then some (-1, .joinedRegions true) else none
  | .joinedRegions even =>
    if Emoji.isRegionLetter c then some (if even then 3 else -1, .joinedRegions !even)
    else if c.toNat == joiner then some (0, .joined)
    else none
  | .joinedTagLetters count =>
    if Emoji.isTagLetter c && count < 6 then some (0, .joinedTagLetters (count + 1))
    else if Emoji.isTagDigit c && count < 5 then some (0, .joinedTagDigits 1)
    else if c.toNat == 0x1F3F4 && 3 ≤ count then some (0, .emoji)
    else none
  | .joinedTagDigits count =>
    if Emoji.isTagDigit c && count < 3 then some (0, .joinedTagDigits (count + 1))
    else if c.toNat == 0x1F3F4 && count == 3 then some (0, .emoji)
    else none
  | _ => none

/-- The columns that a character adds together with what follows it, and what they are then
together; none if it combines with nothing. -/
def combined? (following : Following) (c : Char) : Option (Int × Following) :=
  match following with
  | .ligature rest hasJoiner => rest.step? hasJoiner c
  | .alef =>
    if isLam c then some (0, .nothing) else if isJoinedAcross c then some (0, .alef) else none
  | .oddVowels =>
    if c.toNat == 0x16D63 || c.toNat == 0x16D69 then some (0, .nothing)
    else if c.toNat == 0x16D67 then some (0, .evenVowels)
    else if c.toNat == 0x16D68 then some (1, .oddVowels)
    else none
  | .evenVowels => if c.toNat == 0x16D63 then some (0, .nothing) else none
  | .tone =>
    if Emoji.isTonable c then some (0, .emoji)
    else if c.toNat == joiner then some (0, .joined)
    else none
  | .region | .regions =>
    if Emoji.isRegionLetter c then some (1, .regions)
    else if following == .regions && c.toNat == joiner then some (0, .joined)
    else none
  | .emoji => if c.toNat == joiner then some (0, .joined) else none
  | following => joinedStep? following c

namespace Context

def ofFollowing (following : Following) : Context := ⟨following, none⟩

/-- A selector in front of what follows. -/
def select (x : Context) (look : Look) : Context :=
  if x.following.isLigature || (look == .emoji && x.following.isJoined) then
    ⟨x.following, some look⟩
  else ⟨.nothing, some look⟩

/-- What follows without the selector in front of it. -/
def unselect (x : Context) : Context :=
  if x.look == some .emoji && !x.following.isLigature then ofFollowing .nothing
  else ofFollowing x.following

/-- The columns that a character in front of a context adds, and the context that it makes
with it. -/
def step (x : Context) (c : Char) : Int × Context :=
  if x.look == some .emoji && Emoji.isSelectable c then
    (if x.following.isJoined then 0 else 2, ofFollowing .emoji)
  else
    let x := if x.look == some .emoji then x.unselect else x
    if c.toNat ≤ 0xA0 then
      (if c == '\r' && x == ofFollowing .lineFeed then 0 else 1,
        ofFollowing (if c == '\n' then .lineFeed else .nothing))
    else if c.toNat == 0xFE0F then (0, x.select .emoji)
    else if c.toNat == 0xFE0E then (0, x.select .sign)
    else if x.look == some .sign && Emoji.isNarrowed c then (1, ofFollowing .nothing)
    else
      let (added, following) := (combined? x.following c).getD (columns c, .ofChar c)
      (added, ofFollowing following)

end Context

/-- The columns of a text, and what it begins with. -/
def widthFrom (t : Text) : Int × Context :=
  t.foldr
    (fun c (columns, x) =>
      let (added, x) := x.step c
      (columns + added, x))
    (0, .ofFollowing .nothing)

/-- Columns of a text. -/
def width (t : Text) : Nat := (widthFrom t).1.toNat

/-- A text of printable ASCII characters takes a column for each of them. -/
theorem width_of_ascii (t : Text) (h : ∀ c ∈ t, 0x20 ≤ c.toNat ∧ c.toNat < 0x7F) :
    width t = t.length := by
  have key : widthFrom t = ((t.length : Int), .ofFollowing .nothing) := by
    induction t with
    | nil => rfl
    | cons c rest ih =>
      obtain ⟨low, high⟩ := h c (by simp)
      have hr : (c == '\r') = false := by
        simp only [beq_eq_false_iff_ne]; rintro rfl; simp at low
      have hn : (c == '\n') = false := by
        simp only [beq_eq_false_iff_ne]; rintro rfl; simp at low
      have hc : c.toNat ≤ 0xA0 := by omega
      have ih := ih fun d hd => h d (by simp [hd])
      simp only [widthFrom, List.foldr_cons] at ih ⊢
      rw [ih]
      simp [Context.step, Context.ofFollowing, hr, hn, hc]
  simp [width, key]

end Localization.Text
