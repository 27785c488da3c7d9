import Mathlib
import Localization.Proofs.Offset.Group
import Localization.Proofs.Script.Behind

/-! Names, blanks and type arguments by offsets.

Runs of ASCII characters end in front of characters (`skipWhile_eq`). Type arguments count the
angle brackets that are open; none is closed that was not opened (`anglesFrom_eq`), as they
start with one. -/
namespace Localization.Script

/-- What follows a list of type arguments that some angle brackets are open of. -/
def behindAngles (depth : Nat) (t : Text) : Option Text :=
  (typeArgumentsFrom depth .top t).map (·.2)

/-- A string among type arguments is read up to its end. -/
theorem map_typeArgumentsFrom {s : State} (hs : s.regions ≠ []) (depth : Nat) (t : Text) :
    (typeArgumentsFrom depth s t).map (·.2) = (behind s t).bind (behindAngles depth) := by
  induction t generalizing s with
  | nil => rfl
  | cons c rest ih =>
    have hopen : s.regions.isEmpty = false := by simpa using hs
    simp only [typeArgumentsFrom, hopen, Bool.false_eq_true, if_false]
    cases hstep : s.step c with
    | none => rw [behind_none hstep]; rfl
    | some next =>
      simp only [Option.map_map]
      by_cases hn : next.regions = []
      · obtain rfl := State.step_eq_top hs hstep hn
        rw [behind_close hstep]
        rfl
      · rw [behind_open hstep hn, ← ih hn]
        rfl

theorem behindAngles_cons (depth : Nat) (c : Char) (rest : Text) :
    behindAngles depth (c :: rest) =
      if c == '<' then behindAngles (depth + 1) rest
      else if c == '>' then if depth ≤ 1 then some rest else behindAngles (depth - 1) rest
      else if c == '\'' || c == '"' then (behind (.inside (.quoted c)) rest).bind
        (behindAngles depth)
      else if c == '(' || c == ')' || c == ';' || c == '=' || c == '\n' then none
      else if (c == '&' || c == '|') && rest.head? == some c then none
      else behindAngles depth rest := by
  have hstring : (typeArgumentsFrom depth (.inside (.quoted c)) rest).map (·.2) =
      (behind (.inside (.quoted c)) rest).bind (behindAngles depth) :=
        map_typeArgumentsFrom (List.cons_ne_nil _ _) depth rest
  rw [behindAngles, typeArgumentsFrom, ← hstring]
  simp only [State.top, List.isEmpty_nil, if_true, apply_ite (Option.map _), Option.map_map,
    Option.map_none, Option.map_some]
  rfl

end Localization.Script

namespace Localization.Offset

open Script (State literal? behind behindAngles)

variable {t b : Text} {c d : Char} {i j : Nat}

/-! ### Runs of characters -/

/-- The first byte from an offset on that is none of some. -/
def skipWhile (p : Char → Bool) (u : Text) (i : Nat) : Nat :=
  match h : u[i]? with
  | none => i
  | some b => if p b then skipWhile p u (i + 1) else i
termination_by u.length - i
decreasing_by
  have := lt_of_getElem? h
  omega

theorem skipWhile_of {p : Char → Bool} {u : Text} (h : u[i]? = some d) :
    skipWhile p u i = if p d then skipWhile p u (i + 1) else i := by
  rw [skipWhile]
  split <;> simp_all

theorem skipWhile_end {p : Char → Bool} {u : Text} (h : u[i]? = none) : skipWhile p u i = i := by
  rw [skipWhile]
  split <;> simp_all

/-- Runs of ASCII characters end at characters. -/
theorem skipWhile_eq {p : Char → Bool} (hp : ∀ c, IsInert c → p c = false) (h : b <:+ t) :
    skipWhile p (units t) (offset t b) = offset t (b.dropWhile p) := by
  induction b with
  | nil => exact skipWhile_end (getElem?_end t)
  | cons c rest ih =>
    by_cases hc : IsInert c
    · obtain ⟨d, hd, hinert⟩ := exists_getElem?_inert h hc (Char.utf8Size_pos c)
      rw [Nat.add_zero] at hd
      rw [skipWhile_of hd, hp d hinert, List.dropWhile_cons_of_neg (by simp [hp c hc])]
      rfl
    · rw [skipWhile_of (getElem?_ascii h hc)]
      cases hpc : p c with
      | true =>
        rw [if_pos rfl, List.dropWhile_cons_of_pos hpc, ← offset_ascii h hc, ih (suffix_tail h)]
      | false => rw [List.dropWhile_cons_of_neg (by simp [hpc])]; rfl

theorem isNameChar_of_isInert (h : IsInert c) : Script.isNameChar c = false := by
  rw [Bool.eq_false_iff]
  intro hname
  have hle := (Script.toNat_of_isNameChar hname).2
  exact absurd (Nat.le_trans h hle) (by decide)

theorem isAsciiBlank_of_isInert (h : IsInert c) : Text.isAsciiBlank c = false := by
  rw [Bool.eq_false_iff]
  intro hblank
  simp only [Text.isAsciiBlank, Bool.or_eq_true, beq_iff_eq] at hblank
  rcases hblank with (((rfl | rfl) | rfl) | rfl) | rfl <;> exact absurd h (by decide)

/-- The first byte from an offset on that is no blank. -/
def skipBlanksFrom : Text → Nat → Nat := skipWhile Text.isAsciiBlank

/-- The end of the name from an offset on. -/
def nameEnd : Text → Nat → Nat := skipWhile Script.isNameChar

theorem skipBlanksFrom_eq (h : b <:+ t) :
    skipBlanksFrom (units t) (offset t b) = offset t (Script.skipBlanks b) :=
  skipWhile_eq (fun _ => isAsciiBlank_of_isInert) h

theorem nameEnd_eq (h : b <:+ t) :
    nameEnd (units t) (offset t b) = offset t (b.dropWhile Script.isNameChar) :=
  skipWhile_eq (fun _ => isNameChar_of_isInert) h

/-! ### Type arguments -/

/-- Behind the angle bracket that closes all that are open at an offset. -/
def anglesFrom (u : Text) (depth : Nat) (i : Nat) : Checked (Option Nat) :=
  match h : u[i]? with
  | none => .ok none
  | some b =>
    have := lt_of_getElem? h
    if b == '<' then anglesFrom u (depth + 1) (i + 1)
    else if b == '>' then do
      let less ← minus depth 1
      if less == 0 then return some (i + 1) else anglesFrom u less (i + 1)
    else if b == '\'' || b == '"' then do
      match ← skipString u i with
      | none => return none
      | some j =>
        let ⟨next, _⟩ ← ahead i j
        anglesFrom u depth next
    else if b == '(' || b == ')' || b == ';' || b == '=' || b == '\n' then .ok none
    else if (b == '&' || b == '|') && u[i + 1]? == some b then .ok none
    else anglesFrom u depth (i + 1)
termination_by u.length - i

/-- Behind the type arguments whose angle bracket stands at an offset. -/
def skipTypeArguments (u : Text) (start : Nat) : Checked (Option Nat) := anglesFrom u 0 start

theorem anglesFrom_end {u : Text} {depth : Nat} (h : u[i]? = none) :
    anglesFrom u depth i = .ok none := by
  rw [anglesFrom]
  split <;> simp_all

theorem anglesFrom_of {u : Text} {depth : Nat} (h : u[i]? = some d) :
    anglesFrom u depth i =
      if d == '<' then anglesFrom u (depth + 1) (i + 1)
      else if d == '>' then (minus depth 1).bind fun less =>
        if less == 0 then .ok (some (i + 1)) else anglesFrom u less (i + 1)
      else if d == '\'' || d == '"' then (skipString u i).bind fun found =>
        match found with
        | none => .ok none
        | some j => (ahead i j).bind fun next => anglesFrom u depth next.1
      else if d == '(' || d == ')' || d == ';' || d == '=' || d == '\n' then .ok none
      else if (d == '&' || d == '|') && u[i + 1]? == some d then .ok none
      else anglesFrom u depth (i + 1) := by
  rw [anglesFrom]
  split
  · simp_all
  · next b hb =>
    rw [h] at hb
    cases hb
    rfl

/-- **Type arguments end where the text behind them begins**, and no bracket closes more than is
open. -/
theorem anglesFrom_eq {depth : Nat} (h : b <:+ t) (hdepth : 0 < depth ∨ b.head? = some '<') :
    anglesFrom (units t) depth (offset t b) = .ok ((behindAngles depth b).map (offset t)) := by
  generalize hn : b.length = n
  induction n using Nat.strongRecOn generalizing b depth with
  | ind n ih =>
    subst hn
    cases b with
    | nil => rw [anglesFrom_end (getElem?_end t)]; rfl
    | cons c rest =>
      have hrest := suffix_tail h
      have later {depth : Nat} (hdepth : 0 < depth) :
          anglesFrom (units t) depth (offset t rest) =
            .ok ((behindAngles depth rest).map (offset t)) :=
        ih rest.length (Nat.lt_succ_self _) hrest (.inl hdepth) rfl
      rw [Script.behindAngles_cons]
      by_cases hi : IsInert c
      · have hpass (i : Nat) (d : Char) (hd : (units t)[i]? = some d) (hinert : IsInert d) :
            anglesFrom (units t) depth i = anglesFrom (units t) depth (i + 1) := by
          rw [anglesFrom_of hd]
          simp (disch := decide) [hinert.ne]
        have hpos : 0 < depth := hdepth.resolve_right (by simpa using hi.ne (by decide))
        rw [← Nat.add_zero (offset t (c :: rest)), inert_run h hpass hi (Nat.zero_le _), later hpos]
        simp (disch := decide) [hi.ne]
      · rw [anglesFrom_of (getElem?_ascii h hi), ← offset_ascii h hi, getElem?_beq hrest hi]
        by_cases hopen : c = '<'
        · subst hopen
          exact later (Nat.succ_pos _)
        have hpos : 0 < depth := hdepth.resolve_right (by simpa using hopen)
        simp only [beq_false_of_ne hopen, Bool.false_eq_true, if_false]
        by_cases hclose : c = '>'
        · subst hclose
          simp only [beq_self_eq_true, if_true, minus, Nat.succ_le_of_lt hpos]
          by_cases hlast : depth ≤ 1
          · have hzero : depth - 1 = 0 := by omega
            simp [Except.bind, hzero, hlast]
          · have hmore : depth - 1 ≠ 0 := by omega
            simp only [Except.bind, hlast, if_false, beq_iff_eq, hmore]
            exact later (Nat.pos_of_ne_zero hmore)
        simp only [beq_false_of_ne hclose, Bool.false_eq_true, if_false]
        cases hquote : (c == '\'' || c == '"') with
        | true =>
          have hliteral : literal? c = some (.quoted c) := by rw [literal?, if_pos hquote]
          simp only [if_true, skipString_eq hliteral h]
          cases hbehind : behind (.inside (.quoted c)) rest with
          | none => rfl
          | some z =>
            have hz := Script.suffix_of_behind hbehind
            have hshort := hz.length_le
            simp only [Option.map_some, Except.bind, ahead_of_lt (offset_lt_of_suffix h hz),
              Option.bind_some]
            exact ih z.length (by simp; omega) (hz.trans hrest) (.inl hpos) rfl
        | false =>
          simp only [Bool.false_eq_true, if_false]
          split_ifs
          · rfl
          · rfl
          · exact later hpos

/-- A list of type arguments starts with the first angle bracket that is counted. -/
theorem skipTypeArguments_eq {rest : Text} (h : '<' :: rest <:+ t) :
    skipTypeArguments (units t) (offset t ('<' :: rest)) =
      .ok ((behindAngles 0 ('<' :: rest)).map (offset t)) :=
  anglesFrom_eq h (.inr rfl)

end Localization.Offset
