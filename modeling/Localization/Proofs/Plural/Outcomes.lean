import Mathlib
import Localization.Plural.Selection
import Localization.Proofs.Number.Plain

/-! What can be selected in a situation.

Which texts options lead to is known in part only: how many fraction digits there are, say, but
not the number. A `Situation` says of each operand what is known of it, and a condition is then
known to hold, known not to hold, or open (`Condition.under`). The categories of all conditions
that are not known to fail, up to the first that is known to hold, are the `outcomes`: whatever
number is written in the situation selects one of them (`select_mem_outcomes`), and where there
is only one every number selects it (`select_eq_of_outcomes`). -/
namespace Localization.Plural

/-! ### Natural numbers that are known in part -/

/-- What is known of a natural number: bounds, the upper one if there is one, and a divisor. -/
structure Extent where
  low : Nat
  high : Option Nat
  step : Nat
  deriving DecidableEq, Repr

namespace Extent

/-- Whether a number is one of those that the extent allows. -/
def Covers (r : Extent) (n : Nat) : Prop := r.low ≤ n ∧ (∀ h, r.high = some h → n ≤ h) ∧ r.step ∣ n

/-- One number. -/
def only (n : Nat) : Extent := ⟨n, some n, 1⟩

/-- All numbers from one on. -/
def atLeast (n : Nat) : Extent := ⟨n, none, 1⟩

theorem covers_only (n : Nat) : (only n).Covers n :=
  ⟨Nat.le_refl n, fun _ h => (Option.some.inj h).le, Nat.one_dvd n⟩

theorem covers_atLeast {k n : Nat} (h : k ≤ n) : (atLeast k).Covers n :=
  ⟨h, by simp [atLeast], Nat.one_dvd n⟩

/-- What is known of the remainder; zero stands for no modulus. -/
def remainder (r : Extent) (modulus : Nat) : Extent :=
  if modulus = 0 then r
  else
    match r.high with
    | some h =>
      if h < modulus then r
      else if r.low = h then only (h % modulus)
      else ⟨0, some (modulus - 1), Nat.gcd r.step modulus⟩
    | none => ⟨0, some (modulus - 1), Nat.gcd r.step modulus⟩

theorem covers_remainder {r : Extent} {n : Nat} (h : r.Covers n) (modulus : Nat) :
    (r.remainder modulus).Covers (n % modulus) := by
  by_cases hzero : modulus = 0
  · rw [remainder, if_pos hzero, hzero, Nat.mod_zero]
    exact h
  obtain ⟨hlow, hhigh, hstep⟩ := h
  have hrest : (⟨0, some (modulus - 1), Nat.gcd r.step modulus⟩ : Extent).Covers (n % modulus) := by
    refine ⟨Nat.zero_le _, ?_, ?_⟩
    · intro h hh
      have := Nat.mod_lt n (Nat.pos_of_ne_zero hzero)
      obtain rfl := Option.some.inj hh
      omega
    · exact (Nat.dvd_mod_iff (Nat.gcd_dvd_right _ _)).mpr ((Nat.gcd_dvd_left _ _).trans hstep)
  rw [remainder, if_neg hzero]
  split
  · next h hh =>
    split
    · next hlt =>
      rw [Nat.mod_eq_of_lt ((hhigh h hh).trans_lt hlt)]
      exact ⟨hlow, hhigh, hstep⟩
    · split
      · next heq =>
        obtain rfl : n = h := Nat.le_antisymm (hhigh h hh) (heq ▸ hlow)
        exact covers_only _
      · exact hrest
  · exact hrest

/-- The lesser one of a bound and the upper bound. -/
def most (r : Extent) (bound : Nat) : Nat :=
  match r.high with
  | some h => min h bound
  | none => bound

theorem le_most {r : Extent} {n bound : Nat} (h : r.Covers n) (hn : n ≤ bound) :
    n ≤ r.most bound := by
  rw [most]
  split
  · next high hhigh => exact le_min (h.2.1 high hhigh) hn
  · exact hn

/-- Whether a number lies between two bounds, as far as that is known: it does not if no
multiple of the step does. -/
def within? (r : Extent) (low high : Nat) : Option Bool :=
  if r.most high / r.step * r.step < max r.low low then some false
  else if low ≤ r.low && r.high.any (· ≤ high) then some true
  else none

theorem within?_eq {r : Extent} {n low high : Nat} {b : Bool} (h : r.Covers n)
    (hb : r.within? low high = some b) :
    (decide (low ≤ n) && decide (n ≤ high)) = b := by
  obtain ⟨hlow, hhigh, hstep⟩ := id h
  rw [within?] at hb
  split at hb
  · next hnone =>
    obtain rfl := Option.some.inj hb
    rw [Bool.and_eq_false_iff, decide_eq_false_iff_not, decide_eq_false_iff_not]
    by_contra hin
    rw [not_or, not_not, not_not] at hin
    -- the number is itself such a multiple
    have hmultiple : n ≤ r.most high / r.step * r.step :=
      calc n = n / r.step * r.step := (Nat.div_mul_cancel hstep).symm
        _ ≤ r.most high / r.step * r.step :=
          Nat.mul_le_mul_right _ (Nat.div_le_div_right (le_most h hin.2))
    have hleast : max r.low low ≤ n := max_le hlow hin.1
    omega
  · split at hb
    · next hall =>
      obtain rfl := Option.some.inj hb
      rw [Bool.and_eq_true, decide_eq_true_eq, Option.any_eq_true] at hall
      obtain ⟨hle, h, hh, hhle⟩ := hall
      rw [decide_eq_true_eq] at hhle
      rw [Bool.and_eq_true, decide_eq_true_eq, decide_eq_true_eq]
      exact ⟨hle.trans hlow, (hhigh h hh).trans hhle⟩
    · cases hb

end Extent

/-! ### Numbers that are known in part -/

/-- What is known of a number itself. -/
inductive Value where
  | unknown
  /-- A natural number. -/
  | natural (n : Nat)
  /-- No natural number. -/
  | fractional
  deriving DecidableEq, Repr

namespace Value

/-- Whether a double is one of those that the value allows; natural numbers are told apart below
`2 ^ 53`. -/
def Covers (x : Binary64) : Value → Prop
  | unknown => True
  | natural n => n < 2 ^ 53 ∧ x = .ofNat n
  | fractional => ∀ n < 2 ^ 53, x.sameNumber (.ofNat n) = false

/-- Whether a number is a natural one, as far as that is known. -/
def is? (k : Nat) : Value → Option Bool
  | unknown => none
  | natural n => if k < 2 ^ 53 then some (n == k) else none
  | fractional => if k < 2 ^ 53 then some false else none

theorem sameNumber_ofNat {n k : Nat} (hn : n < 2 ^ 53) (hk : k < 2 ^ 53) :
    (Binary64.ofNat n).sameNumber (.ofNat k) = (n == k) := by
  obtain ⟨hfinite, hunits⟩ := Binary64.units_ofNat hn
  obtain ⟨hfinite', hunits'⟩ := Binary64.units_ofNat hk
  have hnegative (n : Nat) : (Binary64.ofNat n).isNegative = false := by
    rw [Binary64.ofNat_eq, Binary64.isNegative_ofUnits]
  have hscaled : ((Binary64.ofNat n).scaled == (Binary64.ofNat k).scaled) = (n == k) := by
    rw [Binary64.scaled, Binary64.scaled, hnegative, hnegative, hunits, hunits',
      if_neg Bool.false_ne_true, if_neg Bool.false_ne_true, Bool.eq_iff_iff, beq_iff_eq, beq_iff_eq,
      Int.ofNat_inj]
    exact Nat.mul_left_inj Binary64.scale_pos.ne'
  rw [Binary64.sameNumber, hfinite, hfinite', hscaled]
  rfl

theorem is?_eq {v : Value} {x : Binary64} {k : Nat} {b : Bool} (h : v.Covers x)
    (hb : v.is? k = some b) :
    x.sameNumber (.ofNat k) = b := by
  cases v with
  | unknown => cases hb
  | natural n =>
    obtain ⟨hn, rfl⟩ := h
    rw [is?] at hb
    split at hb
    · next hk =>
      rw [sameNumber_ofNat hn hk]
      exact Option.some.inj hb
    · cases hb
  | fractional =>
    rw [is?] at hb
    split at hb
    · next hk =>
      rw [h k hk]
      exact Option.some.inj hb
    · cases hb

end Value

/-! ### Situations -/

/-- What is known of the operands of a text. -/
structure Situation where
  value : Value
  whole : Extent
  places : Extent
  fraction : Extent
  kept : Extent
  deriving DecidableEq, Repr

namespace Situation

structure Covers (s : Situation) (o : Operands) : Prop where
  value : s.value.Covers o.n
  whole : s.whole.Covers o.i
  places : s.places.Covers o.v
  fraction : s.fraction.Covers o.f
  kept : s.kept.Covers o.t

def extent (s : Situation) : Source → Extent
  | .i => s.whole
  | .v => s.places
  | .f => s.fraction
  | .t => s.kept

/-- What is known of a term. -/
def term (s : Situation) (x : Term) : Extent := (s.extent x.source).remainder x.modulus

theorem Covers.term {s : Situation} {o : Operands} (h : s.Covers o) (x : Term) :
    (s.term x).Covers (x.value o) := by
  obtain ⟨source, modulus⟩ := x
  cases source with
  | i => exact Extent.covers_remainder h.whole modulus
  | v => exact Extent.covers_remainder h.places modulus
  | f => exact Extent.covers_remainder h.fraction modulus
  | t => exact Extent.covers_remainder h.kept modulus

end Situation

/-! ### Conditions and rules -/

/-- Whether a condition holds in a situation, as far as that is known. -/
def Condition.under (s : Situation) : Condition → Option Bool
  | number k => s.value.is? k
  | within x low high => (s.term x).within? low high
  | not c => (c.under s).map (!·)
  | and a b =>
    match a.under s, b.under s with
    | some false, _ => some false
    | _, some false => some false
    | some true, some true => some true
    | _, _ => none
  | or a b =>
    match a.under s, b.under s with
    | some true, _ => some true
    | _, some true => some true
    | some false, some false => some false
    | _, _ => none

/-- What is known of a condition is so. -/
theorem Condition.holds_eq_of_under {s : Situation} {o : Operands} (h : s.Covers o) {c : Condition}
    {b : Bool} (hb : c.under s = some b) : c.holds o = b := by
  induction c generalizing b with
  | number k => exact Value.is?_eq h.value hb
  | within x low high => exact Extent.within?_eq (h.term x) hb
  | not c ih =>
    rw [under, Option.map_eq_some_iff] at hb
    obtain ⟨b', hc, rfl⟩ := hb
    rw [holds, ih hc]
  | and a c iha ihc =>
    rw [under] at hb
    rw [holds]
    split at hb
    · next ha => rw [iha ha, Bool.false_and]; exact Option.some.inj hb
    · next hc _ => rw [ihc hc, Bool.and_false]; exact Option.some.inj hb
    · next ha hc => rw [iha ha, ihc hc]; exact Option.some.inj hb
    · cases hb
  | or a c iha ihc =>
    rw [under] at hb
    rw [holds]
    split at hb
    · next ha => rw [iha ha, Bool.true_or]; exact Option.some.inj hb
    · next hc _ => rw [ihc hc, Bool.or_true]; exact Option.some.inj hb
    · next ha hc => rw [iha ha, ihc hc]; exact Option.some.inj hb
    · cases hb

/-- The categories that can be selected in a situation. -/
def Rules.outcomes (s : Situation) : Rules → List Category
  | [] => [.other]
  | (c, condition) :: rest =>
    match condition.under s with
    | some true => [c]
    | some false => outcomes s rest
    | none => c :: outcomes s rest

theorem Rules.select_cons (c : Category) (condition : Condition) (rest : Rules) (o : Operands) :
    Rules.select ((c, condition) :: rest) o = if condition.holds o then c else rest.select o := by
  simp only [Rules.select, List.find?_cons]
  cases condition.holds o <;> rfl

/-- What is selected is one of the outcomes. -/
theorem Rules.select_mem_outcomes {s : Situation} {o : Operands} (h : s.Covers o) (rules : Rules) :
    rules.select o ∈ rules.outcomes s := by
  induction rules with
  | nil => exact List.mem_singleton.mpr rfl
  | cons rule rest ih =>
    obtain ⟨c, condition⟩ := rule
    rw [select_cons, outcomes]
    split
    · next htrue =>
      rw [Condition.holds_eq_of_under h htrue, if_pos rfl]
      exact List.mem_singleton.mpr rfl
    · next hfalse =>
      rw [Condition.holds_eq_of_under h hfalse, if_neg Bool.false_ne_true]
      exact ih
    · split
      · exact List.mem_cons_self
      · exact List.mem_cons_of_mem _ ih

/-- The only outcome is what is selected. -/
theorem Rules.select_eq_of_outcomes {s : Situation} {o : Operands} (h : s.Covers o) {rules : Rules}
    {c : Category} (hc : rules.outcomes s = [c]) : rules.select o = c := by
  have := select_mem_outcomes h rules
  rwa [hc, List.mem_singleton] at this

end Localization.Plural
