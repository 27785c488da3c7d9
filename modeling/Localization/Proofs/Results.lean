import Mathlib
import Localization.Error

/-! Results of steps that may fail, and of look-ups.

A chain of steps succeeds exactly if each of them does (`Except.bind_eq_ok_iff`,
`mapM_eq_ok_iff`), and what is looked up in a list stands in it (`mem_of_lookup`). -/
namespace Localization

theorem Except.bind_eq_ok_iff {α β : Type} {x : Except Error α} {f : α → Except Error β} {b : β} :
    (x >>= f) = .ok b ↔ ∃ a, x = .ok a ∧ f a = .ok b := by
  cases x with
  | ok a => exact ⟨fun h => ⟨a, rfl, h⟩, fun ⟨_, he, h⟩ => (by cases he; exact h)⟩
  | error e => exact ⟨fun h => (by cases h), fun ⟨_, he, _⟩ => (by cases he)⟩

theorem mapM_eq_ok_iff {α β : Type} {f : α → Except Error β} {l : List α} {r : List β} :
    l.mapM f = .ok r ↔ List.Forall₂ (fun a b => f a = .ok b) l r := by
  induction l generalizing r with
  | nil =>
    constructor
    · intro h
      cases h
      exact .nil
    · intro h
      cases h
      rfl
  | cons a l ih =>
    rw [List.mapM_cons]
    constructor
    · intro h
      cases ha : f a with
      | error e => rw [ha] at h; cases h
      | ok b =>
        cases hl : l.mapM f with
        | error e => rw [ha, hl] at h; cases h
        | ok bs =>
          rw [ha, hl] at h
          cases h
          exact .cons ha (ih.mp hl)
    · intro h
      cases h with
      | cons ha hl =>
        rw [ha, ih.mpr hl]
        rfl

theorem exists_mapM_eq_ok {α β : Type} {f : α → Except Error β} {l : List α}
    (h : ∀ a ∈ l, ∃ b, f a = .ok b) :
    ∃ r, l.mapM f = .ok r := by
  induction l with
  | nil => exact ⟨[], rfl⟩
  | cons a l ih =>
    obtain ⟨b, hb⟩ := h a List.mem_cons_self
    obtain ⟨r, hr⟩ := ih fun a ha => h a (List.mem_cons_of_mem _ ha)
    exact ⟨b :: r, mapM_eq_ok_iff.mpr (.cons hb (mapM_eq_ok_iff.mp hr))⟩

/-- A chain succeeds with the same results if each of its steps does. -/
theorem mapM_eq_ok_of {α β : Type} {f g : α → Except Error β} {l : List α} {r : List β}
    (h : ∀ a ∈ l, ∀ b, f a = .ok b → g a = .ok b) (hl : l.mapM f = .ok r) : l.mapM g = .ok r := by
  rw [mapM_eq_ok_iff] at hl ⊢
  induction hl with
  | nil => exact .nil
  | cons ha _ ih =>
    exact .cons (h _ List.mem_cons_self _ ha) (ih fun a hmem => h a (List.mem_cons_of_mem _ hmem))

theorem forall_of_mapM {α β : Type} {f : α → Except Error β} {p : β → Prop} {l : List α}
    {r : List β} (h : l.mapM f = .ok r) (hp : ∀ a b, f a = .ok b → p b) : ∀ b ∈ r, p b := by
  rw [mapM_eq_ok_iff] at h
  induction h with
  | nil => exact fun _ hb => by cases hb
  | cons ha _ ih =>
    intro b hb
    rcases List.mem_cons.mp hb with rfl | hb
    · exact hp _ _ ha
    · exact ih b hb

/-- What a chain of look-ups gives, one of them gave. -/
theorem exists_of_mem_mapM {α β : Type} {f : α → Option β} {l : List α} {l' : List β}
    (h : l.mapM f = some l') :
    ∀ b ∈ l', ∃ a ∈ l, f a = some b := by
  induction l generalizing l' with
  | nil =>
    cases h
    exact fun _ hb => absurd hb List.not_mem_nil
  | cons a rest ih =>
    rw [List.mapM_cons] at h
    obtain ⟨b, hb, h⟩ := Option.bind_eq_some_iff.mp h
    obtain ⟨bs, hbs, h⟩ := Option.bind_eq_some_iff.mp h
    obtain rfl : b :: bs = l' := Option.some.inj h
    intro d hd
    rcases List.mem_cons.mp hd with rfl | hd
    · exact ⟨a, List.mem_cons_self, hb⟩
    · obtain ⟨e, he, hfe⟩ := ih hbs d hd
      exact ⟨e, List.mem_cons_of_mem _ he, hfe⟩

/-! ### Look-ups -/

section

variable {α β : Type} [BEq α] [LawfulBEq α]

theorem mem_of_lookup {entries : List (α × β)} {a : α} {b : β} (h : entries.lookup a = some b) :
    (a, b) ∈ entries := by
  obtain ⟨before, after, rfl, -⟩ := List.lookup_eq_some_iff.mp h
  exact List.mem_append_right _ List.mem_cons_self

/-- In a table of the values of a function, every argument in it has its value. -/
theorem lookup_map_of_mem {f : α → β} {l : List α} {a : α} (h : a ∈ l) :
    (l.map fun x => (x, f x)).lookup a = some (f a) := by
  induction l with
  | nil => cases h
  | cons first rest ih =>
    rw [List.map_cons, List.lookup]
    by_cases he : a = first
    · subst he
      rw [beq_self_eq_true]
    · rw [beq_eq_false_iff_ne.mpr he]
      exact ih ((List.mem_cons.mp h).resolve_left he)

end

end Localization
