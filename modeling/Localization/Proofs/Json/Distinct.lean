import Mathlib
import Localization.Json.Reader
import Localization.Proofs.Results

/-! Objects without repeated keys.

`Value.hasDistinctKeys` says that no object in a value has a key twice. Objects nest in values
as lists, and a list of a nested type carries no proof about the type, so it is a predicate that
every way to a value establishes: setting keys keeps it (`Object.hasDistinctKeys_insert`), and
every value that is read has it (`hasDistinctKeys_ofText?`). -/
namespace Localization.Json

mutual

/-- Whether no object in a value has a key twice. -/
def Value.hasDistinctKeys : Value → Prop
  | .array items => haveDistinctKeys items
  | .object entries => (entries.map (·.1)).Nodup ∧ entriesHaveDistinctKeys entries
  | _ => True

def haveDistinctKeys : List Value → Prop
  | [] => True
  | v :: rest => v.hasDistinctKeys ∧ haveDistinctKeys rest

def entriesHaveDistinctKeys : List (Text × Value) → Prop
  | [] => True
  | (_, v) :: rest => v.hasDistinctKeys ∧ entriesHaveDistinctKeys rest

end

theorem haveDistinctKeys_iff {items : List Value} :
    haveDistinctKeys items ↔ ∀ v ∈ items, v.hasDistinctKeys := by
  induction items with
  | nil => simp [haveDistinctKeys]
  | cons v rest ih => simp [haveDistinctKeys, ih]

theorem entriesHaveDistinctKeys_iff {entries : List (Text × Value)} :
    entriesHaveDistinctKeys entries ↔ ∀ e ∈ entries, e.2.hasDistinctKeys := by
  induction entries with
  | nil => simp [entriesHaveDistinctKeys]
  | cons e rest ih => simp [entriesHaveDistinctKeys, ih]

theorem hasDistinctKeys_object {entries : Object} :
    (Value.object entries).hasDistinctKeys ↔
      (entries.map (·.1)).Nodup ∧ ∀ e ∈ entries, e.2.hasDistinctKeys := by
  rw [Value.hasDistinctKeys, entriesHaveDistinctKeys_iff]

namespace Object

/-! ### Setting keys -/

theorem insert_of_not_mem {entries : Object} {key : Text} (h : key ∉ entries.map (·.1))
    (value : Value) : insert entries key value = entries ++ [(key, value)] := by
  induction entries with
  | nil => rfl
  | cons e rest ih =>
    obtain ⟨k, v⟩ := e
    rw [List.map_cons, List.mem_cons, not_or] at h
    have hk : (key == k) = false := beq_eq_false_iff_ne.mpr h.1
    rw [insert, hk, if_neg (by simp), ih h.2, List.cons_append]

/-- Entries with distinct keys, set one after the other, are put behind each other. -/
theorem insertAll_of_nodup {entries more : Object} (h : ((entries ++ more).map (·.1)).Nodup) :
    insertAll entries more = entries ++ more := by
  induction more generalizing entries with
  | nil => rw [List.append_nil]; rfl
  | cons e rest ih =>
    obtain ⟨key, value⟩ := e
    have hnew : key ∉ entries.map (·.1) := by
      intro hmem
      rw [List.map_append, List.map_cons, List.nodup_append] at h
      exact h.2.2 key hmem key List.mem_cons_self rfl
    have hrest : ((entries ++ [(key, value)] ++ rest).map (·.1)).Nodup := by
      rw [List.append_assoc]
      exact h
    show insertAll (insert entries key value) rest = _
    rw [insert_of_not_mem hnew, ih hrest, List.append_assoc]
    rfl

theorem ofList_of_nodup {entries : Object} (h : (entries.map (·.1)).Nodup) :
    ofList entries = entries :=
  @insertAll_of_nodup [] _ h

theorem keys_insert (entries : Object) (key : Text) (value : Value) :
    (insert entries key value).map (·.1) =
      if key ∈ entries.map (·.1) then entries.map (·.1) else entries.map (·.1) ++ [key] := by
  induction entries with
  | nil => rfl
  | cons e rest ih =>
    obtain ⟨k, v⟩ := e
    rw [insert]
    by_cases hk : key = k
    · subst hk
      simp
    · have hb : (key == k) = false := beq_eq_false_iff_ne.mpr hk
      rw [hb, if_neg (by simp), List.map_cons, List.map_cons, ih]
      by_cases hmem : key ∈ rest.map (·.1)
      · rw [if_pos hmem, if_pos (List.mem_cons_of_mem _ hmem)]
      · rw [if_neg hmem, if_neg (by simpa [hk] using hmem), List.cons_append]

theorem mem_of_mem_insert {entries : Object} {key : Text} {value : Value} {e : Text × Value}
    (h : e ∈ insert entries key value) : e = (key, value) ∨ e ∈ entries := by
  induction entries with
  | nil => exact .inl (List.mem_singleton.mp h)
  | cons e' rest ih =>
    obtain ⟨k, v⟩ := e'
    rw [insert] at h
    split at h
    · rcases List.mem_cons.mp h with h | h
      · exact .inl h
      · exact .inr (List.mem_cons_of_mem _ h)
    · rcases List.mem_cons.mp h with h | h
      · exact .inr (h ▸ List.mem_cons_self)
      · exact (ih h).imp_right (List.mem_cons_of_mem _)

theorem hasDistinctKeys_insert {entries : Object} (h : (Value.object entries).hasDistinctKeys)
    (key : Text) {value : Value} (hv : value.hasDistinctKeys) :
    (Value.object (insert entries key value)).hasDistinctKeys := by
  rw [hasDistinctKeys_object] at h ⊢
  constructor
  · rw [keys_insert]
    split
    · exact h.1
    · next hmem =>
      refine List.nodup_append.mpr ⟨h.1, List.nodup_singleton _, ?_⟩
      rintro a ha b hb rfl
      exact hmem (List.mem_singleton.mp hb ▸ ha)
  · intro e he
    rcases mem_of_mem_insert he with rfl | he
    · exact hv
    · exact h.2 e he

theorem hasDistinctKeys_insertAll {entries : Object} (h : (Value.object entries).hasDistinctKeys)
    {more : List (Text × Value)} (hm : ∀ e ∈ more, e.2.hasDistinctKeys) :
    (Value.object (insertAll entries more)).hasDistinctKeys := by
  induction more generalizing entries with
  | nil => exact h
  | cons e rest ih =>
    have hfirst := hasDistinctKeys_insert h e.1 (hm e List.mem_cons_self)
    exact ih hfirst fun e he => hm e (List.mem_cons_of_mem _ he)

theorem hasDistinctKeys_nil : (Value.object []).hasDistinctKeys :=
  hasDistinctKeys_object.mpr ⟨List.nodup_nil, fun _ h => by cases h⟩

theorem mem_of_get? {entries : Object} {key : Text} {value : Value}
    (h : get? entries key = some value) :
    (key, value) ∈ entries :=
  mem_of_lookup h

/-- In an object without repeated keys, the entries are what look-ups give. -/
theorem get?_iff {entries : Object} (h : (entries.map (·.1)).Nodup) {key : Text} {value : Value} :
    get? entries key = some value ↔ (key, value) ∈ entries := by
  refine ⟨mem_of_get?, fun hmem => ?_⟩
  induction entries with
  | nil => cases hmem
  | cons e rest ih =>
    obtain ⟨k, v⟩ := e
    rw [List.map_cons, List.nodup_cons] at h
    rw [get?, List.lookup]
    rcases List.mem_cons.mp hmem with he | hrest
    · cases he
      rw [beq_self_eq_true]
    · have hne : (key == k) = false := by
        rw [beq_eq_false_iff_ne]
        rintro rfl
        exact h.1 (List.mem_map.mpr ⟨_, hrest, rfl⟩)
      rw [hne]
      exact ih h.2 hrest

theorem get?_eq_none_iff {entries : Object} {key : Text} :
    get? entries key = none ↔ key ∉ entries.map (·.1) := by
  induction entries with
  | nil => simp [get?]
  | cons e rest ih =>
    obtain ⟨k, v⟩ := e
    rw [get?] at ih ⊢
    rw [List.lookup]
    by_cases hk : key = k
    · subst hk
      simp
    · have hb : (key == k) = false := beq_eq_false_iff_ne.mpr hk
      rw [hb, ih, List.map_cons, List.mem_cons, not_or]
      exact ⟨fun h => ⟨hk, h⟩, fun h => h.2⟩

end Object

/-! ### Values that are read -/

mutual

theorem hasDistinctKeys_toValue? {depth : Nat} : ∀ {r : Raw} {v : Value},
    r.toValue? depth = some v → v.hasDistinctKeys
  | .null, v, h => by
    rw [Raw.toValue?] at h
    cases h
    trivial
  | .bool b, v, h => by
    rw [Raw.toValue?] at h
    cases h
    trivial
  | .numeral n, v, h => by
    rw [Raw.toValue?] at h
    obtain ⟨x, -, rfl⟩ := Option.map_eq_some_iff.mp h
    trivial
  | .string s, v, h => by
    rw [Raw.toValue?] at h
    obtain ⟨t, -, rfl⟩ := Option.map_eq_some_iff.mp h
    trivial
  | .array items, v, h => by
    cases depth with
    | zero => rw [Raw.toValue?] at h; cases h
    | succ depth =>
      rw [Raw.toValue?] at h
      obtain ⟨vs, hvs, rfl⟩ := Option.map_eq_some_iff.mp h
      exact haveDistinctKeys_iff.mpr (hasDistinctKeys_toValues? hvs)
  | .object entries, v, h => by
    cases depth with
    | zero => rw [Raw.toValue?] at h; cases h
    | succ depth =>
      rw [Raw.toValue?] at h
      obtain ⟨es, hes, rfl⟩ := Option.map_eq_some_iff.mp h
      exact Object.hasDistinctKeys_insertAll Object.hasDistinctKeys_nil
        (hasDistinctKeys_toEntries? hes)

theorem hasDistinctKeys_toValues? {depth : Nat} : ∀ {items : List Raw} {vs : List Value},
    Raw.toValues? depth items = some vs → ∀ v ∈ vs, v.hasDistinctKeys
  | [], vs, h => by
    rw [Raw.toValues?] at h
    cases h
    exact fun _ hv => by cases hv
  | r :: rest, vs, h => by
    rw [Raw.toValues?] at h
    obtain ⟨v, hv, h⟩ := Option.bind_eq_some_iff.mp h
    obtain ⟨more, hmore, h⟩ := Option.bind_eq_some_iff.mp h
    cases h
    intro w hw
    rcases List.mem_cons.mp hw with rfl | hw
    · exact hasDistinctKeys_toValue? hv
    · exact hasDistinctKeys_toValues? hmore w hw

theorem hasDistinctKeys_toEntries? {depth : Nat} :
    ∀ {entries : List (List Glyph × Raw)}
    {es : List (Text × Value)}, Raw.toEntries? depth entries = some es →
      ∀ e ∈ es, e.2.hasDistinctKeys
  | [], es, h => by
    rw [Raw.toEntries?] at h
    cases h
    exact fun _ he => by cases he
  | (key, r) :: rest, es, h => by
    rw [Raw.toEntries?] at h
    obtain ⟨k, -, h⟩ := Option.bind_eq_some_iff.mp h
    obtain ⟨v, hv, h⟩ := Option.bind_eq_some_iff.mp h
    obtain ⟨more, hmore, h⟩ := Option.bind_eq_some_iff.mp h
    cases h
    intro e he
    rcases List.mem_cons.mp he with rfl | he
    · exact hasDistinctKeys_toValue? hv
    · exact hasDistinctKeys_toEntries? hmore e he

end

/-- **No object that is read has a key twice.** -/
theorem hasDistinctKeys_ofText? {t : Text} {v : Value} (h : Value.ofText? t = some v) :
    v.hasDistinctKeys := by
  obtain ⟨r, -, hv⟩ := Option.bind_eq_some_iff.mp h
  exact hasDistinctKeys_toValue? hv

end Localization.Json
