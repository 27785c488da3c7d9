import Mathlib
import Localization.Files.Store
import Localization.Proofs.Tree.Sort

/-! The path of a file in a directory.

Behind a directory stands one more piece, the name of the file (`pieces_join`), so the path
has one more component (`components_join`) and leads one step further (`follow_join_iff`).
Paths in one directory are ordered like the names (`le_join`). -/
namespace Localization

/-! ### Pieces -/

namespace Text

theorem splitFrom_append_cons (c : Char) (a b : Text) :
    splitFrom [c] 0 (a ++ c :: b) = splitFrom [c] 0 a ++ splitFrom [c] 0 b := by
  induction a with
  | nil => simp [splitFrom, List.isPrefixOf]
  | cons d a ih =>
    by_cases hd : d = c
    · subst hd
      simp [splitFrom, List.isPrefixOf, ih]
    · have hb : (c == d) = false := beq_eq_false_iff_ne.mpr (Ne.symm hd)
      obtain ⟨part, parts, hparts⟩ := List.exists_cons_of_ne_nil (splitFrom_ne_nil [c] 0 a)
      simp [splitFrom, List.isPrefixOf, hb, ih, hparts, consHead]

theorem splitFrom_of_not_mem {c : Char} {t : Text} (h : c ∉ t) : splitFrom [c] 0 t = [t] := by
  induction t with
  | nil => rfl
  | cons d t ih =>
    rw [List.mem_cons, not_or] at h
    have hb : (c == d) = false := beq_eq_false_iff_ne.mpr h.1
    simp [splitFrom, List.isPrefixOf, hb, ih h.2, consHead]

end Text

namespace Path

theorem not_isAbsolute {n : Text} (h : '/' ∉ n) : isAbsolute n = false := by
  cases n with
  | nil => rfl
  | cons c n =>
    have hc : c ≠ '/' := fun hc => h (hc ▸ List.mem_cons_self)
    simpa [isAbsolute] using hc

theorem component?_eq_name {piece n : Text} (h : component? piece = some (.name n)) :
    piece = n := by
  unfold component? at h
  split at h
  · cases h
  · split at h
    · cases h
    · cases h
      rfl

theorem component?_eq_some {piece : Text} (h : piece ≠ []) (h' : piece ≠ ['.'])
    (h'' : piece ≠ ['.', '.']) :
    component? piece = some (.name piece) := by
  have h1 : piece.isEmpty = false := by simpa using h
  have h2 : (piece == ['.']) = false := beq_eq_false_iff_ne.mpr h'
  have h3 : (piece == ['.', '.']) = false := beq_eq_false_iff_ne.mpr h''
  rw [component?, h1, h2, Bool.or_self, if_neg (by simp), h3, if_neg (by simp)]

/-- The pieces of a path in a directory: those of the directory, without an empty one at the end,
and the name. -/
theorem pieces_join (dir : Path) :
    ∃ init, (pieces dir = init ∨ pieces dir = init ++ [[]]) ∧
      ∀ n, '/' ∉ n → pieces (join dir n) = init ++ [n] := by
  by_cases hnil : dir = []
  · subst hnil
    refine ⟨[], .inr rfl, fun n hn => ?_⟩
    rw [join, not_isAbsolute hn, if_neg (by simp), List.isEmpty_nil, Bool.true_or, if_pos rfl]
    exact Text.splitFrom_of_not_mem hn
  · by_cases hlast : dir.getLast? = some '/'
    · obtain ⟨init, hinit⟩ : ∃ init, dir = init ++ ['/'] := by
        obtain ⟨init, c, rfl⟩ := (List.eq_nil_or_concat dir).resolve_left hnil
        rw [List.concat_eq_append, List.getLast?_append, List.getLast?_singleton,
          Option.some_or] at hlast
        cases hlast
        exact ⟨init, List.concat_eq_append⟩
      refine ⟨pieces init, .inr ?_, fun n hn => ?_⟩
      · rw [hinit]
        exact Text.splitFrom_append_cons '/' init []
      · have hjoin : join dir n = init ++ '/' :: n := by
          rw [join, not_isAbsolute hn, if_neg (by simp), hlast, beq_self_eq_true, Bool.or_true,
            if_pos rfl, hinit, List.append_assoc]
          rfl
        rw [hjoin, pieces, Text.splitFrom_append_cons, Text.splitFrom_of_not_mem hn]
        rfl
    · refine ⟨pieces dir, .inl rfl, fun n hn => ?_⟩
      have hjoin : join dir n = dir ++ '/' :: n := by
        have hempty : dir.isEmpty = false := by simpa using hnil
        have hne : (dir.getLast? == some '/') = false := beq_eq_false_iff_ne.mpr hlast
        rw [join, not_isAbsolute hn, if_neg (by simp), hempty, hne, Bool.or_self, if_neg (by simp)]
      rw [hjoin, pieces, Text.splitFrom_append_cons, Text.splitFrom_of_not_mem hn]
      rfl

/-! ### Components -/

theorem isAbsolute_join {n : Text} (hn : IsEntryName n) (dir : Path) :
    isAbsolute (join dir n) = isAbsolute dir := by
  rw [join, not_isAbsolute hn.noSlash, if_neg (by simp)]
  cases dir with
  | nil => exact not_isAbsolute hn.noSlash
  | cons c dir => split <;> rfl

/-- A path in a directory has one more component. -/
theorem components_join {n : Text} (hn : IsEntryName n) (dir : Path) :
    components (join dir n) = components dir ++ [.name n] := by
  obtain ⟨init, hdir, hjoin⟩ := pieces_join dir
  have hpieces := hjoin n hn.noSlash
  have hinner : (pieces (join dir n)).filterMap component? =
      (pieces dir).filterMap component? ++ [.name n] := by
    have hname : [n].filterMap component? = [.name n] := by
      rw [List.filterMap_cons_some hn.component, List.filterMap_nil]
    rw [hpieces, List.filterMap_append, hname]
    rcases hdir with h | h
    · rw [h]
    · have hempty : ([[]] : List Text).filterMap component? = [] := rfl
      rw [h, List.filterMap_append, hempty, List.append_nil]
  have hhead : ((pieces (join dir n)).head? == some ['.']) =
      ((pieces dir).head? == some ['.']) := by
    have hne : n ≠ ['.'] := by
      rintro rfl
      exact absurd hn.component (by decide)
    rw [hpieces]
    cases init with
    | nil =>
      rcases hdir with h | h
      · exact absurd h (Text.splitFrom_ne_nil _ _ _)
      · rw [h]
        simpa using hne
    | cons piece init => rcases hdir with h | h <;> rw [h] <;> rfl
  simp only [components, isAbsolute_join hn, hhead, hinner]
  split
  · rfl
  · split <;> rfl

theorem fileName?_join {n : Text} (hn : IsEntryName n) (dir : Path) :
    fileName? (join dir n) = some n := by
  rw [fileName?, components_join hn, List.getLast?_concat]

theorem extension?_join {n : Text} (hn : IsEntryName n) (dir : Path) :
    extension? (join dir n) = extensionOf? n := by
  rw [extension?, fileName?_join hn, Option.bind_some]

theorem componentsLe_append (cs : List Component) (a b : Text) :
    componentsLe (cs ++ [.name a]) (cs ++ [.name b]) = Text.le a b := by
  induction cs with
  | nil =>
    show (if Component.name a == .name b then componentsLe [] [] else
      (Component.name a).le (.name b)) = Text.le a b
    by_cases h : a = b
    · subst h
      rw [beq_self_eq_true, if_pos rfl, Text.le_refl]
      rfl
    · have hne : (Component.name a == Component.name b) = false := by
        rw [beq_eq_false_iff_ne]
        rintro ⟨⟩
        exact h rfl
      rw [hne, if_neg (by simp)]
      rfl
  | cons c cs ih =>
    show (if c == c then componentsLe (cs ++ [.name a]) (cs ++ [.name b]) else c.le c) = Text.le a b
    rw [beq_self_eq_true, if_pos rfl, ih]

/-- Paths in one directory are ordered like the names. -/
theorem le_join {a b : Text} (ha : IsEntryName a) (hb : IsEntryName b) (dir : Path) :
    le (join dir a) (join dir b) = Text.le a b := by
  rw [le, components_join ha, components_join hb, componentsLe_append]

end Path

end Localization
