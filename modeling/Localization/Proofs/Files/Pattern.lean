import Mathlib
import Localization.Files.Discovery
import Localization.Proofs.Files.Names

/-! What patterns of directories stand for.

A pattern for directories is read piece by piece, so none of its parts has a slash
(`exists_patterns`). Whatever it stands for is below the path that it starts from: it is no
directory unless that path is one (`isDirectory_of_mem_expandFrom`). -/
namespace Localization.Discovery

open Localization.Path (join)
open Store (isDirectory_of_isDirectory_join isEntryName_of_names?)

/-! ### Patterns without a slash -/

theorem not_mem_literal? {pattern : Pattern} {piece : Text} (hp : .char '/' ∉ pattern)
    (h : Pattern.literal? pattern = some piece) : '/' ∉ piece := by
  fun_induction Pattern.literal? pattern generalizing piece with
  | case1 =>
    cases h
    exact List.not_mem_nil
  | case2 c rest ih =>
    obtain ⟨more, hmore, rfl⟩ := Option.map_eq_some_iff.mp h
    rw [List.mem_cons, not_or] at hp ⊢
    exact ⟨fun hc => hp.1 (hc ▸ rfl), ih hp.2 hmore⟩
  | case3 => cases h

/-- A set stands for one of several characters. -/
theorem ne_char_of_set? {t : Text} {token : PatternToken} {length : Nat}
    (h : Pattern.set? t = some (token, length)) (c : Char) : token ≠ .char c := by
  rintro rfl
  unfold Pattern.set? at h
  split at h
  · obtain ⟨_, -, he⟩ := Option.map_eq_some_iff.mp h
    cases he
  · cases h
  · obtain ⟨_, -, he⟩ := Option.map_eq_some_iff.mp h
    cases he
  · cases h

/-- A text without a slash spells a pattern without one. -/
theorem not_mem_parse? {previous : Option Char} {skip : Nat} {t : Text} (ht : '/' ∉ t)
    {pattern : Pattern} (h : Pattern.parse? previous skip t = some pattern) :
    .char '/' ∉ pattern := by
  induction t generalizing previous skip pattern with
  | nil =>
    cases h
    exact List.not_mem_nil
  | cons c rest ih =>
    rw [List.mem_cons, not_or] at ht
    have hmap {previous : Option Char} {skip : Nat} {token : PatternToken}
        (htoken : token ≠ .char '/')
        (h : (Pattern.parse? previous skip rest).map (token :: ·) = some pattern) :
          .char '/' ∉ pattern := by
      obtain ⟨more, hmore, rfl⟩ := Option.map_eq_some_iff.mp h
      rw [List.mem_cons, not_or]
      exact ⟨htoken.symm, ih ht.2 hmore⟩
    unfold Pattern.parse? at h
    split at h
    · exact ih ht.2 h
    · split at h
      · exact hmap (by simp) h
      · split at h
        · split at h
          · next hset => exact hmap (ne_char_of_set? hset '/') h
          · cases h
        · split at h
          · split at h
            · cases h
            · split at h
              · split at h
                · cases h
                  simp
                · exact hmap (by simp) h
                · cases h
              · cases h
            · exact hmap (by simp) h
          · exact hmap (by simpa using Ne.symm ht.1) h

/-- Merging patterns leaves some of them out. -/
theorem mem_of_mem_mergeRecursive {patterns : List Pattern} {p : Pattern}
    (h : p ∈ mergeRecursive patterns) :
    p ∈ patterns := by
  induction patterns with
  | nil => exact h
  | cons first rest ih =>
    unfold mergeRecursive at h
    split at h
    · next q more hq =>
      rw [hq] at ih
      split at h
      · exact List.mem_cons_of_mem _ (ih h)
      · exact (List.mem_cons.mp h).elim (fun he => he ▸ List.mem_cons_self) fun hm =>
          List.mem_cons_of_mem _ (ih hm)
    · rw [List.mem_singleton.mp h]
      exact List.mem_cons_self

/-- The pieces of a pattern have no slash, and so have the patterns that they spell. -/
theorem not_mem_of_patternPieces {t : Text} {patterns : List Pattern}
    (h : (patternPieces t).mapM Pattern.ofText? = some patterns) :
    ∀ p ∈ mergeRecursive patterns, .char '/' ∉ p := by
  intro p hp
  obtain ⟨piece, hpiece, hparse⟩ := exists_of_mem_mapM h p (mem_of_mem_mergeRecursive hp)
  have hmem : piece ∈ Path.pieces t := by
    unfold patternPieces at hpiece
    dsimp only at hpiece
    split at hpiece
    · exact List.mem_of_mem_dropLast hpiece
    · exact hpiece
  exact not_mem_parse? (Store.not_mem_pieces hmem) hparse

/-! ### What a pattern stands for -/

/-- The directory itself and the one above, where a pattern stands for them too. -/
def pointNames : Pattern → List Text
  | .char '.' :: _ => [['.', '.'], ['.']]
  | _ => []

theorem matchingNames_eq (s : Store) (pattern : Pattern) (p : Path) :
    matchingNames s pattern p =
      match s.names? p with
      | some names => (pointNames pattern ++ names).filter (Pattern.isMatch pattern)
      | none => [] := rfl

theorem not_mem_pointNames {pattern : Pattern} {n : Text} (h : n ∈ pointNames pattern) :
    '/' ∉ n := by
  unfold pointNames at h
  split at h
  · rcases List.mem_pair.mp h with rfl | rfl <;> decide
  · cases h

theorem not_mem_matchingNames {s : Store} {pattern : Pattern} {p : Path} {n : Text}
    (h : n ∈ matchingNames s pattern p) : '/' ∉ n := by
  rw [matchingNames_eq] at h
  cases hnames : s.names? p with
  | none =>
    rw [hnames] at h
    cases h
  | some names =>
    rw [hnames] at h
    rcases List.mem_append.mp (List.mem_filter.mp h).1 with h | h
    · exact not_mem_pointNames h
    · exact (isEntryName_of_names? (p := p) (by rw [hnames]; exact h)).noSlash

/-- What is below a path is not a directory unless the path is one. -/
theorem isDirectory_of_mem_below {s s' : Store} {fuel : Nat} {p q : Path}
    (hq : q ∈ below s' fuel p) (hdir : s.isDirectory q = true) : s.isDirectory p = true := by
  induction fuel generalizing p with
  | zero => cases hq
  | succ fuel ih =>
    obtain ⟨n, hn, hq⟩ := List.mem_flatMap.mp hq
    refine isDirectory_of_isDirectory_join (isEntryName_of_names? hn).noSlash ?_
    rcases List.mem_cons.mp hq with rfl | hq
    · exact hdir
    · exact ih hq

theorem filter_below_eq_nil {s s' : Store} {fuel : Nat} {p : Path}
    (h : ¬ s.isDirectory p = true) :
    (p :: below s' fuel p).filter s.isDirectory = [] := by
  rw [List.filter_eq_nil_iff]
  intro q hq hdir
  rcases List.mem_cons.mp hq with rfl | hq
  · exact h hdir
  · exact h (isDirectory_of_mem_below hq hdir)

/-- What a pattern stands for below a path is not a directory unless the path is one. -/
theorem isDirectory_of_mem_expandFrom {s s' : Store} {patterns : List Pattern}
    (hp : ∀ q ∈ patterns, .char '/' ∉ q) {p q : Path} (hq : q ∈ expandFrom s' patterns p)
    (hdir : s.isDirectory q = true) : s.isDirectory p = true := by
  fun_induction expandFrom s' patterns p with
  | case1 p =>
    rw [← List.mem_singleton.mp hq]
    exact hdir
  | case2 pattern p _ => exact isDirectory_of_mem_below hq hdir
  | case3 pattern p _ next more ih =>
    obtain ⟨child, hchild, hq⟩ := List.mem_flatMap.mp hq
    refine isDirectory_of_mem_below hchild (ih child (fun q hq => hp q ?_) ?_)
    · exact List.mem_cons_of_mem _ (List.mem_cons_of_mem _ hq)
    · split at hq
      · split at hq
        · exact hq
        · cases hq
      · cases hq
  | case4 pattern rest p _ piece hliteral next there hthere ih =>
    have hpiece := not_mem_literal? (hp _ List.mem_cons_self) hliteral
    exact isDirectory_of_isDirectory_join hpiece
      (ih (fun q hq => hp q (List.mem_cons_of_mem _ hq)) hq)
  | case5 => cases hq
  | case6 pattern rest p _ hliteral ih =>
    obtain ⟨n, hn, hq⟩ := List.mem_flatMap.mp hq
    exact isDirectory_of_isDirectory_join (not_mem_matchingNames hn)
      (ih n (fun q hq => hp q (List.mem_cons_of_mem _ hq)) hq)

/-- An absolute pattern stands for what its pieces stand for, in any store. -/
theorem exists_patterns {s : Store} {t : Text} {dirs : List Path} (h : expand? s t = some dirs) :
    ∃ patterns, (∀ p ∈ patterns, .char '/' ∉ p) ∧
      ∀ s, expand? s t = some ((expandFrom s patterns ['/']).filter s.isDirectory) := by
  obtain ⟨whole, hwhole, h⟩ := Option.bind_eq_some_iff.mp h
  obtain ⟨pieces, hpieces, h⟩ := Option.bind_eq_some_iff.mp h
  refine ⟨mergeRecursive pieces, not_mem_of_patternPieces hpieces, fun s => ?_⟩
  rw [expand?, hwhole, hpieces]
  rfl

section

variable {s : Store} {pattern : Pattern} {rest : List Pattern} {p : Path}

theorem expandFrom_recursive (hrec : pattern.isRecursive = true) :
    expandFrom s [pattern] p = below s (depth s) p := by
  simp only [expandFrom, hrec, if_true]

/-- What the rest of a pattern stands for below a path whose last name the next part stands for. -/
def expandNamed (s : Store) (next : Pattern) (more : List Pattern) (child : Path) : List Path :=
  match Path.fileName? child with
  | some n => if Pattern.isMatch next n then expandFrom s more child else []
  | none => []

theorem expandFrom_recursive_cons (hrec : pattern.isRecursive = true) (next : Pattern)
    (more : List Pattern) :
    expandFrom s (pattern :: next :: more) p =
      (below s (depth s) p).flatMap (expandNamed s next more) := by
  simp only [expandFrom, hrec, if_true]
  rfl

/-- Whether a part that is no pattern leads anywhere. -/
def isThere (s : Store) (p : Path) (piece : Text) : Bool :=
  if piece == ['.'] || piece == ['.', '.'] then s.isDirectory p else s.contains (join p piece)

theorem isThere_of_isDirectory (hdir : s.isDirectory p = true) {piece : Text}
    (hnext : s.isDirectory (join p piece) = true) : isThere s p piece = true := by
  unfold isThere
  split
  · exact hdir
  · rw [Store.isDirectory, beq_iff_eq] at hnext
    rw [Store.contains, hnext]
    rfl

theorem expandFrom_literal (hrec : ¬ pattern.isRecursive = true) {piece : Text}
    (hliteral : Pattern.literal? pattern = some piece) :
    expandFrom s (pattern :: rest) p = if isThere s p piece then expandFrom s rest (join p piece)
      else [] := by
  cases rest with
  | nil =>
    rw [expandFrom.eq_2, if_neg hrec, hliteral]
    rfl
  | cons next more =>
    rw [expandFrom.eq_3, if_neg hrec, hliteral]
    rfl

theorem expandFrom_names (hrec : ¬ pattern.isRecursive = true)
    (hliteral : Pattern.literal? pattern = none) :
    expandFrom s (pattern :: rest) p = (matchingNames s pattern p).flatMap fun n =>
      expandFrom s rest (join p n) := by
  cases rest with
  | nil => rw [expandFrom.eq_2, if_neg hrec, hliteral]
  | cons next more => rw [expandFrom.eq_3, if_neg hrec, hliteral]

end

end Localization.Discovery
