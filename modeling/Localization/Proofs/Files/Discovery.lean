import Mathlib
import Localization.Proofs.Files.Changes
import Localization.Proofs.Files.Order
import Localization.Proofs.Files.Pattern

/-! Sources in a store that has grown.

Directories and files that are no sources may be added to a store, below its roots as well. The
walk then passes more names, but it finds the same sources (`filter_walk_eq`), and a pattern
stands for the same of the directories that were there (`filter_expandFrom_eq`). So the same
sources are found, unless a new directory that a pattern stands for leads back to where sources
were (`sources_eq`). -/
namespace Localization.Discovery

open Localization.Path (join)
open Store (Changes entry?_join_eq_none eq_of_locate_join fileName?_of_locate isDirectory_iff
  isEntryName_of_mem_namesIn locate_join_iff mem_namesIn_iff names?_eq nodup_namesIn
  not_isDirectory_join pairwise_namesIn readText?_eq_some_iff)

/-! ### Stores that have grown -/

/-- A place under a name that is not that of a source. -/
def IsNoSource (l : Location) : Prop := ∀ n, l.getLast? = some n → isSourceName n = false

/-- A store has grown by directories and by files that are no sources. -/
abbrev HasGrown (s s' : Store) : Prop := Changes (fun l _ => IsNoSource l) s s'

/-- Whether the last name of a path is that of a source. -/
def isSource (p : Path) : Bool := ((Path.fileName? p).map isSourceName).getD false

/-- Elements that add nothing can be left out. -/
theorem flatMap_filter_eq {α β : Type} {f : α → List β} {p : α → Bool} {l : List α}
    (h : ∀ a ∈ l, p a = false → f a = []) : (l.filter p).flatMap f = l.flatMap f := by
  induction l with
  | nil => rfl
  | cons a l ih =>
    have hrest := ih fun b hb => h b (List.mem_cons_of_mem _ hb)
    rw [List.filter_cons, List.flatMap_cons, ← hrest]
    split
    · rw [List.flatMap_cons]
    · next hp =>
      rw [h a List.mem_cons_self (by simpa using hp), List.nil_append]

section

variable {s s' : Store} (h : HasGrown s s')

include h

theorem HasGrown.isSome {l : Location} (hl : (s.get? l).isSome = true) :
    (s'.get? l).isSome = true := by
  obtain ⟨e, he⟩ := Option.isSome_iff_exists.mp hl
  cases e with
  | directory => rw [h.directories l he]; rfl
  | file c =>
    obtain ⟨c', hc', -⟩ := h.kept l c he
    rw [hc']
    rfl

theorem HasGrown.locate_eq_none {p : Path} (hp : s'.locate p = none) : s.locate p = none := by
  rw [Option.eq_none_iff_forall_ne_some]
  intro l hl
  rw [h.locate hl] at hp
  cases hp

/-- Where nothing was, nothing was found before. -/
theorem HasGrown.entry?_eq_none {p : Path} {l : Location} (hl : s'.locate p = some l)
    (hget : s.get? l = none) :
    s.entry? p = none := by
  rw [Store.entry?]
  cases hold : s.locate p with
  | none => rfl
  | some k =>
    rw [h.locate hold] at hl
    cases hl
    exact hget

theorem HasGrown.isDirectory {p : Path} (hp : s.isDirectory p = true) :
    s'.isDirectory p = true := by
  obtain ⟨l, hl, hdir⟩ := isDirectory_iff.mp hp
  exact isDirectory_iff.mpr ⟨l, h.locate hl, h.directories l hdir⟩

/-- Of the names in a directory those that were there are the names it had. -/
theorem HasGrown.filter_namesIn (l : Location) :
    ((s'.namesIn l).filter fun n => (s.get? (l ++ [n])).isSome) = s.namesIn l := by
  refine List.Perm.eq_of_pairwise (fun a b _ _ => Text.le_antisymm)
    ((pairwise_namesIn s' l).sublist List.filter_sublist) (pairwise_namesIn s l) ?_
  refine (List.perm_ext_iff_of_nodup ((nodup_namesIn s' l).filter _)
    (nodup_namesIn s l)).mpr fun n => ?_
  rw [List.mem_filter, mem_namesIn_iff, mem_namesIn_iff]
  exact and_iff_right_of_imp h.isSome

/-- Names that are new and add nothing can be left out. -/
theorem HasGrown.flatMap_namesIn_eq {α : Type} {f f' : Text → List α} {l : Location}
    (hstep : ∀ n ∈ s'.namesIn l, f' n = f n)
    (hnew : ∀ n ∈ s'.namesIn l, s.get? (l ++ [n]) = none → f n = []) :
    (s'.namesIn l).flatMap f' = (s.namesIn l).flatMap f := by
  rw [List.flatMap_congr hstep, ← h.filter_namesIn l, flatMap_filter_eq]
  intro n hn hnone
  rw [Option.isSome_eq_false_iff, Option.isNone_iff_eq_none] at hnone
  exact hnew n hn hnone

/-- What is new is no source. -/
theorem HasGrown.isSource_eq_false {p : Path} {l : Location} (hl : s'.locate p = some l)
    {c : Content} (hfile : s'.get? l = some (.file c)) (hnew : s.get? l = none) :
    isSource p = false := by
  have hno : IsNoSource l := by
    rcases h.made l c hfile with hold | hno
    · rw [hnew] at hold
      cases hold
    · exact hno
  rw [isSource, fileName?_of_locate hl (by rw [hfile]; simp)]
  cases hn : l.getLast? with
  | none => rfl
  | some n => exact hno n hn

end

/-! ### Steps that are enough -/

/-- Whether some steps lead from a place to everything below it. -/
def Reaches (s : Store) (fuel : Nat) (l : Location) : Prop :=
  ∀ k, l <+: k → (s.get? k).isSome = true → k.length < l.length + fuel

theorem reaches_depth (s : Store) (l : Location) : Reaches s (depth s) l := by
  intro k _ hk
  have hmax (lengths : List Nat) (m : Nat) :
      m ≤ lengths.foldl max m ∧ ∀ n ∈ lengths, n ≤ lengths.foldl max m := by
    induction lengths generalizing m with
    | nil => simp
    | cons n lengths ih =>
      obtain ⟨hm, hall⟩ := ih (max m n)
      rw [List.foldl_cons, List.forall_mem_cons]
      exact ⟨by omega, by omega, hall⟩
  suffices k.length < depth s by omega
  rw [depth, Nat.lt_succ_iff]
  by_cases hnil : k = []
  · rw [hnil]
    exact Nat.zero_le _
  · rw [Store.get?_of_ne_nil s hnil] at hk
    obtain ⟨e, he⟩ := Option.isSome_iff_exists.mp hk
    exact (hmax _ 0).2 _ (List.mem_map.mpr ⟨_, mem_of_lookup he, rfl⟩)

/-- From a place where something is stored a step leads into it. -/
theorem Reaches.exists_succ {s : Store} {fuel : Nat} {l : Location} (h : Reaches s fuel l)
    (hl : (s.get? l).isSome = true) : ∃ rest, fuel = rest + 1 ∧ ∀ n, Reaches s rest (l ++ [n]) := by
  have hpos := h l (List.prefix_refl l) hl
  refine ⟨fuel - 1, by omega, fun n k hk hsome => ?_⟩
  have := h k ((List.prefix_append l [n]).trans hk) hsome
  rw [List.length_append, List.length_singleton]
  omega

/-! ### Walking -/

section

variable {s : Store} {excluded : Path → Bool} {fuel : Nat} {p : Path} {l : Location}

theorem walk_of_entry?_eq_none (h : s.entry? p = none) : walk s excluded fuel p = [] := by
  cases fuel with
  | zero => rfl
  | succ fuel =>
    have hdir : s.isDirectory p = false := by rw [Store.isDirectory, h]; rfl
    have hfile : s.isFile p = false := by rw [Store.isFile, h]
    rw [walk, Store.names?, hdir, if_neg Bool.false_ne_true, hfile]
    simp

theorem walk_of_directory (hl : s.locate p = some l) (hdir : s.get? l = some .directory) :
    walk s excluded (fuel + 1) p =
      if excluded p then [] else (s.namesIn l).flatMap fun n =>
        walk s excluded fuel (join p n) := by
  rw [walk, names?_eq hl hdir]

theorem walk_of_file (hl : s.locate p = some l) {c : Content} (hfile : s.get? l = some (.file c)) :
    walk s excluded (fuel + 1) p = if excluded p then [] else [p] := by
  have hentry : s.entry? p = some (.file c) := by rw [Store.entry?, hl, Option.bind_some, hfile]
  have hdir : s.isDirectory p = false := by rw [Store.isDirectory, hentry]; rfl
  have hisfile : s.isFile p = true := by rw [Store.isFile, hentry]
  rw [walk, Store.names?, hdir, if_neg Bool.false_ne_true, hisfile]
  rfl

end

/-- Below what is new there are no sources. -/
theorem filter_walk_eq_nil {s s' : Store} (h : HasGrown s s') {excluded : Path → Bool} {fuel : Nat}
    {p : Path} {l : Location} (hl : s'.locate p = some l) (hnew : s.get? l = none) :
    (walk s' excluded fuel p).filter isSource = [] := by
  induction fuel generalizing p l with
  | zero => rfl
  | succ fuel ih =>
    cases hget : s'.get? l with
    | none => rw [walk_of_entry?_eq_none (by rw [Store.entry?, hl, Option.bind_some, hget])]; rfl
    | some e =>
      cases e with
      | file c =>
        rw [walk_of_file hl hget]
        split
        · rfl
        · rw [List.filter_cons, h.isSource_eq_false hl hget hnew]
          rfl
      | directory =>
        rw [walk_of_directory hl hget]
        split
        · rfl
        · rw [List.filter_flatMap, List.flatMap_eq_nil_iff]
          intro n hn
          have hname := isEntryName_of_mem_namesIn hn
          cases hjoin : s'.locate (join p n) with
          | none => rw [walk_of_entry?_eq_none (by rw [Store.entry?, hjoin]; rfl)]; rfl
          | some k =>
            obtain rfl := eq_of_locate_join hl hname hjoin
            refine ih hjoin ?_
            cases hsome : s.get? (l ++ [n]) with
            | none => rfl
            | some e =>
              have := Store.get?_dropLast hsome
              rw [List.dropLast_concat, hnew] at this
              cases this

/-- **The same sources are found below a path**, unless it leads back to another place than
before. -/
theorem filter_walk_eq {s s' : Store} (h : HasGrown s s') {excluded : Path → Bool}
    {fuel fuel' : Nat} {p : Path} {l : Location} (hl : s'.locate p = some l)
    (hback : ∀ e, s.get? l = some e → s.locate p = some l) (hf : Reaches s fuel l)
    (hf' : Reaches s' fuel' l) :
    (walk s' excluded fuel' p).filter isSource = (walk s excluded fuel p).filter isSource := by
  induction fuel' generalizing fuel p l with
  | zero =>
    cases hget : s.get? l with
    | none => rw [walk_of_entry?_eq_none (s := s) (h.entry?_eq_none hl hget)]; rfl
    | some e =>
      obtain ⟨rest, hrest, -⟩ := hf'.exists_succ (h.isSome (by rw [hget]; rfl))
      cases hrest
  | succ fuel' ih =>
    cases hget : s.get? l with
    | none =>
      rw [filter_walk_eq_nil h hl hget, walk_of_entry?_eq_none (h.entry?_eq_none hl hget)]; rfl
    | some e =>
      have hsome : (s.get? l).isSome = true := by rw [hget]; rfl
      have hold := hback e hget
      obtain ⟨fuel, rfl, hnext⟩ := hf.exists_succ hsome
      obtain ⟨_, heq, hnext'⟩ := hf'.exists_succ (h.isSome hsome)
      obtain rfl := Nat.succ.inj heq
      cases e with
      | file c =>
        obtain ⟨c', hc', -⟩ := h.kept l c hget
        rw [walk_of_file hl hc', walk_of_file hold hget]
      | directory =>
        rw [walk_of_directory hl (h.directories l hget), walk_of_directory hold hget]
        split
        · rfl
        · rw [List.filter_flatMap, List.filter_flatMap]
          refine h.flatMap_namesIn_eq (fun n hn => ?_) fun n hn hnone => ?_
          · have hname := isEntryName_of_mem_namesIn hn
            cases hjoin : s'.locate (join p n) with
            | none =>
              rw [walk_of_entry?_eq_none (by rw [Store.entry?, hjoin]; rfl),
                walk_of_entry?_eq_none (by rw [Store.entry?, h.locate_eq_none hjoin]; rfl)]
            | some k =>
              obtain rfl := eq_of_locate_join hl hname hjoin
              have hpath := ((locate_join_iff hname).mp hjoin).1
              exact ih hjoin (fun e _ => (locate_join_iff hname).mpr ⟨hpath, l, hold, hget,
                rfl⟩) (hnext n)
                (hnext' n)
          · have hname := isEntryName_of_mem_namesIn hn
            rw [walk_of_entry?_eq_none (entry?_join_eq_none hold hname hnone)]
            rfl

/-! ### What patterns stand for -/

section

variable {s s' : Store} (h : HasGrown s s')

include h

theorem HasGrown.isThere {p : Path} {piece : Text} (hthere : isThere s p piece = true) :
    isThere s' p piece = true := by
  unfold Discovery.isThere at hthere ⊢
  split at hthere
  · next hpoint =>
    rw [if_pos hpoint]
    exact h.isDirectory hthere
  · next hpoint =>
    rw [if_neg hpoint]
    obtain ⟨e, he⟩ := Option.isSome_iff_exists.mp hthere
    obtain ⟨l, hl, hget⟩ := Option.bind_eq_some_iff.mp he
    rw [Store.contains, Store.entry?, h.locate hl, Option.bind_some]
    exact h.isSome (by rw [hget]; rfl)

/-- Of what is below a directory the directories that were there are those it had. -/
theorem filter_below_eq {fuel fuel' : Nat} {p : Path} {l : Location} (hl : s.locate p = some l)
    (hdir : s.get? l = some .directory) (hf : Reaches s fuel l) (hf' : Reaches s' fuel' l) :
    (below s' fuel' p).filter s.isDirectory = (below s fuel p).filter s.isDirectory := by
  have hsome : (s.get? l).isSome = true := by rw [hdir]; rfl
  induction fuel' generalizing fuel p l with
  | zero =>
    obtain ⟨rest, hrest, -⟩ := hf'.exists_succ (h.isSome hsome)
    cases hrest
  | succ fuel' ih =>
    obtain ⟨fuel, rfl, hnext⟩ := hf.exists_succ hsome
    obtain ⟨_, heq, hnext'⟩ := hf'.exists_succ (h.isSome hsome)
    obtain rfl := Nat.succ.inj heq
    rw [below, below, names?_eq (h.locate hl) (h.directories l hdir),
      names?_eq hl hdir, Option.getD_some, Option.getD_some, List.filter_flatMap,
      List.filter_flatMap]
    refine h.flatMap_namesIn_eq (fun n hn => ?_) fun n hn hnone => ?_
    · by_cases hchild : s.isDirectory (join p n) = true
      · obtain ⟨k, hk, hget⟩ := isDirectory_iff.mp hchild
        obtain rfl := eq_of_locate_join hl (isEntryName_of_mem_namesIn hn) hk
        rw [List.filter_cons, List.filter_cons, if_pos hchild, if_pos hchild,
          ih hk hget (hnext n) (hnext' n) (by rw [hget]; rfl)]
      · rw [filter_below_eq_nil hchild, filter_below_eq_nil hchild]
    · exact filter_below_eq_nil
        (not_isDirectory_join hl (isEntryName_of_mem_namesIn hn) hnone)

theorem HasGrown.filter_below_eq {p : Path} (hdir : s.isDirectory p = true) :
    (below s' (depth s') p).filter s.isDirectory = (below s (depth s) p).filter s.isDirectory := by
  obtain ⟨l, hl, hget⟩ := isDirectory_iff.mp hdir
  exact Discovery.filter_below_eq h hl hget (reaches_depth s l) (reaches_depth s' l)

omit h in
/-- Outside of the directories that were there, a pattern stands for none of them. -/
theorem filter_expandFrom_eq_nil {s₁ : Store} {patterns : List Pattern}
    (hp : ∀ q ∈ patterns, .char '/' ∉ q) {p : Path} (hnot : ¬ s.isDirectory p = true) :
    (expandFrom s₁ patterns p).filter s.isDirectory = [] :=
  List.filter_eq_nil_iff.mpr fun _ hq hdir => hnot (isDirectory_of_mem_expandFrom hp hq hdir)

omit h in
theorem filter_expandNamed_eq_nil {s₁ : Store} (next : Pattern) {patterns : List Pattern}
    (hp : ∀ q ∈ patterns, .char '/' ∉ q) {child : Path} (hnot : ¬ s.isDirectory child = true) :
    (expandNamed s₁ next patterns child).filter s.isDirectory = [] := by
  unfold expandNamed
  split
  · split
    · exact filter_expandFrom_eq_nil hp hnot
    · rfl
  · rfl

/-- **A pattern stands for the same of the directories that were there.** -/
theorem filter_expandFrom_eq {patterns : List Pattern} (hp : ∀ q ∈ patterns, .char '/' ∉ q)
    (p : Path) :
    (expandFrom s' patterns p).filter s.isDirectory =
      (expandFrom s patterns p).filter s.isDirectory := by
  have hall {patterns : List Pattern} (hp : ∀ q ∈ patterns, .char '/' ∉ q) {p : Path}
      (hdir : s.isDirectory p = true →
        (expandFrom s' patterns p).filter s.isDirectory =
          (expandFrom s patterns p).filter s.isDirectory) :
      (expandFrom s' patterns p).filter s.isDirectory =
        (expandFrom s patterns p).filter s.isDirectory := by
    by_cases h' : s.isDirectory p = true
    · exact hdir h'
    · rw [filter_expandFrom_eq_nil hp h', filter_expandFrom_eq_nil hp h']
  have hrest {first : Pattern} {rest : List Pattern} (hp : ∀ q ∈ first :: rest, .char '/' ∉ q) :
      ∀ q ∈ rest, .char '/' ∉ q := fun q hq => hp q (List.mem_cons_of_mem _ hq)
  induction patterns, p using expandFrom.induct s' with
  | case1 p => rfl
  | case2 pattern p hrec =>
    refine hall hp fun hdir => ?_
    rw [expandFrom_recursive hrec, expandFrom_recursive hrec, h.filter_below_eq hdir]
  | case3 pattern p hrec next more ih =>
    refine hall hp fun hdir => ?_
    have hmore := hrest (hrest hp)
    have hstep : ∀ child, (expandNamed s' next more child).filter s.isDirectory =
        (expandNamed s next more child).filter s.isDirectory := by
      intro child
      unfold expandNamed
      split
      · split
        · exact ih child hmore
        · rfl
      · rfl
    have hnew : ∀ child, s.isDirectory child = false →
        (expandNamed s next more child).filter s.isDirectory = [] := fun child hnot =>
      filter_expandNamed_eq_nil next hmore (by rw [hnot]; exact Bool.false_ne_true)
    rw [expandFrom_recursive_cons hrec, expandFrom_recursive_cons hrec, List.filter_flatMap,
      List.filter_flatMap, List.flatMap_congr fun child _ => hstep child,
      ← flatMap_filter_eq fun child _ => hnew child, h.filter_below_eq hdir,
      flatMap_filter_eq fun child _ => hnew child]
  | case4 pattern rest p hrec piece hliteral next there hthere ih =>
    refine hall hp fun hdir => ?_
    have hthere : isThere s' p piece = true := hthere
    have hnext : (expandFrom s' rest (join p piece)).filter s.isDirectory =
        (expandFrom s rest (join p piece)).filter s.isDirectory := ih (hrest hp)
    rw [expandFrom_literal hrec hliteral, expandFrom_literal hrec hliteral, if_pos hthere, hnext]
    split
    · rfl
    · next hnot =>
        exact filter_expandFrom_eq_nil (hrest hp) fun hnext =>
          hnot (isThere_of_isDirectory hdir hnext)
  | case5 pattern rest p hrec piece hliteral next there hthere =>
    refine hall hp fun hdir => ?_
    have hthere : ¬ isThere s' p piece = true := hthere
    rw [expandFrom_literal hrec hliteral, expandFrom_literal hrec hliteral, if_neg hthere,
      if_neg fun hold => hthere (h.isThere hold)]
  | case6 pattern rest p hrec hliteral ih =>
    refine hall hp fun hdir => ?_
    obtain ⟨l, hl, hget⟩ := isDirectory_iff.mp hdir
    have hnew : ∀ n ∈ (s'.namesIn l).filter (Pattern.isMatch pattern),
        (s.get? (l ++ [n])).isSome = false →
        (expandFrom s rest (join p n)).filter s.isDirectory = [] := by
      intro n hn hnone
      have hname := isEntryName_of_mem_namesIn (List.mem_filter.mp hn).1
      rw [Option.isSome_eq_false_iff, Option.isNone_iff_eq_none] at hnone
      exact filter_expandFrom_eq_nil (hrest hp) (not_isDirectory_join hl hname hnone)
    rw [expandFrom_names hrec hliteral, expandFrom_names hrec hliteral, List.filter_flatMap,
      List.filter_flatMap, List.flatMap_congr fun n _ => ih n (hrest hp), matchingNames_eq,
      matchingNames_eq, names?_eq (h.locate hl) (h.directories l hget),
      names?_eq hl hget]
    dsimp only
    rw [List.filter_append, List.filter_append, List.flatMap_append, List.flatMap_append,
      ← flatMap_filter_eq hnew, List.filter_filter, ← h.filter_namesIn l, List.filter_filter]
    simp only [Bool.and_comm]

/-! ### Roots and their sources -/

/-- **A root stands for the same of the directories that were there**, and it stands for the same
directories if it is no pattern. -/
theorem exists_rootsOf {base : Path} {root : Text} {dirs : List Path}
    (hd : rootsOf s base root = .ok dirs) :
    ∃ dirs', rootsOf s' base root = .ok dirs' ∧ dirs'.filter s.isDirectory = dirs ∧
      (∀ p ∈ dirs', s'.isDirectory p = true) ∧
        (¬ Pattern.isPattern root = true → dirs' = dirs) := by
  unfold rootsOf at hd ⊢
  dsimp only at hd ⊢
  split at hd
  · next hpattern =>
    rw [if_pos hpattern]
    split at hd
    · next old hold =>
      cases hd
      obtain ⟨patterns, hp, hexpand⟩ := exists_patterns hold
      rw [hexpand] at hold ⊢
      cases hold
      refine ⟨_, rfl, ?_, fun p hp => (List.mem_filter.mp hp).2, fun hplain =>
        absurd hpattern hplain⟩
      -- A directory that was there is one now.
      have hboth : (fun p => s.isDirectory p && s'.isDirectory p) = s.isDirectory := by
        funext p
        rw [Bool.and_eq_left_iff_imp]
        exact h.isDirectory
      rw [List.filter_filter, hboth, filter_expandFrom_eq h hp]
    · cases hd
  · next hplain =>
    rw [if_neg hplain]
    split at hd
    · next hdir =>
      cases hd
      have hdir' := h.isDirectory hdir
      rw [if_pos hdir']
      refine ⟨_, rfl, by rw [List.filter_cons, if_pos hdir, List.filter_nil], fun p hp => ?_,
        fun _ => rfl⟩
      rw [List.mem_singleton.mp hp]
      exact hdir'
    · cases hd

/-- The same sources are found below a directory that does not lead back to another place. -/
theorem filter_walk_root_eq {excluded : Path → Bool} {p : Path} (hdir : s'.isDirectory p = true)
    (hback : Store.LeadsBack s s' p) :
    (walk s' excluded (depth s') p).filter isSource =
      (walk s excluded (depth s) p).filter isSource := by
  obtain ⟨l, hl, hget⟩ := isDirectory_iff.mp hdir
  refine filter_walk_eq h hl (fun e he => ?_) (reaches_depth s l) (reaches_depth s' l)
  cases e with
  | directory => exact hback l hl he
  | file c =>
    obtain ⟨c', hc', -⟩ := h.kept l c he
    rw [hget] at hc'
    cases hc'

/-- Where only now a directory is, nothing was found before. -/
theorem walk_eq_nil_of_isDirectory {excluded : Path → Bool} {fuel : Nat} {p : Path}
    (hdir : s'.isDirectory p = true) (hnot : s.isDirectory p = false) :
    walk s excluded fuel p = [] := by
  obtain ⟨l, hl, hget⟩ := isDirectory_iff.mp hdir
  refine walk_of_entry?_eq_none ?_
  rw [Option.eq_none_iff_forall_ne_some]
  intro e he
  obtain ⟨k, hk, hold⟩ := Option.bind_eq_some_iff.mp he
  have hsame := h.locate hk
  rw [hl] at hsame
  cases hsame
  cases e with
  | directory =>
    rw [isDirectory_iff.mpr ⟨l, hk, hold⟩] at hnot
    cases hnot
  | file c =>
    obtain ⟨c', hc', -⟩ := h.kept l c hold
    rw [hget] at hc'
    cases hc'

/-- The same sources are found below all roots. -/
theorem exists_mapM_rootsOf {excluded : Path → Bool} {base : Path} {roots : List Text}
    {dirs : List (List Path)}
    (hback : ∀ root ∈ roots, Pattern.isPattern root = true →
      ∀ dirs, rootsOf s' base root = .ok dirs → ∀ p ∈ dirs, Store.LeadsBack s s' p)
    (hdirs : roots.mapM (rootsOf s base) = .ok dirs) :
    ∃ dirs', roots.mapM (rootsOf s' base) = .ok dirs' ∧
      (dirs'.flatten.flatMap (walk s' excluded (depth s'))).filter isSource =
        (dirs.flatten.flatMap (walk s excluded (depth s))).filter isSource := by
  rw [mapM_eq_ok_iff] at hdirs
  induction hdirs with
  | nil => exact ⟨[], rfl, rfl⟩
  | @cons root own roots dirs hown _ ih =>
    obtain ⟨rest, hrest, hfiles⟩ := ih fun r hr => hback r (List.mem_cons_of_mem _ hr)
    obtain ⟨own', hown', hfilter, hdir, hplain⟩ := exists_rootsOf h hown
    have hleads : ∀ p ∈ own', Store.LeadsBack s s' p := by
      intro p hp
      by_cases hpattern : Pattern.isPattern root = true
      · exact hback root List.mem_cons_self hpattern own' hown' p hp
      · have hp' : p ∈ own'.filter s.isDirectory := by
          rw [hfilter, ← hplain hpattern]
          exact hp
        exact h.leadsBack (List.mem_filter.mp hp').2
    have hsame : (own'.flatMap (walk s' excluded (depth s'))).filter isSource =
        (own.flatMap (walk s excluded (depth s))).filter isSource := by
      have hnew : ∀ p ∈ own', s.isDirectory p = false →
          (walk s excluded (depth s) p).filter isSource = [] := by
        intro p hp hnot
        rw [walk_eq_nil_of_isDirectory h (hdir p hp) hnot]
        rfl
      rw [List.filter_flatMap, List.filter_flatMap, ← hfilter, flatMap_filter_eq hnew]
      exact List.flatMap_congr fun p hp => filter_walk_root_eq h (hdir p hp) (hleads p hp)
    refine ⟨own' :: rest, mapM_eq_ok_iff.mpr (.cons hown' (mapM_eq_ok_iff.mp hrest)), ?_⟩
    rw [List.flatten_cons, List.flatten_cons, List.flatMap_append, List.flatMap_append,
      List.filter_append, List.filter_append, hfiles, hsame]

/-- **The same sources are found in a store that has grown**, unless a directory that a pattern
stands for leads back to where others were. -/
theorem sources_eq {base : Path} {roots excluded : List Text} {found : List Path}
    (hback : ∀ root ∈ roots, Pattern.isPattern root = true →
      ∀ dirs, rootsOf s' base root = .ok dirs → ∀ p ∈ dirs, Store.LeadsBack s s' p)
    (hfound : sources s base roots excluded = .ok found) :
    sources s' base roots excluded = .ok found := by
  unfold sources at hfound ⊢
  obtain ⟨x, hx, hfound⟩ := Except.bind_eq_ok_iff.mp hfound
  obtain ⟨dirs, hdirs, hfound⟩ := Except.bind_eq_ok_iff.mp hfound
  obtain ⟨dirs', hdirs', hsame⟩ := exists_mapM_rootsOf h hback hdirs
  rw [hx, hdirs', ← hfound]
  exact congrArg (fun files => Except.ok (Path.sortDistinct files)) hsame

/-- A source that was found holds the same text. -/
theorem readText?_eq {p : Path} (hp : isSource p = true) {t : Text} (ht : s.readText? p = some t) :
    s'.readText? p = some t := by
  obtain ⟨l, hl, hget⟩ := readText?_eq_some_iff.mp ht
  have hl' := h.locate hl
  obtain ⟨c, hc, hor⟩ := h.kept l _ hget
  rcases hor with rfl | hno
  · rw [Store.readText?, Store.entry?, hl', Option.bind_some, hc]
  · rw [isSource, fileName?_of_locate hl (by rw [hget]; simp)] at hp
    cases hn : l.getLast? with
    | none =>
      rw [hn] at hp
      cases hp
    | some n =>
      rw [hn, Option.map_some, Option.getD_some, hno n hn] at hp
      cases hp

end

/-- What is found has the name of a source. -/
theorem isSource_of_mem_sources {s : Store} {base : Path} {roots excluded : List Text}
    {found : List Path} (h : sources s base roots excluded = .ok found) :
    ∀ p ∈ found, isSource p = true := by
  unfold sources at h
  obtain ⟨x, -, h⟩ := Except.bind_eq_ok_iff.mp h
  obtain ⟨dirs, -, h⟩ := Except.bind_eq_ok_iff.mp h
  cases h
  intro p hp
  exact (List.mem_filter.mp (Path.mem_of_mem_sortDistinct hp)).2

end Localization.Discovery
