import Mathlib
import Localization.Proofs.Files.Along
import Localization.Proofs.Files.Discovery

/-! Exactly the sources.

A walk leads from a root down along names until it meets what is excluded, so it finds the files
that the root leads to (`mem_walk_iff`). The sources of some roots are the sources that one of
them leads to, in path order and each once (`sources_spec`): which roots these are is all that
matters, not their order, how often they stand in the list, or whether one of them leads to
another. -/
namespace Localization.Discovery

open Localization.Path (Component IsBefore IsEntryName component? components join pieces)
open Store (isEntryName_of_mem_namesIn isFile_iff locate_iff locate_join_iff mem_namesIn_iff)

/-! ### Exclusions -/

/-- A path with its backslashes as slashes. -/
def withSlashes (p : Path) : Path := p.map fun c => if c == '\\' then '/' else c

/-- Whether a path is excluded: it starts with a path of the list, or a pattern of the list
stands for the path or for its way from the base directory, spelled like `spelled` says. -/
def IsExcluded (spelled : Path → Path) (base : Path) (excluded : List Text) (p : Path) : Prop :=
  (∃ text ∈ excluded, Pattern.isPattern text = false ∧ Path.startsWith p (join base text) = true) ∨
    ∃ text ∈ excluded, Pattern.isPattern text = true ∧ ∃ pattern ∈ Pattern.ofText? text,
      Pattern.accepts pattern p = true ∨ ∃ way ∈ Path.relativeTo? p base,
      Pattern.accepts pattern (spelled way) = true

instance (spelled : Path → Path) (base : Path) (excluded : List Text) (p : Path) :
    Decidable (IsExcluded spelled base excluded p) :=
  inferInstanceAs (Decidable (_ ∨ _))

/-- Whether every pattern of a list of exclusions is well-formed. -/
def AreExclusions (excluded : List Text) : Prop :=
  ∀ text ∈ excluded, Pattern.isPattern text = true → (Pattern.ofText? text).isSome = true

instance (excluded : List Text) : Decidable (AreExclusions excluded) :=
  inferInstanceAs (Decidable (∀ text ∈ excluded, _))

theorem mapM_eq_ok_filterMap {α β : Type} {f : α → Except Error β} (g : α → Option β) {l : List α}
    (h : ∀ a ∈ l, ∃ b, g a = some b ∧ f a = .ok b) : l.mapM f = .ok (l.filterMap g) := by
  induction l with
  | nil => rfl
  | cons a l ih =>
    obtain ⟨b, hg, hf⟩ := h a List.mem_cons_self
    rw [List.mapM_cons, hf, ih fun c hc => h c (List.mem_cons_of_mem _ hc),
      List.filterMap_cons_some hg]
    rfl

theorem covers_iff (x : Exclusions) (p : Path) :
    x.covers p = true ↔ (∃ q ∈ x.paths, Path.startsWith p q = true) ∨ ∃ pattern ∈ x.patterns,
      Pattern.accepts pattern p = true ∨ ∃ way ∈ Path.relativeTo? p x.base,
        Pattern.accepts pattern (withSlashes way) = true := by
  simp only [Exclusions.covers, Bool.or_eq_true, List.any_eq_true, Pattern.isMatch_eq_accepts]
  cases Path.relativeTo? p x.base <;> simp [withSlashes]

/-- What well-formed exclusions cover is what they exclude. -/
theorem exists_ofTexts (base : Path) {excluded : List Text} (h : AreExclusions excluded) :
    ∃ x, Exclusions.ofTexts base excluded = .ok x ∧ ∀ p, x.covers p = true ↔
      IsExcluded withSlashes base excluded p := by
  refine ⟨⟨base, (excluded.filter fun t => !Pattern.isPattern t).map (join base),
    (excluded.filter Pattern.isPattern).filterMap Pattern.ofText?⟩, ?_, fun p => ?_⟩
  · rw [Exclusions.ofTexts, mapM_eq_ok_filterMap Pattern.ofText? fun text ht => ?_]
    · rfl
    · obtain ⟨pattern, hp⟩ :=
        Option.isSome_iff_exists.mp (h text (List.mem_filter.mp ht).1 (List.mem_filter.mp ht).2)
      exact ⟨pattern, hp, by rw [hp]⟩
  · rw [covers_iff]
    refine or_congr ?_ ?_
    · simp [and_assoc]
    · simp only [List.mem_filterMap, List.mem_filter]
      constructor
      · rintro ⟨pattern, ⟨text, ⟨htext, hp⟩, hpattern⟩, hmatch⟩
        exact ⟨text, htext, hp, pattern, hpattern, hmatch⟩
      · rintro ⟨text, htext, hp, pattern, hpattern, hmatch⟩
        exact ⟨pattern, ⟨text, ⟨htext, hp⟩, hpattern⟩, hmatch⟩

/-! ### Ways down -/

/-- The path that some names lead to. -/
def along (p : Path) (names : List Text) : Path := names.foldl join p

theorem along_cons (p : Path) (n : Text) (names : List Text) :
    along p (n :: names) = along (join p n) names := rfl

theorem along_append (p : Path) (a b : List Text) : along p (a ++ b) = along (along p a) b :=
  List.foldl_append

theorem components_along {names : List Text} (h : ∀ n ∈ names, IsEntryName n) (p : Path) :
    components (along p names) = components p ++ names.map .name := by
  induction names generalizing p with
  | nil => simp [along]
  | cons n names ih =>
    rw [along_cons, ih (fun m hm => h m (List.mem_cons_of_mem _ hm)),
      Path.components_join (h n List.mem_cons_self)]
    simp

/-- Whether a root leads to a path: some names do, and nothing on their way is excluded. -/
def Leads (isExcluded : Path → Prop) (root p : Path) : Prop :=
  ∃ names, (∀ n ∈ names, IsEntryName n) ∧ p = along root names ∧ ∀ way, way <+: names →
    ¬ isExcluded (along root way)

/-- A root leads to itself and to what a name in it leads to. -/
theorem leads_iff {isExcluded : Path → Prop} {root p : Path} :
    Leads isExcluded root p ↔
      ¬ isExcluded root ∧ (p = root ∨ ∃ n, IsEntryName n ∧ Leads isExcluded (join root n) p) := by
  constructor
  · rintro ⟨names, hnames, rfl, hway⟩
    refine ⟨hway [] List.nil_prefix, ?_⟩
    cases names with
    | nil => exact .inl rfl
    | cons n names =>
      refine .inr ⟨n, hnames n List.mem_cons_self, names,
        fun m hm => hnames m (List.mem_cons_of_mem _ hm), rfl, fun way h => ?_⟩
      exact hway (n :: way) (List.cons_prefix_cons.mpr ⟨rfl, h⟩)
  · rintro ⟨hroot, rfl | ⟨n, hn, names, hnames, rfl, hway⟩⟩
    · refine ⟨[], fun n hn => absurd hn List.not_mem_nil, rfl, fun way h => ?_⟩
      rwa [List.prefix_nil.mp h]
    · refine ⟨n :: names, List.forall_mem_cons.mpr ⟨hn, hnames⟩, rfl, fun way h => ?_⟩
      rcases List.prefix_cons_iff.mp h with rfl | ⟨rest, rfl, hrest⟩
      · exact hroot
      · exact hway rest hrest

theorem Leads.trans {isExcluded : Path → Prop} {a b c : Path} (hab : Leads isExcluded a b)
    (hbc : Leads isExcluded b c) :
    Leads isExcluded a c := by
  obtain ⟨names, hnames, rfl, hway⟩ := hab
  obtain ⟨more, hmore, rfl, hway'⟩ := hbc
  refine ⟨names ++ more, ?_, (along_append a names more).symm, fun way hprefix => ?_⟩
  · rintro n hn
    exact (List.mem_append.mp hn).elim (hnames n) (hmore n)
  · rcases List.prefix_or_prefix_of_prefix hprefix (List.prefix_append names more) with hshort
      | ⟨rest, rfl⟩
    · exact hway way hshort
    · rw [along_append]
      exact hway' rest ((List.prefix_append_right_inj names).mp hprefix)

/-- Whether a path is that of a source: a file with one of the extensions of sources, and no
test. -/
structure IsSourceFile (s : Store) (p : Path) : Prop where
  isFile : s.isFile p = true
  named : ∃ name, Path.fileName? p = some name ∧
    (∃ extension ∈ Path.extensionOf? name, extension ∈ sourceExtensions) ∧
    ∀ part ∈ Text.splitOn "." name, part ∉ testParts

theorem isSource_iff {p : Path} :
    isSource p = true ↔ ∃ name, Path.fileName? p = some name ∧
      (∃ extension ∈ Path.extensionOf? name, extension ∈ sourceExtensions) ∧
        ∀ part ∈ Text.splitOn "." name, part ∉ testParts := by
  unfold isSource
  cases Path.fileName? p with
  | none => simp
  | some name =>
    simp only [Option.map_some, Option.getD_some, isSourceName, Option.some.injEq, exists_eq_left']
    cases Path.extensionOf? name <;> simp

/-! ### The walk -/

theorem isDirectory_of_isSome_entry? {s : Store} {p : Path} {n : Text} (hn : IsEntryName n)
    (h : (s.entry? (join p n)).isSome = true) :
    ∃ l, s.locate p = some l ∧ s.get? l = some .directory ∧ s.locate (join p n) = some (l ++ [n]) ∧
      n ∈ s.namesIn l := by
  obtain ⟨e, he⟩ := Option.isSome_iff_exists.mp h
  obtain ⟨k, hk, hget⟩ := Option.bind_eq_some_iff.mp he
  obtain ⟨-, l, hl, hdir, rfl⟩ := (locate_join_iff hn).mp hk
  exact ⟨l, hl, hdir, hk, mem_namesIn_iff.mpr (by rw [hget]; rfl)⟩

/-- What leads to something is something. -/
theorem Leads.isSome_entry? {s : Store} {isExcluded : Path → Prop} {root p : Path}
    (h : Leads isExcluded root p) (hp : (s.entry? p).isSome = true) :
    (s.entry? root).isSome = true := by
  obtain ⟨names, hnames, rfl, -⟩ := h
  induction names generalizing root with
  | nil => exact hp
  | cons n names ih =>
    obtain ⟨l, hl, hdir, -⟩ := isDirectory_of_isSome_entry? (hnames n List.mem_cons_self)
      (ih (fun m hm => hnames m (List.mem_cons_of_mem _ hm)) hp)
    rw [Store.entry?, hl, Option.bind_some, hdir]
    rfl

/-- What leads to a file is there. -/
theorem Leads.isSome_of_isFile {s : Store} {isExcluded : Path → Prop} {root p : Path}
    (h : Leads isExcluded root p) (hfile : s.isFile p = true) : (s.entry? root).isSome = true := by
  obtain ⟨c, hc⟩ := isFile_iff.mp hfile
  exact h.isSome_entry? (by rw [hc]; rfl)

section

variable {s : Store} {isExcluded : Path → Bool} {root p : Path} {l : Location}
    (hl : s.locate root = some l)

include hl

/-- Nothing is below a file. -/
theorem mem_walk_of_file {c : Content} (hget : s.get? l = some (.file c)) (fuel : Nat) :
    p ∈ walk s isExcluded (fuel + 1) root ↔
      s.isFile p = true ∧ Leads (isExcluded · = true) root p := by
  have hroot : s.isFile root = true :=
    isFile_iff.mpr ⟨c, by rw [Store.entry?, hl, Option.bind_some, hget]⟩
  have hnot : ¬ ∃ n, IsEntryName n ∧ s.isFile p = true ∧
      Leads (isExcluded · = true) (join root n) p := by
    rintro ⟨n, hn, hfile, hleads⟩
    obtain ⟨k, hk, hdir, -⟩ := isDirectory_of_isSome_entry? hn (hleads.isSome_of_isFile hfile)
    rw [hl] at hk
    cases hk
    rw [hget] at hdir
    cases hdir
  rw [walk_of_file hl hget, leads_iff]
  split
  · next hexcluded => simp [hexcluded]
  · next hexcluded =>
    rw [List.mem_singleton]
    constructor
    · rintro rfl
      exact ⟨hroot, hexcluded, .inl rfl⟩
    · rintro ⟨hfile, -, he | ⟨n, hn, hleads⟩⟩
      · exact he
      · exact absurd ⟨n, hn, hfile, hleads⟩ hnot

/-- The walk below a directory goes on with each of its names. -/
theorem mem_walk_of_directory (hget : s.get? l = some .directory) {fuel : Nat}
    (hwalk : ∀ n, s.locate (join root n) = some (l ++ [n]) →
      (p ∈ walk s isExcluded fuel (join root n) ↔
        s.isFile p = true ∧ Leads (isExcluded · = true) (join root n) p)) :
    p ∈ walk s isExcluded (fuel + 1) root ↔
      s.isFile p = true ∧ Leads (isExcluded · = true) root p := by
  have hroot : ¬ s.isFile root = true := by
    rw [isFile_iff, Store.entry?, hl, Option.bind_some, hget]
    rintro ⟨c, hc⟩
    cases hc
  rw [walk_of_directory hl hget, leads_iff]
  split
  · next hexcluded => simp [hexcluded]
  · next hexcluded =>
    rw [List.mem_flatMap]
    constructor
    · rintro ⟨n, hn, hmem⟩
      have hname := isEntryName_of_mem_namesIn hn
      cases hjoin : s.locate (join root n) with
      | none =>
        rw [walk_of_entry?_eq_none (by rw [Store.entry?, hjoin]; rfl)] at hmem
        exact absurd hmem List.not_mem_nil
      | some k =>
        obtain rfl := Store.eq_of_locate_join hl hname hjoin
        obtain ⟨hfile, hleads⟩ := (hwalk n hjoin).mp hmem
        exact ⟨hfile, hexcluded, .inr ⟨n, hname, hleads⟩⟩
    · rintro ⟨hfile, -, rfl | ⟨n, hn, hleads⟩⟩
      · exact absurd hfile hroot
      · obtain ⟨k, hk, -, hjoin, hmem⟩ :=
          isDirectory_of_isSome_entry? hn (hleads.isSome_of_isFile hfile)
        rw [hl] at hk
        cases hk
        exact ⟨n, hmem, (hwalk n hjoin).mpr ⟨hfile, hleads⟩⟩

end

/-- **The walk finds the files that a path leads to.** -/
theorem mem_walk_iff {s : Store} {isExcluded : Path → Bool} {fuel : Nat}
    {root : Path} {l : Location} (hl : s.locate root = some l) (hfuel : Reaches s fuel l)
    {p : Path} :
    p ∈ walk s isExcluded fuel root ↔ s.isFile p = true ∧ Leads (isExcluded · = true) root p := by
  have hentry : s.entry? root = s.get? l := by rw [Store.entry?, hl, Option.bind_some]
  induction fuel generalizing root l with
  | zero =>
    refine ⟨fun h => absurd h List.not_mem_nil, fun h => ?_⟩
    obtain ⟨rest, hrest, -⟩ := hfuel.exists_succ (hentry ▸ h.2.isSome_of_isFile h.1)
    cases hrest
  | succ fuel ih =>
    cases hget : s.get? l with
    | none =>
      rw [walk_of_entry?_eq_none (hentry.trans hget)]
      refine ⟨fun h => absurd h List.not_mem_nil, fun h => ?_⟩
      have hroot := h.2.isSome_of_isFile h.1
      rw [hentry, hget] at hroot
      cases hroot
    | some e =>
      obtain ⟨_, heq, hnext⟩ := hfuel.exists_succ (by rw [hget]; rfl)
      obtain rfl := Nat.succ.inj heq
      cases e with
      | file c => exact mem_walk_of_file hl hget fuel
      | directory =>
        exact mem_walk_of_directory hl hget fun n hjoin =>
          ih hjoin (hnext n) (by rw [Store.entry?, hjoin, Option.bind_some])

/-! ### Places of paths -/

theorem parent_mem_components_iff {p : Path} :
    .parent ∈ components p ↔ .parent ∈ (pieces p).filterMap component? := by
  unfold Path.components
  split
  · simp
  · split <;> simp

theorem isAbsolute_join_of {p q : Path} (h : Path.isAbsolute p = true) :
    Path.isAbsolute (join p q) = true := by
  unfold Path.join
  split
  · assumption
  · cases p with
    | nil => cases h
    | cons c p => split <;> exact h

theorem isAbsolute_along {p : Path} (h : Path.isAbsolute p = true) (names : List Text) :
    Path.isAbsolute (along p names) = true := by
  induction names generalizing p with
  | nil => exact h
  | cons n names ih => exact ih (isAbsolute_join_of h)

/-- A join goes up only where one of its parts does. -/
theorem parent_mem_components_join {p q : Path} (h : .parent ∈ components (join p q)) :
    .parent ∈ components p ∨ .parent ∈ components q := by
  rw [parent_mem_components_iff] at h ⊢
  rw [parent_mem_components_iff]
  unfold Path.join at h
  split at h
  · exact .inr h
  · have hsplit {a : Path} (h : .parent ∈ (pieces (a ++ '/' :: q)).filterMap component?) :
        .parent ∈ (pieces a).filterMap component? ∨ .parent ∈ (pieces q).filterMap component? := by
      rwa [pieces, Text.splitFrom_append_cons, List.filterMap_append, List.mem_append] at h
    split at h
    · next hends =>
      rcases List.eq_nil_or_concat p with rfl | ⟨init, last, rfl⟩
      · exact .inr h
      · obtain rfl : last = '/' := by simpa using hends
        rw [List.concat_eq_append, List.append_assoc] at h
        refine (hsplit h).imp_left fun hinit => ?_
        rw [List.concat_eq_append, pieces, Text.splitFrom_append_cons, List.filterMap_append]
        exact List.mem_append_left _ hinit
    · exact hsplit h

theorem component?_cases (piece : Text) :
    component? piece = none ∨ component? piece = some .parent ∨
      component? piece = some (.name piece) := by
  unfold Path.component?
  split
  · exact .inl rfl
  · split
    · exact .inr (.inl rfl)
    · exact .inr (.inr rfl)

/-- Without going up, a way leads where its names say. -/
theorem map_name_of_walk {s : Store} {start l : Location} {ps : List Text}
    (hparent : .parent ∉ ps.filterMap component?) (h : s.walk (some start) ps = some l) :
    l.map Component.name = start.map .name ++ ps.filterMap component? := by
  induction ps generalizing start with
  | nil =>
    cases h
    simp
  | cons piece ps ih =>
    rw [Store.walk_cons] at h
    cases hstep : s.stepInto start piece with
    | none =>
      rw [hstep, Store.walk_none] at h
      cases h
    | some next =>
      rw [hstep] at h
      unfold Store.stepInto at hstep
      split at hstep
      · rcases component?_cases piece with hpiece | hpiece | hpiece
        · rw [hpiece] at hstep
          cases hstep
          rw [List.filterMap_cons_none hpiece] at hparent ⊢
          exact ih hparent h
        · rw [List.filterMap_cons_some hpiece] at hparent
          exact absurd List.mem_cons_self hparent
        · rw [hpiece] at hstep
          cases hstep
          rw [List.filterMap_cons_some hpiece] at hparent ⊢
          rw [ih (fun hmem => hparent (List.mem_cons_of_mem _ hmem)) h, List.map_append,
            List.append_assoc]
          rfl
      · cases hstep

/-- **Where an absolute path leads that does not go up, is told by what it names.** -/
theorem components_eq_of_locate {s : Store} {p : Path} {l : Location}
    (habs : Path.isAbsolute p = true) (hparent : .parent ∉ components p) (h : s.locate p = some l) :
    components p = .root :: l.map .name := by
  have hinner : components p = .root :: (pieces p).filterMap component? := by
    rw [Path.components, if_pos habs]
  rw [parent_mem_components_iff] at hparent
  rw [hinner, map_name_of_walk hparent (Store.follow_eq s p ▸ (locate_iff.mp h).2)]
  rfl

/-! ### Sources -/

/-- Whether all roots are directories. -/
def AreRoots (s : Store) (base : Path) (roots : List Text) : Prop :=
  ∀ root ∈ roots, Pattern.isPattern root = false ∧ s.isDirectory (join base root) = true

instance (s : Store) (base : Path) (roots : List Text) : Decidable (AreRoots s base roots) :=
  inferInstanceAs (Decidable (∀ root ∈ roots, _))

theorem mapM_rootsOf {s : Store} {base : Path} {roots : List Text} (h : AreRoots s base roots) :
    roots.mapM (rootsOf s base) = .ok (roots.map fun root => [join base root]) := by
  rw [mapM_eq_ok_filterMap (some ∘ fun root => [join base root]), List.filterMap_eq_map]
  rintro root hroot
  obtain ⟨hplain, hdir⟩ := h root hroot
  refine ⟨_, rfl, ?_⟩
  rw [rootsOf, hplain, if_neg Bool.false_ne_true, if_pos hdir]

/-- The sources of some roots before they are put in order. -/
theorem exists_sources {s : Store} {base : Path} {roots excluded : List Text}
    (hroots : AreRoots s base roots) (hexcluded : AreExclusions excluded) :
    ∃ files, sources s base roots excluded = .ok (Path.sortDistinct files) ∧
      ∀ p, p ∈ files ↔ IsSourceFile s p ∧
        ∃ root ∈ roots, Leads (IsExcluded withSlashes base excluded) (join base root) p := by
  obtain ⟨x, hx, hcovers⟩ := exists_ofTexts base hexcluded
  refine ⟨_, by rw [sources, hx, mapM_rootsOf hroots]; rfl, fun p => ?_⟩
  have hexclusion : (fun q => x.covers q = true) = IsExcluded withSlashes base excluded :=
    funext fun q => propext (hcovers q)
  have hwalk {root : Text} (hroot : root ∈ roots) :
      p ∈ walk s x.covers (depth s) (join base root) ↔
        s.isFile p = true ∧ Leads (IsExcluded withSlashes base excluded) (join base root) p := by
    obtain ⟨l, hl, -⟩ := Store.isDirectory_iff.mp (hroots root hroot).2
    rw [mem_walk_iff hl (reaches_depth s l), hexclusion]
  have hsource : IsSourceFile s p ↔ s.isFile p = true ∧ isSource p = true := by
    rw [isSource_iff]
    exact ⟨fun h => ⟨h.isFile, h.named⟩, fun h => ⟨h.1, h.2⟩⟩
  have hroot :
      p ∈ (roots.map fun root => [join base root]).flatten.flatMap (walk s x.covers (depth s)) ↔
      ∃ root ∈ roots, p ∈ walk s x.covers (depth s) (join base root) := by
    simp
  rw [List.mem_filter, hroot, hsource]
  constructor
  · rintro ⟨⟨root, hmem, hfound⟩, hname⟩
    obtain ⟨hfile, hleads⟩ := (hwalk hmem).mp hfound
    exact ⟨⟨hfile, hname⟩, root, hmem, hleads⟩
  · rintro ⟨⟨hfile, hname⟩, root, hmem, hleads⟩
    exact ⟨⟨root, hmem, (hwalk hmem).mpr ⟨hfile, hleads⟩⟩, hname⟩

/-- The sources of some roots: in path order and each once, they are the sources that one of the
roots leads to, up to their spelling. If no path goes up, each stands at another place. -/
structure AreSources (spelled : Path → Path) (s : Store) (base : Path) (roots excluded : List Text)
    (found : List Path) :
    Prop where
  ordered : found.Pairwise IsBefore
  sound : ∀ p ∈ found, IsSourceFile s p ∧
    ∃ root ∈ roots, Leads (IsExcluded spelled base excluded) (join base root) p
  complete : ∀ root ∈ roots, ∀ p, IsSourceFile s p →
    Leads (IsExcluded spelled base excluded) (join base root) p →
    ∃ q ∈ found, components q = components p
  apart : Path.isAbsolute base = true → .parent ∉ components base →
    (∀ root ∈ roots, .parent ∉ components root) →
    ∀ p ∈ found, ∀ q ∈ found, s.locate p = s.locate q → p = q

/-- **Exactly the sources that a root leads to are found**, in path order and without
repetition. Neither the order of the roots matters nor how often they stand in the list, nor
whether one of them leads to another. -/
theorem sources_spec {s : Store} {base : Path} {roots excluded : List Text}
    (hroots : AreRoots s base roots) (hexcluded : AreExclusions excluded) :
    ∃ found, sources s base roots excluded = .ok found ∧
      AreSources withSlashes s base roots excluded found ∧
      ∀ roots', AreRoots s base roots' → (∀ root ∈ roots, root ∈ roots') →
        (∀ root ∈ roots', root ∈ roots ∨
          ∃ above ∈ roots, Leads (IsExcluded withSlashes base excluded) (join base above)
            (join base root)) →
        ∃ found', sources s base roots' excluded = .ok found' ∧
          found'.map components = found.map components := by
  obtain ⟨files, hfiles, hmem⟩ := exists_sources hroots hexcluded
  refine ⟨_, hfiles, ⟨Path.pairwise_sortDistinct files,
    fun p hp => (hmem p).mp (Path.mem_of_mem_sortDistinct hp), ?_, ?_⟩, ?_⟩
  · intro root hroot p hsource hleads
    have hp := List.mem_map_of_mem (f := components) ((hmem p).mpr ⟨hsource, root, hroot, hleads⟩)
    obtain ⟨q, hq, he⟩ := List.mem_map.mp (Path.mem_map_sortDistinct.mpr hp)
    exact ⟨q, hq, he⟩
  · intro habs hbase hplain p hp q hq hsame
    have hplace {p : Path} (hp : p ∈ Path.sortDistinct files) :
        ∃ l, s.locate p = some l ∧ components p = .root :: l.map .name := by
      obtain ⟨⟨hfile, -⟩, root, hroot, names, hnames, rfl, -⟩ :=
        (hmem p).mp (Path.mem_of_mem_sortDistinct hp)
      obtain ⟨c, hc⟩ := isFile_iff.mp hfile
      obtain ⟨l, hl, -⟩ := Option.bind_eq_some_iff.mp hc
      have hroot : .parent ∉ components (join base root) := fun h =>
        (parent_mem_components_join h).elim hbase (hplain root hroot)
      refine ⟨l, hl, components_eq_of_locate
        (isAbsolute_along (isAbsolute_join_of habs) names) ?_ hl⟩
      rw [components_along hnames]
      simpa using hroot
    obtain ⟨l, hl, hcomponents⟩ := hplace hp
    obtain ⟨k, hk, hcomponents'⟩ := hplace hq
    rw [hl, hk, Option.some.injEq] at hsame
    have hnodup : ((Path.sortDistinct files).map components).Nodup :=
      List.pairwise_map.mpr ((Path.pairwise_sortDistinct files).imp fun h => h.2)
    exact List.inj_on_of_nodup_map hnodup hp hq (by rw [hcomponents, hcomponents', hsame])
  · intro roots' hroots' hsub hover
    obtain ⟨files', hfiles', hmem'⟩ := exists_sources hroots' hexcluded
    refine ⟨_, hfiles', Path.map_components_eq (Path.pairwise_sortDistinct files')
      (Path.pairwise_sortDistinct files) ?_⟩
    have hsame : ∀ p, p ∈ files' ↔ p ∈ files := by
      intro p
      rw [hmem, hmem']
      refine and_congr_right fun _ => ⟨?_, fun ⟨root, hroot, hleads⟩ =>
        ⟨root, hsub root hroot, hleads⟩⟩
      rintro ⟨root, hroot, hleads⟩
      rcases hover root hroot with hin | ⟨above, habove, hto⟩
      · exact ⟨root, hin, hleads⟩
      · exact ⟨above, habove, hto.trans hleads⟩
    intro cs
    rw [Path.mem_map_sortDistinct, Path.mem_map_sortDistinct, List.mem_map, List.mem_map]
    simp only [hsame]

/-- A project with sources, a test and a directory of generated sources. -/
def smallSources : Store :=
  ⟨[(["p".toList], .directory), (["p".toList, "src".toList], .directory),
    (["p".toList, "src".toList, "app".toList], .directory),
    (["p".toList, "src".toList, "app".toList, "page.tsx".toList], .file (.text [])),
    (["p".toList, "src".toList, "app".toList, "page.test.tsx".toList], .file (.text [])),
    (["p".toList, "src".toList, "generated".toList], .directory),
    (["p".toList, "src".toList, "generated".toList, "types.ts".toList], .file (.text []))],
    by decide⟩

/-- Two roots, one below the other, and a pattern. -/
theorem areSources_small :
    (AreRoots smallSources "/p".toList ["./src".toList, "src/app".toList] ∧
        AreExclusions ["src/gen*".toList]) ∧
      ∃ found, sources smallSources "/p".toList ["./src".toList, "src/app".toList]
        ["src/gen*".toList] = .ok found ∧
        AreSources withSlashes smallSources "/p".toList ["./src".toList, "src/app".toList]
          ["src/gen*".toList] found := by
  have hroots : AreRoots smallSources "/p".toList ["./src".toList, "src/app".toList] := by decide
  have hexcluded : AreExclusions ["src/gen*".toList] := by decide
  obtain ⟨found, hfound, hsources, -⟩ := sources_spec hroots hexcluded
  exact ⟨⟨hroots, hexcluded⟩, found, hfound, hsources⟩

/-- A source whose name has a backslash. -/
def backslashSource : Store :=
  ⟨[(["p".toList], .directory), (["p".toList, "src".toList], .directory),
    (["p".toList, "src".toList, "a\\b.ts".toList], .file (.text []))],
    by decide⟩

/-- **A backslash is read as a slash where patterns are looked at**: the way of the source from
the base directory is not what the pattern stands for, and still the source is not found. -/
theorem not_areSources_backslash :
    AreRoots backslashSource "/p".toList ["src".toList] ∧
      AreExclusions ["src/*/b.ts".toList] ∧
      ¬ ∃ found, sources backslashSource "/p".toList ["src".toList] ["src/*/b.ts".toList] =
        .ok found ∧
        AreSources id backslashSource "/p".toList ["src".toList] ["src/*/b.ts".toList] found := by
  refine ⟨by decide, by decide, ?_⟩
  rintro ⟨found, hfound, hsources⟩
  have hnone : sources backslashSource "/p".toList ["src".toList] ["src/*/b.ts".toList] =
      .ok [] := by decide +kernel
  rw [hnone] at hfound
  cases hfound
  have hleads :
      Leads (IsExcluded id "/p".toList ["src/*/b.ts".toList]) (join "/p".toList "src".toList)
        "/p/src/a\\b.ts".toList :=
    leads_iff.mpr ⟨by decide, .inr ⟨"a\\b.ts".toList, by decide,
      leads_iff.mpr ⟨by decide, .inl (by decide)⟩⟩⟩
  have hsource : IsSourceFile backslashSource "/p/src/a\\b.ts".toList :=
    ⟨by decide, isSource_iff.mp (by decide)⟩
  obtain ⟨q, hq, -⟩ := hsources.complete _ List.mem_cons_self _ hsource hleads
  exact absurd hq List.not_mem_nil

end Localization.Discovery
