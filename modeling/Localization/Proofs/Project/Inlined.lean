import Mathlib
import Localization.Proofs.Files.Order
import Localization.Proofs.Inlining.Batch
import Localization.Proofs.Project.Chunks
import Localization.Proofs.Project.Extract
import Localization.Proofs.Project.Leaves

/-! What inlining leaves of a project.

Each chunk is written once per language, into the directory of the language, and the default
language's text takes the place of the chunk itself. `isInlined_of_inlined` says that, where the
directories of the languages are different places, these files hold what inlining gives for the
chunks as they were, that the log has one more block, and that nothing else has changed.
Directories that are one place would be written to by several languages, and a log that is one
of the chunks is appended to that chunk (`inlined_sharedDirectory`); tags without a slash name
different places (`haveOwnDirectories_of_not_mem`). -/
namespace Localization.Project

open Localization.Path (IsEntryName join)
open Store (Changes isDirectory_iff locate_iff locate_join_iff)
open Inlining (Chunk Rendition Context Output RunFindings inlineText)

/-! ### Places that are written to -/

/-- The paths that some chunks are written to, in every language. -/
def targetPaths (c : Config) (chunks : List Chunk) : List Path :=
  chunks.flatMap fun chunk => c.langs.flatMap fun lang => targets c ⟨chunk.name, lang, chunk.code⟩

theorem mem_targets_iff {c : Config} {r : Rendition} {p : Path} :
    p ∈ targets c r ↔
      p = join (join c.chunkDir r.lang) r.name ∨
      (r.lang = c.defaultLang ∧ p = join c.chunkDir r.name) := by
  unfold targets
  dsimp only
  split
  · next h =>
    rw [beq_iff_eq] at h
    simp [h]
  · next h =>
    rw [beq_iff_eq] at h
    simp [h]

theorem mem_targetPaths_iff {c : Config} {chunks : List Chunk} {p : Path} :
    p ∈ targetPaths c chunks ↔ ∃ chunk ∈ chunks, ∃ lang ∈ c.langs,
      p = join (join c.chunkDir lang) chunk.name ∨
      (lang = c.defaultLang ∧ p = join c.chunkDir chunk.name) := by
  simp only [targetPaths, List.mem_flatMap, mem_targets_iff]

/-- The steps of inlining write these paths, with the texts of the chunks in the languages. -/
theorem file_mem_chunkSteps_iff {c : Config} {trees : List (Text × Tree)} {chunks : List Chunk}
    {p : Path} {t : Text} :
    .file p t ∈ chunkSteps c (Output.ofChunks ⟨c, trees⟩ chunks).chunks ↔
      ∃ chunk ∈ chunks, ∃ lang ∈ c.langs, t = (inlineText ⟨c, trees⟩ lang chunk.code).1 ∧
        (p = join (join c.chunkDir lang) chunk.name ∨
          (lang = c.defaultLang ∧ p = join c.chunkDir chunk.name)) := by
  have hdirectories : Step.file p t ∉ c.langs.map fun lang =>
      .directory (join c.chunkDir lang) := by
    intro h
    obtain ⟨lang, -, he⟩ := List.mem_map.mp h
    cases he
  rw [chunkSteps, List.mem_append, or_iff_right hdirectories, fileSteps, List.mem_map]
  simp only [chunkFiles, Inlining.chunks_ofChunks, List.mem_flatMap, List.mem_map, Step.file.injEq]
  constructor
  · rintro ⟨f, ⟨r, ⟨chunk, hchunk, lang, hlang, rfl⟩, q, hq, rfl⟩, rfl, rfl⟩
    exact ⟨chunk, hchunk, lang, hlang, rfl, mem_targets_iff.mp hq⟩
  · rintro ⟨chunk, hchunk, lang, hlang, rfl, hp⟩
    exact ⟨_, ⟨_, ⟨chunk, hchunk, lang, hlang, rfl⟩, p, mem_targets_iff.mpr hp, rfl⟩, rfl, rfl⟩

theorem map_chunkFiles (c : Config) (trees : List (Text × Tree)) (chunks : List Chunk) :
    (chunkFiles c (Output.ofChunks ⟨c, trees⟩ chunks).chunks).map (·.1) = targetPaths c chunks := by
  rw [chunkFiles, Inlining.chunks_ofChunks, targetPaths, List.map_flatMap, List.flatMap_assoc]
  refine List.flatMap_congr fun chunk _ => ?_
  rw [List.flatMap_map]
  refine List.flatMap_congr fun lang _ => ?_
  rw [List.map_map]
  exact List.map_id _

theorem directory_mem_chunkSteps_iff {c : Config} {chunks : List Rendition} {p : Path} :
    .directory p ∈ chunkSteps c chunks ↔ ∃ lang ∈ c.langs, p = join c.chunkDir lang := by
  have hfiles : Step.directory p ∉ fileSteps (chunkFiles c chunks) := by
    intro h
    obtain ⟨f, -, he⟩ := List.mem_map.mp h
    cases he
  rw [chunkSteps, List.mem_append, or_iff_left hfiles, List.mem_map]
  simp only [Step.directory.injEq, eq_comm]

/-- Whether a path is that of a file that inlining writes, given the chunks that are there. -/
def IsTarget (c : Config) (s : Store) (p : Path) : Prop :=
  ∃ n, IsChunkName s c.chunkDir n ∧ ∃ lang ∈ c.langs,
    p = join (join c.chunkDir lang) n ∨ (lang = c.defaultLang ∧ p = join c.chunkDir n)

/-- They are the paths that are written to. -/
theorem isTarget_iff {c : Config} {s : Store} {chunks : List Chunk}
    (h : AreChunksIn s c.chunkDir chunks) {p : Path} :
    IsTarget c s p ↔ p ∈ targetPaths c chunks := by
  rw [mem_targetPaths_iff]
  constructor
  · rintro ⟨n, hn, hp⟩
    obtain ⟨chunk, hchunk, rfl⟩ := (h.name n).mp hn
    exact ⟨chunk, hchunk, hp⟩
  · rintro ⟨chunk, hchunk, hp⟩
    exact ⟨chunk.name, (h.name _).mpr ⟨chunk, hchunk, rfl⟩, hp⟩

/-- The default language of a valid configuration is one of its languages. -/
theorem defaultLang_mem_langs {c : Config} (h : c.fault? = none) : c.defaultLang ∈ c.langs := by
  simp only [Config.fault?] at h
  split at h
  · cases h
  · simp only [Option.or_eq_none_iff] at h
    obtain ⟨-, hdefault, -⟩ := h
    split at hdefault
    · next hmem => exact List.contains_iff_mem.mp hmem
    · cases hdefault

/-- The directories of the languages are places of their own. -/
structure HaveOwnDirectories (c : Config) (s : Store) : Prop where
  distinct : ∀ a ∈ c.langs, ∀ b ∈ c.langs, s.locate (join c.chunkDir a) =
    s.locate (join c.chunkDir b) → a = b
  chunkDir : ∀ lang ∈ c.langs, s.locate (join c.chunkDir lang) ≠ s.locate c.chunkDir

/-- The directory of a file that is written for a language. -/
def IsTargetDirectory (c : Config) (lang : Text) (dir : Path) : Prop :=
  dir = join c.chunkDir lang ∨ (lang = c.defaultLang ∧ dir = c.chunkDir)

theorem exists_targetDirectory {c : Config} {s : Store} {lang n : Text} (hn : IsEntryName n)
    {p : Path} {l : Location}
    (hp : p = join (join c.chunkDir lang) n ∨ (lang = c.defaultLang ∧ p = join c.chunkDir n))
    (hl : s.locate p = some l) :
    ∃ dir d, IsTargetDirectory c lang dir ∧ s.locate dir = some d ∧ l = d ++ [n] := by
  rcases hp with rfl | ⟨hdefault, rfl⟩
  · obtain ⟨-, d, hd, -, rfl⟩ := (locate_join_iff hn).mp hl
    exact ⟨_, d, .inl rfl, hd, rfl⟩
  · obtain ⟨-, d, hd, -, rfl⟩ := (locate_join_iff hn).mp hl
    exact ⟨_, d, .inr ⟨hdefault, rfl⟩, hd, rfl⟩

/-- Files that are written for two languages stand in two directories. -/
theorem HaveOwnDirectories.eq_of_locate_eq {c : Config} {s : Store} (h : HaveOwnDirectories c s)
    {a b : Text} (ha : a ∈ c.langs) (hb : b ∈ c.langs) {dir dir' : Path}
    (hdir : IsTargetDirectory c a dir) (hdir' : IsTargetDirectory c b dir')
    (hsame : s.locate dir = s.locate dir') : a = b := by
  rcases hdir with rfl | ⟨hdefault, rfl⟩
  · rcases hdir' with rfl | ⟨-, rfl⟩
    · exact h.distinct a ha b hb hsame
    · exact absurd hsame (h.chunkDir a ha)
  · rcases hdir' with rfl | ⟨hdefault', -⟩
    · exact absurd hsame.symm (h.chunkDir b hb)
    · rw [hdefault, hdefault']

/-! ### What is left -/

section

variable {c : Config} {s s₁ : Store} {trees : List (Text × Tree)} {chunks : List Chunk}
  (hchunks : AreChunksIn s c.chunkDir chunks)
  (hleaves : Leaves (chunkSteps c (Output.ofChunks ⟨c, trees⟩ chunks).chunks) s s₁)

include hchunks hleaves

/-- The file that a chunk in one language is written to holds that text: no other chunk and no other
language is written to that place. -/
theorem get?_target (hown : HaveOwnDirectories c s₁) {chunk : Chunk} (hchunk : chunk ∈ chunks)
    {lang : Text} (hlang : lang ∈ c.langs) {p : Path}
    (hp : p = join (join c.chunkDir lang) chunk.name ∨
      (lang = c.defaultLang ∧ p = join c.chunkDir chunk.name)) :
    ∃ l, s₁.locate p = some l ∧ s₁.get? l =
      some (.file (.text (inlineText ⟨c, trees⟩ lang chunk.code).1)) := by
  have hname {chunk : Chunk} (h : chunk ∈ chunks) : IsEntryName chunk.name :=
    ((hchunks.name _).mpr ⟨chunk, h, rfl⟩).name
  have hmem : .file p (inlineText ⟨c, trees⟩ lang chunk.code).1 ∈
      chunkSteps c (Output.ofChunks ⟨c, trees⟩ chunks).chunks :=
    file_mem_chunkSteps_iff.mpr ⟨chunk, hchunk, lang, hlang, rfl, hp⟩
  obtain ⟨l, hl⟩ := hleaves.file _ _ hmem
  obtain ⟨u, hu⟩ := exists_textAt? hmem hl
  obtain ⟨q, hq, hql⟩ := exists_of_textAt? hu
  obtain ⟨chunk', hchunk', lang', hlang', rfl, hq'⟩ := file_mem_chunkSteps_iff.mp hq
  -- The file that was written last there is that of the same chunk, in the same language.
  obtain ⟨dir, d, hdir, hd, rfl⟩ := exists_targetDirectory (hname hchunk) hp hl
  obtain ⟨dir', d', hdir', hd', he⟩ := exists_targetDirectory (hname hchunk') hq' hql
  obtain ⟨rfl, hn⟩ := List.append_inj' he rfl
  obtain rfl : chunk = chunk' :=
    List.inj_on_of_nodup_map hchunks.nodup hchunk hchunk' (List.singleton_inj.mp hn)
  obtain rfl : lang = lang' := hown.eq_of_locate_eq hlang hlang' hdir hdir' (hd.trans hd'.symm)
  exact ⟨_, hl, hleaves.written _ _ hu⟩

/-- Where no chunk is written nothing changes, but for directories on the way to those of the
languages. -/
theorem get?_eq_of_not_isTarget {l : Location} (hl : ∀ p, IsTarget c s p → s₁.locate p ≠ some l) :
    s₁.get? l = s.get? l ∨
      (s.get? l = none ∧ s₁.get? l = some .directory ∧
        ∃ lang ∈ c.langs, s₁.IsOnWay (join c.chunkDir lang) l) := by
  have hnone : textAt? s₁ l (chunkSteps c (Output.ofChunks ⟨c, trees⟩ chunks).chunks) = none := by
    refine textAt?_eq_none fun p t hmem => hl p ?_
    obtain ⟨chunk, hchunk, lang, hlang, -, hp⟩ := file_mem_chunkSteps_iff.mp hmem
    exact (isTarget_iff hchunks).mpr (mem_targetPaths_iff.mpr ⟨chunk, hchunk, lang, hlang, hp⟩)
  refine (hleaves.kept l hnone).imp_right fun ⟨hnone, hdir, p, hp, hway⟩ => ⟨hnone, hdir, ?_⟩
  obtain ⟨lang, hlang, rfl⟩ := directory_mem_chunkSteps_iff.mp hp
  exact ⟨lang, hlang, hway⟩

end

/-- What inlining leaves: from `s` to `s'` some chunks are inlined with some trees. -/
structure IsInlined (c : Config) (s s' : Store) (chunks : List Chunk) (trees : List (Text × Tree))
    (result : InlineResult) : Prop where
  /-- The file of a chunk in the directory of a language. -/
  rendition : ∀ chunk ∈ chunks, ∀ lang ∈ c.langs,
    s'.readText? (join (join c.chunkDir lang) chunk.name) =
      some (inlineText ⟨c, trees⟩ lang chunk.code).1
  /-- The file of the chunk itself. -/
  original : ∀ chunk ∈ chunks,
    s'.readText? (join c.chunkDir chunk.name) =
      some (inlineText ⟨c, trees⟩ c.defaultLang chunk.code).1
  directory : ∀ lang ∈ c.langs, s'.isDirectory (join c.chunkDir lang) = true
  log : ∃ l, s'.locate c.logFilePath = some l ∧
    s'.get? l = some (.file (Store.appendedTo (s.get? l)
      (RunFindings.log (logHeader c) (logFooter c chunks.length)
        (Output.ofChunks ⟨c, trees⟩ chunks).findings)))
  kept : ∀ l, s'.locate c.logFilePath ≠ some l → (∀ p, IsTarget c s p → s'.locate p ≠ some l) →
    s'.get? l = s.get? l ∨
      (s.get? l = none ∧ s'.get? l = some .directory ∧
        ∃ lang ∈ c.langs, s'.IsOnWay (join c.chunkDir lang) l)
  written : result.written.Perm (targetPaths c chunks)
  sorted : result.written.Pairwise fun a b => Path.le a b = true

theorem exists_of_inlined {c : Config} {s s' : Store} {result : InlineResult}
    (h : inlined c s = (.ok result, s')) :
    ∃ chunks trees s₁, chunksIn s c.chunkDir = .ok chunks ∧
      readLocales s c.format true c.assetsRoot c.langs = .ok trees ∧
      runSteps (chunkSteps c (Output.ofChunks ⟨c, trees⟩ chunks).chunks) s = (.ok (), s₁) ∧
      s₁.append? c.logFilePath (RunFindings.log (logHeader c) (logFooter c chunks.length)
        (Output.ofChunks ⟨c, trees⟩ chunks).findings) = some s' ∧
      result.written = Path.sort (targetPaths c chunks) := by
  cases houtput : inlineOutput c s with
  | error e =>
    rw [inlined_of_error houtput] at h
    cases h
  | ok out =>
    obtain ⟨count, output⟩ := out
    rw [inlined_of_ok houtput] at h
    obtain ⟨chunks, hchunks, houtput⟩ := Except.bind_eq_ok_iff.mp houtput
    obtain ⟨trees, htrees, houtput⟩ := Except.bind_eq_ok_iff.mp houtput
    cases houtput
    obtain ⟨u, s₁, hsteps, h⟩ := Run.bind_eq_ok_iff.mp h
    obtain ⟨v, s₂, hlog, h⟩ := Run.bind_eq_ok_iff.mp h
    obtain ⟨rfl, rfl⟩ := Run.pure_eq_ok_iff.mp h
    refine ⟨chunks, trees, s₁, hchunks, htrees, hsteps, Run.change_eq_ok_iff.mp hlog, ?_⟩
    show Path.sort _ = _
    rw [map_chunkFiles]

/-- **Inlining touches only its targets.** For every chunk and language the file in the directory of
the language holds what inlining gives for the chunk's text and the assets as they were, the file of
the chunk holds that of the default language, the directories of the languages are there, and the
log has one more block; nothing else has changed but for directories on the way to these. The files
are listed in path order. -/
theorem isInlined_of_inlined {c : Config} {s s' : Store} {result : InlineResult}
    (hvalid : c.fault? = none) (hrun : inlined c s = (.ok result, s'))
    (hown : HaveOwnDirectories c s')
    (hlog : ∀ p, IsTarget c s p → s'.locate p ≠ s'.locate c.logFilePath) :
    ∃ chunks trees, chunksIn s c.chunkDir = .ok chunks ∧ AreChunksIn s c.chunkDir chunks ∧
      readLocales s c.format true c.assetsRoot c.langs = .ok trees ∧
      IsInlined c s s' chunks trees result := by
  obtain ⟨chunks, trees, s₁, hchunks, htrees, hsteps, happend, hwritten⟩ := exists_of_inlined hrun
  have hare := areChunksIn_of_chunksIn hchunks
  have hleaves := leaves_runSteps hsteps
  obtain ⟨k, hk, hdir, hs'⟩ := Store.append?_eq_some_iff.mp happend
  -- The log is one more file, so all paths lead where they did before it was written.
  have hsame : s₁.HaveSameDirectories s' := hs' ▸ Store.haveSameDirectories_insert_file hk hdir _
  have hget (l : Location) (hl : l ≠ k) : s'.get? l = s₁.get? l := by
    rw [hs', Store.get?_insert_file hk hdir, if_neg hl]
  have hown₁ : HaveOwnDirectories c s₁ := by
    refine ⟨fun a ha b hb he => hown.distinct a ha b hb ?_, fun lang hlang he =>
      hown.chunkDir lang hlang ?_⟩ <;>
    · rw [hsame.locate_eq, hsame.locate_eq, he]
  have htarget {p : Path} (hp : IsTarget c s p) : s₁.locate p ≠ some k := by
    rw [← hk, ← hsame.locate_eq, ← hsame.locate_eq]
    exact hlog p hp
  have hread {chunk : Chunk} (hchunk : chunk ∈ chunks) {lang : Text}
      (hlang : lang ∈ c.langs) {p : Path}
      (hp : p = join (join c.chunkDir lang) chunk.name ∨
        (lang = c.defaultLang ∧ p = join c.chunkDir chunk.name)) :
      s'.readText? p = some (inlineText ⟨c, trees⟩ lang chunk.code).1 := by
    obtain ⟨l, hl, htext⟩ := get?_target hare hleaves hown₁ hchunk hlang hp
    have hne : l ≠ k := by
      rintro rfl
      exact htarget ((isTarget_iff hare).mpr (mem_targetPaths_iff.mpr ⟨chunk, hchunk, lang,
        hlang, hp⟩)) hl
    rw [Store.readText?, Store.entry?, hsame.locate_eq, hl, Option.bind_some, hget l hne, htext]
  have hdefault := defaultLang_mem_langs hvalid
  refine ⟨chunks, trees, hchunks, hare, htrees, ⟨?_, ?_, ?_, ?_, ?_, ?_, ?_⟩⟩
  · exact fun chunk hchunk lang hlang => hread hchunk hlang (.inl rfl)
  · exact fun chunk hchunk => hread hchunk hdefault (.inr ⟨rfl, rfl⟩)
  · intro lang hlang
    rw [hsame.isDirectory_eq]
    exact hleaves.directory _ (directory_mem_chunkSteps_iff.mpr ⟨lang, hlang, rfl⟩)
  · refine ⟨k, by rw [hsame.locate_eq, hk], ?_⟩
    have hbefore : s₁.get? k = s.get? k := by
      refine (get?_eq_of_not_isTarget hare hleaves fun p hp => htarget hp).resolve_right ?_
      rintro ⟨-, hmade, -⟩
      exact hdir hmade
    rw [hs', Store.get?_insert_file hk hdir, if_pos rfl, hbefore]
  · intro l hl htargets
    rw [hsame.locate_eq, hk] at hl
    have hne : l ≠ k := fun h => hl (h ▸ rfl)
    rw [hget l hne]
    refine (get?_eq_of_not_isTarget hare hleaves fun p hp => ?_).imp_right ?_
    · rw [← hsame.locate_eq]
      exact htargets p hp
    · rintro ⟨hnone, hmade, lang, hlang, hway⟩
      exact ⟨hnone, hmade, lang, hlang, hsame.isOnWay hway⟩
  · rw [hwritten]
    exact List.mergeSort_perm _ _
  · rw [hwritten]
    exact Path.pairwise_sort _

/-! ### Languages whose tags have no slash -/

section

variable {c : Config} {s s' : Store} {result : InlineResult} (hvalid : c.fault? = none)
  (hrun : inlined c s = (.ok result, s'))

include hrun

/-- The directories of the languages are there, and all that was there leads where it led before. -/
theorem changes_inlined :
    Changes (fun _ _ => True) s s' ∧ ∀ lang ∈ c.langs,
      s'.isDirectory (join c.chunkDir lang) = true := by
  obtain ⟨chunks, trees, s₁, -, -, hsteps, happend, -⟩ := exists_of_inlined hrun
  obtain ⟨k, hk, hdir, hs'⟩ := Store.append?_eq_some_iff.mp happend
  have hleaves := leaves_runSteps hsteps
  obtain ⟨_, _, _, hc⟩ :=
    Store.changes_write? (Store.write?_eq_some_iff.mpr ⟨k, hk, hdir, hs'⟩)
  refine ⟨hleaves.changes.trans (hc.mono fun _ _ _ => trivial), fun lang hlang => ?_⟩
  obtain ⟨d, hd, hisdir⟩ :=
    isDirectory_iff.mp (hleaves.directory _ (directory_mem_chunkSteps_iff.mpr ⟨lang, hlang, rfl⟩))
  exact isDirectory_iff.mpr ⟨d, hc.locate hd, hc.directories d hisdir⟩

include hvalid

theorem locate_langDirectory {lang : Text} (hlang : lang ∈ c.langs) (hslash : '/' ∉ lang) :
    ∃ d, s'.locate c.chunkDir = some d ∧ s'.locate (join c.chunkDir lang) = some (d ++ [lang]) := by
  obtain ⟨l, hl, -⟩ := isDirectory_iff.mp ((changes_inlined hrun).2 lang hlang)
  have hcomponent := component?_of_ofText? ((langs_valid hvalid).2 lang hlang)
  obtain ⟨-, -, -, hfits, -⟩ := (Store.follow_join hslash hcomponent).mp (locate_iff.mp hl).2
  obtain ⟨-, d, hd, -, rfl⟩ := (locate_join_iff ⟨hcomponent, hslash, hfits⟩).mp hl
  exact ⟨d, hd, hl⟩

variable (hslash : ∀ lang ∈ c.langs, '/' ∉ lang)

include hslash

/-- Such languages have directories of their own. -/
theorem haveOwnDirectories_of_not_mem : HaveOwnDirectories c s' := by
  refine ⟨fun a ha b hb he => ?_, fun lang hlang he => ?_⟩
  · obtain ⟨d, -, hla⟩ := locate_langDirectory hvalid hrun ha (hslash a ha)
    obtain ⟨d', -, hlb⟩ := locate_langDirectory hvalid hrun hb (hslash b hb)
    rw [hla, hlb, Option.some.injEq] at he
    exact List.singleton_inj.mp (List.append_inj' he rfl).2
  · obtain ⟨d, hd, hl⟩ := locate_langDirectory hvalid hrun hlang (hslash lang hlang)
    rw [hl, hd, Option.some.injEq] at he
    exact absurd (congrArg List.length he) (by simp)

/-- A log outside the directory of the chunks is none of them. -/
theorem locate_ne_of_isTarget {d l : Location} (hd : s.locate c.chunkDir = some d)
    (hl : s.locate c.logFilePath = some l) (hout : ¬ d <+: l) {p : Path} (hp : IsTarget c s p) :
    s'.locate p ≠ s'.locate c.logFilePath := by
  have hchanges := (changes_inlined hrun).1
  rw [hchanges.locate hl]
  intro hlog
  obtain ⟨n, hn, lang, hlang, hp⟩ := hp
  obtain ⟨dir, k, hdir, hk, rfl⟩ := exists_targetDirectory hn.name hp hlog
  refine hout (List.IsPrefix.trans ?_ (List.prefix_append k [n]))
  rcases hdir with rfl | ⟨-, rfl⟩
  · obtain ⟨d', hd', hlang'⟩ := locate_langDirectory hvalid hrun hlang (hslash lang hlang)
    rw [hchanges.locate hd, Option.some.injEq] at hd'
    rw [hlang', Option.some.injEq] at hk
    rw [← hk, ← hd']
    exact List.prefix_append d [lang]
  · rw [hchanges.locate hd, Option.some.injEq] at hk
    rw [hk]

end

/-! ### A small project -/

/-- The standard configuration for some languages. -/
def inLangs (langs : List Text) : Config :=
  { Config.standard with locales := langs.map Locale.ofTag }

/-- One language, with the chunk of `oneChunk` as its log. -/
def loggedToChunk : Config :=
  { inLangs ["en-US"] with logFile := "dist/build/app.js" }

/-- A project with one chunk and the assets of some languages. -/
def oneChunk : Store := ⟨[
  (["dist"], .directory), (["dist", "build"], .directory),
  (["dist", "build", "app.js"], .file (.text "$translate('home')")),
  (["i18n"], .directory), (["i18n", "app.json"], .file (.text "\x7b\"home\": \"Bonjour\"\x7d")),
  (["i18n", "en-US"], .directory), (["i18n", "en-US", "app.json"],
    .file (.text "\x7b\"home\": \"Hello\"\x7d")),
  (["i18n", "fr"], .directory), (["i18n", "fr", "app.json"],
    .file (.text "\x7b\"home\": \"Salut\"\x7d")),
  (["i18n", "fr-1"], .directory)],
  by decide⟩

/-- English and French have directories of their own, and the log is not among the chunks. -/
theorem isInlined_of_inlined_fr :
    ∃ result s' trees, inlined (inLangs ["en-US", "fr"]) oneChunk = (.ok result, s') ∧
      IsInlined (inLangs ["en-US", "fr"]) oneChunk s' [⟨"app.js", "$translate('home')"⟩] trees
        result := by
  have hok : (inlined (inLangs ["en-US", "fr"]) oneChunk).1.toBool = true := by cbv
  generalize hrun : inlined (inLangs ["en-US", "fr"]) oneChunk = r at hok ⊢
  obtain ⟨e | result, s'⟩ := r
  · cases hok
  · have hvalid : (inLangs ["en-US", "fr"]).fault? = none := by decide
    have hslash : ∀ lang ∈ (inLangs ["en-US", "fr"]).langs, '/' ∉ lang := by decide
    have hd : oneChunk.locate (inLangs ["en-US", "fr"]).chunkDir =
        some (["dist", "build"] : Location) := by decide
    have hl : oneChunk.locate (inLangs ["en-US", "fr"]).logFilePath =
        some (["tolk-inline.log"] : Location) := by decide
    have hchunks : chunksIn oneChunk (inLangs ["en-US", "fr"]).chunkDir =
        .ok [⟨"app.js", "$translate('home')"⟩] := by cbv
    obtain ⟨chunks, trees, hread, -, -, hinlined⟩ := isInlined_of_inlined hvalid hrun
      (haveOwnDirectories_of_not_mem hvalid hrun hslash)
      (fun p => locate_ne_of_isTarget hvalid hrun hslash hd hl (by decide))
    rw [hchunks] at hread
    cases hread
    exact ⟨_, s', trees, rfl, hinlined⟩

/-- A tag with a slash may lead back to the directory of the chunks. Making the directory of such a
language makes another one on the way; and where there are two languages, the text of the one that
is written last stands in the place of the default language's. A log file that is the chunk itself
leaves the text of the run behind that of the chunk. -/
theorem inlined_sharedDirectory :
    (inLangs ["fr-1/.."]).fault? = none ∧ (inLangs ["en-US", "fr-1/.."]).fault? = none ∧
    (∃ result s', inlined (inLangs ["fr-1/.."]) oneChunk = (.ok result, s') ∧
      s'.locate (join (inLangs ["fr-1/.."]).chunkDir "fr-1/..") =
        some (["dist", "build"] : Location) ∧
      s'.locate (inLangs ["fr-1/.."]).logFilePath = some (["tolk-inline.log"] : Location) ∧
      oneChunk.get? ["dist", "build", "fr-1"] = none ∧
      s'.get? ["dist", "build", "fr-1"] = some .directory) ∧
    (∃ trees result s', readLocales oneChunk "json" true
        (inLangs ["en-US", "fr-1/.."]).assetsRoot ["en-US", "fr-1/.."] = .ok trees ∧
      inlined (inLangs ["en-US", "fr-1/.."]) oneChunk = (.ok result, s') ∧
      s'.readText? (join (inLangs ["en-US", "fr-1/.."]).chunkDir "app.js") = some "`Bonjour`" ∧
      (inlineText ⟨inLangs ["en-US", "fr-1/.."], trees⟩ "en-US" "$translate('home')").1 =
        "`Hello`".toList) ∧
    loggedToChunk.fault? = none ∧
    ∃ trees result s',
      readLocales oneChunk "json" true loggedToChunk.assetsRoot ["en-US"] = .ok trees ∧
      inlined loggedToChunk oneChunk = (.ok result, s') ∧
      s'.readText? (join loggedToChunk.chunkDir "app.js") = some
        "`Hello`tolk inline: ./dist/build\ntolk inline: done (1 chunks, 1 locales)\n" ∧
      (inlineText ⟨loggedToChunk, trees⟩ "en-US" "$translate('home')").1 = "`Hello`".toList := by
  refine ⟨by decide, by decide, ?_, ?_, by decide, ?_⟩
  · obtain ⟨hok, hdir, hlog, hmade⟩ : (inlined (inLangs ["fr-1/.."]) oneChunk).1.toBool = true ∧
        (inlined (inLangs ["fr-1/.."]) oneChunk).2.locate
          (join (inLangs ["fr-1/.."]).chunkDir "fr-1/..") =
          some (["dist", "build"] : Location) ∧
        (inlined (inLangs ["fr-1/.."]) oneChunk).2.locate (inLangs ["fr-1/.."]).logFilePath =
          some (["tolk-inline.log"] : Location) ∧
        (inlined (inLangs ["fr-1/.."]) oneChunk).2.get? ["dist", "build", "fr-1"] =
          some .directory := by
      cbv
      exact ⟨rfl, trivial⟩
    generalize inlined (inLangs ["fr-1/.."]) oneChunk = r at hok hdir hlog hmade ⊢
    obtain ⟨e | result, s'⟩ := r
    · cases hok
    · exact ⟨result, s', rfl, hdir, hlog, by decide, hmade⟩
  · obtain ⟨hok, htext⟩ : (inlined (inLangs ["en-US", "fr-1/.."]) oneChunk).1.toBool = true ∧
        (inlined (inLangs ["en-US", "fr-1/.."]) oneChunk).2.readText?
          (join (inLangs ["en-US", "fr-1/.."]).chunkDir "app.js") = some "`Bonjour`" := by cbv
    have htrees :
        readLocales oneChunk "json" true (inLangs ["en-US", "fr-1/.."]).assetsRoot
          ["en-US", "fr-1/.."] =
        .ok [("en-US", [("home", .string "Hello")]), ("fr-1/..",
          [("home", .string "Bonjour")])] := by cbv
    generalize inlined (inLangs ["en-US", "fr-1/.."]) oneChunk = r at hok htext ⊢
    obtain ⟨e | result, s'⟩ := r
    · cases hok
    · exact ⟨_, result, s', htrees, rfl, htext, by cbv⟩
  · obtain ⟨hok, htext⟩ : (inlined loggedToChunk oneChunk).1.toBool = true ∧
        (inlined loggedToChunk oneChunk).2.readText? (join loggedToChunk.chunkDir "app.js") = some
          "`Hello`tolk inline: ./dist/build\ntolk inline: done (1 chunks, 1 locales)\n" := by cbv
    have htrees : readLocales oneChunk "json" true loggedToChunk.assetsRoot ["en-US"] =
        .ok [("en-US", [("home", .string "Hello")])] := by cbv
    generalize inlined loggedToChunk oneChunk = r at hok htext ⊢
    obtain ⟨e | result, s'⟩ := r
    · cases hok
    · exact ⟨_, result, s', htrees, rfl, htext, by cbv⟩

end Localization.Project
