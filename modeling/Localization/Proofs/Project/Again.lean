import Mathlib
import Localization.Proofs.Assets.Revived
import Localization.Proofs.Files.Discovery
import Localization.Proofs.Project.Extract
import Localization.Proofs.Project.Leaves

/-! Extracting twice.

An extraction adds directories and asset files to a project, so the next one finds the same
sources (`hasGrown_of_writes`). What it reads in the directory of a language are the files of
the tree over the older ones, which make the same tree again exactly if no older file shows
again. Then it takes the same steps, and they change nothing (`extract_again`). -/
namespace Localization.Project

open Json (Value)
open Localization.Path (join)
open Store (locate_iff)
open Assets (layered combined written fileName IsRevived)
open Discovery (HasGrown)
open Extraction (outputOf seeded treeOf uniqueKeys)

/-! ### What the second extraction reads -/

theorem readLocales_eq_ok {s : Store} {format : Text} {required : Bool} {dir : Path}
    {langs : List Text} {tree : Text → Tree}
    (h : ∀ lang ∈ langs, readLocale s format required (join dir lang) = .ok (tree lang)) :
    readLocales s format required dir langs = .ok (langs.map fun lang => (lang, tree lang)) := by
  rw [readLocales, mapM_eq_ok_iff]
  induction langs with
  | nil => exact .nil
  | cons lang langs ih =>
    refine .cons ?_ (ih fun l hl => h l (List.mem_cons_of_mem _ hl))
    rw [h lang List.mem_cons_self]
    rfl

/-! ### The sources behind an extraction -/

/-- Asset files are no sources. -/
theorem isSourceName_fileName {name : Text} (h : name ≠ []) :
    Discovery.isSourceName (fileName name "json".toList) = false := by
  rw [Discovery.isSourceName, extensionOf?_fileName h (by decide)]
  rfl

/-- An extraction adds nothing but directories and asset files. -/
theorem hasGrown_of_writes {c : Config} {s s' : Store} {trees : List (Text × Tree)}
    (hformat : c.format = "json".toList)
    (hnames : ∀ t ∈ trees, ∀ f ∈ Assets.split c.filename t.2, IsPlainName f.1)
    (hw : Writes (treeFiles c trees) s s') : HasGrown s s' := by
  refine hw.changes.mono ?_
  rintro l content ⟨f, hf, hl, -⟩ n hn
  obtain ⟨t, ht, g, hg, rfl⟩ := mem_treeFiles_iff.mp hf
  have hplain := hnames t ht g hg
  have hslash : '/' ∉ fileName g.1 c.format := by
    rw [fileName, hformat, List.mem_append, not_or]
    exact ⟨hplain.2, by decide⟩
  obtain ⟨d, -, -, -, rfl⟩ := (Store.follow_join hslash
    (component?_fileName hplain.1 (by rw [hformat]; decide))).mp (locate_iff.mp hl).2
  rw [List.getLast?_concat] at hn
  cases hn
  rw [hformat]
  exact isSourceName_fileName hplain.1

/-- The sources are found once more, with the texts that they had. -/
theorem sourceTexts_eq {c : Config} {s s' : Store} (h : HasGrown s s')
    (hroots : ∀ root ∈ c.sourcePaths, Pattern.isPattern root = true →
      ∀ dirs, Discovery.rootsOf s' c.basePath root = .ok dirs → ∀ p ∈ dirs, Store.LeadsBack s s' p)
    {sources : List Text} (hsources : sourceTexts c s = .ok sources) :
    sourceTexts c s' = .ok sources := by
  obtain ⟨files, hfiles, htexts⟩ := Except.bind_eq_ok_iff.mp hsources
  refine Except.bind_eq_ok_iff.mpr ⟨files, Discovery.sources_eq h hroots hfiles, ?_⟩
  refine mapM_eq_ok_of (fun p hp t ht => ?_) htexts
  unfold readText at ht ⊢
  split at ht
  · next u hu =>
    cases ht
    rw [Discovery.readText?_eq h (Discovery.isSource_of_mem_sources hfiles p hp) hu]
  · cases ht

/-! ### Extracting once more -/

/-- The default values that the sources of a project give. -/
def defaultsOf (c : Config) (s : Store) : Except Error Tree := do
  let sources ← sourceTexts c s
  let seeds ← (uniqueKeys c sources).mapM (Extraction.seed c)
  return seeded seeds

/-- Outputs for the same sources are the same if their trees are. -/
theorem outputOf_eq_iff {c : Config} {sources : List Text} {seeds : List (List Text × Value)}
    {assets assets' : List (Text × Tree)} :
    outputOf c sources seeds assets' = outputOf c sources seeds assets ↔
      ∀ lang ∈ c.langs, treeOf seeds (assets'.lookup lang) = treeOf seeds (assets.lookup lang) := by
  have htrees : outputOf c sources seeds assets' = outputOf c sources seeds assets ↔
      c.langs.map (fun lang => (lang, treeOf seeds (assets'.lookup lang))) =
        c.langs.map fun lang => (lang, treeOf seeds (assets.lookup lang)) := by
    rw [outputOf, outputOf, Extraction.Output.mk.injEq, and_iff_left rfl]
  rw [htrees, List.map_inj_left]
  simp only [Prod.mk.injEq, true_and]

/-- Behind an extraction the directory of a language holds the files of its tree over the older
ones. -/
theorem readLocale_of_treeFiles {c : Config} {s s' : Store} {trees : List (Text × Tree)}
    {tree : Text → Tree} (hvalid : c.fault? = none)
    (hw : Writes (treeFiles c trees) s s')
    (htrees : trees = c.langs.map fun lang => (lang, tree lang))
    (hdistinct : ∀ lang ∈ c.langs, (Value.object (tree lang)).hasDistinctKeys)
    (hlangs : ∀ l ∈ c.langs, '/' ∉ l)
    (hnames : ∀ t ∈ trees, ∀ f ∈ Assets.split c.filename t.2, IsPlainName f.1)
    (hk : ∀ t ∈ trees, (Value.object t.2).isKept Json.maxDepth = true) {lang : Text}
    (hlang : lang ∈ c.langs) (hplace : Store.LeadsBack s s' (join c.assetsRoot lang)) {asset : Tree}
    (hread : readLocale s c.format false (join c.assetsRoot lang) = .ok asset) :
    readLocale s' c.format false (join c.assetsRoot lang) = .ok (combined (layered
      (assetFiles s c.format (join c.assetsRoot lang))
        (written c.filename c.format (tree lang)))) := by
  have hmem : (lang, tree lang) ∈ trees := htrees ▸ List.mem_map_of_mem hlang
  have hown : ∀ t ∈ trees, t.1 ∈ c.langs ∧ t.2 = tree t.1 := by
    rw [htrees]
    intro t ht
    obtain ⟨l, hl, rfl⟩ := List.mem_map.mp ht
    exact ⟨hl, rfl⟩
  have hfills := fills_treeFiles (s := s') hvalid hmem (fun t ht => (hown t ht).1)
    (fun t ht he => (hown t ht).2.trans (he ▸ rfl)) hlangs hnames (hk _ hmem) (hdistinct lang hlang)
  exact readLocale_of_writes hw hfills hplace (readLocale_eq_iff.mp hread).1

/-- An extraction that works out the same takes the same steps, and they change nothing. -/
theorem extract_of_extractTrees_eq {c : Config} {s s' : Store} {result : ExtractResult}
    {output : Extraction.Output} (hrun : extract c s = (.ok result, s'))
    (hout : extractTrees c s = .ok output) (hagain : extractTrees c s' = .ok output) :
    ∃ s'', extract c s' = (.ok result, s'') ∧ ∀ l, s''.get? l = s'.get? l := by
  rw [extract_of_ok hout, Run.bind_eq_ok_iff] at hrun
  obtain ⟨u, s₁, hsteps, hpure⟩ := hrun
  obtain ⟨hresult, rfl⟩ := Run.pure_eq_ok_iff.mp hpure
  obtain ⟨s'', hsteps', hsame⟩ := runSteps_again (leaves_runSteps hsteps)
  refine ⟨s'', ?_, hsame⟩
  rw [extract_of_ok hagain, Run.bind_eq_ok_iff]
  exact ⟨(), s'', hsteps', Run.pure_eq_ok_iff.mpr ⟨hresult, rfl⟩⟩

/-- **Extracting twice.** The second extraction works its trees out, and they are those of the
first one exactly if no older file shows again: if no file that decided a key was replaced while
an older one, which is left over behind the file the key is written to, says something else.
Then the second extraction succeeds with the same result, writes the same files and leaves every
file as it is. -/
theorem extract_again {c : Config} {s s' : Store} {result : ExtractResult}
    {output : Extraction.Output} (hvalid : c.fault? = none)
    (hrun : extract c s = (.ok result, s')) (hout : extractTrees c s = .ok output)
    (hlangs : ∀ l ∈ c.langs, '/' ∉ l)
    (hnames : ∀ t ∈ output.trees, ∀ f ∈ Assets.split c.filename t.2, IsPlainName f.1)
    (hk : ∀ t ∈ output.trees, (Value.object t.2).isKept Json.maxDepth = true)
    (hplace : ∀ l ∈ c.langs, Store.LeadsBack s s' (join c.assetsRoot l))
    (hroots : ∀ root ∈ c.sourcePaths, Pattern.isPattern root = true → ∀ dirs,
      Discovery.rootsOf s' c.basePath root = .ok dirs → ∀ p ∈ dirs, Store.LeadsBack s s' p) :
    ∃ defaults output', defaultsOf c s = .ok defaults ∧ extractTrees c s' = .ok output' ∧
      (output' = output ↔ ∀ t ∈ output.trees, ∀ e ∈ t.2,
        ¬ IsRevived (assetFiles s c.format (join c.assetsRoot t.1)) c.filename c.format
          defaults t.2 e) ∧
      (output' = output → ∃ s'', extract c s' = (.ok result, s'') ∧
        ∀ l, s''.get? l = s'.get? l) := by
  obtain ⟨output', hout', hw⟩ := writes_extract hrun
  obtain rfl : output' = output := by
    rw [hout] at hout'
    exact (Except.ok.inj hout').symm
  obtain ⟨sources, assets, seeds, hsources, hassets, hseeds, rfl⟩ := extractTrees_eq_ok_iff.mp hout
  have hproper : ∀ seed ∈ seeds, seed.2.hasDistinctKeys :=
    forall_of_mapM hseeds fun _ _ => Extraction.hasDistinctKeys_seed
  have hdefaults : (Value.object (seeded seeds)).hasDistinctKeys :=
    Extraction.hasDistinctKeys_seeded hproper
  -- What the first extraction read in the directory of a language, and the tree it made of it.
  have hasset : ∀ lang ∈ c.langs, assets.lookup lang =
        some (combined (assetFiles s c.format (join c.assetsRoot lang))) ∧
      readLocale s c.format false (join c.assetsRoot lang) =
        .ok (combined (assetFiles s c.format (join c.assetsRoot lang))) := by
    intro lang hlang
    obtain ⟨tree, hlookup, hread⟩ := exists_lookup_readLocales hassets lang hlang
    rw [hlookup, hread, (readLocale_eq_iff.mp hread).2]
    exact ⟨rfl, rfl⟩
  have hdistinct :
      ∀ lang ∈ c.langs, (Value.object (treeOf seeds (assets.lookup lang))).hasDistinctKeys := by
    intro lang hlang
    rw [(hasset lang hlang).1]
    refine Extraction.hasDistinctKeys_treeOf hproper fun tree htree => ?_
    cases htree
    exact hasDistinctKeys_readLocale (hasset lang hlang).2
  have hagain : ∀ lang ∈ c.langs, readLocale s' c.format false (join c.assetsRoot lang) =
      .ok (combined (layered
      (assetFiles s c.format (join c.assetsRoot lang))
      (written c.filename c.format (treeOf seeds (assets.lookup lang))))) := fun lang hlang =>
    readLocale_of_treeFiles hvalid hw rfl hdistinct hlangs hnames hk hlang (hplace lang hlang)
      (hasset lang hlang).2
  have hsources' :=
    sourceTexts_eq (hasGrown_of_writes (langs_valid hvalid).1 hnames hw) hroots hsources
  have hout' :=
    extractTrees_eq_ok_iff.mpr ⟨sources, _, seeds, hsources', readLocales_eq_ok hagain, hseeds, rfl⟩
  refine ⟨seeded seeds, _, ?_, hout', ?_, fun hsame =>
    extract_of_extractTrees_eq hrun hout (hsame ▸ hout')⟩
  · exact Except.bind_eq_ok_iff.mpr ⟨sources, hsources,
      Except.bind_eq_ok_iff.mpr ⟨seeds, hseeds, rfl⟩⟩
  · rw [outputOf_eq_iff]
    show _ ↔ ∀ t ∈ c.langs.map fun lang => (lang, treeOf seeds (assets.lookup lang)), _
    rw [List.forall_mem_map]
    refine forall₂_congr fun lang hlang => ?_
    rw [lookup_map_of_mem hlang, (hasset lang hlang).1]
    exact Assets.sort_merge_layered_iff (areProper_assetFiles _ _ _) (nodup_assetFiles s _ _)
      hdefaults rfl

/-- An older file that stands before the one that is written does not show again. -/
theorem extract_again_app :
    ∃ result s', extract .standard (smallProject "app.json") = (.ok result, s') ∧
      ∃ s'', extract .standard s' = (.ok result, s'') ∧ ∀ l, s''.get? l = s'.get? l := by
  have hok : (extract .standard (smallProject "app.json")).1.toBool = true := by cbv
  obtain ⟨result, s', hrun⟩ : ∃ result s', extract .standard (smallProject "app.json") =
      (.ok result, s') := by
    generalize extract .standard (smallProject "app.json") = run at hok
    obtain ⟨e | result, s'⟩ := run
    · cases hok
    · exact ⟨result, s', rfl⟩
  have hout : extractTrees .standard (smallProject "app.json") =
      .ok ⟨[("en-US", smallTree)], ⟨1, 1, 0, 0⟩⟩ := by
    cbv
  obtain ⟨_, -, hw⟩ := writes_extract hrun
  have hplace : ∀ l ∈ Config.standard.langs,
      Store.LeadsBack (smallProject "app.json") s' (join Config.standard.assetsRoot l) := by
    intro l hl
    refine hw.changes.leadsBack ?_
    rw [List.mem_singleton.mp hl]
    decide
  have hplain : ∀ root ∈ Config.standard.sourcePaths, ¬ Pattern.isPattern root = true := by decide
  have hfiles :
      assetFiles (smallProject "app.json") "json" (join Config.standard.assetsRoot "en-US") =
      ([("app.json", olderTree)] : List (Text × Tree)) := by cbv
  obtain ⟨defaults, output', -, hout', hiff, hagain⟩ :=
    extract_again (by decide) hrun hout (by decide) (by decide)
    (by decide) hplace fun root hroot hpattern => absurd hpattern (hplain root hroot)
  refine ⟨result, s', hrun, hagain (hiff.mpr ?_)⟩
  rintro t ht e he ⟨g, f, v, hlast, hreplaced, -⟩
  obtain rfl := List.mem_singleton.mp ht
  have hg := hlast.mem
  rw [show Config.standard.format = "json".toList from rfl, hfiles, List.mem_singleton] at hg
  rw [hg] at hreplaced
  revert hreplaced
  decide

/-- A project without keys and with two asset files: the later one changes what the first one
says of `a`, and it has a key of its own, `z`, after which a file is named. -/
def overlappingProject : Store := ⟨[
  (["src"], .directory), (["src", "a.ts"], .file (.text [])),
  (["i18n"], .directory), (["i18n", "en-US"], .directory),
  (["i18n", "en-US", "m.json"], .file (.text "\x7b\"a\": \x7b\"x\": \"old\"\x7d\x7d")),
  (["i18n", "en-US", "z.json"],
    .file (.text "\x7b\"a\": \x7b\"x\": \"new\"\x7d, \"z\": \x7b\"q\": \"1\"\x7d\x7d"))],
  by decide⟩

/-- The text of the file for the key `a` with one value of `x`. -/
def textOfA (x : Text) : Text := Assets.render [("a", .object [("x", .string x)])]

/-- The first extraction replaces the later file by one without `a`, and what the first file says of
`a` shows again in the second extraction. -/
theorem extract_again_overlapping :
    Config.standard.fault? = none ∧
      ∃ result s', extract .standard overlappingProject = (.ok result, s') ∧
        s'.get? ["i18n", "en-US", "a.json"] = some (.file (.text (textOfA "new"))) ∧
        ∃ result' s'', extract .standard s' = (.ok result', s'') ∧
          result'.written = result.written ∧
          s''.get? ["i18n", "en-US", "a.json"] = some (.file (.text (textOfA "old"))) ∧
          textOfA "new" ≠ textOfA "old" := by
  obtain ⟨hok, hnew, hok', hwritten, hold⟩ :
    (extract .standard overlappingProject).1.toBool = true ∧
      (extract .standard overlappingProject).2.get? ["i18n", "en-US", "a.json"] =
        some (.file (.text (textOfA "new"))) ∧
      (extract .standard (extract .standard overlappingProject).2).1.toBool = true ∧
      (extract .standard (extract .standard overlappingProject).2).1.map (·.written) =
        (extract .standard overlappingProject).1.map (·.written) ∧
      (extract .standard (extract .standard overlappingProject).2).2.get?
        ["i18n", "en-US", "a.json"] =
        some (.file (.text (textOfA "old"))) := by cbv
  have hne : textOfA "new" ≠ textOfA "old" := by decide
  refine ⟨by decide, ?_⟩
  generalize extract .standard overlappingProject = run at hok hnew hok' hwritten hold ⊢
  obtain ⟨e | result, s'⟩ := run
  · cases hok
  · generalize hrun' : extract .standard (Except.ok result, s').2 = run' at hok' hwritten hold
    obtain ⟨e | result', s''⟩ := run'
    · cases hok'
    · exact ⟨result, s', rfl, hnew, result', s'', hrun', Except.ok.inj hwritten, hold, hne⟩

end Localization.Project
