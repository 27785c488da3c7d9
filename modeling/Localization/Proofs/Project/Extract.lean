import Mathlib
import Localization.Proofs.Extraction.FixedPoint
import Localization.Proofs.Project.ReadBack

/-! Reading back what an extraction wrote. -/
namespace Localization.Project

open Json (Value)
open Localization.Path (IsEntryName join)
open Store (locate_iff)
open Assets (layered leftOver combined written home fileName IsLast)
open Extraction (outputOf uniqueKeys)

/-! ### The trees of an extraction -/

/-- The texts of the sources of a project. -/
def sourceTexts (c : Config) (s : Store) : Except Error (List Text) := do
  let files ← Discovery.sources s c.basePath c.sourcePaths c.excludedPaths
  files.mapM (readText s)

/-- What an extraction works out is told by the sources, their keys and the assets. -/
theorem extractTrees_eq_ok_iff {c : Config} {s : Store} {output : Extraction.Output} :
    extractTrees c s = .ok output ↔ ∃ sources assets seeds, sourceTexts c s = .ok sources ∧
      readLocales s c.format false c.assetsRoot c.langs = .ok assets ∧
      (uniqueKeys c sources).mapM (Extraction.seed c) = .ok seeds ∧
      outputOf c sources seeds assets = output := by
  have hsplit : extractTrees c s = (do
      let sources ← sourceTexts c s
      let assets ← readLocales s c.format false c.assetsRoot c.langs
      Extraction.extract c sources assets) := by
    rw [extractTrees, sourceTexts, bind_assoc]
  rw [hsplit]
  simp only [Except.bind_eq_ok_iff, Extraction.extract_eq_ok_iff, exists_and_left]

/-- The assets of every language are those read from its directory. -/
theorem exists_lookup_readLocales {s : Store} {format : Text} {required : Bool} {dir : Path}
    {langs : List Text} {assets : List (Text × Tree)}
    (h : readLocales s format required dir langs = .ok assets) :
    ∀ lang ∈ langs, ∃ tree, assets.lookup lang = some tree ∧
      readLocale s format required (join dir lang) = .ok tree := by
  rw [readLocales, mapM_eq_ok_iff] at h
  induction h with
  | nil => exact fun _ h => by cases h
  | @cons first b langs assets ha _ ih =>
    obtain ⟨tree, htree, hb⟩ := Except.bind_eq_ok_iff.mp ha
    cases hb
    intro lang hlang
    rw [List.lookup]
    by_cases he : lang = first
    · subst he
      rw [beq_self_eq_true]
      exact ⟨tree, rfl, htree⟩
    · rw [beq_eq_false_iff_ne.mpr he]
      exact ih lang ((List.mem_cons.mp hlang).resolve_left he)

/-- The tree of a language is made of default values and the assets in its directory. -/
theorem exists_treeOf {c : Config} {s : Store} {output : Extraction.Output}
    (h : extractTrees c s = .ok output) :
    ∃ (seeds : List (List Text × Value)) (assets : Text → Tree),
      (∀ seed ∈ seeds, seed.2.hasDistinctKeys) ∧
      (∀ lang ∈ c.langs, readLocale s c.format false (join c.assetsRoot lang) = .ok (assets lang)) ∧
      output.trees = c.langs.map fun lang =>
        (lang, Extraction.treeOf seeds (some (assets lang))) := by
  obtain ⟨sources, assets, seeds, -, hassets, hseeds, rfl⟩ := extractTrees_eq_ok_iff.mp h
  have hlookup := exists_lookup_readLocales hassets
  refine ⟨seeds, fun lang => (assets.lookup lang).getD [], forall_of_mapM hseeds fun _ _ =>
    Extraction.hasDistinctKeys_seed, fun lang hlang => ?_, List.map_congr_left fun lang hlang => ?_⟩
  · obtain ⟨tree, htree, hread⟩ := hlookup lang hlang
    show readLocale s c.format false (join c.assetsRoot lang) = .ok ((assets.lookup lang).getD [])
    rw [htree]
    exact hread
  · obtain ⟨tree, htree, -⟩ := hlookup lang hlang
    show _ = (lang, Extraction.treeOf seeds (some ((assets.lookup lang).getD [])))
    rw [htree]
    rfl

/-! ### Names of files -/

/-- A tag of a language can be the name of a directory, slashes apart. -/
theorem component?_of_ofText? {lang : Text} (h : (LanguageTag.ofText? lang).isSome = true) :
    Path.component? lang = some (.name lang) := by
  refine Path.component?_eq_some ?_ ?_ ?_ <;>
  · rintro rfl
    exact absurd h (by decide)

theorem langs_valid {c : Config} (h : c.fault? = none) :
    c.format = "json".toList ∧ ∀ lang ∈ c.langs, (LanguageTag.ofText? lang).isSome = true := by
  simp only [Config.fault?] at h
  split at h
  · cases h
  · simp only [Option.or_eq_none_iff] at h
    obtain ⟨hlocale, -, -, hformat, -⟩ := h
    constructor
    · split at hformat
      · next he => exact eq_of_beq he
      · cases hformat
    · intro lang hlang
      rw [Config.localeFault?, Option.map_eq_none_iff, List.find?_eq_none] at hlocale
      have := hlocale lang hlang
      rw [Bool.not_eq_true, Option.isNone_eq_false_iff] at this
      exact this

/-- The extension of the name of a file. -/
theorem extensionOf?_fileName {name format : Text} (hname : name ≠ []) (hformat : '.' ∉ format) :
    Path.extensionOf? (fileName name format) = some format := by
  have hrev : (fileName name format).reverse = format.reverse ++ '.' :: name.reverse := by
    simp [fileName]
  have htake : (fileName name format).reverse.takeWhile (· != '.') = format.reverse := by
    rw [hrev, List.takeWhile_append_of_pos, List.takeWhile_cons_of_neg (by simp), List.append_nil]
    intro c hc
    rw [bne_iff_ne]
    rintro rfl
    exact hformat (List.mem_reverse.mp hc)
  have hlength : format.length + 1 < (fileName name format).length := by
    have := List.length_pos_iff.mpr hname
    rw [fileName, List.length_append, List.length_cons]
    omega
  simp only [Path.extensionOf?, htake, List.length_reverse, hlength, if_true, List.reverse_reverse]

theorem component?_fileName {name format : Text} (hname : name ≠ []) (hformat : format ≠ []) :
    Path.component? (fileName name format) = some (.name (fileName name format)) := by
  have hlength : 3 ≤ (fileName name format).length := by
    have := List.length_pos_iff.mpr hname
    have := List.length_pos_iff.mpr hformat
    rw [fileName, List.length_append, List.length_cons]
    omega
  refine Path.component?_eq_some ?_ ?_ ?_ <;>
  · intro h
    rw [h] at hlength
    exact absurd hlength (by decide)

/-! ### The directory of a language behind an extraction -/

/-- A name that can be that of a file: it is not empty and has no slash. -/
def IsPlainName (n : Text) : Prop := n ≠ [] ∧ '/' ∉ n

instance (n : Text) : Decidable (IsPlainName n) := inferInstanceAs (Decidable (_ ∧ _))

theorem mem_treeFiles_iff {c : Config} {trees : List (Text × Tree)} {f : Path × Text} :
    f ∈ treeFiles c trees ↔ ∃ t ∈ trees, ∃ g ∈ Assets.split c.filename t.2,
      f = (join (join c.assetsRoot t.1) (fileName g.1 c.format), Assets.render g.2) := by
  simp only [treeFiles, localeFiles, List.mem_flatMap, List.mem_map, fileName, eq_comm]

theorem ofText?_render {tree : Tree} (hk : (Value.object tree).isKept Json.maxDepth = true)
    (hd : (Value.object tree).hasDistinctKeys) :
    Value.ofText? (Assets.render tree) = some (.object tree) :=
  Json.ofText?_pretty hk hd rfl

/-- A part of a tree can be read back if the tree can. -/
theorem isKept_of_subset {tree part : Tree} {depth : Nat}
    (hk : (Value.object tree).isKept depth = true) (hp : ∀ e ∈ part, e ∈ tree) :
    (Value.object part).isKept depth = true := by
  rw [Value.isKept, Bool.and_eq_true, Json.areEntriesKept_iff] at hk ⊢
  exact ⟨hk.1, fun e he => hk.2 e (hp e he)⟩

/-- The files that an extraction writes into the directory of a language are those of its tree. -/
theorem fills_treeFiles {c : Config} {s : Store} {trees : List (Text × Tree)} {lang : Text}
    {tree : Tree} (hvalid : c.fault? = none) (hmem : (lang, tree) ∈ trees)
    (htrees : ∀ t ∈ trees, t.1 ∈ c.langs) (hone : ∀ t ∈ trees, t.1 = lang → t.2 = tree)
    (hlangs : ∀ l ∈ c.langs, '/' ∉ l)
    (hnames : ∀ t ∈ trees, ∀ f ∈ Assets.split c.filename t.2, IsPlainName f.1)
    (hk : (Value.object tree).isKept Json.maxDepth = true)
    (hd : (Value.object tree).hasDistinctKeys) :
    Fills s (treeFiles c trees) c.format (join c.assetsRoot lang)
      (written c.filename c.format tree) := by
  obtain ⟨hformat, hlocales⟩ := langs_valid hvalid
  have hpoint : '.' ∉ c.format := by rw [hformat]; decide
  have hslash : '/' ∉ c.format := by rw [hformat]; decide
  have hne : c.format ≠ [] := by rw [hformat]; decide
  have hplain {n : Text} (hn : IsPlainName n) : '/' ∉ fileName n c.format := by
    rw [fileName, List.mem_append, List.mem_cons, not_or, not_or]
    exact ⟨hn.2, by decide, hslash⟩
  refine ⟨Assets.nodup_written hd, fun t ht => ?_, fun t ht => ?_, fun f hf d n hdir hl => ?_⟩
  · obtain ⟨g, hg, rfl⟩ := List.mem_map.mp ht
    have hn := hnames _ hmem g hg
    exact ⟨hplain hn, component?_fileName hn.1 hne, extensionOf?_fileName hn.1 hpoint⟩
  · obtain ⟨g, hg, rfl⟩ := List.mem_map.mp ht
    exact ⟨_, mem_treeFiles_iff.mpr ⟨_, hmem, g, hg, rfl⟩, rfl⟩
  · obtain ⟨t, ht, g, hg, rfl⟩ := mem_treeFiles_iff.mp hf
    have hn := hnames t ht g hg
    -- The file stands in the directory of its own language, so this is that language.
    obtain ⟨d', hd', -, -, he⟩ := (Store.follow_join (hplain hn) (component?_fileName hn.1 hne)).mp
      (locate_iff.mp hl).2
    obtain ⟨rfl, hname⟩ := List.append_inj' he rfl
    have hlang : t.1 = lang := by
      have hin := htrees t ht
      have hin' := htrees _ hmem
      obtain ⟨r, -, -, -, hr⟩ :=
        (Store.follow_join (hlangs _ hin) (component?_of_ofText? (hlocales _ hin))).mp hd'
      obtain ⟨r', -, -, -, hr'⟩ :=
        (Store.follow_join (hlangs _ hin') (component?_of_ofText? (hlocales _ hin'))).mp
        (locate_iff.mp hdir).2
      rw [hr] at hr'
      exact List.singleton_inj.mp (List.append_inj' hr' rfl).2
    have htree := hone t ht hlang
    rw [htree] at hg
    have hpart : (fileName g.1 c.format, g.2) ∈ written c.filename c.format tree :=
      List.mem_map_of_mem hg
    refine ⟨_, hpart, (List.singleton_inj.mp hname).symm, ?_⟩
    have hproper : (Value.object g.2).hasDistinctKeys :=
      Assets.areProper_written hd (fileName g.1 c.format, g.2) hpart
    refine ofText?_render (isKept_of_subset hk fun e he => ?_) hproper
    rcases Assets.mem_split_iff.mp hg with ⟨rfl, -⟩ | ⟨e', he', -, rfl⟩
    · exact (List.mem_filter.mp he).1
    · exact List.mem_singleton.mp he ▸ he'

/-- What is read behind an edit of a written file. -/
theorem readLocale_edit {s s' s'' : Store} {files : List (Path × Text)} {format : Text} {dir : Path}
    {new : List (Text × Tree)} (hw : Writes files s s')
    (hfills : Fills s' files format dir new)
    (hplace : ∀ d, s'.locate dir = some d → s.get? d = some .directory → s.locate dir = some d)
    (hr : AreReadable s format dir) {f : Text × Tree} (hf : f ∈ new) {text : Text} {edited : Tree}
    (hedit : s'.write? (join dir f.1) (.text text) = some s'')
    (htext : Value.ofText? text = some (.object edited)) :
    ∃ seen, readLocale s'' format false dir = .ok seen ∧
      ∀ key v, Json.Object.get? edited key = some v →
        (∀ g ∈ assetFiles s' format dir, (Json.Object.get? g.2 key).isSome = true →
          Text.le g.1 f.1 = true) →
        Json.Object.get? seen key = some v := by
  have hw' := writes_write? hedit
  obtain ⟨hslash, hcomponent, hext⟩ := hfills.name f hf
  have hfills' : Fills s'' [(join dir f.1, text)] format dir [(f.1, edited)] := by
    refine ⟨List.nodup_singleton _, fun t ht => ?_, fun t ht => ?_, fun g hg d n hd hl => ?_⟩
    · rw [List.mem_singleton.mp ht]
      exact ⟨hslash, hcomponent, hext⟩
    · rw [List.mem_singleton.mp ht]
      exact ⟨_, List.mem_singleton_self _, rfl⟩
    · rw [List.mem_singleton.mp hg] at hl ⊢
      obtain ⟨d', -, -, -, he⟩ := (Store.follow_join hslash hcomponent).mp (locate_iff.mp hl).2
      exact ⟨_, List.mem_singleton_self _,
        (List.singleton_inj.mp (List.append_inj' he rfl).2).symm, htext⟩
  have hplace' : ∀ d, s''.locate dir = some d → s'.get? d = some .directory →
      s'.locate dir = some d := by
    intro d hd _
    obtain ⟨d', hd', -⟩ := exists_content hw hfills hf
    have := hw'.changes.locate hd'
    rw [hd] at this
    cases this
    exact hd'
  have hread :=
    readLocale_of_writes hw' hfills' hplace' (areReadable_of_writes hw hfills hplace hr)
  refine ⟨_, hread, fun key v hv hlast => ?_⟩
  have hproper : Assets.AreProper (layered (assetFiles s' format dir) [(f.1, edited)]) := by
    refine Assets.areProper_layered (areProper_assetFiles _ _ _) fun t ht => ?_
    rw [List.mem_singleton.mp ht]
    exact Json.hasDistinctKeys_ofText? htext
  have hnames := Assets.nodup_layered (nodup_assetFiles s' format dir) hfills'.nodup
  refine (Assets.get?_combined_iff hproper hnames).mpr ⟨(f.1, edited),
    ⟨?_, ?_, fun g hg hsome => ?_⟩, hv⟩
  · exact List.mem_append_right _ (List.mem_singleton_self _)
  · show (Json.Object.get? edited key).isSome = true
    rw [hv]
    rfl
  · rcases List.mem_append.mp hg with hleft | hown
    · exact hlast g (List.mem_filter.mp hleft).1 hsome
    · rw [List.mem_singleton.mp hown]
      exact Text.le_refl _

/-- **What an extraction writes is what is read back.** Reading the directory of a language
succeeds, and it gives the tree of the extraction up to the order of keys exactly if no older file
that is left over hides an entry. Behind a later edit of a written file, the edit is what is read,
but for keys that a file behind it holds. -/
theorem readLocale_extract {c : Config} {s s' : Store} {result : ExtractResult}
    {output : Extraction.Output} {lang : Text} {tree : Tree} (hvalid : c.fault? = none)
    (hrun : extract c s = (.ok result, s')) (hout : extractTrees c s = .ok output)
    (hmem : (lang, tree) ∈ output.trees) (hlangs : ∀ l ∈ c.langs, '/' ∉ l)
    (hnames : ∀ t ∈ output.trees, ∀ f ∈ Assets.split c.filename t.2, IsPlainName f.1)
    (hplace : ∀ d, s'.locate (join c.assetsRoot lang) = some d → s.get? d = some .directory →
      s.locate (join c.assetsRoot lang) = some d)
    (hk : (Value.object tree).isKept Json.maxDepth = true) :
    (∃ back, readLocale s' c.format false (join c.assetsRoot lang) = .ok back ∧
      (Tree.sort back = tree ↔
        ∀ e ∈ tree, ¬ Assets.IsHidden (assetFiles s c.format (join c.assetsRoot lang)) c.filename
          c.format tree e)) ∧
    ∀ f ∈ written c.filename c.format tree, ∀ s'' text edited,
      s'.write? (join (join c.assetsRoot lang) f.1) (.text text) = some s'' →
      Value.ofText? text = some (.object edited) →
      ∃ seen, readLocale s'' c.format false (join c.assetsRoot lang) = .ok seen ∧
        ∀ key v, Json.Object.get? edited key = some v →
          (∀ g ∈ assetFiles s' c.format (join c.assetsRoot lang),
            (Json.Object.get? g.2 key).isSome = true → Text.le g.1 f.1 = true) →
          Json.Object.get? seen key = some v := by
  obtain ⟨output', hout', hw⟩ := writes_extract hrun
  obtain rfl : output' = output := by
    rw [hout] at hout'
    exact (Except.ok.inj hout').symm
  obtain ⟨seeds, assets, hseeds, hassets, htrees⟩ := exists_treeOf hout
  have hin : ∀ t ∈ output'.trees, t.1 ∈ c.langs := by
    rw [htrees]
    intro t ht
    obtain ⟨l, hl, rfl⟩ := List.mem_map.mp ht
    exact hl
  have htree : ∀ t ∈ output'.trees, t.2 = Extraction.treeOf seeds (some (assets t.1)) := by
    rw [htrees]
    intro t ht
    obtain ⟨l, hl, rfl⟩ := List.mem_map.mp ht
    rfl
  have hown : tree = Extraction.treeOf seeds (some (assets lang)) := htree _ hmem
  obtain ⟨hreadable, hold⟩ := readLocale_eq_iff.mp (hassets lang (hin _ hmem))
  have hproper := areProper_assetFiles s c.format (join c.assetsRoot lang)
  have hdistinct : (Value.object tree).hasDistinctKeys := by
    rw [hown]
    refine Extraction.hasDistinctKeys_treeOf hseeds fun t ht => ?_
    cases ht
    exact hasDistinctKeys_readLocale (hassets lang (hin _ hmem))
  have hfills := fills_treeFiles (s := s') hvalid hmem hin
    (fun t ht he => by rw [htree t ht, hown, he]) hlangs hnames hk hdistinct
  have hread := readLocale_of_writes hw hfills hplace hreadable
  refine ⟨⟨_, hread, ?_⟩, fun f hf s'' text edited hedit htext => ?_⟩
  · refine Assets.sort_combined_layered_iff hdistinct hproper (nodup_assetFiles s _ _) ?_ ?_
    · rw [hown, Extraction.treeOf, Tree.sort_sort]
    · intro g hg key hkey
      rw [hown, Extraction.treeOf, (Tree.keys_sort_perm _).mem_iff]
      refine Tree.mem_keys_mergeEntries (.inr ?_)
      rw [Option.getD_some, hold]
      exact Assets.mem_keys_combined hproper hg hkey
  · exact readLocale_edit hw hfills hplace hreadable hf hedit htext

/-- A project with one source, which has the key `home.new`, and one asset file, which has
`home.title`. -/
def smallProject (name : Text) : Store :=
  Store.insert ⟨[
    (["src"], .directory), (["src", "a.ts"], .file (.text "$translate('home.new')")),
    (["i18n"], .directory), (["i18n", "en-US"], .directory)], by decide⟩
  ["i18n", "en-US", name] (.file (.text "\x7b\"home\": \x7b\"title\": \"x\"\x7d\x7d"))

/-- The tree that is extracted from the small project. -/
def smallTree : Tree := [("home", .object [("new", .string []), ("title", .string "x")])]

/-- What the asset file of the small project holds. -/
def olderTree : Tree := [("home", .object [("title", .string "x")])]

/-- An older file that stands before the one that is written hides nothing. -/
theorem readLocale_extract_app :
    ∃ result s' back, extract .standard (smallProject "app.json") = (.ok result, s') ∧
      readLocale s' "json" false (join Config.standard.assetsRoot "en-US") = .ok back ∧
      Tree.sort back = smallTree := by
  have hok : (extract .standard (smallProject "app.json")).1.toBool = true := by cbv
  obtain ⟨result, hrun⟩ : ∃ result, extract .standard (smallProject "app.json") =
      (.ok result, (extract .standard (smallProject "app.json")).2) := by
    cases h : (extract .standard (smallProject "app.json")).1 with
    | ok result => exact ⟨result, Prod.ext h rfl⟩
    | error e => rw [h] at hok; cases hok
  have hout : extractTrees .standard (smallProject "app.json") =
      .ok ⟨[("en-US", smallTree)], ⟨1, 1, 0, 0⟩⟩ := by
    cbv
  have hlocate : (smallProject "app.json").locate (join Config.standard.assetsRoot "en-US") =
      some (["i18n", "en-US"] : Location) := by decide
  have hplace :
      ∀ d, (extract .standard (smallProject "app.json")).2.locate
        (join Config.standard.assetsRoot "en-US") =
      some d → (smallProject "app.json").get? d = some .directory →
      (smallProject "app.json").locate (join Config.standard.assetsRoot "en-US") = some d := by
    intro d hd _
    obtain ⟨output, -, hw⟩ := writes_extract hrun
    rw [hw.changes.locate hlocate] at hd
    rw [hlocate, hd]
  have hfiles :
      assetFiles (smallProject "app.json") "json" (join Config.standard.assetsRoot "en-US") =
      ([("app.json", olderTree)] : List (Text × Tree)) := by cbv
  obtain ⟨⟨back, hread, hiff⟩, -⟩ :=
    readLocale_extract (by decide) hrun hout List.mem_cons_self (by decide)
    (by decide) hplace (by decide)
  refine ⟨result, _, back, hrun, hread, hiff.mpr ?_⟩
  rintro e he ⟨f, v, hlast, hle, -⟩
  have hf := (List.mem_filter.mp hlast.mem).1
  rw [show Config.standard.format = "json".toList from rfl, hfiles, List.mem_singleton] at hf
  rw [List.mem_singleton.mp he, hf] at hle
  exact absurd hle (by decide)

/-- An older file that stands behind the one that is written hides the new key in it. -/
theorem not_mem_readLocale_extract_zzz :
    Config.standard.fault? = none ∧
      ∃ result s', extract .standard (smallProject "zzz.json") = (.ok result, s') ∧
        extractTrees .standard (smallProject "zzz.json") =
          .ok ⟨[("en-US", smallTree)], ⟨1, 1, 0, 0⟩⟩ ∧
        ∃ back, readLocale s' "json" false (join Config.standard.assetsRoot "en-US") = .ok back ∧
          Tree.at? smallTree ["home", "new"] = some (.string []) ∧
          Tree.at? back ["home", "new"] = none ∧
          Tree.sort back ≠ smallTree := by
  have hok : (extract .standard (smallProject "zzz.json")).1.toBool = true := by cbv
  obtain ⟨result, hrun⟩ : ∃ result, extract .standard (smallProject "zzz.json") =
      (.ok result, (extract .standard (smallProject "zzz.json")).2) := by
    cases h : (extract .standard (smallProject "zzz.json")).1 with
    | ok result => exact ⟨result, Prod.ext h rfl⟩
    | error e => rw [h] at hok; cases hok
  have hout : extractTrees .standard (smallProject "zzz.json") =
      .ok ⟨[("en-US", smallTree)], ⟨1, 1, 0, 0⟩⟩ := by
    cbv
  have hread : readLocale (extract .standard (smallProject "zzz.json")).2 "json" false
      (join Config.standard.assetsRoot "en-US") = .ok olderTree := by cbv
  refine ⟨by decide, result, _, hrun, hout, _, hread, rfl, rfl, ?_⟩
  have hsort : Tree.sort olderTree = olderTree := by
    simp [olderTree, Tree.sort, Tree.orderedEntries, Tree.ordered]
  rw [hsort]
  rintro ⟨⟩

end Localization.Project
