import Mathlib
import Localization.Inlining.Chunk
import Localization.Proofs.Extraction.Order

/-! Several chunks are inlined like one.

`Output.ofChunks` reads every chunk once, renders it in every language and puts what is missing
for the languages behind each other. `ofChunks_eq_inlineText` says that this gives the texts and
the lines of inlining one chunk in one language at a time. It rests on what findings can be: all
that is said while a chunk is read is said of calls that are left alone, and all that is said
while it is rendered is said of missing values (`isMissing_of_mem_render`). -/
namespace Localization.Inlining

/-! ### Lines, each once -/

namespace Findings

/-- Adding lines one by one leaves out those that are there already. -/
theorem foldl_addOnce (kept lines : List Text) :
    lines.foldl addOnce kept = kept ++ (lines.filter fun line =>
      !kept.contains line).eraseDups := by
  induction lines generalizing kept with
  | nil => rw [List.foldl_nil, List.filter_nil, List.eraseDups_nil, List.append_nil]
  | cons line rest ih =>
    rw [List.foldl_cons, ih, addOnce, List.filter_cons]
    by_cases hmem : kept.contains line = true
    · rw [if_pos hmem, hmem, Bool.not_true, if_neg (by simp)]
    · rw [if_neg hmem, if_pos (by simpa using hmem), List.eraseDups_cons, List.append_assoc,
        List.filter_filter]
      have hrest : (rest.filter fun other => !(kept ++ [line]).contains other) =
          rest.filter fun other => (!other == line) && !kept.contains other := by
        refine List.filter_congr fun other _ => ?_
        simp [Bool.and_comm, Bool.beq_eq_decide_eq]
      rw [hrest]
      rfl

theorem foldl_addOnce_nil (lines : List Text) : lines.foldl addOnce [] = lines.eraseDups := by
  have hall : (lines.filter fun line => !([] : List Text).contains line) = lines :=
    List.filter_eq_self.mpr fun _ _ => rfl
  rw [foldl_addOnce, List.nil_append, hall]

theorem eraseDups_of_nodup {lines : List Text} (h : lines.Nodup) : lines.eraseDups = lines := by
  induction lines with
  | nil => rfl
  | cons line rest ih =>
    obtain ⟨hnot, hrest⟩ := List.nodup_cons.mp h
    rw [List.eraseDups_cons, List.filter_eq_self.mpr, ih hrest]
    intro other hother
    have hne : other ≠ line := fun he => hnot (he ▸ hother)
    simpa using hne

end Findings

/-! ### What findings can be -/

/-- Whether a finding is that of a missing value. -/
def Finding.IsMissing (f : Finding) : Prop := ∃ lang key, f = .missing lang key

namespace Findings

/-- Missing values are recorded each once, and nothing else with them. -/
theorem foldl_record_of_isMissing {fs : List Finding} (h : ∀ f ∈ fs, f.IsMissing) (r : Findings) :
    fs.foldl record r = { r with missing := (fs.map Finding.line).foldl addOnce r.missing } := by
  induction fs generalizing r with
  | nil => rfl
  | cons f rest ih =>
    obtain ⟨lang, key, rfl⟩ := h f List.mem_cons_self
    rw [List.foldl_cons, ih fun g hg => h g (List.mem_cons_of_mem _ hg)]
    rfl

theorem ofList_of_isMissing {fs : List Finding} (h : ∀ f ∈ fs, f.IsMissing) :
    ofList fs = ⟨(fs.map Finding.line).eraseDups, [], []⟩ := by
  rw [ofList, foldl_record_of_isMissing h, ← foldl_addOnce_nil]
  rfl

/-- A record of other findings has no missing values. -/
theorem missing_ofList_of_not {fs : List Finding} (h : ∀ f ∈ fs, ¬ f.IsMissing) :
    (ofList fs).missing = [] := by
  have hstep (r : Findings) : (fs.foldl record r).missing = r.missing := by
    induction fs generalizing r with
    | nil => rfl
    | cons f rest ih =>
      rw [List.foldl_cons, ih fun g hg => h g (List.mem_cons_of_mem _ hg)]
      cases f with
      | missing lang key => exact absurd ⟨lang, key, rfl⟩ (h _ List.mem_cons_self)
      | _ => rfl
  exact hstep empty

/-- Missing values go behind a record. -/
theorem append_ofList {fs : List Finding} (h : ∀ f ∈ fs, f.IsMissing) (r : Findings) :
    r ++ ofList fs = { r with missing := (ofList fs).missing.foldl addOnce r.missing } := by
  show append r (ofList fs) = _
  rw [append, ofList_of_isMissing h, List.append_nil, List.append_nil]

end Findings

/-- What is said of a call that is left alone is not that a value is missing. -/
theorem not_isMissing_of_classify {call : Marker.Call} {f : Finding}
    (h : classify call = .error (some f)) :
    ¬ f.IsMissing := by
  rintro ⟨lang, key, rfl⟩
  have htranslate : classifyTranslate call ≠ .error (some (.missing lang key)) := by
    unfold classifyTranslate
    split
    · simp
    · split
      · split <;> simp
      · split
        · simp
        · split <;> simp
  unfold classify at h
  split at h
  · cases h
  · split at h
    · split at h <;> cases h
    · exact htranslate h

theorem not_isMissing_of_mem_sitesOf {calls : List Marker.Call} :
    ∀ f ∈ (sitesOf calls).2, ¬ f.IsMissing := by
  induction calls using List.reverseRecOn with
  | nil => exact fun f hf => by cases hf
  | append_singleton calls call ih =>
    rw [sitesOf] at ih ⊢
    rw [List.foldl_append, List.foldl_cons, List.foldl_nil]
    intro f hf
    cases hc : classify call with
    | ok request =>
      rw [hc] at hf
      exact ih f hf
    | error finding =>
      rw [hc] at hf
      rcases List.mem_append.mp hf with hf | hf
      · exact ih f hf
      · rw [Option.mem_toList] at hf
        cases hf
        exact not_isMissing_of_classify hc

theorem not_isMissing_of_mem_plan {config : Config} {code : Text} :
    ∀ f ∈ (Plan.of config code).findings, ¬ f.IsMissing := not_isMissing_of_mem_sitesOf

section

variable (x : Context) (lang : Text)

theorem isMissing_of_mem_lookup {raw : Text} {params : Properties} :
    ∀ f ∈ (x.lookup lang raw params).2, f.IsMissing := by
  unfold Context.lookup
  intro f hf
  dsimp only at hf
  split at hf
  · cases hf
  · exact ⟨_, _, List.mem_singleton.mp hf⟩

theorem isMissing_of_mem_renderCall {call : Marker.Call} {request : Request} :
    ∀ f ∈ (x.render lang call request).2, f.IsMissing := by
  unfold Context.render
  intro f hf
  cases request with
  | key raw => exact isMissing_of_mem_lookup x _ f hf
  | keys raws =>
    obtain ⟨value, hvalue, hf⟩ := List.mem_flatMap.mp hf
    obtain ⟨raw, -, rfl⟩ := List.mem_map.mp hvalue
    exact isMissing_of_mem_lookup x _ f hf
  | plural =>
    obtain ⟨value, hvalue, hf⟩ := List.mem_flatMap.mp hf
    obtain ⟨t, -, rfl⟩ := List.mem_map.mp hvalue
    exact isMissing_of_mem_lookup x _ f hf

theorem resolveCarried_findings (site : Site) (rest : List Site) (carrier : Text) :
    (resolveCarried x lang carrier (site :: rest)).2 =
      (if Text.occursIn site.call.raw carrier then (resolve x lang site).2 else []) ++
        (resolveCarried x lang carrier rest).2 := by
  simp only [resolveCarried]
  split <;> rfl

mutual

/-- All that is said while a site is resolved is that values are missing. -/
theorem isMissing_of_mem_resolve (site : Site) : ∀ f ∈ (resolve x lang site).2, f.IsMissing := by
  cases site with
  | mk call request nested =>
    intro f hf
    rw [resolve] at hf
    rcases List.mem_append.mp hf with hf | hf
    · exact isMissing_of_mem_renderCall x lang f hf
    · exact isMissing_of_mem_resolveCarried nested _ f hf

theorem isMissing_of_mem_resolveCarried (sites : List Site) (carrier : Text) :
    ∀ f ∈ (resolveCarried x lang carrier sites).2, f.IsMissing := by
  cases sites with
  | nil => exact fun f hf => by cases hf
  | cons site rest =>
    intro f hf
    rw [resolveCarried_findings] at hf
    rcases List.mem_append.mp hf with hf | hf
    · split at hf
      · exact isMissing_of_mem_resolve site f hf
      · cases hf
    · exact isMissing_of_mem_resolveCarried rest carrier f hf

end

theorem isMissing_of_mem_render (p : Plan) : ∀ f ∈ (p.render x lang).2, f.IsMissing := by
  intro f hf
  obtain ⟨r, hr, hf⟩ := List.mem_flatMap.mp hf
  obtain ⟨site, -, rfl⟩ := List.mem_map.mp (List.mem_reverse.mp hr)
  exact isMissing_of_mem_resolve x lang site f hf

end

/-! ### A chunk in every language -/

/-- The findings of a chunk in one language: those of its plan, and the missing values each once. -/
theorem inlineText_findings (x : Context) (lang code : Text) :
    (inlineText x lang code).2 =
      { Findings.ofList (Plan.of x.config code).findings with
        missing := (Findings.ofList ((Plan.of x.config code).render x lang).2).missing } := by
  have hmissing := isMissing_of_mem_render x lang (Plan.of x.config code)
  show Findings.ofList (Plan.of x.config code).findings ++
    Findings.ofList ((Plan.of x.config code).render x lang).2 = _
  rw [Findings.append_ofList hmissing, Findings.missing_ofList_of_not not_isMissing_of_mem_plan,
    Findings.foldl_addOnce_nil, Findings.ofList_of_isMissing hmissing,
    Findings.eraseDups_of_nodup (Extraction.nodup_eraseDups _)]

/-- Missing values of several renderings go behind a record one after the other. -/
theorem foldl_append_ofList {renderings : List (Text × Resolved)}
    (h : ∀ r ∈ renderings, ∀ f ∈ r.2.2, f.IsMissing) (start : Findings) :
    renderings.foldl (fun r rendering => r ++ Findings.ofList rendering.2.2) start =
      { start with
        missing := (renderings.flatMap fun r => (Findings.ofList r.2.2).missing).foldl
          Findings.addOnce start.missing } := by
  induction renderings generalizing start with
  | nil => rfl
  | cons first rest ih =>
    rw [List.foldl_cons, ih fun r hr => h r (List.mem_cons_of_mem _ hr), List.flatMap_cons,
      List.foldl_append, Findings.append_ofList (h first List.mem_cons_self)]

theorem inlineAll_renditions (x : Context) (chunk : Chunk) :
    (inlineAll x chunk).1 =
      x.config.langs.map fun lang => ⟨chunk.name, lang, (inlineText x lang chunk.code).1⟩ := by
  show List.map _ (List.map _ _) = _
  rw [List.map_map]
  rfl

/-- The findings of a chunk over all languages: those of its plan, and what is missing in any of
them. -/
theorem inlineAll_findings (x : Context) (chunk : Chunk) :
    (inlineAll x chunk).2 =
      { Findings.ofList (Plan.of x.config chunk.code).findings with
        missing :=
          (x.config.langs.flatMap fun lang =>
            (inlineText x lang chunk.code).2.missing).eraseDups } := by
  show List.foldl (fun r (rendering : Text × Resolved) => r ++ Findings.ofList rendering.2.2) _
    (List.map _ _) = _
  rw [foldl_append_ofList, Findings.missing_ofList_of_not not_isMissing_of_mem_plan,
    Findings.foldl_addOnce_nil, List.flatMap_map]
  · simp only [inlineText_findings]
  · intro r hr
    obtain ⟨lang, -, rfl⟩ := List.mem_map.mp hr
    exact isMissing_of_mem_render x lang _

theorem chunks_ofChunks (x : Context) (chunks : List Chunk) :
    (Output.ofChunks x chunks).chunks = chunks.flatMap fun chunk =>
      x.config.langs.map fun lang => ⟨chunk.name, lang, (inlineText x lang chunk.code).1⟩ := by
  show List.flatMap _ (List.map _ _) = _
  rw [List.flatMap_map]
  simp only [inlineAll_renditions]

/-- A record of a batch against inlining its chunk in one language at a time. -/
structure RecordsChunk (x : Context) (chunk : Chunk) (record : Text × Findings) : Prop where
  name : record.1 = chunk.name
  dynamicKeys : ∀ lang, record.2.dynamicKeys = (inlineText x lang chunk.code).2.dynamicKeys
  dynamicParams : ∀ lang, record.2.dynamicParams = (inlineText x lang chunk.code).2.dynamicParams
  missing : record.2.missing =
    (x.config.langs.flatMap fun lang => (inlineText x lang chunk.code).2.missing).eraseDups

/-- **Inlining several chunks is inlining one chunk in one language at a time.** The texts come
chunk by chunk and language by language, and there is one record per chunk: what is said of calls
that are left alone is said once, and of the missing values of all languages each once. -/
theorem ofChunks_eq_inlineText (x : Context) (chunks : List Chunk) :
    (Output.ofChunks x chunks).chunks = chunks.flatMap (fun chunk =>
      x.config.langs.map fun lang => ⟨chunk.name, lang, (inlineText x lang chunk.code).1⟩) ∧
    List.Forall₂ (RecordsChunk x) chunks (Output.ofChunks x chunks).findings := by
  constructor
  · exact chunks_ofChunks x chunks
  · show List.Forall₂ _ _ (List.map _ (List.map _ _))
    rw [List.map_map, List.forall₂_map_right_iff]
    refine List.forall₂_same.mpr fun chunk _ => ⟨rfl, fun lang => ?_, fun lang => ?_, ?_⟩
    · show (inlineAll x chunk).2.dynamicKeys = _
      rw [inlineAll_findings, inlineText_findings]
    · show (inlineAll x chunk).2.dynamicParams = _
      rw [inlineAll_findings, inlineText_findings]
    · show (inlineAll x chunk).2.missing = _
      rw [inlineAll_findings]

end Localization.Inlining
