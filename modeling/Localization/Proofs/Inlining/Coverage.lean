import Mathlib
import Localization.Inlining.Chunk
import Localization.Proofs.Extraction.Collected
import Localization.Proofs.Inlining.Forest

/-! Extraction covers inlining.

What a chunk becomes in a language depends on the trees only through the keys that
extraction collects from the same text. Two runs over different trees are compared: a
call looks up certain raw keys (`lookedUp`), all of which extraction collects
(`mem_collect_of_lookedUp`), so a value that agrees on the collected keys agrees on
every site, in whichever other sites it is carried (`resolve_congr`).

`inlineText_congr` says so of the text and of the findings. -/
namespace Localization.Inlining

open Marker (Call Family)

/-! ### The keys that a call looks up -/

/-- The raw keys that a site looks up in a language. -/
def lookedUp (config : Config) (lang : Text) (call : Call) : Request → List Text
  | .key raw => [raw]
  | .keys raws => raws
  | .plural => (terms config lang call).map (·.key)

/-- The value that the trees hold for a raw key in a language. -/
def Context.valueOf? (x : Context) (lang raw : Text) : Option Json.Value :=
  (x.trees.lookup lang).bind fun tree =>
    tree.at? (Key.path x.config.keySeparator (Key.cut x.config.valueSeparator raw).1)

/-- A key that is looked up gives the text of its value, or is missing. -/
theorem lookup_eq_getD (x : Context) (lang raw : Text) (params : Properties) :
    x.lookup lang raw params = ((valueText? params (x.valueOf? lang raw)).map (·, [])).getD
      (absentText, [.missing lang (Key.cut x.config.valueSeparator raw).1]) := by
  cases h : valueText? params (x.valueOf? lang raw) with
  | none | some =>
    simp only [Context.valueOf?] at h
    simp only [Context.lookup, h]
    rfl

theorem lookup_congr {config : Config} {trees trees' : List (Text × Tree)} {lang raw : Text}
    (h : Context.valueOf? ⟨config, trees⟩ lang raw = Context.valueOf? ⟨config, trees'⟩ lang raw)
    (params : Properties) :
    Context.lookup ⟨config, trees⟩ lang raw params =
      Context.lookup ⟨config, trees'⟩ lang raw params := by
  rw [lookup_eq_getD, lookup_eq_getD, h]

/-- A call has the same value in trees that agree on the keys it looks up. -/
theorem render_congr {config : Config} {trees trees' : List (Text × Tree)} {lang : Text}
    {call : Call} {request : Request}
    (h : ∀ raw ∈ lookedUp config (Context.langOf ⟨config, trees⟩ call lang) call request,
      Context.valueOf? ⟨config, trees⟩ (Context.langOf ⟨config, trees⟩ call lang) raw =
        Context.valueOf? ⟨config, trees'⟩ (Context.langOf ⟨config, trees⟩ call lang) raw) :
    Context.render ⟨config, trees⟩ lang call request =
      Context.render ⟨config, trees'⟩ lang call request := by
  have hlang : Context.langOf ⟨config, trees'⟩ call lang =
      Context.langOf ⟨config, trees⟩ call lang := rfl
  cases request with
  | key raw =>
    simp only [Context.render, hlang]
    exact lookup_congr (h raw (List.mem_singleton_self raw)) _
  | keys raws =>
    have hvalues : raws.map (fun raw => Context.lookup ⟨config, trees⟩
          (Context.langOf ⟨config, trees⟩ call lang) raw
            ((call.params?.bind Argument.properties?).getD [])) =
        raws.map fun raw => Context.lookup ⟨config, trees'⟩
          (Context.langOf ⟨config, trees⟩ call lang) raw
            ((call.params?.bind Argument.properties?).getD []) :=
      List.map_congr_left fun raw hr => lookup_congr (h raw hr) _
    simp only [Context.render, hlang, hvalues]
  | plural =>
    have hvalues : (terms config (Context.langOf ⟨config, trees⟩ call lang) call).map
          (fun t => (t.guard, Context.lookup ⟨config, trees⟩
            (Context.langOf ⟨config, trees⟩ call lang) t.key (pluralParams call))) =
        (terms config (Context.langOf ⟨config, trees⟩ call lang) call).map
          fun t => (t.guard, Context.lookup ⟨config, trees'⟩
            (Context.langOf ⟨config, trees⟩ call lang) t.key (pluralParams call)) :=
      List.map_congr_left fun t ht => by
        rw [lookup_congr (h t.key (List.mem_map_of_mem ht)) _]
    simp only [Context.render, hlang, hvalues]

/-! ### Extraction collects them -/

theorem mem_allCategories {langs : List Text} {lang : Text} {o : Plural.Options}
    {c : Plural.Category} (hl : lang ∈ langs) (hc : c ∈ Plural.categories lang o) :
    c ∈ Extraction.allCategories langs o := by
  rw [Extraction.allCategories, List.mem_filter, List.contains_iff_mem, List.mem_flatMap]
  exact ⟨Plural.Category.mem_all c, lang, hl, hc⟩

/-- Every term of a chain asks for the key of a category that its language selects. -/
theorem mem_keys_terms {config : Config} {lang raw : Text} {call : Call}
    (h : raw ∈ (terms config lang call).map (·.key)) :
    ∃ c ∈ Plural.categories lang (Extraction.pluralOptions call),
      raw = Key.ofCategory (Extraction.pluralBase config call) c config.keySeparator := by
  obtain ⟨t, ht, rfl⟩ := List.mem_map.mp h
  simp only [terms] at ht
  obtain ⟨⟨c, index⟩, hc, rfl⟩ := List.mem_map.mp ht
  exact ⟨c, (List.mem_zipIdx' hc).2 ▸ List.getElem_mem _, rfl⟩

theorem mem_pluralKeys {config : Config} {lang raw : Text} {call : Call}
    (hne : call.arguments.isEmpty = false) (hd : Extraction.isDynamicPlural call = false)
    (hl : lang ∈ config.langs) (hr : raw ∈ (terms config lang call).map (·.key)) :
    raw ∈ (Extraction.pluralKeys config call).keys := by
  obtain ⟨c, hc, rfl⟩ := mem_keys_terms hr
  simp only [Extraction.pluralKeys, hne, hd]
  exact List.mem_map_of_mem (mem_allCategories hl hc)

/-- The keys of an array are collected one by one, since none of them is dynamic. -/
theorem mem_keys_elements {elements : List Argument} {raw : Text}
    (hd : elements.any Extraction.isDynamicKey = false)
    (hr : raw ∈ elements.filterMap Argument.string?) :
    raw ∈ (Extraction.SourceKeys.concat (elements.map Extraction.elementKeys)).keys := by
  obtain ⟨a, ha, hraw⟩ := List.mem_filterMap.mp hr
  have hstatic : Extraction.isDynamicKey a = false := by
    simpa using List.any_eq_false.mp hd a ha
  rw [Extraction.SourceKeys.keys_concat, List.mem_flatMap]
  refine ⟨_, List.mem_map_of_mem ha, ?_⟩
  simp [Extraction.elementKeys, hstatic, hraw, Extraction.SourceKeys.ofKeys]

theorem mem_translateKeys {config : Config} {lang raw : Text} {call : Call} {request : Request}
    (hc : classifyTranslate call = .ok request) (hr : raw ∈ lookedUp config lang call request) :
    raw ∈ (Extraction.translateKeys call).keys := by
  unfold classifyTranslate at hc
  split at hc
  · cases hc
  · next key hkey =>
    split at hc
    · cases hc
    · next hd =>
      split at hc
      · cases hc
      · next hp =>
        rw [Bool.not_eq_true] at hd hp
        rw [Extraction.translateKeys, hkey]
        split at hc
        · cases hc
          rw [hasDynamicKey] at hd
          · simp only [hd, hp, Bool.or_self]
            simpa [Extraction.elementKeys, hd, Extraction.SourceKeys.ofKeys, Argument.string?,
              lookedUp] using hr
          · rintro _ ⟨⟩
        · cases hc
          simp only [hp]
          exact mem_keys_elements hd hr
        · cases hc

/-- Whatever a site looks up in a supported language, extraction takes from its call. -/
theorem mem_callKeys_of_lookedUp {config : Config} {lang raw : Text} {call : Call}
    {request : Request} (hl : lang ∈ config.langs) (hc : classify call = .ok request)
    (hr : raw ∈ lookedUp config lang call request) :
    raw ∈ (Extraction.callKeys config call).keys := by
  unfold classify at hc
  split at hc
  · cases hc
  · next hne =>
    rw [Bool.not_eq_true] at hne
    cases hf : call.family with
    | plural =>
      simp only [hf] at hc
      simp only [Extraction.callKeys, hf]
      split at hc
      · cases hc
      · next hd =>
        cases hc
        exact mem_pluralKeys hne (by simpa using hd) hl hr
    | translate | inlineTranslate | useTranslate =>
      simp only [hf] at hc
      simp only [Extraction.callKeys, hf]
      exact mem_translateKeys hc hr

/-- A call has its own language only if that is a supported one. -/
theorem langOf_mem {x : Context} {lang : Text} (hl : lang ∈ x.config.langs) (call : Call) :
    x.langOf call lang ∈ x.config.langs := by
  unfold Context.langOf
  split
  · split
    · next h => exact List.contains_iff_mem.mp h
    · exact hl
  · exact hl

theorem mem_calls {config : Config} {code : Text} {call : Call} :
    call ∈ calls config code ↔ ∃ f, call ∈ Marker.scan f (config.markers.name f) code := by
  rw [calls, Marker.inOrder, List.mem_mergeSort, List.mem_flatMap]
  constructor
  · rintro ⟨f, -, h⟩
    exact ⟨f, h⟩
  · rintro ⟨f, h⟩
    exact ⟨f, Family.mem_all f, h⟩

/-- Whatever a call of a chunk looks up, extraction collects from the same text. -/
theorem mem_collect_of_lookedUp {x : Context} {lang code raw : Text} {call : Call}
    {request : Request} (hl : lang ∈ x.config.langs)
    (h : (call, request) ∈ Site.asked (Plan.of x.config code).sites)
    (hr : raw ∈ lookedUp x.config (x.langOf call lang) call request) :
    raw ∈ (Extraction.collect x.config code).keys := by
  rw [asked_of, List.mem_filterMap] at h
  obtain ⟨call', hcall, hsome⟩ := h
  obtain ⟨f, hscan⟩ := mem_calls.mp hcall
  have hok : call' = call ∧ classify call = .ok request := by
    cases hc : classify call' <;> simp [request?, hc, Except.toOption] at hsome
    obtain ⟨rfl, rfl⟩ := hsome
    exact ⟨rfl, hc⟩
  obtain ⟨rfl, hc⟩ := hok
  exact Extraction.mem_keys_collect.mpr
    ⟨f, call', hscan, mem_callKeys_of_lookedUp (langOf_mem hl call') hc hr⟩

/-! ### Sites in sites -/

section Resolve
variable {config : Config} {trees trees' : List (Text × Tree)} {lang : Text}

mutual

/-- A site has the same value in two runs if every call of its tree has. -/
theorem resolve_congr (site : Site)
    (h : ∀ p ∈ Site.asked [site], Context.render ⟨config, trees⟩ lang p.1 p.2 =
      Context.render ⟨config, trees'⟩ lang p.1 p.2) :
    resolve ⟨config, trees⟩ lang site = resolve ⟨config, trees'⟩ lang site := by
  cases site with
  | mk call request nested =>
    rw [Site.asked_cons] at h
    have hown := h (call, request) (List.mem_cons_self ..)
    have hinner := fun carrier => resolveCarried_congr nested carrier
      fun p hp => h p (List.mem_cons_of_mem _ (List.mem_append_left _ hp))
    simp only [resolve]
    rw [hown, hinner]

theorem resolveCarried_congr (sites : List Site) (carrier : Text)
    (h : ∀ p ∈ Site.asked sites, Context.render ⟨config, trees⟩ lang p.1 p.2 =
      Context.render ⟨config, trees'⟩ lang p.1 p.2) :
    resolveCarried ⟨config, trees⟩ lang carrier sites =
      resolveCarried ⟨config, trees'⟩ lang carrier sites := by
  cases sites with
  | nil => rfl
  | cons site rest =>
    rw [Site.asked_cons] at h
    have hsite := resolve_congr site fun p hp => h p (by
      rw [Site.asked_cons] at hp
      simp only [Site.asked_nil, List.append_nil] at hp
      exact List.mem_append_left _ hp)
    have hrest := resolveCarried_congr rest carrier fun p hp =>
      h p (List.mem_cons_of_mem _ (List.mem_append_right _ hp))
    simp only [resolveCarried]
    rw [hsite, hrest]

end

end Resolve

/-! ### The chunk -/

/-- Trees that hold the same value, or both none, for some raw keys in every supported
language. -/
def AgreeOn (config : Config) (raws : List Text) (trees trees' : List (Text × Tree)) : Prop :=
  ∀ lang ∈ config.langs, ∀ raw ∈ raws,
    Context.valueOf? ⟨config, trees⟩ lang raw = Context.valueOf? ⟨config, trees'⟩ lang raw

/-- **A chunk and its findings depend on the trees only through the keys that extraction
collects from the chunk.** -/
theorem inlineText_congr (config : Config) (trees trees' : List (Text × Tree)) (lang code : Text)
    (hl : lang ∈ config.langs)
    (h : AgreeOn config (Extraction.collect config code).keys trees trees') :
    inlineText ⟨config, trees⟩ lang code = inlineText ⟨config, trees'⟩ lang code := by
  have hrender : ∀ p ∈ Site.asked (Plan.of config code).sites,
      Context.render ⟨config, trees⟩ lang p.1 p.2 =
        Context.render ⟨config, trees'⟩ lang p.1 p.2 := by
    intro p hp
    apply render_congr
    intro raw hraw
    exact h _ (langOf_mem (x := ⟨config, trees⟩) hl p.1) raw
      (mem_collect_of_lookedUp (x := ⟨config, trees⟩) hl hp hraw)
  have hresolve : (Plan.of config code).sites.map
        (fun site => (site.call, resolve ⟨config, trees⟩ lang site)) =
      (Plan.of config code).sites.map fun site =>
        (site.call, resolve ⟨config, trees'⟩ lang site) := by
    apply List.map_congr_left
    intro site hs
    rw [resolve_congr site fun p hp => hrender p (Site.asked_subset hs hp)]
  simp only [inlineText, Plan.render]
  rw [hresolve]

/-- The trees differ only in a key that the chunk does not ask for. -/
theorem inlineText_congr_nested :
    "en-US".toList ∈ Config.standard.langs ∧
      AgreeOn Config.standard
        (Extraction.collect Config.standard "$translate('a',\x7bp:$translate(['b'])\x7d)").keys
        [("en-US", [("a", .string "\x7b\x7bp\x7d\x7d"), ("c", .string "x")])]
        [("en-US", [("a", .string "\x7b\x7bp\x7d\x7d")])] ∧
      inlineText ⟨Config.standard, [("en-US",
        [("a", .string "\x7b\x7bp\x7d\x7d"), ("c", .string "x")])]⟩ "en-US"
          "$translate('a',\x7bp:$translate(['b'])\x7d)" =
        inlineText ⟨Config.standard, [("en-US", [("a", .string "\x7b\x7bp\x7d\x7d")])]⟩ "en-US"
          "$translate('a',\x7bp:$translate(['b'])\x7d)" := by
  have hl : "en-US".toList ∈ Config.standard.langs := by decide
  have hkeys :
      (Extraction.collect Config.standard "$translate('a',\x7bp:$translate(['b'])\x7d)").keys =
      ["a".toList, "b".toList] := by cbv
  have hagree : AgreeOn Config.standard
      (Extraction.collect Config.standard "$translate('a',\x7bp:$translate(['b'])\x7d)").keys
      [("en-US", [("a", .string "\x7b\x7bp\x7d\x7d"), ("c", .string "x")])]
      [("en-US", [("a", .string "\x7b\x7bp\x7d\x7d")])] := by
    rw [hkeys]
    intro lang hlang raw hraw
    rw [List.mem_singleton.mp (show lang ∈ ["en-US".toList] from hlang)]
    simp only [List.mem_cons, List.not_mem_nil, or_false] at hraw
    rcases hraw with rfl | rfl <;> rfl
  exact ⟨hl, hagree, inlineText_congr _ _ _ _ _ hl hagree⟩

end Localization.Inlining
