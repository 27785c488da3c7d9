import Mathlib
import Localization.Proofs.Argument.Visible
import Localization.Proofs.Extraction.Discovered
import Localization.Proofs.Inlining.Splice
import Localization.Proofs.Text.Replace

/-! Extracting and then inlining.

A text whose calls take a key with a default value, and nothing else, is inlined with the trees that
are extracted from it: the default value of every call comes to stand in its place
(`inlineText_extract`). Each key is seeded in the tree of every language (`exists_extract`), the
literal of its value is what a call becomes, and calls of two families at one place do not disturb
each other, because the text of a call is longer than that literal (`not_occursIn_literal`). -/
namespace Localization.Inlining

open Marker (Call)
open Text (visible)

/-! ### Calls with a default value -/

/-- Whether a call takes a static key with a default value that stays a text, and nothing else. -/
structure TakesDefault (config : Config) (call : Call) (raw default : Text) : Prop where
  notPlural : call.family ≠ .plural
  key : call.key? = some (.string raw)
  isStatic : Script.hasSubstitution raw = false
  noParams : call.params? = none
  noLang : call.lang? = none
  given : (Key.cut config.valueSeparator raw).2 = some default
  ne_nil : default ≠ []
  isText : Key.initialValue (Key.cut config.valueSeparator raw).1 (some default) =
    .ok (.string default)

/-- The template literal of a text. -/
def literalOf (t : Text) : Text := '`' :: Script.encode t ++ ['`']

section

variable {config : Config} {call : Call} {raw default : Text}
    (h : TakesDefault config call raw default)

include h

theorem TakesDefault.classify : classify call = .ok (.key raw) := by
  have harguments : call.arguments.isEmpty = false := by
    have hkey := h.key
    rw [Call.key?, Call.argument?] at hkey
    cases hc : call.arguments with
    | nil => rw [hc] at hkey; cases hkey
    | cons a rest => rfl
  have hkey : hasDynamicKey (.string raw) = false := h.isStatic
  have htranslate : classifyTranslate call = .ok (.key raw) := by
    simp [classifyTranslate, h.key, hkey, h.noParams, h.noLang, Extraction.isDynamic]
  rw [Inlining.classify, harguments]
  cases hf : call.family with
  | plural => exact absurd hf h.notPlural
  | _ => exact htranslate

theorem TakesDefault.callKeys : (Extraction.callKeys config call).keys = [raw] := by
  have hkey : Extraction.isDynamicKey (.string raw) = false := h.isStatic
  have htranslate : (Extraction.translateKeys call).keys = [raw] := by
    simp [Extraction.translateKeys, h.key, hkey, h.noParams, h.noLang, Extraction.isDynamic,
      Extraction.elementKeys, Argument.string?, Extraction.SourceKeys.ofKeys]
  rw [Extraction.callKeys]
  cases hf : call.family with
  | plural => exact absurd hf h.notPlural
  | _ => exact htranslate

/-- A call has one default value. -/
theorem TakesDefault.default_eq {raw' default' : Text}
    (h' : TakesDefault config call raw' default') : default = default' := by
  have hraw := h.key.symm.trans h'.key
  rw [Option.some.injEq, Argument.string.injEq] at hraw
  subst hraw
  exact Option.some.inj (h.given.symm.trans h'.given)

theorem TakesDefault.seed :
    Extraction.seed config raw = .ok (Extraction.keyPath config raw, .string default) := by
  have hinitial := h.isText
  rw [← h.given] at hinitial
  simp only [Extraction.seed, Extraction.keyPath]
  rw [hinitial]
  rfl

end

/-- A call with a key and a default value as its only argument. -/
theorem takesDefault_of_key {config : Config} {f : Marker.Family} (path : Text) (hf : f ≠ .plural)
    {start : Nat} {raw key default : Text} (hstatic : Script.hasSubstitution key = false)
    (hcut : Key.cut config.valueSeparator key = (path, some default)) (hne : default ≠ [])
    (htext : Key.initialValue path (some default) = .ok (.string default)) :
    TakesDefault config ⟨f, start, raw, [.string key]⟩ key default := by
  cases f with
  | plural => exact absurd rfl hf
  | _ => exact ⟨hf, rfl, hstatic, rfl, rfl, by rw [hcut], hne, by rw [hcut]; exact htext⟩

/-! ### Literals -/

theorem length_dropBlank_le (t : Text) : (dropBlank t).length ≤ t.length := by
  cases t with
  | nil => exact Nat.le_refl _
  | cons c rest =>
    rw [dropBlank]
    split
    · exact Nat.le_succ _
    · exact Nat.le_refl _

theorem token?_pos {t name : Text} {length : Nat} (h : token? t = some (name, length)) :
    0 < length := by
  rw [token?.eq_def] at h
  split at h
  · next body =>
    simp only at h
    split at h
    · next rest hrest =>
      have hinner := length_dropBlank_le body
      have hbehind :=
        length_dropBlank_le ((dropBlank body).drop ((dropBlank body).takeWhile isTokenChar).length)
      rw [hrest, List.length_drop, List.length_cons, List.length_cons] at hbehind
      obtain rfl : body.length + 2 - rest.length = length := (Prod.mk.inj (Option.some.inj h)).2
      omega
    · cases h
  · cases h

/-- Without parameters a token stays what it is. -/
theorem templateBody_nil (t : Text) : templateBody [] t = Script.encode t := by
  refine Text.replaceAll_eq_self_of_take (fun t p hp => ?_) _
  obtain ⟨⟨name, length⟩, htoken, rfl⟩ := Option.map_eq_some_iff.mp hp
  exact ⟨rfl, token?_pos htoken⟩

theorem valueText?_string {t : Text} (h : t ≠ []) :
    valueText? [] (some (.string t)) = some (literalOf t) := by
  obtain ⟨c, rest, rfl⟩ := List.exists_cons_of_ne_nil h
  rw [valueText?, templateBody_nil]
  rfl

/-- A call whose key has its default value in the trees is replaced by its literal. -/
theorem render_of_takesDefault {x : Context} {lang : Text} {call : Call} {raw default : Text}
    (h : TakesDefault x.config call raw default)
    (hvalue : x.valueOf? lang raw = some (.string default)) :
    x.render lang call (.key raw) = (literalOf default, []) := by
  have hlang : x.langOf call lang = lang := by rw [Context.langOf, h.noLang]; rfl
  have hlookup := lookup_eq_getD x lang raw []
  rw [hvalue, valueText?_string h.ne_nil] at hlookup
  simp only [Context.render, hlang, h.noParams]
  exact hlookup

/-! ### Calls at one place -/

section

variable {config : Config} {code : Text}

/-- What stands between the parentheses of a call is shorter than the call. -/
theorem visible_inner {f : Marker.Family} {marker : Text} {call : Call}
    (h : call ∈ Marker.scan f marker code) :
    visible call.inner + 3 ≤ visible call.raw := by
  obtain ⟨name, gap, hraw, c, rest, hc, hstart⟩ :
    ∃ name gap, call.raw = name ++ (gap ++ '(' :: (call.inner ++ [')'])) ∧
      ∃ c rest, name = c :: rest ∧ Script.isNameStart c = true := by
    unfold Marker.scan at h
    split at h
    · rw [Marker.inOrder, List.mem_mergeSort, List.mem_flatMap] at h
      obtain ⟨name, -, h⟩ := h
      obtain ⟨⟨gap, hraw⟩, -⟩ := Marker.exists_raw_eq_of_mem_scanName h
      obtain ⟨-, -, -, -, hstart, -⟩ := Marker.isCallText_of_mem_scanName h
      cases name with
      | nil => cases hstart
      | cons c rest => exact ⟨_, gap, hraw, c, rest, rfl, hstart⟩
    · cases h
  have hname : visible [c] = 1 := by
    have : c ≠ '\\' := by rintro rfl; exact absurd hstart (by decide)
    simp [visible, this]
  have hopening : visible ['('] = 1 := rfl
  have hclosing : visible [')'] = 1 := rfl
  rw [hraw, hc, List.cons_append, Text.visible_cons, Text.visible_append, Text.visible_append,
    Text.visible_cons '(', Text.visible_append]
  omega

theorem visible_default_le {raw default : Text}
    (h : (Key.cut config.valueSeparator raw).2 = some default) :
    visible default ≤ visible raw := by
  have hmem : default ∈ Text.splitOn config.valueSeparator raw := by
    rw [Key.cut] at h
    split at h
    · cases h
    · next key rest hsplit =>
      rw [hsplit]
      exact List.mem_cons_of_mem _ (List.mem_of_head? h)
  rw [← Text.join_splitOn config.valueSeparator raw]
  exact Text.visible_le_of_sublist (Text.sublist_join_of_mem hmem)

/-- Calls at one place have one text. -/
theorem raw_eq_of_start_eq {a b : Call} (ha : a ∈ calls config code) (hb : b ∈ calls config code)
    (hstart : a.start = b.start) : a.raw = b.raw := by
  obtain ⟨f, hf⟩ := mem_calls.mp ha
  obtain ⟨g, hg⟩ := mem_calls.mp hb
  obtain ⟨name, -, hname⟩ := Marker.isCallText_of_mem_scan hf
  obtain ⟨name', -, hname'⟩ := Marker.isCallText_of_mem_scan hg
  have hown : a.raw <+: code.drop b.start := by
    rw [← hstart, drop_start_of_isAt (Marker.isAt_of_mem_scan hf)]
    exact List.prefix_append _ _
  have hother : b.raw <+: code.drop b.start := by
    rw [drop_start_of_isAt (Marker.isAt_of_mem_scan hg)]
    exact List.prefix_append _ _
  rcases List.prefix_or_prefix_of_prefix hown hother with hp | hp
  · exact hname.eq_of_prefix hname' hp
  · exact (hname'.eq_of_prefix hname hp).symm

/-- Calls of one text have one key. -/
theorem key?_eq_of_raw_eq {a b : Call} (ha : a ∈ calls config code) (hb : b ∈ calls config code)
    (hraw : a.raw = b.raw) (hfa : a.family ≠ .plural) (hfb : b.family ≠ .plural) :
    a.key? = b.key? := by
  obtain ⟨f, hf⟩ := mem_calls.mp ha
  obtain ⟨g, hg⟩ := mem_calls.mp hb
  have hinner : a.inner = b.inner := by rw [Call.inner, Call.inner, hraw]
  have harguments := Marker.readArguments_inner hf
  rw [hinner, Marker.readArguments_inner hg, Option.some.injEq] at harguments
  have hfirst {call : Call} (hc : call.family ≠ .plural) : call.family.keyPosition = 0 := by
    cases hf : call.family with
    | plural => exact absurd hf hc
    | _ => rfl
  rw [Call.key?, Call.key?, hfirst hfa, hfirst hfb, Call.argument?, Call.argument?, harguments]

/-- **The literal of a default value does not hold the text of its call.** -/
theorem not_occursIn_literal {call : Call} (hcall : call ∈ calls config code) {raw default : Text}
    (h : TakesDefault config call raw default) :
    Text.occursIn call.raw (literalOf default) = false := by
  obtain ⟨f, hf⟩ := mem_calls.mp hcall
  have hread := Marker.readArguments_inner hf
  have hkey : .string raw ∈ call.arguments := List.mem_of_getElem? h.key
  have hliteral : visible (literalOf default) = visible default + 2 := by
    have hquote : visible ['`'] = 1 := rfl
    rw [literalOf, List.cons_append, Text.visible_cons, Text.visible_append, Script.visible_encode]
    omega
  rw [Bool.eq_false_iff]
  intro hoccurs
  have hle : visible call.raw ≤ visible (literalOf default) :=
    Text.visible_le_of_sublist (Text.occursIn_iff.mp hoccurs).sublist
  have hinner := visible_inner hf
  have hraw := visible_string_le hread hkey
  have hdefault := visible_default_le h.given
  omega

end

/-! ### Texts with default values -/

theorem resolveCarried_eq_nil {x : Context} {lang carrier : Text} {sites : List Site}
    (h : ∀ site ∈ sites, Text.occursIn site.call.raw carrier = false) :
    resolveCarried x lang carrier sites = ([], []) := by
  induction sites with
  | nil => rfl
  | cons site rest ih =>
    rw [resolveCarried, h site List.mem_cons_self, ih fun s hs => h s (List.mem_cons_of_mem _ hs)]
    rfl

/-- Nothing is said of calls that are all sites. -/
theorem findings_sitesOf {calls : List Call} (h : ∀ call ∈ calls, IsStatic call) :
    (sitesOf calls).2 = [] := by
  induction calls using List.reverseRecOn with
  | nil => rfl
  | append_singleton calls call ih =>
    obtain ⟨request, hrequest⟩ := h call (List.mem_append_right _ List.mem_cons_self)
    rw [sitesOf] at ih ⊢
    rw [List.foldl_append, List.foldl_cons, List.foldl_nil, hrequest]
    exact ih fun call hc => h call (List.mem_append_left _ hc)

/-- Whether the calls of a text stand beside each other and take default values at paths that lie
apart. -/
structure HasDefaults (config : Config) (code : Text) : Prop where
  takesDefault : ∀ call ∈ calls config code, ∃ raw default, TakesDefault config call raw default
  notNested : ∀ a ∈ calls config code, ∀ b ∈ calls config code, a.start < b.start → a.stop ≤ b.start
  apart : Extraction.HasApartPaths config [code]

section

variable {config : Config} {code : Text} (h : HasDefaults config code)

include h

theorem mem_uniqueKeys_iff {raw : Text} :
    raw ∈ Extraction.uniqueKeys config [code] ↔
      ∃ call ∈ calls config code, ∃ default, TakesDefault config call raw default := by
  rw [Extraction.uniqueKeys, List.mem_eraseDups, Extraction.SourceKeys.keys_concat, List.map_cons,
    List.map_nil, List.flatMap_cons, List.flatMap_nil, List.append_nil, Extraction.mem_keys_collect]
  constructor
  · rintro ⟨f, call, hcall, hraw⟩
    have hmem := mem_calls.mpr ⟨f, hcall⟩
    obtain ⟨raw', default, hdefault⟩ := h.takesDefault call hmem
    rw [hdefault.callKeys, List.mem_singleton] at hraw
    exact ⟨call, hmem, default, hraw ▸ hdefault⟩
  · rintro ⟨call, hcall, default, hdefault⟩
    obtain ⟨f, hf⟩ := mem_calls.mp hcall
    refine ⟨f, call, hf, ?_⟩
    rw [hdefault.callKeys]
    exact List.mem_cons_self

/-- Every key has a seed. -/
theorem exists_seeds :
    ∃ seeds, (Extraction.uniqueKeys config [code]).mapM (Extraction.seed config) = .ok seeds := by
  refine exists_mapM_eq_ok fun raw hraw => ?_
  obtain ⟨call, -, default, hdefault⟩ := (mem_uniqueKeys_iff h).mp hraw
  exact ⟨_, hdefault.seed⟩

/-- **The trees of the text have the default value of every call.** -/
theorem exists_extract :
    ∃ output, Extraction.extract config [code] [] = .ok output ∧ ∀ lang ∈ config.langs,
      ∀ call ∈ calls config code, ∀ raw default, TakesDefault config call raw default →
        Context.valueOf? ⟨config, output.trees⟩ lang raw = some (.string default) := by
  obtain ⟨seeds, hseeds⟩ := exists_seeds h
  refine ⟨_, Extraction.extract_eq_ok_iff.mpr ⟨seeds, hseeds, rfl⟩, ?_⟩
  intro lang hlang call hcall raw default hdefault
  have hraw : raw ∈ Extraction.uniqueKeys config [code] :=
    (mem_uniqueKeys_iff h).mpr ⟨call, hcall, default, hdefault⟩
  have hempty : (Json.Value.object ((none : Option Tree).getD [])).hasDistinctKeys :=
    Json.Object.hasDistinctKeys_nil
  have hopen : Tree.IsOpenTo ((none : Option Tree).getD []) (Extraction.keyPath config raw) := by
    intro q v _ _ hv
    cases q <;> cases hv
  obtain ⟨value, hvalue, hfound⟩ :=
    Extraction.at?_treeOf_of_mem (Extraction.nodup_uniqueKeys config [code]) hseeds
    hraw (fun other hother hne => h.apart other hother raw hraw hne) hempty hopen
  obtain rfl : value = .string default := by
    rw [hdefault.given, hdefault.isText] at hvalue
    exact (Except.ok.inj hvalue).symm
  have hnone : ((none : Option Tree).getD []).at? (Extraction.keyPath config raw) = none := by
    cases Extraction.keyPath config raw <;> rfl
  rw [hnone] at hfound
  rw [Context.valueOf?, Extraction.outputOf, lookup_map_of_mem hlang, Option.bind_some]
  exact hfound

/-- A call that starts inside of another one starts where that one starts. -/
theorem start_eq_of_inside {a b : Call} (ha : a ∈ calls config code) (hb : b ∈ calls config code)
    (hstart : a.start ≤ b.start) (hstop : b.start < a.stop) : a.start = b.start := by
  rcases Nat.lt_or_eq_of_le hstart with hlt | heq
  · have := h.notNested a ha b hb hlt
    omega
  · exact heq

/-- A site is replaced by the literal of its default value, whatever is nested in it. -/
theorem resolve_eq {trees : List (Text × Tree)} {lang : Text} {site : Site}
    (hs : site ∈ (Plan.of config code).sites) {raw default : Text}
    (hdefault : TakesDefault config site.call raw default)
    (hvalue : Context.valueOf? ⟨config, trees⟩ lang raw = some (.string default)) :
    resolve ⟨config, trees⟩ lang site = (literalOf default, []) := by
  cases site with
  | mk call request nested =>
    obtain ⟨hcall, hrequest⟩ := mem_asked_of.mp (Site.call_mem_asked hs)
    obtain rfl : request = .key raw := Except.ok.inj (hrequest.symm.trans hdefault.classify)
    have hrender : Context.render ⟨config, trees⟩ lang call (.key raw) = (literalOf default, []) :=
      render_of_takesDefault hdefault hvalue
    have hcarried : resolveCarried ⟨config, trees⟩ lang (literalOf default) nested = ([], []) := by
      refine resolveCarried_eq_nil fun inner hinner => ?_
      have hasked := Site.call_mem_asked hinner
      obtain ⟨hstart, hstop⟩ := (Site.isOrdered_of_mem (areOrdered_of config code) hs).2 _ hasked
      have hmem : (inner.call, inner.request) ∈ Site.asked (Plan.of config code).sites := by
        refine Site.asked_subset hs ?_
        rw [Site.asked_cons]
        exact List.mem_cons_of_mem _ (List.mem_append_left _ hasked)
      have hinner := (mem_asked_of.mp hmem).1
      rw [← raw_eq_of_start_eq hcall hinner (start_eq_of_inside h hcall hinner hstart hstop)]
      exact not_occursIn_literal hcall hdefault
    simp only [resolve, hrender, hcarried]
    rfl

theorem exists_resolve_eq {output : Extraction.Output} {lang : Text}
    (hvalues : ∀ call ∈ calls config code, ∀ raw default, TakesDefault config call raw default →
      Context.valueOf? ⟨config, output.trees⟩ lang raw = some (.string default)) {site : Site}
    (hs : site ∈ (Plan.of config code).sites) :
    site.call ∈ calls config code ∧ ∃ raw default, TakesDefault config site.call raw default ∧
      resolve ⟨config, output.trees⟩ lang site = (literalOf default, []) := by
  have hcall := (mem_asked_of.mp (Site.call_mem_asked hs)).1
  obtain ⟨raw, default, hdefault⟩ := h.takesDefault _ hcall
  exact ⟨hcall, raw, default, hdefault,
    resolve_eq h hs hdefault (hvalues _ hcall raw default hdefault)⟩

end

/-- **Extraction followed by inlining puts every default value in its place**: extracting the text
succeeds, and in every language the text with the span of each call replaced by the literal of its
default value is what inlining gives, with no findings. -/
theorem inlineText_extract {config : Config} {code : Text} (h : HasDefaults config code) :
    ∃ output, Extraction.extract config [code] [] = .ok output ∧ ∀ lang ∈ config.langs,
      ∃ patches : List Text.Patch, patches.Pairwise (fun p q => p.stop ≤ q.start) ∧
        (∀ p, p ∈ patches ↔ ∃ call ∈ calls config code, ∃ raw default,
          TakesDefault config call raw default ∧ p = patchAt code (call, literalOf default)) ∧
        Text.patchFromEnd code patches = some (inlineText ⟨config, output.trees⟩ lang code).1 ∧
        (inlineText ⟨config, output.trees⟩ lang code).2 = .empty := by
  obtain ⟨output, hextract, hvalues⟩ := exists_extract h
  refine ⟨output, hextract, fun lang hlang => ?_⟩
  have hresolve {site : Site} :=
    @exists_resolve_eq config code h output lang (hvalues lang hlang) site
  refine ⟨(replacements ⟨config, output.trees⟩ lang code).map (patchAt code), pairwise_patches,
    fun p => ⟨?_, ?_⟩,
    patchFromEnd_inlineText, ?_⟩
  · intro hp
    obtain ⟨r, hr, rfl⟩ := List.mem_map.mp hp
    obtain ⟨site, hs, rfl⟩ := List.mem_map.mp hr
    obtain ⟨hcall, raw, default, hdefault, hvalue⟩ := hresolve hs
    exact ⟨site.call, hcall, raw, default, hdefault, by rw [hvalue]⟩
  · rintro ⟨call, hcall, raw, default, hdefault, rfl⟩
    obtain ⟨f, hf⟩ := mem_calls.mp hcall
    obtain ⟨r, hr, hstart, hstop⟩ :=
      @exists_replacement_around ⟨config, output.trees⟩ lang code f call hf ⟨_, hdefault.classify⟩
    obtain ⟨site, hs, rfl⟩ := List.mem_map.mp hr
    obtain ⟨hsite, raw', default', hdefault', hvalue⟩ := hresolve hs
    have hplace := start_eq_of_inside h hsite hcall hstart hstop
    have hraw := raw_eq_of_start_eq hsite hcall hplace
    -- The outermost call at the place of a call takes the key of that call.
    have hkey := key?_eq_of_raw_eq hsite hcall hraw hdefault'.notPlural hdefault.notPlural
    rw [hdefault'.key, hdefault.key, Option.some.injEq, Argument.string.injEq] at hkey
    subst hkey
    obtain rfl : default' = default := Option.some.inj (hdefault'.given.symm.trans hdefault.given)
    refine List.mem_map.mpr ⟨_, hr, ?_⟩
    simp only [patchAt, Call.byteSpan, hplace, hraw, hvalue]
  · have hfindings : (Plan.of config code).findings = [] := findings_sitesOf fun call hcall => by
      obtain ⟨raw, default, hdefault⟩ := h.takesDefault call hcall
      exact ⟨_, hdefault.classify⟩
    have hmissing : ((Plan.of config code).render ⟨config, output.trees⟩ lang).2 = [] := by
      simp only [Plan.render, List.flatMap_eq_nil_iff, List.mem_reverse, List.forall_mem_map]
      intro site hs
      obtain ⟨-, _, _, -, hvalue⟩ := hresolve hs
      rw [hvalue]
    simp only [inlineText, hfindings, hmissing]
    rfl

/-! ### Calls of two families -/

/-- A hook whose result goes by the name of another marker, so that every call is one of two
families. -/
def shadowedMarker : Text :=
  "let $translate=useTranslate$();[$translate('a.b@@Hi'),$translate('c@@`you`')]"

/-- The text with the default values in place of the calls. -/
def inlinedMarker : Text := "let $translate=useTranslate$();[`Hi`,`\\`you\\``]"

/-- The first of its calls, in a family. -/
def greetingCall (f : Marker.Family) : Call :=
  ⟨f, 32, "$translate('a.b@@Hi')", [.string "a.b@@Hi"]⟩

/-- The second one. -/
def nameCall (f : Marker.Family) : Call :=
  ⟨f, 54, "$translate('c@@`you`')", [.string "c@@`you`"]⟩

theorem calls_shadowedMarker :
    calls Config.standard shadowedMarker = [greetingCall .translate, greetingCall .useTranslate,
      nameCall .translate, nameCall .useTranslate] := by cbv

theorem takesDefault_greetingCall {f : Marker.Family} (hf : f ≠ .plural) :
    TakesDefault Config.standard (greetingCall f) "a.b@@Hi" "Hi" :=
  takesDefault_of_key "a.b" hf (by decide) (by cbv) (by decide) rfl

theorem takesDefault_nameCall {f : Marker.Family} (hf : f ≠ .plural) :
    TakesDefault Config.standard (nameCall f) "c@@`you`" "`you`" :=
  takesDefault_of_key "c" hf (by decide) (by cbv) (by decide) rfl

theorem hasDefaults_shadowedMarker : HasDefaults Config.standard shadowedMarker := by
  have hkeys : Extraction.uniqueKeys Config.standard [shadowedMarker] =
      ["a.b@@Hi".toList, "c@@`you`".toList] := by cbv
  refine ⟨?_, ?_, ?_⟩
  · rw [calls_shadowedMarker]
    simp only [List.forall_mem_cons, List.not_mem_nil, false_implies, implies_true, and_true]
    exact ⟨⟨_, _, takesDefault_greetingCall (by decide)⟩,
      ⟨_, _, takesDefault_greetingCall (by decide)⟩, ⟨_, _, takesDefault_nameCall (by decide)⟩,
      _, _, takesDefault_nameCall (by decide)⟩
  · rw [calls_shadowedMarker]
    decide
  · rw [Extraction.HasApartPaths, hkeys]
    decide

/-- Each call is found twice and replaced once. -/
theorem inlineText_extract_shadowedMarker :
    HasDefaults Config.standard shadowedMarker ∧
      ∃ output, Extraction.extract Config.standard [shadowedMarker] [] = .ok output ∧
        Text.patchFromEnd shadowedMarker [⟨32, 53, "`Hi`"⟩, ⟨54, 76, "`\\`you\\``"⟩] =
          some inlinedMarker ∧
        inlineText ⟨Config.standard, output.trees⟩ "en-US" shadowedMarker =
          (inlinedMarker, .empty) := by
  refine ⟨hasDefaults_shadowedMarker, ?_⟩
  obtain ⟨output, hextract, hlang⟩ := inlineText_extract hasDefaults_shadowedMarker
  obtain ⟨patches, hpairwise, hmem, htext, hfindings⟩ := hlang "en-US" (by decide)
  have hpatch : Text.patchFromEnd shadowedMarker [⟨32, 53, "`Hi`"⟩, ⟨54, 76, "`\\`you\\``"⟩] =
      some inlinedMarker := by cbv
  -- The calls of the two families at one place take one patch.
  have hpatches : patches = [⟨32, 53, "`Hi`"⟩, ⟨54, 76, "`\\`you\\``"⟩] := by
    refine Text.patches_ext hpairwise (by decide) (by decide) fun p => (hmem p).trans ?_
    rw [calls_shadowedMarker]
    simp only [List.mem_cons, List.not_mem_nil, or_false]
    constructor
    · rintro ⟨call, hcall, raw, default, hdefault, rfl⟩
      rcases hcall with rfl | rfl | rfl | rfl
      · exact .inl (hdefault.default_eq (takesDefault_greetingCall (by decide)) ▸ rfl)
      · exact .inl (hdefault.default_eq (takesDefault_greetingCall (by decide)) ▸ rfl)
      · exact .inr (hdefault.default_eq (takesDefault_nameCall (by decide)) ▸ rfl)
      · exact .inr (hdefault.default_eq (takesDefault_nameCall (by decide)) ▸ rfl)
    · rintro (rfl | rfl)
      · exact ⟨_, .inl rfl, _, _, takesDefault_greetingCall (by decide), rfl⟩
      · exact ⟨_, .inr (.inr (.inl rfl)), _, _, takesDefault_nameCall (by decide), rfl⟩
  rw [hpatches, hpatch, Option.some.injEq] at htext
  exact ⟨output, hextract, hpatch, Prod.ext htext.symm hfindings⟩

end Localization.Inlining
