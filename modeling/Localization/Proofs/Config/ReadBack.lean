import Mathlib
import Localization.Config.Json
import Localization.Proofs.Json.ReadBack
import Localization.Proofs.Tree.Sort

/-! Configurations read back.

A configuration is read back from the object that it is written as, and also from what is left
of that object without some fields that say the default (`ofText?_without`). Read fields are the
entries of the object (`fields?_raw`), so a field is found with what was written for it, or it
was left out, because there is nothing to write or because it says the default (`field?_eq`). A
language is written as its tag exactly if it has no more than that (`toJson_eq_string_iff`). -/
namespace Localization

open Json (Value)
open Json.Object (get? get?_iff get?_eq_none_iff)

/-! ### Fields of a written record -/

/-- The entries of an object as they are read. -/
def readEntries (entries : Json.Object) : Fields := entries.map fun e => (e.1, e.2.raw)

theorem lookup_readEntries (entries : Json.Object) (key : Text) :
    (readEntries entries).lookup key = (get? entries key).map Value.raw := by
  induction entries with
  | nil => rfl
  | cons e rest ih =>
    obtain ⟨k, v⟩ := e
    rw [readEntries, get?] at ih
    simp only [readEntries, get?, List.map_cons, List.lookup_cons]
    cases key == k with
    | true => rfl
    | false => exact ih

/-- An object with keys of a record, none of them twice, has its entries for fields. -/
theorem namedFields?_rawEntries {names : List Text} {entries : Json.Object}
    (hnames : ∀ e ∈ entries, e.1 ∈ names) (hkeys : (entries.map (·.1)).Nodup) :
    namedFields? names (Json.rawEntries entries) = some (readEntries entries) := by
  induction entries with
  | nil => rfl
  | cons e rest ih =>
    obtain ⟨key, v⟩ := e
    rw [List.map_cons, List.nodup_cons] at hkeys
    have hrest := ih (fun e he => hnames e (List.mem_cons_of_mem _ he)) hkeys.2
    have hknown : names.contains key = true :=
      List.contains_iff_mem.mpr (hnames _ List.mem_cons_self)
    have hfirst : (readEntries rest).lookup key = none := by
      rw [lookup_readEntries, get?_eq_none_iff.mpr hkeys.1]
      rfl
    rw [Json.rawEntries, namedFields?, Json.decode?_glyphs, hrest]
    simp only [Option.bind_eq_bind, Option.bind_some, hknown, Bool.not_true, Bool.false_eq_true,
      if_false, hfirst, Option.isSome_none]
    rfl

theorem fields?_raw {names : List Text} {entries : Json.Object} (hnames : names.Nodup)
    (hkeys : (entries.map (·.1)).Sublist names) :
    fields? names (Value.object entries).raw = some (readEntries entries) := by
  rw [Value.raw, fields?]
  exact namedFields?_rawEntries (fun e he => hkeys.subset (List.mem_map_of_mem he))
    (hnames.sublist hkeys)

section

variable {α : Type} (write : α → Option Value) {read : Json.Raw → Option α} {entries : Json.Object}

/-- A field that is written is read back, and so is one that is left out if it says the default. -/
theorem field?_eq {name : String} {x default : α}
    (hread : ∀ v, write x = some v → read v.raw = some x)
    (h : get? entries name.toList = write x ∧ (write x = none → x = default) ∨
      get? entries name.toList = none ∧ x = default) :
    field? (readEntries entries) name default read = some x := by
  rw [field?, lookup_readEntries]
  rcases h with ⟨hentry, hnone⟩ | ⟨hentry, rfl⟩
  · rw [hentry]
    cases hw : write x with
    | none => rw [hnone hw]; rfl
    | some v => exact hread v hw
  · rw [hentry]
    rfl

end

/-- A field that may be left out stands under its name. -/
theorem keys_optional {α : Type} (name : Text) (write : α → Value) (a : Option α) :
    ((a.toList.map fun a => (name, write a)).map (·.1)).Sublist [name] := by
  cases a with
  | none => exact List.nil_sublist _
  | some a => exact List.Sublist.refl _

/-! ### Texts and lists -/

theorem readText?_string (t : Text) : readText? (Value.string t).raw = some t :=
  Json.decode?_glyphs t

theorem readTextOrNull?_string (t : Text) :
    readTextOrNull? (Value.string t).raw = some (some t) := by
  have hread : readTextOrNull? (Value.string t).raw = (readText? (Value.string t).raw).map some :=
    rfl
  rw [hread, readText?_string]
  rfl

theorem readList?_array {α : Type} {write : α → Value} {read : Json.Raw → Option α} {items : List α}
    (h : ∀ item ∈ items, read (write item).raw = some item) :
    readList? read (Value.array (items.map write)).raw = some items := by
  rw [Value.raw, readList?]
  induction items with
  | nil => rfl
  | cons item items ih =>
    rw [List.map_cons, Json.rawItems, List.mapM_cons, h item List.mem_cons_self,
      ih fun item hitem => h item (List.mem_cons_of_mem _ hitem)]
    rfl

/-! ### Languages -/

namespace Units

theorem place_append {kept : List (Text × Text)} {unit : Text}
    (h : ∀ e ∈ kept, Text.le e.1 unit = true ∧ e.1 ≠ unit) (name : Text) :
    place unit name kept = kept ++ [(unit, name)] := by
  induction kept with
  | nil => rfl
  | cons e kept ih =>
    obtain ⟨u, n⟩ := e
    obtain ⟨hle, hne⟩ := h (u, n) List.mem_cons_self
    have hdifferent : (unit == u) = false := beq_false_of_ne (Ne.symm hne)
    have hbehind : ¬ Text.le unit u = true := fun hge => hne (Text.le_antisymm hle hge)
    rw [place, hdifferent, if_neg Bool.false_ne_true, if_neg hbehind, ih fun e he =>
      h e (List.mem_cons_of_mem _ he), List.cons_append]

theorem entries_foldl_insert (units : Units) {more : List (Text × Text)}
    (h : AreOrdered (units.entries ++ more)) :
    (more.foldl (fun units e => units.insert e.1 e.2) units).entries = units.entries ++ more := by
  induction more generalizing units with
  | nil => rw [List.foldl_nil, List.append_nil]
  | cons e more ih =>
    have hlast : ∀ other ∈ units.entries, Text.le other.1 e.1 = true ∧ other.1 ≠ e.1 :=
      fun other hother =>
        (List.pairwise_append.mp h).2.2 other hother e List.mem_cons_self
    have hinsert : (units.insert e.1 e.2).entries = units.entries ++ [e] :=
      place_append hlast e.2
    rw [List.append_cons, ← hinsert] at h
    rw [List.foldl_cons, ih _ h, hinsert, ← List.append_cons]

/-- Units are made of their entries. -/
theorem ofList_entries (units : Units) : ofList units.entries = units :=
  Units.ext (entries_foldl_insert empty units.ordered)

end Units

/-- The units of a language as they are written. -/
def unitEntries (units : Units) : Json.Object := units.entries.map fun e => (e.1, .string e.2)

theorem readUnits?_object (units : Units) :
    readUnits? (Value.object (unitEntries units)).raw = some (some units) := by
  have hread (entries : List (Text × Text)) :
      (Json.rawEntries (entries.map fun e => (e.1, Value.string e.2))).mapM (fun e =>
        do return (← Json.decode? e.1, ← readText? e.2)) =
      some entries := by
    induction entries with
    | nil => rfl
    | cons e entries ih =>
      rw [List.map_cons, Json.rawEntries, List.mapM_cons, ih]
      simp only [Json.decode?_glyphs, readText?_string]
      rfl
  rw [Value.raw, readUnits?, unitEntries, hread]
  exact congrArg (fun units => some (some units)) units.ofList_entries

namespace Locale

/-- The fields that a language is written with. -/
def toObject (l : Locale) : Json.Object :=
  let optional {α : Type} (name : String) (write : α → Value) (a : Option α) : Json.Object :=
    a.toList.map fun a => (name.toList, write a)
  ("lang".toList, .string l.lang) :: (optional "extension" .string l.extension ++
    optional "currency" .string l.currency ++
    optional "timeZone" .string l.timeZone ++ optional "units" (fun units =>
      .object (unitEntries units)) l.units)

theorem toJson_of_not_isTagOnly {l : Locale} (h : l.isTagOnly = false) :
    l.toJson = .object l.toObject := by
  rw [toJson, h]
  simp [toObject, unitEntries]

/-- A language is written as a tag exactly if it is no more than a tag. -/
theorem toJson_eq_string_iff (l : Locale) :
    (∃ tag, l.toJson = .string tag) ↔ l.extension = none ∧ l.currency = none ∧ l.timeZone = none ∧
      l.units = none := by
  cases h : l.isTagOnly with
  | true =>
    have hstring : l.toJson = .string l.lang := by rw [toJson, h]; rfl
    simp only [isTagOnly, Bool.and_eq_true, Option.isNone_iff_eq_none] at h
    exact ⟨fun _ => ⟨h.1.1.1, h.1.1.2, h.1.2, h.2⟩, fun _ => ⟨l.lang, hstring⟩⟩
  | false =>
    rw [toJson_of_not_isTagOnly h]
    constructor
    · intro htag
      obtain ⟨_, htag⟩ := htag
      cases htag
    · intro hnone
      obtain ⟨he, hc, ht, hu⟩ := hnone
      simp [isTagOnly, he, hc, ht, hu] at h

theorem isKept_unitEntries (depth : Nat) (units : Units) :
    Json.areEntriesKept depth (unitEntries units) = true := by
  rw [Json.areEntriesKept_iff]
  exact List.forall_mem_map.mpr fun _ _ => rfl

theorem hasDistinctKeys_unitEntries (units : Units) :
    (Value.object (unitEntries units)).hasDistinctKeys := by
  rw [Json.hasDistinctKeys_object]
  constructor
  · rw [unitEntries, List.map_map, List.Nodup, List.pairwise_map]
    exact units.ordered.imp fun hab => hab.2
  · intro e he
    obtain ⟨unit, -, rfl⟩ := List.mem_map.mp he
    trivial

theorem keys_toObject (l : Locale) : (l.toObject.map (·.1)).Sublist fieldNames := by
  rw [toObject, List.map_cons, List.map_append, List.map_append, List.map_append]
  exact ((((keys_optional "extension".toList .string l.extension).append
    (keys_optional "currency".toList .string l.currency)).append
    (keys_optional "timeZone".toList .string l.timeZone)).append
    (keys_optional "units".toList (fun units => .object (unitEntries units)) l.units)).cons_cons _

theorem get?_toObject (l : Locale) :
    get? l.toObject "lang".toList = some (.string l.lang) ∧
    get? l.toObject "extension".toList = l.extension.map .string ∧
    get? l.toObject "currency".toList = l.currency.map .string ∧
    get? l.toObject "timeZone".toList = l.timeZone.map .string ∧
    get? l.toObject "units".toList = l.units.map fun units => .object (unitEntries units) := by
  obtain ⟨lang, extension, currency, timeZone, units⟩ := l
  cases extension <;> cases currency <;> cases timeZone <;> cases units <;>
    exact ⟨rfl, rfl, rfl, rfl, rfl⟩

theorem isKept_toObject (l : Locale) : (Value.object l.toObject).isKept maxDepth = true := by
  obtain ⟨lang, extension, currency, timeZone, units⟩ := l
  have hunits (units : Units) :
      (Value.object (unitEntries units)).isKept (maxDepth - 1) = true :=
    isKept_unitEntries _ units
  cases extension <;> cases currency <;> cases timeZone <;> cases units <;>
    simp [Value.isKept, toObject, Json.areEntriesKept, maxDepth, Json.maxDepth, isKept_unitEntries]

theorem isKept_toJson (l : Locale) : l.toJson.isKept maxDepth = true := by
  cases htag : l.isTagOnly with
  | true => rw [toJson, htag, if_pos rfl, Value.isKept]
  | false => rw [toJson_of_not_isTagOnly htag, isKept_toObject]

theorem hasDistinctKeys_toObject (l : Locale) :
    (Value.object l.toObject).hasDistinctKeys := by
  rw [Json.hasDistinctKeys_object]
  refine ⟨(by decide : fieldNames.Nodup).sublist l.keys_toObject, fun e he => ?_⟩
  simp only [toObject, List.mem_cons, List.mem_append, List.mem_map, Option.mem_toList] at he
  rcases he with rfl | ((⟨t, -, rfl⟩ | ⟨t, -, rfl⟩) | ⟨t, -, rfl⟩) | ⟨units, -, rfl⟩
  · trivial
  · trivial
  · trivial
  · trivial
  · exact hasDistinctKeys_unitEntries units

/-- A language is read back from what it is written as. -/
theorem ofRaw?_toJson (l : Locale) : ofRaw? l.toJson.raw = some l := by
  cases htag : l.isTagOnly with
  | true =>
    have hjson : l.toJson = .string l.lang := by rw [toJson, htag]; rfl
    rw [hjson, Value.raw, ofRaw?, Json.Raw.toValue?, Json.decode?_glyphs]
    simp only [Option.map_some, Option.bind_eq_bind, Option.bind_some]
    rw [← eq_ofTag_of_isTagOnly htag]
  | false =>
    have hvalue := Json.toValue?_raw _ l.isKept_toObject l.hasDistinctKeys_toObject
    have hfields := fields?_raw (by decide) l.keys_toObject
    obtain ⟨hlang, hextension, hcurrency, htimeZone, hunits⟩ := l.get?_toObject
    have hnone {α : Type} (write : α → Value) (x : Option α) (hx : x.map write = none) : x = none :=
      Option.map_eq_none_iff.mp hx
    have htext (x : Option Text) (v : Value) (hv : x.map Value.string = some v) :
        readTextOrNull? v.raw = some x := by
      obtain ⟨t, rfl, rfl⟩ := Option.map_eq_some_iff.mp hv
      exact readTextOrNull?_string t
    have hlang' : (readEntries l.toObject).lookup "lang".toList =
        some (Value.string l.lang).raw := by
      rw [lookup_readEntries, hlang]
      rfl
    have hextension' :=
      field?_eq (Option.map Value.string) (htext l.extension) (.inl ⟨hextension, hnone _ _⟩)
    have hcurrency' :=
      field?_eq (Option.map Value.string) (htext l.currency) (.inl ⟨hcurrency, hnone _ _⟩)
    have htimeZone' :=
      field?_eq (Option.map Value.string) (htext l.timeZone) (.inl ⟨htimeZone, hnone _ _⟩)
    have hunits' : field? (readEntries l.toObject) "units" none readUnits? = some l.units := by
      refine field?_eq (Option.map fun units => .object (unitEntries units)) (fun v hv =>
        ?_) (.inl ⟨hunits, hnone _ _⟩)
      obtain ⟨units, hu, rfl⟩ := Option.map_eq_some_iff.mp hv
      rw [readUnits?_object units, hu]
    have hnoText (glyphs : List Json.Glyph)
        (hglyphs : (Value.object l.toObject).raw = .string glyphs) : False := by
      rw [Value.raw] at hglyphs
      cases hglyphs
    rw [toJson_of_not_isTagOnly htag, ofRaw?, hvalue]
    simp only [Option.bind_eq_bind, Option.bind_some, hfields, hlang', readText?_string,
      hextension', hcurrency', htimeZone', hunits']
    · rfl
    · exact hnoText

end Locale

/-! ### Markers -/

theorem field?_string {entries : Json.Object} {name : String} {t default : Text}
    (h : get? entries name.toList = some (.string t)) :
    field? (readEntries entries) name default readText? = some t := by
  refine field?_eq (fun t => some (Value.string t)) (fun v hv =>
    ?_) (.inl ⟨h, fun hnone => by cases hnone⟩)
  cases hv
  exact readText?_string t

theorem Markers.ofRaw?_toJson (m : Markers) : Markers.ofRaw? m.toJson.raw = some m := by
  rw [Markers.toJson, Markers.ofRaw?, fields?_raw (by decide) (by exact List.Sublist.refl _)]
  simp only [Option.bind_eq_bind, Option.bind_some]
  rw [field?_string rfl, field?_string rfl, field?_string rfl, field?_string rfl]
  rfl

/-! ### Configurations -/

namespace Config

/-- A written configuration without the fields of some names. -/
def without (c : Config) (names : List Text) : Json.Object :=
  c.toObject.filter fun e => !names.contains e.1

/-- Whether a field is written as the default has it. -/
def saysDefault (c : Config) (name : Text) : Prop :=
  get? c.toObject name = get? standard.toObject name

theorem without_nil (c : Config) : c.without [] = c.toObject :=
  List.filter_eq_self.mpr fun _ _ => rfl

theorem get?_without (c : Config) (names : List Text) (name : Text) :
    get? (c.without names) name = if names.contains name then none else get? c.toObject name := by
  rw [without]
  induction c.toObject with
  | nil => rw [List.filter_nil]; exact (ite_self _).symm
  | cons e rest ih =>
    obtain ⟨k, v⟩ := e
    rw [get?] at ih ⊢
    rw [get?, List.lookup_cons]
    cases hkey : name == k with
    | true =>
      obtain rfl := beq_iff_eq.mp hkey
      cases hdropped : names.contains name with
      | true =>
        rw [List.filter_cons_of_neg (by simpa using hdropped), ih, hdropped]
        rfl
      | false =>
        rw [List.filter_cons_of_pos (by simpa using hdropped), List.lookup_cons, beq_self_eq_true]
        rfl
    | false =>
      cases hdropped : names.contains k with
      | true =>
        rw [List.filter_cons_of_neg (by simpa using hdropped)]
        exact ih
      | false =>
        rw [List.filter_cons_of_pos (by simpa using hdropped), List.lookup_cons, hkey]
        exact ih

theorem keys_toObject (c : Config) : (c.toObject.map (·.1)).Sublist fieldNames := by
  rw [toObject, List.map_append, List.map_append]
  exact ((List.Sublist.refl (fieldNames.take 9)).append
    (keys_optional "defaultLocale".toList .string c.defaultLocale)).append
    (List.Sublist.refl (fieldNames.drop 10))

theorem keys_without (c : Config) (names : List Text) :
    ((c.without names).map (·.1)).Sublist fieldNames :=
  (List.filter_sublist.map _).trans c.keys_toObject

theorem get?_toObject (c : Config) :
    get? c.toObject "basePath".toList = some (.string c.basePath) ∧
    get? c.toObject "sourceFilesPaths".toList = some (.array (c.sourcePaths.map .string)) ∧
    get? c.toObject "excludedPaths".toList = some (.array (c.excludedPaths.map .string)) ∧
    get? c.toObject "assetsPath".toList = some (.string c.assetsPath) ∧
    get? c.toObject "format".toList = some (.string c.format) ∧
    get? c.toObject "filename".toList = some (.string c.filename) ∧
    get? c.toObject "keySeparator".toList = some (.string c.keySeparator) ∧
    get? c.toObject "keyValueSeparator".toList = some (.string c.valueSeparator) ∧
    get? c.toObject "supportedLocales".toList = some (.array (c.locales.map Locale.toJson)) ∧
    get? c.toObject "defaultLocale".toList = c.defaultLocale.map .string ∧
    get? c.toObject "outDir".toList = some (.string c.outDir) ∧
    get? c.toObject "chunksDir".toList = some (.string c.chunksDir) ∧
    get? c.toObject "logFile".toList = some (.string c.logFile) ∧
    get? c.toObject "markers".toList = some c.markers.toJson := by
  obtain ⟨_, _, _, _, _, _, _, _, _, defaultLocale, _, _, _, _⟩ := c
  cases defaultLocale <;> exact ⟨rfl, rfl, rfl, rfl, rfl, rfl, rfl, rfl, rfl, rfl, rfl,
    rfl, rfl, rfl⟩

section

variable {c : Config} {names : List Text} (hnames : ∀ name ∈ names, c.saysDefault name)

include hnames

/-- A field is read back where it is kept, and where it is left out because it says the default. -/
theorem field?_without {α : Type} (write : α → Option Value) {read : Json.Raw → Option α}
    {name : String} {x default : α} (hx : get? c.toObject name.toList = write x)
    (hdefault : get? standard.toObject name.toList = write default)
    (hread : ∀ v, write x = some v → read v.raw = some x)
    (hreadDefault : ∀ v, write default = some v → read v.raw = some default)
    (hnone : write x = none → x = default) :
    field? (readEntries (c.without names)) name default read = some x := by
  refine field?_eq write hread ?_
  cases hdropped : names.contains name.toList with
  | false => exact .inl ⟨by rw [get?_without, hdropped, if_neg Bool.false_ne_true, hx], hnone⟩
  | true =>
    have hsame : write x = write default := by
      rw [← hx, ← hdefault, hnames _ (List.contains_iff_mem.mp hdropped)]
    refine .inr ⟨by rw [get?_without, hdropped, if_pos rfl], ?_⟩
    cases hw : write x with
    | none => exact hnone hw
    | some v => exact Option.some.inj ((hread v hw).symm.trans (hreadDefault v (hsame ▸ hw)))

/-- A field that is always written. -/
theorem field?_without_of_some {α : Type} (write : α → Value) {read : Json.Raw → Option α}
    {name : String} {x default : α} (hx : get? c.toObject name.toList = some (write x))
    (hdefault : get? standard.toObject name.toList = some (write default))
    (hread : read (write x).raw = some x) (hreadDefault : read (write default).raw = some default) :
    field? (readEntries (c.without names)) name default read = some x :=
  field?_without hnames (fun x => some (write x)) hx hdefault (fun v hv => by cases hv; exact hread)
    (fun v hv => by cases hv; exact hreadDefault) fun hnone => by cases hnone

/-- A configuration is read from what is left of its object without fields that say the default. -/
theorem ofRaw?_without :
    ofRaw? (Value.object (c.without names)).raw = some c := by
  have htext (t : Text) := readText?_string t
  have htexts (ts : List Text) : readList? readText? (Value.array (ts.map .string)).raw = some ts :=
    readList?_array fun t _ => readText?_string t
  have hlocales (ls : List Locale) :
      readList? Locale.ofRaw? (Value.array (ls.map Locale.toJson)).raw = some ls :=
    readList?_array fun l _ => l.ofRaw?_toJson
  have hlang (x : Option Text) (v : Value) (hv : x.map Value.string = some v) :
      readTextOrNull? v.raw = some x := by
    obtain ⟨t, rfl, rfl⟩ := Option.map_eq_some_iff.mp hv
    exact readTextOrNull?_string t
  obtain ⟨hbase, hsources, hexcluded, hassets, hformat, hfilename, hkey, hvalue, hsupported,
      hdefault, hout, hchunks, hlog, hmarkers⟩ :=
    c.get?_toObject
  have hbase' := field?_without_of_some hnames .string hbase rfl (htext _) (htext _)
  have hsources' :=
    field?_without_of_some hnames (fun ts : List Text => .array (ts.map .string)) hsources rfl
      (htexts _) (htexts _)
  have hexcluded' :=
    field?_without_of_some hnames (fun ts : List Text => .array (ts.map .string)) hexcluded rfl
      (htexts _) (htexts _)
  have hassets' := field?_without_of_some hnames .string hassets rfl (htext _) (htext _)
  have hformat' := field?_without_of_some hnames .string hformat rfl (htext _) (htext _)
  have hfilename' := field?_without_of_some hnames .string hfilename rfl (htext _) (htext _)
  have hkey' := field?_without_of_some hnames .string hkey rfl (htext _) (htext _)
  have hvalue' := field?_without_of_some hnames .string hvalue rfl (htext _) (htext _)
  have hsupported' :=
    field?_without_of_some hnames (fun ls : List Locale =>
      .array (ls.map Locale.toJson)) hsupported rfl (hlocales _) (hlocales _)
  have hdefault' :
      field? (readEntries (c.without names)) "defaultLocale" standard.defaultLocale
        readTextOrNull? = some c.defaultLocale :=
    field?_without hnames (Option.map .string) hdefault rfl (hlang _)
      (hlang _) Option.map_eq_none_iff.mp
  have hout' := field?_without_of_some hnames .string hout rfl (htext _) (htext _)
  have hchunks' := field?_without_of_some hnames .string hchunks rfl (htext _) (htext _)
  have hlog' := field?_without_of_some hnames .string hlog rfl (htext _) (htext _)
  have hmarkers' :=
    field?_without_of_some hnames Markers.toJson hmarkers rfl (Markers.ofRaw?_toJson _)
      (Markers.ofRaw?_toJson _)
  rw [ofRaw?, fields?_raw (by decide) (c.keys_without names)]
  dsimp only [Option.bind_eq_bind, Option.bind_some]
  rw [hbase', hsources', hexcluded', hassets', hformat', hfilename', hkey', hvalue', hsupported',
    hdefault', hout', hchunks', hlog', hmarkers']
  rfl

end

theorem isKept_texts (depth : Nat) (ts : List Text) :
    (Value.array (ts.map .string)).isKept (depth + 1) = true := by
  rw [Value.isKept, Bool.and_eq_true, Json.areItemsKept_iff]
  exact ⟨rfl, List.forall_mem_map.mpr fun _ _ => rfl⟩

theorem isKept_without (c : Config) (names : List Text) :
    (Value.object (c.without names)).isKept Json.maxDepth = true := by
  rw [Value.isKept, Bool.and_eq_true, Json.areEntriesKept_iff]
  refine ⟨rfl, fun e he => ?_⟩
  have hmem : e ∈ c.toObject := List.mem_of_mem_filter he
  simp only [toObject, List.mem_append, List.mem_cons, List.mem_map, Option.mem_toList,
    List.not_mem_nil, or_false] at hmem
  rcases hmem with ((rfl | rfl | rfl | rfl | rfl | rfl | rfl | rfl | rfl) | ⟨lang, -, rfl⟩) | rfl
    | rfl | rfl | rfl
  case inl.inl.inr.inl => exact isKept_texts _ _
  case inl.inl.inr.inr.inl => exact isKept_texts _ _
  case inl.inl.inr.inr.inr.inr.inr.inr.inr.inr =>
    rw [Value.isKept, Bool.and_eq_true, Json.areItemsKept_iff]
    exact ⟨rfl, List.forall_mem_map.mpr fun l _ => l.isKept_toJson⟩
  all_goals rfl

/-- A configuration is read from the text of what is left of its object. -/
theorem ofText?_without {c : Config} {names : List Text}
    (hnames : ∀ name ∈ names, c.saysDefault name) :
    ofText? (Value.object (c.without names)).pretty = some c := by
  have htext :=
    Json.rawOfText?_pretty (c.isKept_without names) (rfl : ([] : Text).all Json.isSpace = true)
  rw [List.append_nil] at htext
  rw [ofText?, htext, Option.bind_some, ofRaw?_without hnames]

/-- **A configuration is read back from the object that it is written as**, value and text, and from
what is left of it without any fields that say the default; a language is written as its tag exactly
if it has none of the optional fields. -/
theorem read_toObject (c : Config) :
    (ofRaw? c.toJson.raw = some c ∧ ofText? c.toText = some c) ∧
    (∀ l : Locale, (∃ tag, l.toJson = .string tag) ↔
      l.extension = none ∧ l.currency = none ∧ l.timeZone = none ∧ l.units = none) ∧
    ∀ names, (∀ name ∈ names, c.saysDefault name) →
      ofRaw? (Value.object (c.without names)).raw = some c ∧
      ofText? (Value.object (c.without names)).pretty = some c := by
  have hread (names : List Text) (hnames : ∀ name ∈ names, c.saysDefault name) :
      ofRaw? (Value.object (c.without names)).raw = some c ∧
      ofText? (Value.object (c.without names)).pretty = some c :=
    ⟨ofRaw?_without hnames, ofText?_without hnames⟩
  refine ⟨?_, Locale.toJson_eq_string_iff, hread⟩
  have hall := hread [] fun _ h => by cases h
  rw [without_nil] at hall
  exact hall

/-- A language of every form, with the names of two units, and fields that say the default. -/
def detailed : Config :=
  { standard with
    locales :=
      [Locale.ofTag "en-US", ⟨"fr", none, some "EUR", none,
        some ⟨[("km", "kilomètre"), ("l", "litre")], by decide⟩⟩]
    defaultLocale := some "fr" }

theorem read_toObject_detailed :
    (∀ name ∈ ["format".toList, "markers".toList], detailed.saysDefault name) ∧
    ofRaw? (Value.object (detailed.without ["format", "markers"])).raw = some detailed := by
  have hnames : ∀ name ∈ ["format".toList, "markers".toList], detailed.saysDefault name := by
    intro name hname
    simp only [List.mem_cons, List.not_mem_nil, or_false] at hname
    have hwritten := detailed.get?_toObject
    have hstandard := standard.get?_toObject
    rcases hname with rfl | rfl
    · exact hwritten.2.2.2.2.1.trans hstandard.2.2.2.2.1.symm
    · exact hwritten.2.2.2.2.2.2.2.2.2.2.2.2.2.trans hstandard.2.2.2.2.2.2.2.2.2.2.2.2.2.symm
  exact ⟨hnames, ((read_toObject detailed).2.2 _ hnames).1⟩

end Config

end Localization
