import Localization.Inlining.Chain
import Localization.Inlining.Render
import Localization.Inlining.Site

/-! Inlining chunks.

Every site of a chunk is replaced by the value that it has in a language; all else is
copied. A site's value may carry the text of sites nested in it, which are then replaced
in turn. Sites are resolved from the last to the first. -/
namespace Localization.Inlining

/-- What values are looked up in. -/
structure Context where
  config : Config
  trees : List (Text × Tree)

/-- A text and what was missing for it, in order. -/
abbrev Resolved := Text × List Finding

namespace Context

/-- The value of a raw key in a language. -/
def lookup (x : Context) (lang raw : Text) (params : Properties) : Resolved :=
  let (key, _) := Key.cut x.config.valueSeparator raw
  let value := (x.trees.lookup lang).bind fun tree => tree.at? (Key.path x.config.keySeparator key)
  match valueText? params value with
  | some text => (text, [])
  | none => (absentText, [.missing lang key])

/-- The language of a call: its own, if that is a supported one. -/
def langOf (x : Context) (call : Marker.Call) (lang : Text) : Text :=
  match call.lang?.bind Argument.string? with
  | some own => if x.config.langs.contains own then own else lang
  | none => lang

/-- The value of a site, in which calls may still stand. -/
def render (x : Context) (lang : Text) (call : Marker.Call) (request : Request) : Resolved :=
  let lang := x.langOf call lang
  let params := (call.params?.bind Argument.properties?).getD []
  match request with
  | .key raw => x.lookup lang raw params
  | .keys raws =>
    let values := raws.map fun raw => x.lookup lang raw params
    (arrayText (values.map (·.1)), values.flatMap (·.2))
  | .plural =>
    let values := (terms x.config lang call).map fun t =>
      (t.guard, x.lookup lang t.key (pluralParams call))
    (chain (values.map fun (guard, value) => (guard, value.1)), values.flatMap (·.2.2))

end Context

/-- At the head of a text, the longest of some texts and what stands for it. -/
def replacement? (pairs : List (Text × Text)) (t : Text) : Option (Text × Nat) :=
  ((pairs.mergeSort fun a b => b.1.length ≤ a.1.length).find? fun (raw, _) => raw.isPrefixOf t).map
    fun (raw, value) => (value, raw.length)

mutual

/-- The value of a site, with the sites nested in it replaced where it carries their text. -/
def resolve (x : Context) (lang : Text) : Site → Resolved
  | .mk call request nested =>
    let (text, findings) := x.render lang call request
    let (pairs, inner) := resolveCarried x lang text nested
    (if pairs.isEmpty then text else Text.replaceAll (replacement? pairs) 0 text, findings ++ inner)

/-- The sites that a text carries: each one's text and its value. -/
def resolveCarried (x : Context) (lang carrier : Text) :
    List Site → List (Text × Text) × List Finding
  | [] => ([], [])
  | site :: rest =>
    let (pairs, findings) := resolveCarried x lang carrier rest
    if Text.occursIn site.call.raw carrier then
      let (value, own) := resolve x lang site
      ((site.call.raw, value) :: pairs, own ++ findings)
    else (pairs, findings)

end

/-- The text from `position` on with some spans replaced. A span is given by its start, its
stop and what stands for it; spans are in order and do not overlap. -/
def splice (position : Nat) (t : Text) : List (Nat × Nat × Text) → Text
  | [] => t
  | (start, stop, value) :: rest =>
    t.take (start - position) ++ value ++ splice stop (t.drop (stop - position)) rest

/-- The chunk in a language, and what was missing, the last site first. -/
def Plan.render (x : Context) (lang : Text) (p : Plan) : Resolved :=
  let resolved := p.sites.map fun site => (site.call, resolve x lang site)
  (splice 0 p.code (resolved.map fun (call, value, _) => (call.start, call.stop, value)),
    resolved.reverse.flatMap fun (_, _, findings) => findings)

/-- A chunk in one language, and its findings. -/
def inlineText (x : Context) (lang code : Text) : Text × Findings :=
  let p := Plan.of x.config code
  let (text, missing) := p.render x lang
  (text, .ofList p.findings ++ .ofList missing)

/-! ### Several chunks -/

/-- A chunk: the name of its file and its code. -/
structure Chunk where
  name : Text
  code : Text
  deriving DecidableEq, Repr

/-- A chunk in one language. -/
structure Rendition where
  name : Text
  lang : Text
  code : Text
  deriving DecidableEq, Repr

/-- Chunks in order, each in every language in order, and the findings of each chunk. -/
structure Output where
  chunks : List Rendition
  findings : RunFindings

/-- A chunk in every supported language, and its findings over all of them. -/
def inlineAll (x : Context) (chunk : Chunk) : List Rendition × Findings :=
  let p := Plan.of x.config chunk.code
  let rendered := x.config.langs.map fun lang => (lang, p.render x lang)
  (rendered.map fun (lang, code, _) => ⟨chunk.name, lang, code⟩,
    rendered.foldl (fun r (_, _, missing) => r ++ .ofList missing) (.ofList p.findings))

/-- Every chunk in every supported language. -/
def Output.ofChunks (x : Context) (chunks : List Chunk) : Output :=
  let all := chunks.map fun chunk => (chunk.name, inlineAll x chunk)
  ⟨all.flatMap fun (_, inlined, _) => inlined, all.map fun (name, _, findings) => (name, findings)⟩

end Localization.Inlining
