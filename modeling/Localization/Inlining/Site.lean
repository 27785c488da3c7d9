import Localization.Extraction.Keys
import Localization.Inlining.Findings

/-! The sites of a chunk.

A call that can be resolved before run time is a site. Sites form a forest: a site that
starts before the end of the site before it is nested in that one. `preorder` lists
them in the order in which they start. -/
namespace Localization.Inlining

open Marker (Call Family)

/-- What a site asks for. -/
inductive Request where
  /-- A raw key, perhaps with a default value. -/
  | key (raw : Text)
  | keys (raws : List Text)
  | plural
  deriving DecidableEq, Repr

/-- A site with those nested in it. -/
inductive Site where
  | mk (call : Call) (request : Request) (nested : List Site)

namespace Site

def call : Site → Call
  | mk call _ _ => call

def request : Site → Request
  | mk _ request _ => request

def nested : Site → List Site
  | mk _ _ nested => nested

mutual

/-- Puts a site into the forest whose last tree is `last`. -/
def insertBehind (last : Site) (site : Site) : List Site :=
  match last with
  | mk call request nested =>
    if site.call.start < call.stop then [mk call request (insert nested site)]
    else [mk call request nested, site]

/-- Puts a site that starts after all others into a forest. -/
def insert : List Site → Site → List Site
  | [], site => [site]
  | [last], site => insertBehind last site
  | first :: next :: rest, site => first :: insert (next :: rest) site

end

mutual

/-- A site, and what is nested in it. -/
def preorder : Site → List Site
  | mk call request nested => mk call request nested :: preorderAll nested

def preorderAll : List Site → List Site
  | [] => []
  | site :: rest => preorder site ++ preorderAll rest

end

end Site

/-! ### Which calls are sites -/

/-- Names that the runtime library itself passes as keys. -/
def libraryKeys : List Text := ["key", "keys"]

/-- Whether a key, or an element of an array of keys, is only known at run time. -/
def hasDynamicKey : Argument → Bool
  | .array elements => elements.any Extraction.isDynamicKey
  | key => Extraction.isDynamicKey key

def isLibraryKey : Argument → Bool
  | .name path => libraryKeys.contains path
  | _ => false

/-- What a translate call asks for, or why it is left alone; a call may be left alone
without a word. -/
def classifyTranslate (call : Call) : Except (Option Finding) Request :=
  match call.key? with
  | none => .error none
  | some key =>
    if hasDynamicKey key then
      .error (if isLibraryKey key then none else some (.dynamicKey call.display))
    else if Extraction.isDynamic call.params? || Extraction.isDynamic call.lang? then
      .error (some (.dynamicParams call.display))
    else match key with
      | .string raw => .ok (.key raw)
      | .array elements => .ok (.keys (elements.filterMap Argument.string?))
      | _ => .error none

/-- What a call asks for, or why it is left alone. -/
def classify (call : Call) : Except (Option Finding) Request :=
  if call.arguments.isEmpty then .error none
  else match call.family with
    | .plural =>
      if Extraction.isDynamicPlural call then .error (some (.dynamicPlural call.display))
      else .ok .plural
    | _ => classifyTranslate call

/-- The calls of every family, in the order of their starts. -/
def calls (config : Config) (code : Text) : List Call :=
  Marker.inOrder (Family.all.flatMap fun f => Marker.scan f (config.markers.name f) code)

/-- The sites that some calls make, and what is said of the others. -/
def sitesOf (calls : List Call) : List Site × List Finding :=
  calls.foldl
    (fun (sites, findings) call =>
      match classify call with
      | .ok request => (Site.insert sites (.mk call request []), findings)
      | .error finding => (sites, findings ++ finding.toList))
    ([], [])

/-- A chunk's sites and what is said of its other calls, the same for every language. -/
structure Plan where
  code : Text
  sites : List Site
  findings : List Finding

def Plan.of (config : Config) (code : Text) : Plan :=
  let (sites, findings) := sitesOf (calls config code)
  ⟨code, sites, findings⟩

end Localization.Inlining
