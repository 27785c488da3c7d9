import Localization.Extraction.Keys

/-! Plural chains.

A plural call becomes a chain with a term for every category that its language can
select:

    (new Intl.PluralRules(`en`).select(+(n)) === `one` && `1 item` || `${n} items`)

All terms but the last are guarded by a test for their category. -/
namespace Localization.Inlining

open Marker (Call)

/-- A term of a chain: the key to look up, guarded by a test of its category or, at the
end, unguarded. -/
structure Term where
  category : Plural.Category
  guard : Option Text
  key : Text
  deriving DecidableEq, Repr

/-- The number that a plural call is about. -/
def pluralValue (call : Call) : Argument := (call.argument? 0).getD (.other "undefined")

/-- The test that a value selects a category. -/
def guardText (lang : Text) (value : Argument) (options : Properties) (c : Plural.Category) :
    Text :=
  let optionText : Text :=
    if options.isEmpty then [] else ", " ++ '{' :: Properties.toScript options ++ ['}']
  "new Intl.PluralRules(`" ++ lang ++ "`" ++ optionText ++ ").select(+(" ++ value.toScript ++
    ")) === `" ++ c.name ++ "`"

/-- The parameters of every term: the number as `value`, then those of the call. -/
def pluralParams (call : Call) : Properties :=
  ("value".toList, pluralValue call) :: (call.params?.bind Argument.properties?).getD []

/-- The terms of a plural call. -/
def terms (config : Config) (lang : Text) (call : Call) : List Term :=
  let options := (call.options?.bind Argument.properties?).getD []
  let all := Plural.categories lang (Plural.Options.ofProperties options)
  all.zipIdx.map fun (c, index) =>
    { category := c
      guard :=
        if index + 1 < all.length then some (guardText lang (pluralValue call) options c)
        else none
      key := Key.ofCategory (Extraction.pluralBase config call) c config.keySeparator }

/-- The chain of terms with their values. -/
def chain (terms : List (Option Text × Text)) : Text :=
  '(' :: Text.join " || " (terms.map fun (guard, value) =>
    match guard with
    | some guard => guard ++ " && " ++ value
    | none => value) ++ [')']

end Localization.Inlining
