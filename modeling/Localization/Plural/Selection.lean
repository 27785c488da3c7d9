import Localization.LanguageTag
import Localization.Plural.Cardinal
import Localization.Plural.Ordinal
import Localization.Plural.Written

/-! Which categories can be selected.

`categories` answers which categories a selector for a language and some options ever
gives: those that the rules select for one of the `samples`, written as the options say,
and `other`. -/
namespace Localization.Plural

/-- The rules kept under a tag. -/
def rulesOf? (kind : Kind) (tag : LanguageTag) : Option Rules :=
  let table :=
    match kind with
    | .cardinal => cardinalRules
    | .ordinal => ordinalRules
  (table.find? fun (names, _) => names.any fun name => name.toList == tag.toText).map (·.2)

/-- The rules of a language: those of the whole tag, or else of its language. A text that
is no tag has none. -/
def rules? (kind : Kind) (lang : Text) : Option Rules :=
  (LanguageTag.ofText? lang).bind fun tag => (rulesOf? kind tag).or (rulesOf? kind tag.base)

/-- `digits / 10 ^ places` as a double. -/
def decimal (digits places : Nat) : Binary64 := Decimal.toBinary64 false digits (-(places : Int))

/-- Numbers that between them select every category that any rules can select. -/
def samples : List Binary64 :=
  (List.range 201).map Binary64.ofNat ++
    [3, 4, 5, 6, 7].map (fun n => Binary64.ofNat (Nat.pow 10 n)) ++
    (List.range 21).flatMap (fun whole =>
      (List.range 9).map fun tenth =>
        Binary64.ofNat whole + Binary64.ofNat (tenth + 1) / Binary64.ofNat 10) ++
    [decimal 1 2, decimal 2 2, decimal 3 2, decimal 5 2, decimal 11 2, decimal 12 2, decimal 101 2,
      decimal 102 2, decimal 111 2, decimal 121 2, decimal 211 2]

/-- The category that a number selects as it is written. -/
def select? (rules : Rules) (o : Options) (x : Binary64) : Option Category :=
  (Operands.ofText? (write o x)).map rules.select

/-- The categories that a selector can give, in their fixed order. -/
def categories (lang : Text) (o : Options) : List Category :=
  let selected : List Category :=
    match rules? o.kind lang with
    | some rules => samples.filterMap (select? rules o)
    | none => []
  Category.all.filter fun c => c == .other || selected.contains c

theorem other_mem_categories (lang : Text) (o : Options) : Category.other ∈ categories lang o := by
  simp [categories, Category.mem_all]

/-- The categories come in their fixed order, each once. -/
theorem pairwise_categories (lang : Text) (o : Options) :
    (categories lang o).Pairwise fun a b => a.rank < b.rank := by
  unfold categories
  exact Category.pairwise_all.filter _

end Localization.Plural
