import Mathlib
import Localization.Config.Validation
import Localization.Extraction.Trees
import Localization.Proofs.Inlining.Coverage
import Localization.Proofs.Text.Split

/-! Separators and composed keys.

The key of a plural category is a base key, the key separator and the name of the category. It
is cut again at the value separator and split at the key separator, both when it is extracted
and when it is looked up. The separators of a valid configuration are not empty and differ. That
alone keeps neither of them from standing in what follows a base key, or from meeting it at the
end of one: `isKept_iff` says which keys are kept, one by one and for all keys at once. -/
namespace Localization.Config

open Plural (Category)

variable {c : Config}

/-! ### One key -/

/-- The key of a category under a base key. -/
def composed (c : Config) (base : Text) (category : Category) : Text :=
  Key.ofCategory (some base) category c.keySeparator

/-- Whether a composed key is a key without default value, whose path is that of the base key
and then the name of the category. -/
def IsKept (c : Config) (base : Text) (category : Category) : Prop :=
  Key.cut c.valueSeparator (c.composed base category) = (c.composed base category, none) ∧
    Key.path c.keySeparator (c.composed base category) =
      Key.path c.keySeparator base ++ [category.name]

theorem composed_eq {base : Text} (h : base ≠ []) (category : Category) :
    c.composed base category = base ++ c.keySeparator ++ category.name := by
  obtain ⟨d, base, rfl⟩ := List.exists_cons_of_ne_nil h
  rfl

theorem path_eq {separator : Text} (h : separator ≠ []) (key : Text) :
    Key.path separator key = Text.splitFrom separator 0 key := by
  rw [Key.path, Text.splitOn, if_neg (by simpa using h)]

/-- A key is all of a raw key exactly if the value separator does not stand in it. -/
theorem cut_eq_self_iff {separator : Text} (h : separator ≠ []) {raw : Text} :
    Key.cut separator raw = (raw, none) ↔ ¬ separator <:+: raw := by
  rw [← Text.splitFrom_eq_singleton_iff h, Key.cut, Text.splitOn, if_neg (by simpa using h)]
  obtain ⟨key, rest, hparts⟩ := List.exists_cons_of_ne_nil (Text.splitFrom_ne_nil separator 0 raw)
  rw [hparts]
  cases rest <;> simp

/-- A composed key is kept exactly if the value separator does not stand in it, nor the key
separator in the name of the category, nor one in the last segment of the base key that reaches
into the one behind it. -/
theorem isKept_iff_of_ne_nil (hks : c.keySeparator ≠ []) (hvs : c.valueSeparator ≠ []) {base : Text}
    (hbase : base ≠ []) (category : Category) :
    c.IsKept base category ↔ ¬ c.valueSeparator <:+: c.composed base category ∧
      ¬ c.keySeparator <:+: category.name ∧ ¬ Text.Straddles c.keySeparator base := by
  rw [IsKept, cut_eq_self_iff hvs, path_eq hks, path_eq hks, composed_eq hbase,
    Text.splitFrom_append_separator_iff hks]

/-! ### All keys -/

/-- Whether the separators keep all composed keys. -/
structure KeepsKeys (c : Config) : Prop where
  /-- No part of the key separator both starts and ends it. -/
  unbordered : ∀ u ∈ c.keySeparator.tails, u ≠ [] → u <+: c.keySeparator → u = c.keySeparator
  /-- The key separator stands in no name of a category. -/
  keySeparator : ∀ category ∈ Category.all, ¬ c.keySeparator <:+: category.name
  /-- The value separator does not stand in what follows a base key. -/
  valueSeparator : ∀ category ∈ Category.all, ¬ c.valueSeparator <:+:
    c.keySeparator ++ category.name
  /-- Nor does it end in the beginning of that. -/
  apart : ∀ category ∈ Category.all, ∀ u ∈ c.valueSeparator.tails, u ≠ [] →
    ¬ u <+: c.keySeparator ++ category.name

instance (c : Config) : Decidable c.KeepsKeys :=
  decidable_of_iff ((∀ u ∈ c.keySeparator.tails, u ≠ [] → u <+: c.keySeparator →
    u = c.keySeparator) ∧
      (∀ category ∈ Category.all, ¬ c.keySeparator <:+: category.name) ∧
      (∀ category ∈ Category.all, ¬ c.valueSeparator <:+: c.keySeparator ++ category.name) ∧
      ∀ category ∈ Category.all, ∀ u ∈ c.valueSeparator.tails, u ≠ [] →
        ¬ u <+: c.keySeparator ++ category.name)
    ⟨fun ⟨h, h', h'', h'''⟩ => ⟨h, h', h'', h'''⟩, fun h =>
      ⟨h.unbordered, h.keySeparator, h.valueSeparator, h.apart⟩⟩

/-- A separator that meets one behind a text starts and ends with the same part. -/
theorem exists_border_of_straddles {separator t : Text} (hs : separator ≠ [])
    (h : Text.Straddles separator t) :
    ∃ u, u ≠ [] ∧ u ≠ separator ∧ u <+: separator ∧ u <:+ separator := by
  obtain ⟨b, hb, hsuffix, hprefix⟩ := h
  have hnot : ¬ separator <+: b := fun hp =>
    Text.not_infix_lastPart hs t (hp.isInfix.trans hsuffix.isInfix)
  rcases List.prefix_or_prefix_of_prefix hprefix (List.prefix_append b separator) with hp | ⟨u, rfl⟩
  · exact absurd hp hnot
  · have hu : u ≠ [] := by
      rintro rfl
      exact hnot (by simp)
    have hne : u ≠ b ++ u := fun he => hb (by simpa using congrArg List.length he)
    exact ⟨u, hu, hne, (List.prefix_append_right_inj b).mp hprefix, List.suffix_append b u⟩

/-- Where the separators keep all keys, a base key may be anything without the value separator. -/
theorem KeepsKeys.isKept (h : c.KeepsKeys) (hks : c.keySeparator ≠ []) (hvs : c.valueSeparator ≠ [])
    {base : Text} (hbase : base ≠ []) (hfree : ¬ c.valueSeparator <:+: base) (category : Category) :
    c.IsKept base category := by
  have hmem := Category.mem_all category
  refine (isKept_iff_of_ne_nil hks hvs hbase category).mpr ⟨fun hinfix => ?_,
    h.keySeparator category hmem, fun hmeets => ?_⟩
  · rw [composed_eq hbase, List.append_assoc] at hinfix
    rcases List.infix_append_iff_ne_nil.mp hinfix with hin | hin
      | ⟨front, u, -, hu, hvalue, -, hprefix⟩
    · exact hfree hin
    · exact h.valueSeparator category hmem hin
    · exact h.apart category hmem u ((List.mem_tails _ _).mpr ⟨front, hvalue.symm⟩) hu hprefix
  · obtain ⟨u, hu, hne, hprefix, hsuffix⟩ := exists_border_of_straddles hks hmeets
    exact hne (h.unbordered u ((List.mem_tails _ _).mpr hsuffix) hu hprefix)

/-- Some base key of one character is without the value separator. -/
theorem exists_base (separator : Text) (h : separator ≠ []) : ∃ d : Char, ¬ separator <:+: [d] := by
  by_cases ha : separator <:+: ['a']
  · refine ⟨'b', fun hb => ?_⟩
    obtain ⟨d, tail, rfl⟩ := List.exists_cons_of_ne_nil h
    have hda : d ∈ ['a'] := ha.subset List.mem_cons_self
    have hdb : d ∈ ['b'] := hb.subset List.mem_cons_self
    rw [List.mem_singleton] at hda hdb
    exact absurd (hda.symm.trans hdb) (by decide)
  · exact ⟨'a', ha⟩

/-- Separators that keep every key of a base without the value separator are as they should be. -/
theorem keepsKeys_of_isKept (hks : c.keySeparator ≠ []) (hvs : c.valueSeparator ≠ [])
    (h : ∀ base category, base ≠ [] → ¬ c.valueSeparator <:+: base → c.IsKept base category) :
    c.KeepsKeys := by
  have hkept (base : Text) (category : Category) (hbase : base ≠ [])
      (hfree : ¬ c.valueSeparator <:+: base) :=
    (isKept_iff_of_ne_nil hks hvs hbase category).mp (h base category hbase hfree)
  obtain ⟨d, hd⟩ := exists_base c.valueSeparator hvs
  have hvalue (category : Category) : ¬ c.valueSeparator <:+: c.keySeparator ++ category.name :=
    fun hin => by
    refine (hkept [d] category (List.cons_ne_nil _ _) hd).1 ?_
    rw [composed_eq (List.cons_ne_nil _ _), List.append_assoc]
    exact List.infix_append_of_infix_right hin
  refine ⟨fun u hu hne hprefix => ?_, fun category _ =>
    (hkept [d] category (List.cons_ne_nil _ _) hd).2.1,
    fun category _ => hvalue category, fun category _ u hu hne hprefix => ?_⟩
  · -- What stands before the border is a base key, whose end and the border are the separator.
    obtain ⟨b, hb⟩ := (List.mem_tails _ _).mp hu
    by_contra hborder
    have hbase : b ≠ [] := by
      rintro rfl
      exact hborder hb
    have hfree : ¬ c.valueSeparator <:+: b := fun hin =>
      hvalue .one (hin.trans (List.IsPrefix.isInfix
        ⟨u ++ Category.one.name, by rw [← List.append_assoc, hb]⟩))
    refine (hkept b .one hbase hfree).2.2 ⟨b, hbase, ?_, ?_⟩
    · rw [Text.lastPart_of_not_isInfix]
      intro hin
      have hlength := hin.length_le
      have hpos := List.length_pos_of_ne_nil hne
      rw [← hb, List.length_append] at hlength
      omega
    · conv_lhs => rw [← hb]
      exact (List.prefix_append_right_inj b).mpr hprefix
  · obtain ⟨front, hfront⟩ := (List.mem_tails _ _).mp hu
    by_cases hbase : front = []
    · subst hbase
      rw [List.nil_append] at hfront
      exact hvalue category (hfront ▸ hprefix.isInfix)
    · have hfree : ¬ c.valueSeparator <:+: front := fun hin => by
        have hlength := hin.length_le
        have hpos := List.length_pos_of_ne_nil hne
        rw [← hfront, List.length_append] at hlength
        omega
      refine (hkept front category hbase hfree).1 (List.IsPrefix.isInfix ?_)
      rw [composed_eq hbase, List.append_assoc, ← hfront]
      exact (List.prefix_append_right_inj front).mpr hprefix

/-- A kept key is extracted and looked up under the path of the base key and then the name of
the category. -/
theorem IsKept.path {base : Text} {category : Category} (h : c.IsKept base category) :
    Extraction.seed c (c.composed base category) =
        .ok (Key.path c.keySeparator base ++ [category.name], .string []) ∧
      ∀ trees lang, Inlining.Context.valueOf? ⟨c, trees⟩ lang (c.composed base category) =
        (trees.lookup lang).bind fun tree =>
          tree.at? (Key.path c.keySeparator base ++ [category.name]) := by
  refine ⟨?_, fun trees lang => ?_⟩
  · simp only [Extraction.seed, h.1, h.2]
    rfl
  · rw [Inlining.Context.valueOf?, h.1, h.2]

/-- The last segment of a kept key tells the category. -/
theorem IsKept.ofName?_getLast? {base : Text} {category : Category} (h : c.IsKept base category) :
    (Key.path c.keySeparator (c.composed base category)).getLast?.bind Category.ofName? =
      some category := by
  rw [h.2, List.getLast?_concat, Option.bind_some, Category.ofName?_name]

/-- Kept keys share a path exactly if they are of one category and their base keys share one. -/
theorem IsKept.path_eq_iff {base base' : Text} {category category' : Category}
    (h : c.IsKept base category) (h' : c.IsKept base' category') :
    Key.path c.keySeparator (c.composed base category) =
        Key.path c.keySeparator (c.composed base' category') ↔
      category = category' ∧ Key.path c.keySeparator base = Key.path c.keySeparator base' := by
  constructor
  · intro hpath
    have hlast := h.ofName?_getLast?
    rw [hpath, h'.ofName?_getLast?] at hlast
    obtain rfl := Option.some.inj hlast
    rw [h.2, h'.2] at hpath
    exact ⟨rfl, List.append_cancel_right hpath⟩
  · rintro ⟨rfl, hpath⟩
    rw [h.2, h'.2, hpath]

/-- **When composed keys are kept.** Under a valid configuration, the key of a category under a
base key without the value separator is kept exactly if the value separator does not stand in
it, nor the key separator in the name of the category, and no key separator starts in the last
segment of the base key and reaches into the one behind it. All such keys are kept exactly if
the separators keep all keys. A kept key is extracted and looked up under the path it was
written for. -/
theorem isKept_iff (h : c.fault? = none) :
    (∀ base category, base ≠ [] → ¬ c.valueSeparator <:+: base →
      (c.IsKept base category ↔ ¬ c.valueSeparator <:+: c.composed base category ∧
        ¬ c.keySeparator <:+: category.name ∧ ¬ Text.Straddles c.keySeparator base)) ∧
      ((∀ base category, base ≠ [] → ¬ c.valueSeparator <:+: base → c.IsKept base category) ↔
        c.KeepsKeys) ∧
      ∀ base category, c.IsKept base category →
        Extraction.seed c (c.composed base category) =
            .ok (Key.path c.keySeparator base ++ [category.name], .string []) ∧
          ∀ trees lang, Inlining.Context.valueOf? ⟨c, trees⟩ lang (c.composed base category) =
            (trees.lookup lang).bind fun tree =>
              tree.at? (Key.path c.keySeparator base ++ [category.name]) := by
  obtain ⟨hks, hvs, -⟩ := separators_of_fault?_eq_none h
  refine ⟨fun base category hbase _ => isKept_iff_of_ne_nil hks hvs hbase category,
    ⟨fun hall => ?_, fun hkeeps => ?_⟩,
    fun base category hkept => hkept.path⟩
  · exact keepsKeys_of_isKept hks hvs hall
  · exact fun base category hbase hfree => hkeeps.isKept hks hvs hbase hfree category

/-- A configuration with other separators. -/
def withSeparators (keySeparator valueSeparator : Text) : Config :=
  { standard with keySeparator := keySeparator, valueSeparator := valueSeparator }

/-- The separators that a project has that says nothing keep all keys. -/
theorem isKept_standard :
    standard.fault? = none ∧ standard.KeepsKeys ∧ ¬ standard.valueSeparator <:+: "home.devs" ∧
      standard.IsKept "home.devs" .one := by
  have hvalid : standard.fault? = none := by decide
  have hkeeps : standard.KeepsKeys := by decide
  have hfree : ¬ standard.valueSeparator <:+: "home.devs" := by decide
  exact ⟨hvalid, hkeeps, hfree, (isKept_iff hvalid).2.1.mpr hkeeps "home.devs" .one
    (by decide) hfree⟩

/-- Valid separators, one the beginning of the other: the key `home::one` is cut at the colon.
And doubled colons behind a base key that ends in one: the path of `home:::one` is not `home:`,
`one`. -/
theorem not_isKept_colons :
    (withSeparators "::" ":").fault? = none ∧
      ¬ (withSeparators "::" ":").valueSeparator <:+: "home" ∧
      ¬ (withSeparators "::" ":").IsKept "home" .one ∧
      (withSeparators "::" "@@").fault? = none ∧
      ¬ (withSeparators "::" "@@").valueSeparator <:+: "home:" ∧
      ¬ (withSeparators "::" "@@").IsKept "home:" .one := by
  unfold IsKept
  decide

end Localization.Config
