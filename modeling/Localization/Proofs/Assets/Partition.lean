import Mathlib
import Localization.Assets
import Localization.Proofs.Assets.Layers
import Localization.Proofs.Json.Distinct

/-! The files of a tree are a partition of it.

Files hold a tree between them (`IsPartition`) when each entry of the tree is in one of them and
in no other. Such files make the tree whatever their order is (`IsPartition.combine_perm`),
since none of them has a key of another. `split` writes such files (`isPartition_split`), and
says which: a key has a file to itself exactly if its value is an object and the default file
does not bear its name. -/
namespace Localization.Assets

open Json (Value)

/-- The keys of a tree. -/
def keys (tree : Tree) : List Text := tree.map (·.1)

/-- Trees without a common key make a tree of all their entries. -/
theorem combine_eq_flatten {trees : List Tree} (h : (keys trees.flatten).Nodup) :
    combine trees = trees.flatten := by
  suffices hfold : ∀ front : Tree, (keys (front ++ trees.flatten)).Nodup →
      trees.foldl Json.Object.insertAll front = front ++ trees.flatten from hfold [] h
  intro front hfront
  induction trees generalizing front with
  | nil => rw [List.flatten_nil, List.append_nil]; rfl
  | cons tree rest ih =>
    rw [List.flatten_cons, ← List.append_assoc] at hfront ⊢
    have hkeys : (keys rest.flatten).Nodup := h.sublist ((List.sublist_append_right _ _).map _)
    have htree : (keys (front ++ tree)).Nodup :=
      hfront.sublist ((List.sublist_append_left _ _).map _)
    rw [List.foldl_cons, Json.Object.insertAll_of_nodup htree]
    exact ih hkeys _ hfront

/-- Files of different names that hold a tree between them: every entry of the tree is in
exactly one of them, and they hold nothing else. -/
structure IsPartition (tree : Tree) (files : List (Text × Tree)) : Prop where
  names : (files.map (·.1)).Nodup
  ne_nil : ∀ f ∈ files, f.2 ≠ []
  once : ∀ f ∈ files, (keys f.2).Nodup
  mem : ∀ f ∈ files, ∀ e ∈ f.2, e ∈ tree
  unique : ∀ e ∈ tree, ∃ f ∈ files, e ∈ f.2 ∧ ∀ g ∈ files, e.1 ∈ keys g.2 → g = f

namespace IsPartition

variable {tree : Tree} {files : List (Text × Tree)}

theorem perm (h : IsPartition tree files) {order : List (Text × Tree)} (hp : order.Perm files) :
    IsPartition tree order where
  names := (hp.map _).nodup_iff.mpr h.names
  ne_nil f hf := h.ne_nil f (hp.mem_iff.mp hf)
  once f hf := h.once f (hp.mem_iff.mp hf)
  mem f hf := h.mem f (hp.mem_iff.mp hf)
  unique e he := by
    obtain ⟨f, hf, hmem, hall⟩ := h.unique e he
    exact ⟨f, hp.mem_iff.mpr hf, hmem, fun g hg => hall g (hp.mem_iff.mp hg)⟩

theorem nodup (h : IsPartition tree files) : files.Nodup := .of_map _ h.names

/-- No file has a key of another. -/
theorem disjoint (h : IsPartition tree files) :
    files.Pairwise fun f g => (keys f.2).Disjoint (keys g.2) := by
  refine h.nodup.imp_of_mem fun {f g} hf hg hne key hkf hkg => hne ?_
  obtain ⟨e, he, rfl⟩ := List.mem_map.mp hkf
  obtain ⟨home, -, -, hall⟩ := h.unique e (h.mem f hf e he)
  rw [hall f hf hkf, hall g hg hkg]

/-- No key is in the files twice. -/
theorem nodup_keys (h : IsPartition tree files) : (keys (files.map (·.2)).flatten).Nodup := by
  rw [← List.flatMap_def, keys, List.map_flatMap, List.nodup_flatMap]
  exact ⟨h.once, h.disjoint⟩

/-- The files hold the entries of the tree. -/
theorem mem_flatten_iff (h : IsPartition tree files) (e : Text × Value) :
    e ∈ (files.map (·.2)).flatten ↔ e ∈ tree := by
  rw [← List.flatMap_def, List.mem_flatMap]
  constructor
  · rintro ⟨f, hf, he⟩
    exact h.mem f hf e he
  · intro he
    obtain ⟨f, hf, hmem, -⟩ := h.unique e he
    exact ⟨f, hf, hmem⟩

/-- **The files make the tree, up to the order of its keys.** -/
theorem combine_perm (h : IsPartition tree files) (hk : (keys tree).Nodup) :
    (combine (files.map (·.2))).Perm tree := by
  rw [combine_eq_flatten h.nodup_keys]
  exact (List.perm_ext_iff_of_nodup (.of_map _ h.nodup_keys) (.of_map _ hk)).mpr h.mem_flatten_iff

end IsPartition

/-! ### The files of a tree -/

/-- Whether a value is an object. -/
def IsObject (v : Value) : Prop := ∃ entries, v = .object entries

theorem leafDepth_eq_zero_iff {v : Value} : Tree.leafDepth v = 0 ↔ ¬ IsObject v := by
  cases v with
  | object entries =>
    rw [Tree.leafDepth]
    exact ⟨fun h => by omega, fun h => absurd ⟨entries, rfl⟩ h⟩
  | _ => exact ⟨fun _ ⟨_, h⟩ => (nomatch h), fun _ => by simp [Tree.leafDepth]⟩

/-- An entry has its place in the default file by its value or by its key. -/
theorem isFlat_iff {filename : Text} {e : Text × Value} :
    isFlat filename e = true ↔ (IsObject e.2 → e.1 = filename) := by
  rw [isFlat, Bool.or_eq_true, beq_iff_eq, beq_iff_eq, leafDepth_eq_zero_iff]
  tauto

section

variable {filename : Text} {tree : Tree} {f : Text × Tree}

/-- What the default file holds. -/
theorem mem_default_iff (hf : f ∈ split filename tree) (hname : f.1 = filename) {e : Text × Value} :
    e ∈ f.2 ↔ e ∈ tree ∧ (IsObject e.2 → e.1 = filename) := by
  rcases mem_split_iff.mp hf with ⟨rfl, -⟩ | ⟨own, -, hown, rfl⟩
  · rw [List.mem_filter, isFlat_iff]
  · have hflat : isFlat filename own = true := isFlat_iff.mpr fun _ => hname
    rw [hown] at hflat
    cases hflat

/-- Any other file holds one object, under its name. -/
theorem eq_singleton_of_ne_default (hf : f ∈ split filename tree) (hname : f.1 ≠ filename) :
    ∃ e ∈ tree, IsObject e.2 ∧ e.1 ≠ filename ∧ f = (e.1, [e]) := by
  rcases mem_split_iff.mp hf with ⟨rfl, -⟩ | ⟨own, hmem, hown, rfl⟩
  · exact absurd rfl hname
  · rw [← Bool.not_eq_true, isFlat_iff, Classical.not_imp] at hown
    exact ⟨own, hmem, hown.1, hown.2, rfl⟩

/-- The file that holds an entry. -/
theorem exists_mem_split {e : Text × Value} (he : e ∈ tree) :
    ∃ f ∈ split filename tree, e ∈ f.2 ∧ f.1 = if isFlat filename e then filename else e.1 := by
  by_cases hflat : isFlat filename e = true
  · have hmem : e ∈ tree.filter (isFlat filename) := List.mem_filter.mpr ⟨he, hflat⟩
    refine ⟨_, mem_split_iff.mpr (.inl ⟨rfl, List.ne_nil_of_mem hmem⟩), hmem, ?_⟩
    rw [if_pos hflat]
  · refine ⟨_, mem_split_iff.mpr (.inr ⟨e, he, by simpa using hflat, rfl⟩),
      List.mem_singleton_self e, ?_⟩
    rw [if_neg hflat]

theorem mem_of_mem_split (hf : f ∈ split filename tree) {e : Text × Value} (he : e ∈ f.2) :
    e ∈ tree := by
  rcases mem_split_iff.mp hf with ⟨rfl, -⟩ | ⟨own, hmem, -, rfl⟩
  · exact (List.mem_filter.mp he).1
  · rw [List.mem_singleton.mp he]
    exact hmem

/-- The name of a file tells which entries it can hold. -/
theorem name_of_mem_split (hf : f ∈ split filename tree) {e : Text × Value} (he : e ∈ f.2) :
    f.1 = if isFlat filename e then filename else e.1 := by
  rcases mem_split_iff.mp hf with ⟨rfl, -⟩ | ⟨own, -, hown, rfl⟩
  · rw [if_pos (List.mem_filter.mp he).2]
  · rw [List.mem_singleton.mp he, hown]
    rfl

theorem partition_of_split (hk : (keys tree).Nodup) : IsPartition tree (split filename tree) where
  names := nodup_split hk
  ne_nil f hf := by
    rcases mem_split_iff.mp hf with ⟨-, hne⟩ | ⟨own, -, -, rfl⟩
    · exact hne
    · exact List.cons_ne_nil _ _
  once f hf := by
    rcases mem_split_iff.mp hf with ⟨rfl, -⟩ | ⟨own, -, -, rfl⟩
    · exact hk.sublist (List.filter_sublist.map _)
    · exact List.nodup_singleton _
  mem f hf _ he := mem_of_mem_split hf he
  unique e he := by
    obtain ⟨f, hf, hmem, hname⟩ := @exists_mem_split filename tree e he
    refine ⟨f, hf, hmem, fun g hg hkey => ?_⟩
    obtain ⟨e', he', hkey⟩ := List.mem_map.mp hkey
    have hsame : e' = e := List.inj_on_of_nodup_map hk (mem_of_mem_split hg he') he hkey
    have hgname := name_of_mem_split hg he'
    rw [hsame, ← hname] at hgname
    exact List.inj_on_of_nodup_map (nodup_split hk) hg hf hgname

end

/-- **The files of a tree are a partition of it**: of different names, none of them empty, with
each entry of the tree in exactly one. A file that is not the default one holds its own name
with an object and nothing else. The default file holds every key without an object, and an
object only under its own name. In any order no file has a key of another, and together they
make the tree up to the order of keys. -/
theorem isPartition_split {filename : Text} {tree : Tree} (hk : (keys tree).Nodup) :
    IsPartition tree (split filename tree) ∧
      (∀ f ∈ split filename tree, f.1 ≠ filename → ∃ entries, f.2 = [(f.1, .object entries)]) ∧
      (∀ e ∈ tree, ¬ IsObject e.2 → ∃ f ∈ split filename tree, f.1 = filename ∧ e ∈ f.2) ∧
      (∀ f ∈ split filename tree, f.1 = filename → ∀ e ∈ f.2, IsObject e.2 → e.1 = filename) ∧
      ∀ order : List (Text × Tree), order.Perm (split filename tree) →
        (order.Pairwise fun f g => (keys f.2).Disjoint (keys g.2)) ∧
        (combine (order.map (·.2))).Perm tree := by
  have hsplit : IsPartition tree (split filename tree) := partition_of_split hk
  refine ⟨hsplit, fun f hf hne => ?_, fun e he hflat => ?_, fun f hf hname e he => ?_,
    fun order hp => ?_⟩
  · obtain ⟨⟨key, v⟩, -, ⟨entries, rfl⟩, -, rfl⟩ := eq_singleton_of_ne_default hf hne
    exact ⟨entries, rfl⟩
  · obtain ⟨f, hf, hmem, hname⟩ := @exists_mem_split filename tree e he
    rw [if_pos (isFlat_iff.mpr fun h => absurd h hflat)] at hname
    exact ⟨f, hf, hname, hmem⟩
  · exact ((mem_default_iff hf hname).mp he).2
  · exact ⟨(hsplit.perm hp).disjoint, (hsplit.perm hp).combine_perm hk⟩

/-- A tree with a text, an object of its own and an object under the name of the default file. -/
def menuTree : Tree :=
  [("title".toList, .string "Home".toList), ("menu".toList,
    .object [("open".toList, .string "Open".toList)]),
    ("index".toList, .object [])]

theorem isPartition_split_menuTree :
    (keys menuTree).Nodup ∧ (split "index".toList menuTree).map (·.1) =
      ["index".toList, "menu".toList] ∧
      IsPartition menuTree (split "index".toList menuTree) := by
  have hk : (keys menuTree).Nodup := by decide
  exact ⟨hk, by decide, (isPartition_split hk).1⟩

end Localization.Assets
