import Mathlib
import Localization.Assets
import Localization.Proofs.Json.ReadBack
import Localization.Proofs.Tree.Sort

/-! Files of one language, one over the other.

`layered` puts files over older ones of the same names, `combined` is the tree that all of
them make. The last file that holds a key decides its value (`get?_combined_iff`). So the
files of a tree, over older ones, make that tree up to the order of keys exactly if no older
file behind them hides a key with another value (`sort_combined_layered_iff`). -/
namespace Localization.Assets

open Json (Value hasDistinctKeys_object)
open Json.Object (get? get?_iff get?_eq_none_iff)

/-! ### Combining -/

theorem get?_insertAll {entries more : Json.Object} (h : (more.map (·.1)).Nodup) (key : Text) :
    get? (Json.Object.insertAll entries more) key = (get? more key).or (get? entries key) := by
  induction more generalizing entries with
  | nil => rfl
  | cons e rest ih =>
    obtain ⟨k, v⟩ := e
    rw [List.map_cons, List.nodup_cons] at h
    show get? (Json.Object.insertAll (Json.Object.insert entries k v) rest) key = _
    rw [ih h.2, Json.Object.get?_insert]
    by_cases hk : key = k
    · subst hk
      have hnone : get? rest key = none := get?_eq_none_iff.mpr h.1
      rw [hnone]
      simp [get?, List.lookup]
    · have hb : (key == k) = false := beq_eq_false_iff_ne.mpr hk
      simp [get?, List.lookup, hb]

/-- Whether every tree has each of its keys once. -/
def AreProper (files : List (Text × Tree)) : Prop :=
  ∀ f ∈ files, (Value.object f.2).hasDistinctKeys

theorem AreProper.nodup {files : List (Text × Tree)} (h : AreProper files) {f : Text × Tree}
    (hf : f ∈ files) :
    (f.2.map (·.1)).Nodup :=
  (hasDistinctKeys_object.mp (h f hf)).1

/-- The order of files by their names. -/
def nameLe (a b : Text × Tree) : Bool := Text.le a.1 b.1

/-- The tree of files, in the order of their names. -/
def combined (files : List (Text × Tree)) : Tree := combine ((files.mergeSort nameLe).map (·.2))

/-- The last tree with a key decides its value. -/
theorem get?_combine_append {trees : List Tree} {tree : Tree} (h : (tree.map (·.1)).Nodup)
    (key : Text) :
    get? (combine (trees ++ [tree])) key = (get? tree key).or (get? (combine trees) key) := by
  rw [combine, List.foldl_append]
  exact get?_insertAll h key

theorem get?_combine_sorted {files : List (Text × Tree)} (hp : AreProper files)
    (hs : files.Pairwise fun a b => nameLe a b = true) {key : Text} {v : Value}
    (h : get? (combine (files.map (·.2))) key = some v) :
    ∃ f ∈ files, get? f.2 key = some v ∧ ∀ g ∈ files, (get? g.2 key).isSome = true →
      Text.le g.1 f.1 = true := by
  induction files using List.reverseRecOn with
  | nil => cases h
  | append_singleton files last ih =>
    have hlast : last ∈ files ++ [last] := by simp
    rw [List.map_append, List.map_cons, List.map_nil, get?_combine_append (hp.nodup hlast)] at h
    have hbefore := List.pairwise_append.mp hs
    cases hl : get? last.2 key with
    | some w =>
      rw [hl, Option.some_or] at h
      cases h
      refine ⟨last, hlast, hl, fun g hg _ => ?_⟩
      rcases List.mem_append.mp hg with hg | hg
      · exact hbefore.2.2 g hg last List.mem_cons_self
      · rw [List.mem_singleton.mp hg]
        exact Text.le_refl _
    | none =>
      rw [hl, Option.none_or] at h
      obtain ⟨f, hf, hv, hall⟩ := ih (fun f hf => hp f (List.mem_append_left _ hf)) hbefore.1 h
      refine ⟨f, List.mem_append_left _ hf, hv, fun g hg hsome => ?_⟩
      rcases List.mem_append.mp hg with hg | hg
      · exact hall g hg hsome
      · rw [List.mem_singleton.mp hg, hl] at hsome
        cases hsome

theorem isSome_get?_combine {files : List (Text × Tree)} (hp : AreProper files) {f : Text × Tree}
    (hf : f ∈ files) {key : Text} (h : (get? f.2 key).isSome = true) :
    (get? (combine (files.map (·.2))) key).isSome = true := by
  induction files using List.reverseRecOn with
  | nil => cases hf
  | append_singleton files last ih =>
    have hlast : last ∈ files ++ [last] := by simp
    rw [List.map_append, List.map_cons, List.map_nil, get?_combine_append (hp.nodup hlast),
      Option.isSome_or, Bool.or_eq_true]
    rcases List.mem_append.mp hf with hf | hf
    · exact .inr (ih (fun f hf => hp f (List.mem_append_left _ hf)) hf)
    · rw [List.mem_singleton.mp hf] at h
      exact .inl h

theorem pairwise_mergeSort_nameLe (files : List (Text × Tree)) :
    (files.mergeSort nameLe).Pairwise fun a b => nameLe a b = true :=
  List.pairwise_mergeSort (fun a b c => Text.le_trans a.1 b.1 c.1) (fun a b =>
    Text.le_total a.1 b.1) files

/-- A file is the last, in the order of names, that holds a key. -/
structure IsLast (files : List (Text × Tree)) (key : Text) (f : Text × Tree) : Prop where
  mem : f ∈ files
  holds : (get? f.2 key).isSome = true
  last : ∀ g ∈ files, (get? g.2 key).isSome = true → Text.le g.1 f.1 = true

/-- **The last file that holds a key decides its value.** -/
theorem get?_combined_iff {files : List (Text × Tree)} (hp : AreProper files)
    (hn : (files.map (·.1)).Nodup) {key : Text} {v : Value} :
    get? (combined files) key = some v ↔ ∃ f, IsLast files key f ∧ get? f.2 key = some v := by
  have hproper : AreProper (files.mergeSort nameLe) := fun f hf => hp f (List.mem_mergeSort.mp hf)
  have hsorted := pairwise_mergeSort_nameLe files
  constructor
  · intro h
    obtain ⟨f, hf, hv, hall⟩ := get?_combine_sorted hproper hsorted h
    refine ⟨f, ⟨List.mem_mergeSort.mp hf, by rw [hv]; rfl, fun g hg => ?_⟩, hv⟩
    exact hall g (List.mem_mergeSort.mpr hg)
  · rintro ⟨f, hf, hv⟩
    have hsome := isSome_get?_combine hproper (List.mem_mergeSort.mpr hf.mem) hf.holds
    obtain ⟨w, hw⟩ := Option.isSome_iff_exists.mp hsome
    obtain ⟨g, hg, hgw, hall⟩ := get?_combine_sorted hproper hsorted hw
    have hgmem := List.mem_mergeSort.mp hg
    have hname : g.1 = f.1 :=
      Text.le_antisymm (hf.last g hgmem (by rw [hgw]; rfl))
        (hall f (List.mem_mergeSort.mpr hf.mem) hf.holds)
    have hgf : g = f := List.inj_on_of_nodup_map hn hgmem hf.mem hname
    rw [← hv, ← hgf, hgw]
    exact hw

theorem isSome_get?_combined {files : List (Text × Tree)} (hp : AreProper files) {f : Text × Tree}
    (hf : f ∈ files) {key : Text} (h : (get? f.2 key).isSome = true) :
    (get? (combined files) key).isSome = true := by
  have hproper : AreProper (files.mergeSort nameLe) := fun f hf => hp f (List.mem_mergeSort.mp hf)
  exact isSome_get?_combine hproper (List.mem_mergeSort.mpr hf) h

/-- No key of a file is lost. -/
theorem mem_keys_combined {files : List (Text × Tree)} (hp : AreProper files) {f : Text × Tree}
    (hf : f ∈ files) {key : Text} (hk : key ∈ f.2.map (·.1)) :
    key ∈ (combined files).map (·.1) := by
  have hsome : (get? f.2 key).isSome = true := by
    rw [Option.isSome_iff_ne_none]
    exact fun h => get?_eq_none_iff.mp h hk
  have := isSome_get?_combined hp hf hsome
  by_contra hnot
  rw [get?_eq_none_iff.mpr hnot] at this
  cases this

theorem hasDistinctKeys_combined {files : List (Text × Tree)} (hp : AreProper files) :
    (Value.object (combined files)).hasDistinctKeys := by
  suffices h : ∀ (trees : List Tree) (tree : Tree),
      (∀ t ∈ trees, (Value.object t).hasDistinctKeys) →
      (Value.object tree).hasDistinctKeys →
        (Value.object (trees.foldl Json.Object.insertAll tree)).hasDistinctKeys by
    refine h _ [] (fun t ht => ?_) Json.Object.hasDistinctKeys_nil
    obtain ⟨f, hf, rfl⟩ := List.mem_map.mp ht
    exact hp f (List.mem_mergeSort.mp hf)
  intro trees
  induction trees with
  | nil => exact fun _ _ h => h
  | cons t rest ih =>
    intro tree ht htree
    refine ih _ (fun t ht' => ht t (List.mem_cons_of_mem _ ht')) ?_
    exact Json.Object.hasDistinctKeys_insertAll htree
      (hasDistinctKeys_object.mp (ht t List.mem_cons_self)).2

/-- The same files make the same tree. -/
theorem combined_perm {a b : List (Text × Tree)} (h : a.Perm b) (hn : (a.map (·.1)).Nodup) :
    combined a = combined b := by
  rw [combined, combined]
  congr 2
  refine List.Perm.eq_of_pairwise ?_ (pairwise_mergeSort_nameLe a)
    (pairwise_mergeSort_nameLe b) ((List.mergeSort_perm _ _).trans
      (h.trans (List.mergeSort_perm _ _).symm))
  intro x y hx hy hxy hyx
  rw [List.mem_mergeSort] at hx hy
  exact List.inj_on_of_nodup_map hn hx (h.mem_iff.mpr hy) (Text.le_antisymm hxy hyx)

/-! ### The files of a tree -/

/-- The name of a file. -/
def fileName (name format : Text) : Text := name ++ '.' :: format

/-- The files that a tree is written to. -/
def written (filename format : Text) (tree : Tree) : List (Text × Tree) :=
  (split filename tree).map fun f => (fileName f.1 format, f.2)

/-- The name of the file that an entry of a tree is written to. -/
def home (filename format : Text) (e : Text × Value) : Text :=
  fileName (if isFlat filename e then filename else e.1) format

/-- The older files that no file of the same name replaces. -/
def leftOver (older files : List (Text × Tree)) : List (Text × Tree) :=
  older.filter fun f => !(files.map (·.1)).contains f.1

/-- Files over older ones of the same names. -/
def layered (older files : List (Text × Tree)) : List (Text × Tree) := leftOver older files ++ files

/-- A file that is left over hides an entry of a tree: of the files left over it is the last that
holds the key, it stands behind the one that the entry is written to, and it has another value. -/
def IsHidden (older : List (Text × Tree)) (filename format : Text) (tree : Tree)
    (e : Text × Value) : Prop :=
  ∃ f v, IsLast (leftOver older (written filename format tree)) e.1 f ∧
    Text.le (home filename format e) f.1 = true ∧ get? f.2 e.1 = some v ∧ Tree.ordered v ≠ e.2

theorem fileName_inj {a b format : Text} : fileName a format = fileName b format ↔ a = b := by
  rw [fileName, fileName, List.append_left_inj]

theorem mem_split_iff {filename : Text} {tree : Tree} {f : Text × Tree} :
    f ∈ split filename tree ↔
      (f = (filename, tree.filter (isFlat filename)) ∧ f.2 ≠ []) ∨
        ∃ e ∈ tree, isFlat filename e = false ∧ f = (e.1, [e]) := by
  have hdefault : f ∈ (if (tree.filter (isFlat filename)).isEmpty then []
      else [(filename, tree.filter (isFlat filename))]) ↔
      f = (filename, tree.filter (isFlat filename)) ∧ f.2 ≠ [] := by
    split
    · next he =>
      constructor
      · exact fun h => by cases h
      · rintro ⟨rfl, hne⟩
        exact absurd (List.isEmpty_iff.mp he) hne
    · next he =>
      rw [List.mem_singleton]
      constructor
      · rintro rfl
        exact ⟨rfl, fun h => he (List.isEmpty_iff.mpr h)⟩
      · exact fun h => h.1
  rw [split, List.mem_append, hdefault]
  refine or_congr Iff.rfl ?_
  constructor
  · intro h
    obtain ⟨e, he, rfl⟩ := List.mem_map.mp h
    obtain ⟨he, hflat⟩ := List.mem_filter.mp he
    exact ⟨e, he, by simpa using hflat, rfl⟩
  · rintro ⟨e, he, hnot, rfl⟩
    have hown : (!isFlat filename e) = true := by rw [hnot, Bool.not_false]
    exact List.mem_map.mpr ⟨e, List.mem_filter.mpr ⟨he, hown⟩, rfl⟩

/-- No two files of a tree have one name: a key of the name of the default file is in that one. -/
theorem nodup_split {filename : Text} {tree : Tree} (hk : (tree.map (·.1)).Nodup) :
    ((split filename tree).map (·.1)).Nodup := by
  have hown : ((tree.filter fun e => !isFlat filename e).map (·.1)).Nodup :=
    hk.sublist (List.filter_sublist.map _)
  rw [split, List.map_append, List.map_map]
  have hmap : ((fun f : Text × Tree => f.1) ∘ fun e : Text × Value => (e.1, [e])) = fun e => e.1 :=
    rfl
  rw [hmap]
  split
  · exact hown
  · refine List.nodup_cons.mpr ⟨fun hmem => ?_, hown⟩
    obtain ⟨e, he, hname⟩ := List.mem_map.mp hmem
    have hflat := (List.mem_filter.mp he).2
    have hname' : e.1 = filename := hname
    simp [isFlat, hname'] at hflat

section

variable {filename format : Text} {tree : Tree} (hk : (Value.object tree).hasDistinctKeys)

include hk

theorem nodup_written : ((written filename format tree).map (·.1)).Nodup := by
  have hmap : (written filename format tree).map (·.1) =
      ((split filename tree).map (·.1)).map fun name => fileName name format := by
    rw [written, List.map_map, List.map_map]
    rfl
  rw [hmap]
  exact (nodup_split (hasDistinctKeys_object.mp hk).1).map fun a b h => fileName_inj.mp h

theorem areProper_written : AreProper (written filename format tree) := by
  rw [hasDistinctKeys_object] at hk
  intro f hf
  obtain ⟨g, hg, rfl⟩ := List.mem_map.mp hf
  refine hasDistinctKeys_object.mpr ?_
  rcases mem_split_iff.mp hg with ⟨rfl, -⟩ | ⟨e, he, -, rfl⟩
  · exact ⟨hk.1.sublist (List.filter_sublist.map _), fun e he => hk.2 e (List.mem_filter.mp he).1⟩
  · exact ⟨List.nodup_singleton _, fun e' he' => hk.2 e' (List.mem_singleton.mp he' ▸ he)⟩

/-- An entry of a tree is in the file it is written to, and in no other. -/
theorem get?_written_iff {f : Text × Tree} (hf : f ∈ written filename format tree) {key : Text}
    {v : Value} :
    get? f.2 key = some v ↔ (key, v) ∈ tree ∧ f.1 = home filename format (key, v) := by
  have hproper := (areProper_written hk).nodup hf
  rw [get?_iff hproper]
  obtain ⟨g, hg, rfl⟩ := List.mem_map.mp hf
  rw [home, fileName_inj]
  rcases mem_split_iff.mp hg with ⟨rfl, -⟩ | ⟨e, he, hflat, rfl⟩
  · rw [List.mem_filter]
    refine and_congr_right fun hmem => ?_
    constructor
    · intro h
      rw [if_pos h]
    · intro h
      by_contra hflat
      rw [if_neg hflat] at h
      have h' : filename = key := h
      rw [isFlat, h', beq_self_eq_true] at hflat
      exact hflat rfl
  · rw [List.mem_singleton]
    constructor
    · rintro rfl
      rw [hflat]
      exact ⟨he, rfl⟩
    · rintro ⟨hmem, hname⟩
      by_cases h : isFlat filename (key, v) = true
      · rw [if_pos h] at hname
        rw [isFlat, hname, beq_self_eq_true] at hflat
        cases hflat
      · rw [if_neg h] at hname
        have hname' : e.1 = key := hname
        exact List.inj_on_of_nodup_map (hasDistinctKeys_object.mp hk).1 hmem he hname'.symm

theorem exists_mem_written {e : Text × Value} (he : e ∈ tree) :
    ∃ f ∈ written filename format tree, f.1 = home filename format e ∧ get? f.2 e.1 = some e.2 := by
  suffices h : ∃ g ∈ split filename tree, fileName g.1 format = home filename format e by
    obtain ⟨g, hg, hname⟩ := h
    have hmem : (fileName g.1 format, g.2) ∈ written filename format tree := List.mem_map_of_mem hg
    exact ⟨_, hmem, hname, (get?_written_iff hk hmem).mpr ⟨he, hname⟩⟩
  by_cases hflat : isFlat filename e = true
  · have hmem : e ∈ tree.filter (isFlat filename) := List.mem_filter.mpr ⟨he, hflat⟩
    refine ⟨_, mem_split_iff.mpr (.inl ⟨rfl, List.ne_nil_of_mem hmem⟩), ?_⟩
    rw [home, if_pos hflat]
  · refine ⟨_, mem_split_iff.mpr (.inr ⟨e, he, by simpa using hflat, rfl⟩), ?_⟩
    rw [home, if_neg hflat]

end

/-! ### A tree over older files -/

theorem nodup_layered {older files : List (Text × Tree)} (ho : (older.map (·.1)).Nodup)
    (hf : (files.map (·.1)).Nodup) : ((layered older files).map (·.1)).Nodup := by
  rw [layered, List.map_append]
  refine List.nodup_append.mpr ⟨ho.sublist (List.filter_sublist.map _), hf, ?_⟩
  rintro name hleft other hother rfl
  obtain ⟨f, hmem, rfl⟩ := List.mem_map.mp hleft
  have := (List.mem_filter.mp hmem).2
  rw [Bool.not_eq_true', ← Bool.not_eq_true, List.contains_iff_mem] at this
  exact this hother

theorem areProper_layered {older files : List (Text × Tree)} (ho : AreProper older)
    (hf : AreProper files) :
    AreProper (layered older files) := by
  intro f hmem
  rcases List.mem_append.mp hmem with h | h
  · exact ho f (List.mem_filter.mp h).1
  · exact hf f h

section

variable {filename format : Text} {tree : Tree} {older : List (Text × Tree)}
  (hk : (Value.object tree).hasDistinctKeys) (ho : AreProper older) (hn : (older.map (·.1)).Nodup)

include hk ho hn

/-- A key has the value of its own file or that of a file left over behind it. -/
theorem eq_or_isLast_of_get?_combined {e : Text × Value} (he : e ∈ tree) {v : Value}
    (h : get? (combined (layered older (written filename format tree))) e.1 = some v) :
    v = e.2 ∨ ∃ f, IsLast (leftOver older (written filename format tree)) e.1 f ∧
      Text.le (home filename format e) f.1 = true ∧ get? f.2 e.1 = some v := by
  have hproper : AreProper (layered older (written filename format tree)) :=
    areProper_layered ho (areProper_written hk)
  obtain ⟨f, hf, hv⟩ := (get?_combined_iff hproper (nodup_layered hn (nodup_written hk))).mp h
  rcases List.mem_append.mp hf.mem with hleft | hown
  · obtain ⟨g, hg, hname, hge⟩ := @exists_mem_written filename format tree hk e he
    refine .inr ⟨f, ⟨hleft, hf.holds, fun g hg => hf.last g (List.mem_append_left _ hg)⟩, ?_, hv⟩
    rw [← hname]
    exact hf.last g (List.mem_append_right _ hg) (by rw [hge]; rfl)
  · have hmem := ((get?_written_iff hk hown).mp hv).1
    have := List.inj_on_of_nodup_map (hasDistinctKeys_object.mp hk).1 hmem he rfl
    exact .inl (congrArg Prod.snd this)

/-- A file left over behind the one a key is written to hides its value. -/
theorem get?_combined_of_isLast {e : Text × Value} {f : Text × Tree}
    (hf : IsLast (leftOver older (written filename format tree)) e.1 f)
    (hle : Text.le (home filename format e) f.1 = true) (he : e ∈ tree) {v : Value}
    (hv : get? f.2 e.1 = some v) :
    get? (combined (layered older (written filename format tree))) e.1 = some v := by
  have hproper : AreProper (layered older (written filename format tree)) :=
    areProper_layered ho (areProper_written hk)
  refine (get?_combined_iff hproper (nodup_layered hn (nodup_written hk))).mpr ⟨f,
    ⟨?_, hf.holds, ?_⟩, hv⟩
  · exact List.mem_append_left _ hf.mem
  · intro g hg hsome
    rcases List.mem_append.mp hg with hleft | hown
    · exact hf.last g hleft hsome
    · obtain ⟨w, hw⟩ := Option.isSome_iff_exists.mp hsome
      obtain ⟨hmem, hname⟩ := (get?_written_iff hk hown).mp hw
      have : (e.1, w) = e := List.inj_on_of_nodup_map (hasDistinctKeys_object.mp hk).1 hmem he rfl
      rw [hname, this]
      exact hle

/-- **The files of a sorted tree, over older files, make that tree up to the order of keys exactly
if no file that is left over hides a key**: if the last of them that holds it stands before the
file it is written to, or has the same value. -/
theorem sort_combined_layered_iff (hs : Tree.sort tree = tree)
    (hcover : ∀ f ∈ older, ∀ key ∈ f.2.map (·.1), key ∈ tree.map (·.1)) :
    Tree.sort (combined (layered older (written filename format tree))) = tree ↔
      ∀ e ∈ tree, ¬ IsHidden older filename format tree e := by
  have hproper : AreProper (layered older (written filename format tree)) :=
    areProper_layered ho (areProper_written hk)
  have hnames :=
    nodup_layered hn (nodup_written hk : ((written filename format tree).map (·.1)).Nodup)
  have hback := hasDistinctKeys_object.mp (hasDistinctKeys_combined hproper)
  have htree := hasDistinctKeys_object.mp hk
  constructor
  · rintro hsort e he ⟨f, v, hf, hle, hv, hne⟩
    have hget := get?_combined_of_isLast hk ho hn hf hle he hv
    have hmem : (e.1, Tree.ordered v) ∈ tree := by
      rw [← hsort, Tree.sort_eq, List.mem_mergeSort]
      exact List.mem_map.mpr ⟨_, (get?_iff hback.1).mp hget, rfl⟩
    exact hne (congrArg Prod.snd (List.inj_on_of_nodup_map htree.1 hmem he rfl))
  · intro hhidden
    -- Every value that is read is, in order, the value in the tree.
    have hvalue : ∀ e ∈ tree, ∀ v,
        get? (combined (layered older (written filename format tree))) e.1 = some v →
          Tree.ordered v = e.2 := by
      intro e he v hv
      rcases eq_or_isLast_of_get?_combined hk ho hn he hv with rfl | ⟨f, hf, hle, hfv⟩
      · exact Tree.ordered_of_mem_sort (hs.symm ▸ he)
      · by_contra hne
        exact hhidden e he ⟨f, v, hf, hle, hfv, hne⟩
    have hkeys :
        ∀ key v, get? (combined (layered older (written filename format tree))) key = some v →
        ∃ e ∈ tree, e.1 = key := by
      intro key v hv
      obtain ⟨f, hf, hfv⟩ := (get?_combined_iff hproper hnames).mp hv
      rcases List.mem_append.mp hf.mem with hleft | hown
      · have hmem : key ∈ f.2.map (·.1) := List.mem_map.mpr ⟨_, Json.Object.mem_of_get? hfv, rfl⟩
        exact List.mem_map.mp (hcover f (List.mem_filter.mp hleft).1 key hmem)
      · exact ⟨_, ((get?_written_iff hk hown).mp hfv).1, rfl⟩
    have hperm :
        ((combined (layered older (written filename format tree))).map Tree.orderedEntry).Perm
          tree := by
      have hnodup :
          (((combined (layered older (written filename format tree))).map Tree.orderedEntry).map
          (·.1)).Nodup := by
        rw [List.map_map]
        exact hback.1
      refine (List.perm_ext_iff_of_nodup (.of_map _ hnodup) (.of_map _ htree.1)).mpr fun e => ?_
      constructor
      · intro hmem
        obtain ⟨⟨key, v⟩, hv, rfl⟩ := List.mem_map.mp hmem
        have hget := (get?_iff hback.1).mpr hv
        obtain ⟨e, he, rfl⟩ := hkeys key v hget
        rw [Tree.orderedEntry, hvalue e he v hget]
        exact he
      · intro he
        obtain ⟨g, hg, -, hge⟩ := @exists_mem_written filename format tree hk e he
        have hsome := isSome_get?_combined hproper (List.mem_append_right _ hg) (by rw [hge]; rfl)
        obtain ⟨v, hv⟩ := Option.isSome_iff_exists.mp hsome
        refine List.mem_map.mpr ⟨(e.1, v), Json.Object.mem_of_get? hv, ?_⟩
        rw [Tree.orderedEntry, hvalue e he v hv]
    rw [← Tree.sort_map_orderedEntry, Tree.sort_perm hperm, hs]
    rw [List.map_map]
    exact hback.1

end

end Localization.Assets
