import Localization.Files.Path

/-! Stored files.

A store says for every location, the list of names that leads to it from the root,
whether it holds a file, a directory or nothing. It is a file system (`IsFileSystem`):
whatever is there stands in a directory, and an entry goes only where it keeps that so
(`takes`). Reading and writing go through paths; `follow` goes along one name by name, so
every name on the way must be a directory, and `locate` does so for the paths that are
short enough. There are no permissions: what a path leads to can be read.

`get?_insert` is all that writing does to a store. -/
namespace Localization

/-- What is in a file: a text, or bytes that are the UTF-8 form of none. -/
inductive Content where
  | text (t : Text)
  | bytes (b : List UInt8)
  deriving DecidableEq, Repr

/-- The content with some bytes. -/
def Content.ofBytes (b : ByteArray) : Content :=
  match String.fromUTF8? b with
  | some s => text s.toList
  | none => bytes b.toList

/-- The content followed by a text. Bytes that are no text stay so. -/
def Content.append : Content → Text → Content
  | text t, more => text (t ++ more)
  | bytes b, more => bytes (b ++ (String.ofList more).toUTF8.toList)

inductive Entry where
  | file (content : Content)
  | directory
  deriving DecidableEq, Repr

/-- The names that lead from the root to a place. -/
abbrev Location := List Text

/-! ### Names -/

namespace Store

/-- How long a name may be, in bytes. -/
def maxName : Nat := 255

/-- How long a path may be, in bytes. -/
def maxPath : Nat := 4095

def isName (piece : Text) : Bool := Text.size piece ≤ maxName && !piece.contains '\x00'

end Store

/-- Whether a text can be the name of what is in a directory. -/
structure Path.IsEntryName (n : Text) : Prop where
  component : component? n = some (.name n)
  noSlash : '/' ∉ n
  fits : Store.isName n = true

instance (n : Text) : Decidable (Path.IsEntryName n) :=
  decidable_of_iff (Path.component? n = some (.name n) ∧ '/' ∉ n ∧ Store.isName n = true)
    ⟨fun ⟨h, h', h''⟩ => ⟨h, h', h''⟩, fun h => ⟨h.component, h.noSlash, h.fits⟩⟩

/-! ### Entries -/

/-- Entries and where they are. -/
abbrev Entries := List (Location × Entry)

namespace Entries

/-- What is at a location. The root is a directory. -/
def get? (entries : Entries) (l : Location) : Option Entry :=
  if l.isEmpty then some .directory else entries.lookup l

/-- The entries with another one at a location. -/
def replace (entries : Entries) (l : Location) (e : Entry) : Entries :=
  (l, e) :: entries.filter fun x => x.1 != l

/-- The entries that are neither at a location nor below it. -/
def without (entries : Entries) (l : Location) : Entries :=
  entries.filter fun x => !l.isPrefixOf x.1

/-- Whether entries make up a file system: no location is listed twice, and everything stands in
a directory and under a name that can be one. -/
structure IsFileSystem (entries : Entries) : Prop where
  nodup : (entries.map (·.1)).Nodup
  names : ∀ e ∈ entries, ∀ n ∈ e.1, Path.IsEntryName n
  parent : ∀ e ∈ entries, e.1 ≠ [] → entries.get? e.1.dropLast = some .directory

instance (entries : Entries) : Decidable entries.IsFileSystem :=
  decidable_of_iff ((entries.map (·.1)).Nodup ∧ (∀ e ∈ entries, ∀ n ∈ e.1, Path.IsEntryName n) ∧
      ∀ e ∈ entries, e.1 ≠ [] → entries.get? e.1.dropLast = some .directory)
    ⟨fun ⟨h, h', h''⟩ => ⟨h, h', h''⟩, fun h => ⟨h.nodup, h.names, h.parent⟩⟩

theorem get?_of_ne_nil (entries : Entries) {l : Location} (h : l ≠ []) :
    entries.get? l = entries.lookup l := by
  have hl : l.isEmpty = false := by simpa using h
  rw [get?, hl, if_neg Bool.false_ne_true]

theorem lookup_filter (entries : Entries) (keep : Location → Bool) {k : Location}
    (hk : keep k = true) :
    (entries.filter fun x => keep x.1).lookup k = entries.lookup k := by
  induction entries with
  | nil => rfl
  | cons p rest ih =>
    obtain ⟨q, v⟩ := p
    by_cases hq : k = q
    · subst hq
      simp [hk]
    · have hb : (k == q) = false := beq_eq_false_iff_ne.mpr hq
      rw [List.filter_cons]
      split
      · simp only [List.lookup_cons, hb, ih]
      · simp only [List.lookup_cons, hb, ih]

theorem get?_replace (entries : Entries) (l : Location) (e : Entry) {k : Location} (hk : k ≠ []) :
    (entries.replace l e).get? k = if k = l then some e else entries.get? k := by
  rw [get?_of_ne_nil _ hk, get?_of_ne_nil _ hk, replace]
  by_cases h : k = l
  · subst h
    simp
  · have hb : (k == l) = false := beq_eq_false_iff_ne.mpr h
    simp only [List.lookup_cons, hb, if_neg h]
    exact lookup_filter entries (· != l) (bne_iff_ne.mpr h)

/-- Names lead to a directory that is there. -/
theorem IsFileSystem.names_of_get? {entries : Entries} (h : entries.IsFileSystem) {l : Location}
    {e : Entry} (hl : entries.get? l = some e) :
    ∀ n ∈ l, Path.IsEntryName n := by
  by_cases hnil : l = []
  · subst hnil
    exact fun n hn => absurd hn List.not_mem_nil
  · rw [get?_of_ne_nil _ hnil] at hl
    obtain ⟨before, after, hsplit, -⟩ := List.lookup_eq_some_iff.mp hl
    exact h.names (l, e) (hsplit ▸ List.mem_append_right _ List.mem_cons_self)

/-- An entry goes under a name into a directory, and no file in the place of a directory. -/
theorem IsFileSystem.replace {entries : Entries} (h : entries.IsFileSystem) {l : Location}
    {e : Entry} (hnames : ∀ n ∈ l, Path.IsEntryName n)
    (hparent : l ≠ [] → entries.get? l.dropLast = some .directory)
    (hdir : entries.get? l = some .directory → e = .directory) :
    (entries.replace l e).IsFileSystem := by
  have hkept (k : Location) (hk : entries.get? k = some .directory) :
      (entries.replace l e).get? k = some .directory := by
    by_cases hnil : k = []
    · rw [hnil]
      rfl
    · rw [get?_replace _ _ _ hnil]
      by_cases hkl : k = l
      · rw [if_pos hkl, hdir (hkl ▸ hk)]
      · rw [if_neg hkl, hk]
  have hmem : ∀ x ∈ entries.replace l e, x = (l, e) ∨ x ∈ entries := fun x hx =>
    (List.mem_cons.mp hx).imp_right fun hx => (List.mem_filter.mp hx).1
  refine ⟨?_, fun x hx => ?_, fun x hx hne => ?_⟩
  · refine List.nodup_cons.mpr ⟨fun hl => ?_, h.nodup.sublist (List.filter_sublist.map _)⟩
    obtain ⟨x, hx, rfl⟩ := List.mem_map.mp hl
    simpa using (List.mem_filter.mp hx).2
  · rcases hmem x hx with rfl | hx
    · exact hnames
    · exact h.names x hx
  · rcases hmem x hx with rfl | hx
    · exact hkept _ (hparent hne)
    · exact hkept _ (h.parent x hx hne)

theorem get?_without {entries : Entries} {l k : Location} (hk : ¬ l <+: k) :
    (entries.without l).get? k = entries.get? k := by
  by_cases hnil : k = []
  · rw [hnil]
    rfl
  · rw [get?_of_ne_nil _ hnil, get?_of_ne_nil _ hnil]
    refine lookup_filter entries (fun k => !l.isPrefixOf k) ?_
    rwa [Bool.not_eq_true', Bool.eq_false_iff, ne_eq, List.isPrefixOf_iff_prefix]

theorem mem_without_iff {entries : Entries} {l : Location} {x : Location × Entry} :
    x ∈ entries.without l ↔ x ∈ entries ∧ ¬ l <+: x.1 := by
  rw [without, List.mem_filter, Bool.not_eq_true', Bool.eq_false_iff, ne_eq,
    List.isPrefixOf_iff_prefix]

/-- What is not below a location is in a directory that is not. -/
theorem IsFileSystem.without {entries : Entries} (h : entries.IsFileSystem) (l : Location) :
    (entries.without l).IsFileSystem := by
  have hmem {x : Location × Entry} (hx : x ∈ entries.without l) : x ∈ entries ∧ ¬ l <+: x.1 :=
    mem_without_iff.mp hx
  refine ⟨h.nodup.sublist (List.filter_sublist.map _), fun x hx => h.names x (hmem hx).1,
    fun x hx hne => ?_⟩
  rw [get?_without fun hl => (hmem hx).2 (hl.trans (List.dropLast_prefix _))]
  exact h.parent x (hmem hx).1 hne

end Entries

/-! ### Stores -/

/-- What is stored where. -/
structure Store where
  entries : Entries
  sound : entries.IsFileSystem

namespace Store

def empty : Store := ⟨[], by decide⟩

/-- What is at a location. -/
def get? (s : Store) (l : Location) : Option Entry := s.entries.get? l

/-- Whether an entry can be put at a location: it goes under a name into a directory, and no file
goes in the place of a directory. -/
def takes (s : Store) (l : Location) (e : Entry) : Bool :=
  (match l.getLast? with
    | some n => decide (Path.IsEntryName n)
    | none => false) &&
    s.get? l.dropLast == some .directory && (e == .directory || s.get? l != some .directory)

theorem takes_iff {s : Store} {l : Location} {e : Entry} :
    s.takes l e = true ↔ (∃ n ∈ l.getLast?, Path.IsEntryName n) ∧
      s.get? l.dropLast = some .directory ∧ (s.get? l = some .directory → e = .directory) := by
  simp only [takes, Bool.and_eq_true, Bool.or_eq_true, beq_iff_eq, bne_iff_ne, and_assoc]
  refine and_congr ?_ (and_congr_right fun _ => ?_)
  · cases l.getLast? <;> simp
  · by_cases h : s.get? l = some .directory <;> simp [h]

theorem sound_replace {s : Store} {l : Location} {e : Entry} (h : s.takes l e = true) :
    (s.entries.replace l e).IsFileSystem := by
  obtain ⟨⟨n, hn, hname⟩, hparent, hdir⟩ := takes_iff.mp h
  obtain ⟨d, rfl⟩ := List.getLast?_eq_some_iff.mp hn
  rw [List.dropLast_concat] at hparent
  refine s.sound.replace (fun m hm => ?_) (fun _ => by rwa [List.dropLast_concat]) hdir
  rcases List.mem_append.mp hm with hm | hm
  · exact s.sound.names_of_get? hparent m hm
  · rwa [List.mem_singleton.mp hm]

/-- Puts an entry at a location that takes it. -/
def insert (s : Store) (l : Location) (e : Entry) : Store :=
  if h : s.takes l e then ⟨s.entries.replace l e, sound_replace h⟩ else s

/-- Takes away a location and everything below it. -/
def erase (s : Store) (l : Location) : Store := ⟨s.entries.without l, s.sound.without l⟩

theorem insert_of_not_takes {s : Store} {l : Location} {e : Entry} (h : ¬ s.takes l e = true) :
    s.insert l e = s := dif_neg h

theorem get?_insert {s : Store} {l : Location} {e : Entry} (h : s.takes l e = true) {k : Location}
    (hk : k ≠ []) :
    (s.insert l e).get? k = if k = l then some e else s.get? k := by
  rw [insert, dif_pos h]
  exact Entries.get?_replace s.entries l e hk

theorem get?_erase (s : Store) {l k : Location} (hk : ¬ l <+: k) :
    (s.erase l).get? k = s.get? k := Entries.get?_without hk

theorem get?_erase_below (s : Store) {l k : Location} (hk : l <+: k) (hnil : k ≠ []) :
    (s.erase l).get? k = none := by
  rw [get?, Entries.get?_of_ne_nil _ hnil, List.lookup_eq_none_iff]
  intro x hx
  refine bne_iff_ne.mpr fun h => (Entries.mem_without_iff.mp hx).2 ?_
  rwa [← h]

/-! ### Paths -/

/-- Whether a path can be used at all, wherever it leads. -/
def isPath (p : Path) : Bool := Text.size p ≤ maxPath && !p.contains '\x00'

/-- Where a path leads, however long it is. Every name before the last must be a directory,
and so must the last if a slash or a point follows it. -/
def follow (s : Store) (p : Path) : Option Location :=
  (Path.pieces p).foldl
    (fun place piece =>
      place.bind fun l =>
        if s.get? l == some .directory && isName piece then
          match Path.component? piece with
          | some .parent => some l.dropLast
          | some (.name n) => some (l ++ [n])
          | _ => some l
        else none)
    (some [])

/-- Where a path leads. -/
def locate (s : Store) (p : Path) : Option Location := if isPath p then s.follow p else none

def entry? (s : Store) (p : Path) : Option Entry := (s.locate p).bind s.get?

def isDirectory (s : Store) (p : Path) : Bool := s.entry? p == some .directory

def isFile (s : Store) (p : Path) : Bool :=
  match s.entry? p with
  | some (.file _) => true
  | _ => false

def contains (s : Store) (p : Path) : Bool := (s.entry? p).isSome

/-- The text of a file. -/
def readText? (s : Store) (p : Path) : Option Text :=
  match s.entry? p with
  | some (.file (.text t)) => some t
  | _ => none

/-- The names in the directory at a location, in order. -/
def namesIn (s : Store) (l : Location) : List Text :=
  (s.entries.filterMap fun (k, _) =>
    match k.getLast? with
    | some n => if k.dropLast == l then some n else none
    | none => none).mergeSort Text.le

/-- The names in a directory, in order. -/
def names? (s : Store) (p : Path) : Option (List Text) :=
  if s.isDirectory p then (s.locate p).map s.namesIn else none

/-! ### Writing -/

/-- The location a file can be written to. -/
def writable? (s : Store) (p : Path) : Option Location :=
  match s.locate p with
  | some l => if s.get? l == some .directory then none else some l
  | none => none

/-- Writes a file; none if there is no place for it. -/
def write? (s : Store) (p : Path) (c : Content) : Option Store :=
  (s.writable? p).map fun l => s.insert l (.file c)

/-- Writes behind the end of a file, which is made if need be. -/
def append? (s : Store) (p : Path) (t : Text) : Option Store :=
  (s.writable? p).map fun l =>
    match s.get? l with
    | some (.file c) => s.insert l (.file (c.append t))
    | _ => s.insert l (.file (.text t))

/-- Makes the directory at a location, which must not be a file. -/
def makeDirectory? (s : Store) (l : Location) : Option Store :=
  match s.get? l with
  | some .directory => some s
  | some (.file _) => none
  | none => some (s.insert l .directory)

/-- Makes every directory on the way along the pieces of a path, up to the first that cannot
be made, and says whether that was all of them. -/
def makeAlong (s : Store) (l : Location) : List Text → Store × Bool
  | [] => (s, true)
  | piece :: rest =>
    match Path.component? piece with
    | some .parent => s.makeAlong l.dropLast rest
    | some (.name n) =>
      if isName n then
        match s.makeDirectory? (l ++ [n]) with
        | some s => s.makeAlong (l ++ [n]) rest
        | none => (s, false)
      else (s, false)
    | _ => s.makeAlong l rest

/-- Makes a directory and those that lead to it, and says whether nothing was in the way. A
point behind its name stands for a directory that is there already: if it is not, only those
that lead to it are made. -/
def makeDirectories (s : Store) (p : Path) : Store × Bool :=
  if !isPath p then (s, false)
  else if Path.endsInPoint p && (Path.fileName? p).isSome && !s.isDirectory p then
    ((s.makeAlong [] (Path.pieces ((Path.parent? p).getD []))).1, false)
  else s.makeAlong [] (Path.pieces p)

/-- The path of a location. -/
def pathOf (l : Location) : Path :=
  match l with
  | [] => ['/']
  | l => l.flatMap ('/' :: ·)

/-- The one spelling of the path of something that is there. -/
def canonical? (s : Store) (p : Path) : Option Path :=
  match s.follow p with
  | some l => if (s.get? l).isSome then some (pathOf l) else none
  | none => none

end Store

end Localization
