import Localization.Files.Path
import Localization.Marker.Family
import Localization.Text.Order

/-! Configuration.

What a project says about itself: where its sources, its assets and its compiled
chunks are, which languages it supports, and how its keys and markers are written.
Every part has a default. -/
namespace Localization

/-! ### Units -/

/-- Whether units stand in order, each once. -/
def Units.AreOrdered (entries : List (Text × Text)) : Prop :=
  entries.Pairwise fun a b => Text.le a.1 b.1 = true ∧ a.1 ≠ b.1

instance (entries : List (Text × Text)) : Decidable (Units.AreOrdered entries) :=
  inferInstanceAs (Decidable (List.Pairwise _ _))

/-- Names of units by unit. -/
@[ext]
structure Units where
  entries : List (Text × Text)
  ordered : Units.AreOrdered entries
  deriving DecidableEq, Repr

namespace Units

def empty : Units := ⟨[], .nil⟩

/-- Sets a unit's name in a list ordered by unit. -/
def place (unit name : Text) : List (Text × Text) → List (Text × Text)
  | [] => [(unit, name)]
  | (u, n) :: rest =>
    if unit == u then (unit, name) :: rest
    else if Text.le unit u then (unit, name) :: (u, n) :: rest
    else (u, n) :: place unit name rest

theorem mem_place {unit name : Text} {e : Text × Text} {entries : List (Text × Text)}
    (h : e ∈ place unit name entries) : e = (unit, name) ∨ e ∈ entries := by
  induction entries with
  | nil => exact .inl (List.mem_singleton.mp h)
  | cons first rest ih =>
    rw [place] at h
    split at h
    · exact (List.mem_cons.mp h).imp_right (List.mem_cons_of_mem _)
    · split at h
      · exact List.mem_cons.mp h
      · rcases List.mem_cons.mp h with rfl | h
        · exact .inr List.mem_cons_self
        · exact (ih h).imp_right (List.mem_cons_of_mem _)

theorem areOrdered_place (unit name : Text) {entries : List (Text × Text)}
    (h : AreOrdered entries) :
    AreOrdered (place unit name entries) := by
  induction entries with
  | nil => exact List.pairwise_singleton _ _
  | cons first rest ih =>
    obtain ⟨hfirst, hrest⟩ := List.pairwise_cons.mp h
    rw [place]
    split
    · next heq =>
      obtain rfl := beq_iff_eq.mp heq
      exact List.pairwise_cons.mpr ⟨hfirst, hrest⟩
    · next hne =>
      have hdifferent : unit ≠ first.1 := fun he => hne (beq_iff_eq.mpr he)
      split
      · next hle =>
        refine List.pairwise_cons.mpr ⟨fun e he => ?_, h⟩
        rcases List.mem_cons.mp he with rfl | he
        · exact ⟨hle, hdifferent⟩
        · obtain ⟨hle', hne'⟩ := hfirst e he
          exact ⟨Text.le_trans _ _ _ hle hle', fun hsame =>
            hne' (Text.le_antisymm hle' (hsame ▸ hle))⟩
      · next hbehind =>
        have hle := (Bool.or_eq_true _ _ ▸ Text.le_total unit first.1).resolve_left hbehind
        refine List.pairwise_cons.mpr ⟨fun e he => ?_, ih hrest⟩
        rcases mem_place he with rfl | he
        · exact ⟨hle, Ne.symm hdifferent⟩
        · exact hfirst e he

/-- Sets a unit's name. -/
def insert (units : Units) (unit name : Text) : Units :=
  ⟨place unit name units.entries, areOrdered_place unit name units.ordered⟩

/-- The units of some entries; of a unit named twice the last name stays. -/
def ofList (entries : List (Text × Text)) : Units :=
  entries.foldl (fun units e => units.insert e.1 e.2) empty

end Units

/-! ### Languages -/

/-- A supported language. Only the tag matters here; the rest belongs to the formatting at
run time and is kept as it is. -/
structure Locale where
  lang : Text
  extension : Option Text
  currency : Option Text
  timeZone : Option Text
  units : Option Units
  deriving DecidableEq, Repr

namespace Locale

/-- A language with nothing but its tag. -/
def ofTag (lang : Text) : Locale := ⟨lang, none, none, none, none⟩

def isTagOnly (l : Locale) : Bool :=
  l.extension.isNone && l.currency.isNone && l.timeZone.isNone && l.units.isNone

/-- A language without further fields is its tag. -/
theorem eq_ofTag_of_isTagOnly {l : Locale} (h : l.isTagOnly = true) : l = ofTag l.lang := by
  obtain ⟨lang, e, c, t, u⟩ := l
  simp only [isTagOnly, Bool.and_eq_true, Option.isNone_iff_eq_none] at h
  obtain ⟨⟨⟨rfl, rfl⟩, rfl⟩, rfl⟩ := h
  rfl

end Locale

/-! ### Markers -/

/-- The names of the markers of each family. -/
structure Markers where
  translate : Text
  inlineTranslate : Text
  plural : Text
  useTranslate : Text
  deriving DecidableEq, Repr

namespace Markers

def standard : Markers := ⟨"$translate", "$inlineTranslate", "$plural", "useTranslate$"⟩

/-- The name of a family's marker. -/
def name (m : Markers) : Marker.Family → Text
  | .translate => m.translate
  | .inlineTranslate => m.inlineTranslate
  | .plural => m.plural
  | .useTranslate => m.useTranslate

end Markers

/-! ### Configurations -/

/-- A configuration. -/
structure Config where
  basePath : Path
  sourcePaths : List Text
  excludedPaths : List Text
  assetsPath : Path
  format : Text
  /-- The name of the file for keys that have none of their own. -/
  filename : Text
  keySeparator : Text
  valueSeparator : Text
  locales : List Locale
  defaultLocale : Option Text
  outDir : Path
  chunksDir : Path
  logFile : Path
  markers : Markers
  deriving DecidableEq, Repr

namespace Config

/-- The configuration of a project that says nothing. -/
def standard : Config where
  basePath := "./"
  sourcePaths := ["src"]
  excludedPaths := []
  assetsPath := "i18n"
  format := "json"
  filename := "app"
  keySeparator := "."
  valueSeparator := "@@"
  locales := [Locale.ofTag "en-US"]
  defaultLocale := none
  outDir := "dist"
  chunksDir := "build"
  logFile := "tolk-inline.log"
  markers := Markers.standard

/-- The tags of the supported languages in order. -/
def langs (c : Config) : List Text := c.locales.map (·.lang)

/-- The default language, the first supported one if none is named. -/
def defaultLang (c : Config) : Text := c.defaultLocale.getD (c.langs.head?.getD [])

/-- The base path seen from `root`. -/
def rooted (root : Path) (c : Config) : Config := { c with basePath := Path.join root c.basePath }

def assetsRoot (c : Config) : Path := Path.join c.basePath c.assetsPath

def chunkDir (c : Config) : Path := Path.join (Path.join c.basePath c.outDir) c.chunksDir

def logFilePath (c : Config) : Path := Path.join c.basePath c.logFile

end Config

end Localization
