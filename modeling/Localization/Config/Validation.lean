import Localization.Config.Basic
import Localization.Error
import Localization.Files.Pattern
import Localization.LanguageTag

/-! Valid configurations.

`Config.fault?` gives the first thing that is wrong with a configuration. The
separators of a valid one are not empty and differ. -/
namespace Localization

namespace Config

/-- The first language that is no tag. -/
def localeFault? (c : Config) : Option ConfigFault :=
  (c.langs.find? fun lang => (LanguageTag.ofText? lang).isNone).map .invalidLocale

def separatorFault? (c : Config) : Option ConfigFault :=
  if c.keySeparator.isEmpty then some .emptyKeySeparator
  else if c.valueSeparator.isEmpty then some .emptyValueSeparator
  else if c.keySeparator == c.valueSeparator then some (.sameSeparators c.keySeparator)
  else none

/-- The first exclusion that is a malformed pattern. -/
def exclusionFault? (c : Config) : Option ConfigFault :=
  (c.excludedPaths.find? fun p => Pattern.isPattern p && (Pattern.ofText? p).isNone).map
    .invalidExclusion

/-- The first thing that is wrong with a configuration. -/
def fault? (c : Config) : Option ConfigFault :=
  if c.locales.isEmpty then some .noLocales
  else
    c.localeFault?.or <|
    (if c.langs.contains c.defaultLang then none else some (.foreignDefault c.defaultLang)).or <|
    c.separatorFault?.or <|
    (if c.format == "json" then none else some (.unknownFormat c.format)).or <|
    c.exclusionFault?

/-- The configuration, if nothing is wrong with it. -/
def validate (c : Config) : Except Error Config :=
  match c.fault? with
  | some fault => .error (.config fault)
  | none => .ok c

theorem separatorFault?_eq_none {c : Config} (h : c.separatorFault? = none) :
    c.keySeparator ≠ [] ∧ c.valueSeparator ≠ [] ∧ c.keySeparator ≠ c.valueSeparator := by
  simp only [separatorFault?] at h
  split at h
  · cases h
  · split at h
    · cases h
    · split at h
      · cases h
      · simp_all

/-- A valid configuration has two different separators, neither of them empty. -/
theorem separators_of_fault?_eq_none {c : Config} (h : c.fault? = none) :
    c.keySeparator ≠ [] ∧ c.valueSeparator ≠ [] ∧ c.keySeparator ≠ c.valueSeparator := by
  simp only [fault?] at h
  split at h
  · cases h
  · simp only [Option.or_eq_none_iff] at h
    exact separatorFault?_eq_none h.2.2.1

end Config

end Localization
