import Localization.Plural.Condition

/-! Ordinal rules: which form of a numeral names a place in a row. -/
namespace Localization.Plural

open Term

/-- The ordinal rules of each group of languages. -/
def ordinalRules : List (List String × Rules) := [
  (["af", "am", "an", "ar", "bg", "bs", "ce", "cs", "da", "de", "dsb", "el", "es", "et", "eu",
    "fa", "fi", "fy", "gl", "gsw", "he", "hr", "hsb", "ia", "id", "in", "is", "iw", "ja", "km",
    "kn", "ko", "ky", "lt", "lv", "ml", "mn", "my", "nb", "nl", "pa", "pl", "prg", "ps", "pt",
    "ru", "sd", "sh", "si", "sk", "sl", "sr", "sw", "ta", "te", "th", "tr", "ur", "uz", "yue",
    "zh", "zu"], []),
  (["as", "bn"],
    [(.few, .number 4),
     (.many, .number 6),
     (.one, .number 1 ||| .number 5 ||| .number 7 ||| .number 8 ||| .number 9 ||| .number 10),
     (.two, .number 2 ||| .number 3)]),
  (["az"],
    [(.few, (i % 10).is 3 ||| (i % 10).is 4 ||| (i % 1000).is 100 ||| (i % 1000).is 200 |||
      (i % 1000).is 300 ||| (i % 1000).is 400 ||| (i % 1000).is 500 ||| (i % 1000).is 600 |||
      (i % 1000).is 700 ||| (i % 1000).is 800 ||| (i % 1000).is 900),
     (.many, i.is 0 ||| (i % 10).is 6 ||| (i % 100).is 40 ||| (i % 100).is 60 |||
      (i % 100).is 90),
     (.one, (i % 10).is 1 ||| (i % 10).is 2 ||| (i % 10).is 5 ||| (i % 10).is 7 |||
      (i % 10).is 8 ||| (i % 100).is 20 ||| (i % 100).is 50 ||| (i % 100).is 70 |||
      (i % 100).is 80)]),
  (["be"],
    [(.few, ((i % 10).is 2 ||| (i % 10).is 3) &&& (i % 100).isNot 12 &&& (i % 100).isNot 13)]),
  (["ca"],
    [(.few, .number 4),
     (.one, .number 1 ||| .number 3),
     (.two, .number 2)]),
  (["cy"],
    [(.few, .number 3 ||| .number 4),
     (.many, .number 5 ||| .number 6),
     (.one, .number 1),
     (.two, .number 2),
     (.zero, .number 0 ||| .number 7 ||| .number 8 ||| .number 9)]),
  (["en"],
    [(.few, (i % 10).is 3 &&& (i % 100).isNot 13),
     (.one, (i % 10).is 1 &&& (i % 100).isNot 11),
     (.two, (i % 10).is 2 &&& (i % 100).isNot 12)]),
  (["fil", "fr", "ga", "hy", "lo", "mo", "ms", "ro", "tl", "vi"],
    [(.one, .number 1)]),
  (["gd"],
    [(.few, .number 3 ||| .number 13),
     (.one, .number 1 ||| .number 11),
     (.two, .number 2 ||| .number 12)]),
  (["gu", "hi"],
    [(.few, .number 4),
     (.many, .number 6),
     (.one, .number 1),
     (.two, .number 2 ||| .number 3)]),
  (["hu"],
    [(.one, .number 1 ||| .number 5)]),
  (["it", "sc", "scn"],
    [(.many, .number 11 ||| .number 8 ||| .number 80 ||| .number 800)]),
  (["ka"],
    [(.many, i.is 0 ||| (i % 100).is 40 ||| (i % 100).is 60 ||| (i % 100).is 80 |||
      (i % 100).within 2 20),
     (.one, i.is 1)]),
  (["kk"],
    [(.many, (i % 10).is 6 ||| (i % 10).is 9 ||| (i % 10).is 0 &&& .not (.number 0))]),
  (["kw"],
    [(.many, .number 5 ||| (i % 100).is 5),
     (.one, i.within 1 4 &&& f.is 0 ||| i.within 1 4 ||| i.within 21 24 ||| i.within 41 44 |||
      i.within 61 64 ||| i.within 81 84)]),
  (["mk"],
    [(.many, ((i % 10).is 7 ||| (i % 10).is 8) &&& (i % 100).isNot 17 &&& (i % 100).isNot 18),
     (.one, (i % 10).is 1 &&& (i % 100).isNot 11),
     (.two, (i % 10).is 2 &&& (i % 100).isNot 12)]),
  (["mr"],
    [(.few, .number 4),
     (.one, .number 1),
     (.two, .number 2 ||| .number 3)]),
  (["ne"],
    [(.one, i.within 1 4 &&& f.is 0)]),
  (["or"],
    [(.few, .number 4),
     (.many, .number 6),
     (.one, .number 1 ||| .number 5 ||| i.within 7 9 &&& f.is 0),
     (.two, .number 2 ||| .number 3)]),
  (["sq"],
    [(.many, (i % 10).is 4 &&& (i % 100).isNot 14),
     (.one, .number 1)]),
  (["sv"],
    [(.one, ((i % 10).is 1 ||| (i % 10).is 2) &&& (i % 100).isNot 11 &&& (i % 100).isNot 12)]),
  (["tk"],
    [(.few, (i % 10).is 6 ||| (i % 10).is 9 ||| .number 10)]),
  (["uk"],
    [(.few, (i % 10).is 3 &&& (i % 100).isNot 13)])]

end Localization.Plural
