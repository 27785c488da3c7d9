import Localization.Plural.Condition

/-! Cardinal rules: which form of a noun goes with a number of things. -/
namespace Localization.Plural

open Term

/-- The cardinal rules of each group of languages. -/
def cardinalRules : List (List String × Rules) := [
  (["af", "an", "asa", "az", "bem", "bez", "bg", "brx", "ce", "cgg", "chr", "ckb", "dv", "ee",
    "el", "eo", "es", "eu", "fo", "fur", "gsw", "ha", "haw", "hu", "jgo", "jmc", "ka", "kaj",
    "kcg", "kk", "kkj", "kl", "ks", "ksb", "ku", "ky", "lb", "lg", "mas", "mgo", "ml", "mn",
    "mr", "nah", "nb", "nd", "ne", "nn", "nnh", "no", "nr", "ny", "nyn", "om", "or", "os",
    "pap", "ps", "rm", "rof", "rwk", "saq", "sd", "sdh", "seh", "sn", "so", "sq", "ss", "ssy",
    "st", "syr", "ta", "te", "teo", "tig", "tk", "tn", "tr", "ts", "ug", "uz", "ve", "vo",
    "vun", "wae", "xh", "xog"],
    [(.one, .number 1)]),
  (["ak", "bho", "guw", "ln", "mg", "nso", "pa", "ti", "wa"],
    [(.one, i.within 0 1 &&& f.is 0)]),
  (["am", "as", "bn", "fa", "gu", "hi", "kn", "pcm", "zu"],
    [(.one, i.is 0 ||| .number 1)]),
  (["ar", "ars"],
    [(.few, i.within 3 10),
     (.many, i.within 11 99),
     (.one, .number 1),
     (.two, .number 2),
     (.zero, .number 0)]),
  (["ast", "ca", "de", "en", "et", "fi", "fy", "gl", "ia", "io", "it", "ji", "nl", "pt-PT",
    "sc", "scn", "sv", "sw", "ur", "yi"],
    [(.one, i.is 1 &&& v.is 0)]),
  (["be"],
    [(.few, i.within 2 4 &&& i.outside 12 14),
     (.many, (i % 10).is 0 ||| i.within 5 9 ||| i.within 11 14),
     (.one, (i % 10).is 1 &&& (i % 100).isNot 11)]),
  (["bm", "bo", "dz", "id", "ig", "ii", "in", "ja", "jbo", "jv", "jw", "kde", "kea", "km",
    "ko", "lkt", "lo", "ms", "my", "nqo", "osa", "sah", "ses", "sg", "su", "th", "to", "vi",
    "wo", "yo", "yue", "zh"], []),
  (["br"],
    [(.few, ((i % 10).is 9 ||| i.within 3 4) &&& i.outside 10 19 &&& i.outside 70 79 &&&
      i.outside 90 99),
     (.many, .not (.number 0) &&& (i % 1000000).is 0),
     (.one, (i % 10).is 1 &&& (i % 100).isNot 11 &&& (i % 100).isNot 71 &&& (i % 100).isNot 91),
     (.two, (i % 10).is 2 &&& (i % 100).isNot 12 &&& (i % 100).isNot 72 &&& (i % 100).isNot 92)]),
  (["bs", "hr", "sh", "sr"],
    [(.few, v.is 0 &&& (i % 10).within 2 4 &&& (i % 100).outside 12 14 ||| (f % 10).within 2 4 &&&
      (f % 100).outside 12 14),
     (.one, v.is 0 &&& (i % 10).is 1 &&& (i % 100).isNot 11 ||| (f % 10).is 1 &&&
      (f % 100).isNot 11)]),
  (["ceb", "fil", "tl"],
    [(.one, v.is 0 &&& (i.is 1 ||| i.is 2 ||| i.is 3) ||| v.is 0 &&& (i % 10).isNot 4 &&&
      (i % 10).isNot 6 &&& (i % 10).isNot 9 ||| v.isNot 0 &&& (f % 10).isNot 4 &&&
      (f % 10).isNot 6 &&& (f % 10).isNot 9)]),
  (["cs", "sk"],
    [(.few, i.within 2 4 &&& v.is 0),
     (.many, v.isNot 0),
     (.one, i.is 1 &&& v.is 0)]),
  (["cy"],
    [(.few, .number 3),
     (.many, .number 6),
     (.one, .number 1),
     (.two, .number 2),
     (.zero, .number 0)]),
  (["da"],
    [(.one, .number 1 ||| t.isNot 0 &&& (i.is 0 ||| i.is 1))]),
  (["dsb", "hsb"],
    [(.few, v.is 0 &&& (i % 100).within 3 4 ||| (f % 100).within 3 4),
     (.one, v.is 0 &&& (i % 100).is 1 ||| (f % 100).is 1),
     (.two, v.is 0 &&& (i % 100).is 2 ||| (f % 100).is 2)]),
  (["ff", "fr", "hy", "kab"],
    [(.one, i.is 0 ||| i.is 1)]),
  (["ga"],
    [(.few, i.within 3 6 &&& f.is 0),
     (.many, i.within 7 10 &&& f.is 0),
     (.one, .number 1),
     (.two, .number 2)]),
  (["gd"],
    [(.few, i.within 3 10 &&& f.is 0 ||| i.within 13 19 &&& f.is 0),
     (.one, .number 1 ||| .number 11),
     (.two, .number 2 ||| .number 12)]),
  (["gv"],
    [(.few, v.is 0 &&& ((i % 100).is 0 ||| (i % 100).is 20 ||| (i % 100).is 40 |||
      (i % 100).is 60 ||| (i % 100).is 80)),
     (.many, v.isNot 0),
     (.one, v.is 0 &&& (i % 10).is 1),
     (.two, v.is 0 &&& (i % 10).is 2)]),
  (["he", "iw"],
    [(.many, v.is 0 &&& i.outside 0 10 &&& f.is 0 &&& (i % 10).is 0),
     (.one, i.is 1 &&& v.is 0),
     (.two, i.is 2 &&& v.is 0)]),
  (["is"],
    [(.one, t.is 0 &&& (i % 10).is 1 &&& (i % 100).isNot 11 ||| t.isNot 0)]),
  (["iu", "naq", "sat", "se", "sma", "smi", "smj", "smn", "sms"],
    [(.one, .number 1),
     (.two, .number 2)]),
  (["ksh"],
    [(.one, .number 1),
     (.zero, .number 0)]),
  (["kw"],
    [(.few, (i % 100).is 3 ||| (i % 100).is 23 ||| (i % 100).is 43 ||| (i % 100).is 63 |||
      (i % 100).is 83),
     (.many, .not (.number 1) &&& ((i % 100).is 1 ||| (i % 100).is 21 ||| (i % 100).is 41 |||
      (i % 100).is 61 ||| (i % 100).is 81)),
     (.one, .number 1),
     (.two, (i % 100).is 2 ||| (i % 100).is 22 ||| (i % 100).is 42 ||| (i % 100).is 62 |||
      (i % 100).is 82 ||| (i % 1000).is 0 &&& ((i % 100000).is 40000 ||| (i % 100000).is 60000 |||
      (i % 100000).is 80000 ||| i.within 1000 20000) ||| .not (.number 0) &&&
      (i % 1000000).is 100000),
     (.zero, .number 0)]),
  (["lag"],
    [(.one, (i.is 0 ||| i.is 1) &&& .not (.number 0)),
     (.zero, .number 0)]),
  (["lt"],
    [(.few, i.within 2 9 &&& i.outside 11 19),
     (.many, f.isNot 0),
     (.one, (i % 10).is 1 &&& i.outside 11 19)]),
  (["lv", "prg"],
    [(.one, (i % 10).is 1 &&& (i % 100).isNot 11 ||| v.is 2 &&& (f % 10).is 1 &&&
      (f % 100).isNot 11 ||| v.isNot 2 &&& (f % 10).is 1),
     (.zero, (i % 10).is 0 ||| i.within 11 19 ||| v.is 2 &&& (f % 100).within 11 19)]),
  (["mk"],
    [(.one, v.is 0 &&& (i % 10).is 1 &&& (i % 100).isNot 11 ||| (f % 10).is 1 &&&
      (f % 100).isNot 11)]),
  (["mo", "ro"],
    [(.few, v.isNot 0 ||| .number 0 ||| i.within 2 19),
     (.one, i.is 1 &&& v.is 0)]),
  (["mt"],
    [(.few, .number 0 ||| i.within 2 10),
     (.many, i.within 11 19),
     (.one, .number 1)]),
  (["pl"],
    [(.few, v.is 0 &&& (i % 10).within 2 4 &&& (i % 100).outside 12 14),
     (.many, v.is 0 &&& i.isNot 1 &&& (i % 10).within 0 1 ||| v.is 0 &&& (i % 10).within 5 9 |||
      v.is 0 &&& (i % 100).within 12 14),
     (.one, i.is 1 &&& v.is 0)]),
  (["pt"],
    [(.one, i.within 0 1)]),
  (["ru", "uk"],
    [(.few, v.is 0 &&& (i % 10).within 2 4 &&& (i % 100).outside 12 14),
     (.many, v.is 0 &&& (i % 10).is 0 ||| v.is 0 &&& (i % 10).within 5 9 ||| v.is 0 &&&
      (i % 100).within 11 14),
     (.one, v.is 0 &&& (i % 10).is 1 &&& (i % 100).isNot 11)]),
  (["shi"],
    [(.few, i.within 2 10 &&& f.is 0),
     (.one, i.is 0 ||| .number 1)]),
  (["si"],
    [(.one, .number 0 ||| .number 1 ||| i.is 0 &&& f.is 1)]),
  (["sl"],
    [(.few, v.is 0 &&& (i % 100).within 3 4 ||| v.isNot 0),
     (.one, v.is 0 &&& (i % 100).is 1),
     (.two, v.is 0 &&& (i % 100).is 2)]),
  (["tzm"],
    [(.one, i.within 0 1 &&& f.is 0 ||| i.within 11 99 &&& f.is 0)])]

end Localization.Plural
