import Mathlib
import Localization.Proofs.Argument.Settled
import Localization.Proofs.Results
import Localization.Proofs.Script.Group

/-! Arguments that are written back.

What `toScript` writes for an argument that was read may stand in brackets: it is a list of
items of the grammar of groups (`IsEnclosed.within`), so no bracket, quote or comment of it
reaches behind it. Literals and keys are written anew, so theirs are closed whatever they hold;
names, calls and other expressions are the texts that were read, and these settle
(`isEnclosed_of_isClosedBy`). -/
namespace Localization.Script

/-! ### Settled texts -/

/-- A text that settles is in the grammar. -/
theorem Settles.within {t : Text} (h : Settles [] t) : Within .brackets t := by
  generalize hn : t.length = n
  induction n using Nat.strongRecOn generalizing t with
  | ind n ih =>
    subst hn
    cases h with
    | nil => exact .nil
    | ordinary hc hrest => exact .ordinary hc (ih _ (Nat.lt_succ_self _) hrest rfl)
    | slash hc hrest => exact .slash hc (ih _ (Nat.lt_succ_self _) hrest rfl)
    | @literal _ quote r body rest hquote hbody hrest =>
      have hwithin := ih rest.length (by simp) hrest rfl
      rcases literal?_cases hquote with ⟨hstring, rfl⟩ | ⟨rfl, rfl⟩
      · obtain ⟨body, rfl, hquoted⟩ := State.IsClosedBy.exists_quoted hbody
        rw [List.append_assoc, List.singleton_append]
        exact .string hstring hquoted hwithin
      · obtain ⟨body, rfl, htext⟩ := exists_within .backtick hbody
        rw [List.append_assoc, List.singleton_append]
        exact .template htext hwithin
    | @opener _ c closer rest hc hrest =>
      have hopened : Settles ([] ++ [closer]) rest := hrest
      obtain ⟨inner, z, rfl, hinner, hz, -⟩ := Settles.exists_closing hopened
      exact .group hc (ih inner.length (by simp) hinner rfl) (ih z.length (by simp; omega) hz rfl)

namespace Within

variable {a b : Text}

/-- Items behind items, if no comment starts where they meet. -/
theorem append {e : Enclosure} (ha : Within e a) (he : e = .brackets) (hb : Within .brackets b)
    (hslash : commentPrefix? ('/' :: b) = none) : Within .brackets (a ++ b) := by
  induction ha with
  | nil => exact hb
  | ordinary hc _ ih => exact .ordinary hc (ih he)
  | @slash rest hc _ ih =>
    refine .slash ?_ (ih he)
    cases rest with
    | nil => exact hslash
    | cons d rest =>
      rw [commentPrefix?_slash_eq_none_iff] at hc ⊢
      exact hc
  | string hquote hbody _ ih =>
    rw [List.cons_append, List.append_assoc, List.cons_append]
    exact .string hquote hbody (ih he)
  | template hbody _ _ ih =>
    rw [List.cons_append, List.append_assoc, List.cons_append]
    exact .template hbody (ih he)
  | lineComment hbody _ ih =>
    rw [List.cons_append, List.cons_append, List.append_assoc, List.cons_append]
    exact .lineComment hbody (ih he)
  | blockComment hbody _ ih =>
    rw [List.cons_append, List.cons_append, List.append_assoc, List.cons_append, List.cons_append]
    exact .blockComment hbody (ih he)
  | group hopener hinner _ _ ih =>
    rw [List.cons_append, List.append_assoc, List.cons_append]
    exact .group hopener hinner (ih he)
  | _ => cases he

theorem of_ordinary (h : ∀ c ∈ a, isOrdinary c = true) : Within .brackets a := by
  induction a with
  | nil => exact .nil
  | cons c rest ih =>
    exact .ordinary (h c List.mem_cons_self) (ih fun d hd => h d (List.mem_cons_of_mem _ hd))

theorem join {parts : List Text} (h : ∀ part ∈ parts, Within .brackets part) :
    Within .brackets (Text.join ", " parts) := by
  induction parts with
  | nil => exact .nil
  | cons part rest ih =>
    have hpart := h part List.mem_cons_self
    cases rest with
    | nil => rwa [Text.join_singleton]
    | cons next rest =>
      have hrest := ih fun p hp => h p (List.mem_cons_of_mem _ hp)
      rw [Text.join_cons (List.cons_ne_nil _ _), List.append_assoc]
      exact hpart.append rfl (.ordinary rfl (.ordinary rfl hrest)) rfl

end Within

end Localization.Script

namespace Localization

open Script

/-! ### What is written anew -/

theorem isDigit_of_mem_ofNat {n : Nat} {c : Char} (h : c ∈ Text.ofNat n) : c.isDigit = true :=
  Nat.isDigit_of_mem_toDigits (by decide) (by decide) h

theorem isDigit_of_mem_zeros {n : Nat} {c : Char} (h : c ∈ Decimal.zeros n) : c.isDigit = true := by
  rw [List.eq_of_mem_replicate h]
  rfl

/-- The characters of numbers. -/
def isNumberChar (c : Char) : Bool := c.isDigit || ".-+einfulNa".toList.contains c

theorem isNumberChar_of_isDigit {c : Char} (h : c.isDigit = true) : isNumberChar c = true := by
  rw [isNumberChar, h]
  rfl

theorem isNumberChar_of_mem_ofNat {n : Nat} {c : Char} (h : c ∈ Text.ofNat n) :
    isNumberChar c = true :=
  isNumberChar_of_isDigit (isDigit_of_mem_ofNat h)

theorem isNumberChar_of_mem_zeros {n : Nat} {c : Char} (h : c ∈ Decimal.zeros n) :
    isNumberChar c = true :=
  isNumberChar_of_isDigit (isDigit_of_mem_zeros h)

theorem isNumberChar_of_mem_sign {negative : Bool} {c : Char} (h : c ∈ Decimal.sign negative) :
    isNumberChar c = true := by
  cases negative with
  | false => cases h
  | true => rw [List.mem_singleton.mp h]; rfl

theorem isNumberChar_of_mem_word {w : String} (hw : w.toList.all isNumberChar = true) {c : Char}
    (h : c ∈ w.toList) :
    isNumberChar c = true :=
  List.all_eq_true.mp hw c h

theorem isNumberChar_of_mem_positional {d : Decimal.Digits} {c : Char}
    (h : c ∈ Decimal.positional d) :
    isNumberChar c = true := by
  simp only [Decimal.positional] at h
  split at h
  · exact (List.mem_append.mp h).elim isNumberChar_of_mem_ofNat isNumberChar_of_mem_zeros
  split at h
  · rcases List.mem_append.mp h with h | h
    · exact isNumberChar_of_mem_ofNat (List.mem_of_mem_take h)
    · rcases List.mem_cons.mp h with rfl | h
      · rfl
      · exact isNumberChar_of_mem_ofNat (List.mem_of_mem_drop h)
  · rcases List.mem_append.mp h with h | h
    · exact (List.mem_append.mp h).elim (isNumberChar_of_mem_word (by decide))
        isNumberChar_of_mem_zeros
    · exact isNumberChar_of_mem_ofNat h

theorem isNumberChar_of_mem_plain {x : Binary64} {c : Char} (h : c ∈ Decimal.plain x) :
    isNumberChar c = true := by
  unfold Decimal.plain at h
  split at h
  · rcases List.mem_append.mp h with h | h
    · exact isNumberChar_of_mem_sign h
    · rw [List.mem_singleton.mp h]; rfl
  · exact (List.mem_append.mp h).elim isNumberChar_of_mem_sign isNumberChar_of_mem_positional
  · exact (List.mem_append.mp h).elim isNumberChar_of_mem_sign
      (isNumberChar_of_mem_word (by decide))
  · exact isNumberChar_of_mem_word (by decide) h

theorem isOrdinary_of_isNumberChar {c : Char} (h : isNumberChar c = true) :
    isOrdinary c = true := by
  refine (of_not_mem_punctuation fun hc => ?_).1
  have hall : (punctuation.all fun d => !isNumberChar d) = true := by decide
  have := List.all_eq_true.mp hall c hc
  rw [h] at this
  cases this

theorem within_string (value : Text) : Within .brackets (Argument.string value).toScript := by
  obtain ⟨body, hbody, htext⟩ := exists_within .backtick (isClosedBy_encode value)
  obtain rfl : encode value = body := (List.append_inj' hbody rfl).1
  exact .template htext .nil

/-- A key is a name or a string, so items may follow it. -/
theorem within_property (key : Text) {value : Text} (h : Within .brackets value) :
    Within .brackets (keyScript key ++ ':' :: ' ' :: value) := by
  have hvalue : Within .brackets (':' :: ' ' :: value) := .ordinary rfl (.ordinary rfl h)
  refine Within.append (e := .brackets) ?_ rfl hvalue rfl
  rcases keyScript_cases key with ⟨hname, hkey⟩ | hkey
  · rw [hkey]
    exact .of_ordinary fun c hc =>
      (of_not_mem_punctuation (not_mem_punctuation
        ((of_accepts (isPath_of_isName hname)).1 c hc))).1
  · rw [hkey]
    obtain ⟨body, hbody, hquoted⟩ := State.IsClosedBy.exists_quoted (isClosedBy_escaped key)
    rw [hbody]
    exact .string (.inr rfl) hquoted .nil

theorem within_array {elements : List Argument} (h : ∀ a ∈ elements, Within .brackets a.toScript) :
    Within .brackets (Argument.array elements).toScript := by
  have hparts : ∀ part ∈ elementScripts elements, Within .brackets part := by
    rw [elementScripts_eq_map]
    intro part hpart
    obtain ⟨a, ha, rfl⟩ := List.mem_map.mp hpart
    exact h a ha
  have hopener : closer? '[' = some ']' := rfl
  rw [Argument.toScript]
  exact .group hopener (.join hparts) .nil

theorem within_object {properties : Properties}
    (h : ∀ p ∈ properties, Within .brackets p.2.toScript) :
    Within .brackets (Argument.object properties).toScript := by
  have hparts : ∀ part ∈ propertyScripts properties, Within .brackets part := by
    induction properties with
    | nil => exact fun part hpart => by cases hpart
    | cons p rest ih =>
      rw [propertyScripts]
      intro part hpart
      rcases List.mem_cons.mp hpart with rfl | hpart
      · exact within_property p.1 (h p List.mem_cons_self)
      · exact ih (fun q hq => h q (List.mem_cons_of_mem _ hq)) part hpart
  have hopener : closer? '{' = some '}' := rfl
  rw [Argument.toScript]
  exact .group hopener (.join hparts) .nil

/-- Whether the texts that an argument keeps as they were read may stand in brackets. -/
inductive IsEnclosed : Argument → Prop
  | string (value : Text) : IsEnclosed (.string value)
  | number (value : Binary64) : IsEnclosed (.number value)
  | name {path : Text} (h : Within .brackets path) : IsEnclosed (.name path)
  | array {elements : List Argument} (h : ∀ a ∈ elements, IsEnclosed a) :
      IsEnclosed (.array elements)
  | object {properties : Properties} (h : ∀ p ∈ properties, IsEnclosed p.2) :
      IsEnclosed (.object properties)
  | call {callee raw : Text} {arguments : List Argument} (h : Within .brackets raw) :
      IsEnclosed (.call callee arguments raw)
  | other {raw : Text} (h : Within .brackets raw) : IsEnclosed (.other raw)

/-- All that is written for such an argument may stand in brackets. -/
theorem IsEnclosed.within {a : Argument} (h : IsEnclosed a) : Within .brackets a.toScript := by
  induction h with
  | string value => exact within_string value
  | number value =>
    exact .of_ordinary fun c hc => isOrdinary_of_isNumberChar (isNumberChar_of_mem_plain hc)
  | name h => exact h
  | array _ ih => exact within_array ih
  | object _ ih => exact within_object ih
  | call h => exact h
  | other h => exact h

/-! ### What was read -/

theorem isEnclosed_readPlain {text : Text} (h : Within .brackets text) :
    IsEnclosed (readPlain text) := by
  rw [readPlain.eq_def]
  repeat' split
  · exact .number _
  · exact .other h
  · exact .name h
  · exact .other h
  · exact .call h
  · exact .other h

/-- Whether what a text spells, if it spells an argument, may be written back. -/
def IsRewritable (text : Text) : Prop := ∀ a, readArgument text = some a → IsEnclosed a

theorem isEnclosed_of_readArguments {src : Text} {arguments : List Argument}
    (h : Settles [] (withoutComments src)) (hread : readArguments src = some arguments)
    (hshort : ∀ text : Text, text.length ≤ src.length → Settles [] text → IsRewritable text) :
    ∀ a ∈ arguments, IsEnclosed a := by
  intro a ha
  obtain ⟨texts, htexts, hsettles⟩ := exists_argumentTexts? h
  rw [readArguments_eq_mapM, htexts, Option.bind_some] at hread
  obtain ⟨text, htext, ha⟩ := exists_of_mem_mapM hread a ha
  exact hshort text (hsettles text htext).2 (hsettles text htext).1 a ha

/-- The value of a property is what stands behind the colon of it. -/
theorem isEnclosed_of_readMembers {bound : Nat} {parts : List Text}
    {hparts : ∀ p ∈ parts, p.length ≤ bound} {properties : Properties}
    (h : ∀ p ∈ parts, Settles [] p) (hread : readMembers bound parts hparts = some properties)
    (hshort : ∀ text : Text, text.length ≤ bound → Settles [] text → IsRewritable text) :
    ∀ p ∈ properties, IsEnclosed p.2 := by
  induction parts generalizing properties with
  | nil =>
    rw [readMembers] at hread
    cases hread
    exact fun p hp => by cases hp
  | cons part rest ih =>
    have hrest {more : Properties} (hread : readMembers bound rest (fun p hp =>
        hparts p (List.mem_cons_of_mem _ hp)) = some more) :
        ∀ p ∈ more, IsEnclosed p.2 :=
      ih (fun p hp => h p (List.mem_cons_of_mem _ hp)) hread
    have hpart := (h part List.mem_cons_self).trim
    have hlength := (Text.length_trim_le part).trans (hparts part List.mem_cons_self)
    -- One property, and the ones behind it.
    have hmore {p : Text × Argument} {properties : Properties} (hp : IsEnclosed p.2)
        (hmap : (readMembers bound rest fun p hp => hparts p (List.mem_cons_of_mem _ hp)).map
          (p :: ·) = some properties) :
        ∀ p ∈ properties, IsEnclosed p.2 := by
      obtain ⟨more, hmore, rfl⟩ := Option.map_eq_some_iff.mp hmap
      exact List.forall_mem_cons.mpr ⟨hp, hrest hmore⟩
    rw [readMembers] at hread
    simp only at hread
    split at hread
    · exact hrest hread
    split at hread
    · cases hread
    split at hread
    · cases hread
    · cases hread
    · split at hread
      · next hpath =>
        rw [Bool.and_eq_true] at hpath
        refine hmore ?_ hread
        exact .name (.of_ordinary fun c hc =>
          (of_not_mem_punctuation (not_mem_punctuation ((of_accepts hpath.1).1 c hc))).1)
      · cases hread
    · next key second others hsplit =>
      split at hread
      · cases hread
      split at hread
      · cases hread
      split at hread
      · cases hread
      · next a ha =>
        refine hmore (hshort _ ?_ ?_ a ha) hread
        · refine (Text.length_trim_le _).trans (Nat.le_trans ?_ hlength)
          rw [List.length_drop]
          omega
        · have hcolon : isOrdinary ':' = true := rfl
          obtain ⟨first, others', hfirst, -, -, -, hbehind⟩ := hpart.exists_splitFrom hcolon
          have hsame :
              first :: others' = key :: second :: others := Option.some.inj (hfirst.symm.trans
                hsplit)
          cases hsame
          obtain ⟨behind, hb, hsettles⟩ := hbehind (List.cons_ne_nil _ _)
          rw [hb, List.append_cons, List.drop_left' (by simp)]
          exact hsettles.trim

theorem isEnclosed_of_readProperties {src : Text} {properties : Properties} (h : Settles [] src)
    (hread : readProperties src = some properties)
    (hshort : ∀ text : Text, text.length ≤ src.length → Settles [] text → IsRewritable text) :
    ∀ p ∈ properties, IsEnclosed p.2 := by
  have hcomma : isOrdinary ',' = true := rfl
  obtain ⟨first, others, hsplit, -, hfirst, hothers, -⟩ := h.exists_splitFrom hcomma
  have hparts : splitTop ',' src = some (first :: others) := hsplit
  rw [readProperties.eq_def] at hread
  split at hread
  · cases hread
  · next parts hsplit =>
    obtain rfl : first :: others = parts := Option.some.inj (hparts.symm.trans hsplit)
    exact isEnclosed_of_readMembers (List.forall_mem_cons.mpr ⟨hfirst, hothers⟩) hread hshort

/-- **What is read from a text that settles may be written back.** -/
theorem isRewritable_of_settles {text : Text} (h : Settles [] text) : IsRewritable text := by
  generalize hn : text.length = n
  induction n using Nat.strongRecOn generalizing text with
  | ind n ih =>
    subst hn
    intro a ha
    cases text with
    | nil =>
      rw [readArgument] at ha
      cases ha
      exact .other .nil
    | cons c rest =>
      -- A list between brackets is shorter, and so are the texts in it.
      have hshort {inner : Text} (hinner : inner.length < (c :: rest).length) (text : Text)
          (hle : text.length ≤ inner.length)
          (hs : Settles [] text) : IsRewritable text :=
        ih text.length (Nat.lt_of_le_of_lt hle hinner) hs rfl
      rw [readArgument.eq_def] at ha
      simp only at ha
      split at ha
      · split at ha
        · cases ha
        · cases ha
          exact .string _
        · cases ha
          exact isEnclosed_readPlain h.within
      split at ha
      · next hc =>
        rw [beq_iff_eq] at hc
        subst hc
        obtain ⟨inner, z, rfl, hinner, hgroup⟩ :=
          h.exists_groupPrefix? (show closer? '[' = some ']' from rfl)
        rw [hgroup] at ha
        split at ha
        · next heq => cases heq
        · next heq =>
          cases heq
          rw [List.dropLast_concat] at ha
          obtain ⟨elements, hread, rfl⟩ := Option.map_eq_some_iff.mp ha
          have hstripped : Settles [] (withoutComments inner) := by
            rwa [withoutComments, hinner.stripFrom_eq]
          exact .array (isEnclosed_of_readArguments hstripped hread (hshort (by simp)))
        · cases ha
          exact isEnclosed_readPlain h.within
      split at ha
      · next hc =>
        rw [beq_iff_eq] at hc
        subst hc
        obtain ⟨inner, z, rfl, hinner, hgroup⟩ :=
          h.exists_groupPrefix? (show closer? '{' = some '}' from rfl)
        rw [hgroup] at ha
        split at ha
        · next heq => cases heq
        · next heq =>
          cases heq
          rw [List.dropLast_concat] at ha
          split at ha
          · next properties hread =>
            cases ha
            exact .object (isEnclosed_of_readProperties hinner hread (hshort (by simp)))
          · cases ha
            exact .other h.within
        · cases ha
          exact isEnclosed_readPlain h.within
      · cases ha
        exact isEnclosed_readPlain h.within

/-- **The arguments of a list in a group may be written back**, and so may all that is in them. -/
theorem isEnclosed_of_isClosedBy {src : Text} {closer : Char}
    (h : (State.inside (.group closer)).IsClosedBy (src ++ [closer])) {arguments : List Argument}
    (hread : readArguments src = some arguments) : ∀ a ∈ arguments, IsEnclosed a :=
  isEnclosed_of_readArguments (settles_withoutComments h) hread fun _ _ hs =>
    isRewritable_of_settles hs

end Localization
