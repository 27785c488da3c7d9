import Mathlib
import Localization.Text.Basic

/-! Where a text is split.

Separators are found from the left without overlap. So what stands behind a text changes how it
is split in its last part only (`splitFrom_append`), which holds no separator itself
(`not_infix_lastPart`). A separator that is put behind that part is found where it was put
unless one starts earlier, in the part, and reaches into it: `Straddles`. -/
namespace Localization.Text

variable {separator : Text}

/-! ### Texts without a separator -/

theorem splitFrom_cons_of_prefix {t rest : Text} (hs : separator ≠ []) (h : t = separator ++ rest) :
    splitFrom separator 0 t = [] :: splitFrom separator 0 rest := by
  obtain ⟨c, tail, rfl⟩ := List.exists_cons_of_ne_nil hs
  subst h
  rw [List.cons_append, splitFrom, if_pos (by simp), splitFrom_skip, List.length_cons,
    Nat.add_sub_cancel, List.drop_left]

theorem splitFrom_cons_of_not_isPrefix {c : Char} {rest : Text} (h : ¬ separator <+: c :: rest) :
    splitFrom separator 0 (c :: rest) = consHead c (splitFrom separator 0 rest) := by
  rw [splitFrom, if_neg (by rwa [List.isPrefixOf_iff_prefix])]

/-- A text without the separator is one part. -/
theorem splitFrom_of_not_isInfix {t : Text} (h : ¬ separator <:+: t) :
    splitFrom separator 0 t = [t] := by
  induction t with
  | nil => rfl
  | cons c rest ih =>
    rw [List.infix_cons_iff, not_or] at h
    rw [splitFrom_cons_of_not_isPrefix h.1, ih h.2]
    rfl

/-- What stands before a separator, wherever it is, holds the first part. -/
theorem length_head_splitFrom_le (hs : separator ≠ []) (a z : Text) :
    ∀ first rest, splitFrom separator 0 (a ++ separator ++ z) =
      first :: rest → first.length ≤ a.length ∧ rest ≠ [] := by
  induction a with
  | nil =>
    intro first rest h
    rw [List.nil_append, splitFrom_cons_of_prefix hs rfl] at h
    obtain ⟨rfl, rfl⟩ := List.cons.inj h
    exact ⟨Nat.le_refl _, splitFrom_ne_nil _ _ _⟩
  | cons c a ih =>
    intro first rest h
    by_cases hprefix : separator <+: c :: (a ++ separator ++ z)
    · obtain ⟨tail, htail⟩ := hprefix
      rw [List.cons_append, List.cons_append, ← htail, splitFrom_cons_of_prefix hs rfl] at h
      obtain ⟨rfl, rfl⟩ := List.cons.inj h
      exact ⟨Nat.zero_le _, splitFrom_ne_nil _ _ _⟩
    · rw [List.cons_append, List.cons_append, splitFrom_cons_of_not_isPrefix hprefix] at h
      obtain ⟨part, parts, hparts⟩ :=
        List.exists_cons_of_ne_nil (splitFrom_ne_nil separator 0 (a ++ separator ++ z))
      obtain ⟨hlength, hne⟩ := ih part parts hparts
      rw [hparts] at h
      obtain ⟨rfl, rfl⟩ := List.cons.inj h
      exact ⟨by simpa using hlength, hne⟩

/-- A text is one part exactly if the separator does not stand in it. -/
theorem splitFrom_eq_singleton_iff (hs : separator ≠ []) {t : Text} :
    splitFrom separator 0 t = [t] ↔ ¬ separator <:+: t := by
  refine ⟨?_, splitFrom_of_not_isInfix⟩
  rintro h ⟨a, z, rfl⟩
  exact (length_head_splitFrom_le hs a z _ _ h).2 rfl

/-! ### The last part -/

/-- What stands behind the last separator. -/
def lastPart (separator t : Text) : Text :=
  (splitFrom separator 0 t).getLast (splitFrom_ne_nil _ _ _)

theorem dropLast_append_lastPart (separator t : Text) :
    (splitFrom separator 0 t).dropLast ++ [lastPart separator t] = splitFrom separator 0 t :=
  List.dropLast_append_getLast _

theorem lastPart_of_not_isInfix {t : Text} (h : ¬ separator <:+: t) : lastPart separator t = t := by
  simp [lastPart, splitFrom_of_not_isInfix h]

theorem lastPart_append_separator (hs : separator ≠ []) (rest : Text) :
    lastPart separator (separator ++ rest) = lastPart separator rest := by
  simp only [lastPart, splitFrom_cons_of_prefix hs rfl, List.getLast_cons (splitFrom_ne_nil _ _ _)]

theorem getLast_consHead {c : Char} {part : Text} {parts : List Text} (h : parts ≠ []) :
    (consHead c (part :: parts)).getLast (List.cons_ne_nil _ _) =
      (part :: parts).getLast (List.cons_ne_nil _ _) := by
  simp only [consHead, List.getLast_cons h]

/-- A part in front takes a character; the last one does not change. -/
theorem lastPart_cons {c : Char} {rest : Text} (hs : separator ≠ []) (h : ¬ separator <+: c :: rest)
    (hrest : separator <:+: rest) : lastPart separator (c :: rest) = lastPart separator rest := by
  obtain ⟨a, z, rfl⟩ := hrest
  obtain ⟨part, parts, hparts⟩ :=
    List.exists_cons_of_ne_nil (splitFrom_ne_nil separator 0 (a ++ separator ++ z))
  have hne := (length_head_splitFrom_le hs a z _ _ hparts).2
  simp only [lastPart, splitFrom_cons_of_not_isPrefix h, hparts]
  exact getLast_consHead hne

/-- How the text is cut into a first step and a shorter rest. -/
theorem split_cases (hs : separator ≠ []) (t : Text) :
    (¬ separator <:+: t) ∨ (∃ rest, t = separator ++ rest) ∨
      ∃ c rest, t = c :: rest ∧ ¬ separator <+: t ∧ separator <:+: rest := by
  by_cases h : separator <:+: t
  · cases t with
    | nil => exact absurd (List.eq_nil_of_infix_nil h) hs
    | cons c rest =>
      by_cases hprefix : separator <+: c :: rest
      · obtain ⟨rest', hrest⟩ := hprefix
        exact .inr (.inl ⟨rest', hrest.symm⟩)
      · exact .inr (.inr ⟨c, rest, rfl, hprefix, (List.infix_cons_iff.mp h).resolve_left hprefix⟩)
  · exact .inl h

/-- The last part of a text holds no separator. -/
theorem not_infix_lastPart (hs : separator ≠ []) (t : Text) :
    ¬ separator <:+: lastPart separator t := by
  induction hn : t.length using Nat.strong_induction_on generalizing t with
  | _ n ih =>
    rcases split_cases hs t with h | ⟨rest, rfl⟩ | ⟨c, rest, rfl, hprefix, hrest⟩
    · rwa [lastPart_of_not_isInfix h]
    · rw [lastPart_append_separator hs]
      have hpos := List.length_pos_of_ne_nil hs
      exact ih rest.length (by rw [← hn, List.length_append]; omega) rest rfl
    · rw [lastPart_cons hs hprefix hrest]
      exact ih rest.length (by rw [← hn, List.length_cons]; omega) rest rfl

theorem consHead_append {c : Char} {parts : List Text} (h : parts ≠ []) (more : List Text) :
    consHead c (parts ++ more) = consHead c parts ++ more := by
  obtain ⟨part, parts, rfl⟩ := List.exists_cons_of_ne_nil h
  rfl

/-- **What stands behind a text is split together with its last part**, and the parts before it
stay. -/
theorem splitFrom_append (hs : separator ≠ []) (t z : Text) :
    splitFrom separator 0 (t ++ z) =
      (splitFrom separator 0 t).dropLast ++ splitFrom separator 0 (lastPart separator t ++ z) := by
  induction hn : t.length using Nat.strong_induction_on generalizing t with
  | _ n ih =>
    have hpos := List.length_pos_of_ne_nil hs
    rcases split_cases hs t with h | ⟨rest, rfl⟩ | ⟨c, rest, rfl, hprefix, hrest⟩
    · rw [lastPart_of_not_isInfix h, splitFrom_of_not_isInfix h]
      rfl
    · have hlast := ih rest.length (by rw [← hn, List.length_append]; omega) rest rfl
      rw [List.append_assoc, splitFrom_cons_of_prefix hs rfl, splitFrom_cons_of_prefix hs rfl,
        hlast, lastPart_append_separator hs, List.dropLast_cons_of_ne_nil (splitFrom_ne_nil _ _ _)]
      rfl
    · -- A separator at the head would end before the one in the rest does.
      have hprefix' : ¬ separator <+: c :: (rest ++ z) := by
        intro h
        refine hprefix (List.prefix_of_prefix_length_le h (List.prefix_append (c :: rest) z) ?_)
        exact hrest.length_le.trans (Nat.le_succ _)
      have hlast := ih rest.length (by rw [← hn, List.length_cons]; omega) rest rfl
      obtain ⟨a, y, hay⟩ := hrest
      obtain ⟨part, parts, hparts⟩ := List.exists_cons_of_ne_nil (splitFrom_ne_nil separator 0 rest)
      have hne : parts ≠ [] := (length_head_splitFrom_le hs a y _ _ (by rw [hay]; exact hparts)).2
      have hdrop : (splitFrom separator 0 rest).dropLast ≠ [] := by
        rw [hparts, List.dropLast_cons_of_ne_nil hne]
        exact List.cons_ne_nil _ _
      rw [List.cons_append, splitFrom_cons_of_not_isPrefix hprefix', hlast,
        splitFrom_cons_of_not_isPrefix hprefix, lastPart_cons hs hprefix ⟨a, y, hay⟩,
        consHead_append hdrop]
      rw [hparts, List.dropLast_cons_of_ne_nil hne, consHead, consHead,
        List.dropLast_cons_of_ne_nil hne]

/-! ### A separator behind a text -/

/-- Whether a separator that is put behind a text meets one that starts in the last part of the
text. -/
def Straddles (separator t : Text) : Prop :=
  ∃ b, b ≠ [] ∧ b <:+ lastPart separator t ∧ separator <+: b ++ separator

/-- Without such a separator the one behind the part ends it. -/
theorem splitFrom_of_not_straddles (hs : separator ≠ []) {part : Text}
    (h : ∀ b, b ≠ [] → b <:+ part → ¬ separator <+: b ++ separator) (z : Text) :
    splitFrom separator 0 (part ++ separator ++ z) = part :: splitFrom separator 0 z := by
  induction part with
  | nil => rw [List.nil_append, splitFrom_cons_of_prefix hs rfl]
  | cons c part ih =>
    have hrest := ih fun b hb hsuffix => h b hb (hsuffix.trans (List.suffix_cons _ _))
    have hprefix : ¬ separator <+: c :: (part ++ separator ++ z) := by
      intro hp
      refine h (c :: part) (List.cons_ne_nil _ _) (List.suffix_refl _) ?_
      have hown : c :: part ++ separator <+: c :: part ++ separator ++ z := List.prefix_append _ z
      refine List.prefix_of_prefix_length_le hp hown ?_
      rw [List.length_append]
      omega
    rw [List.cons_append, List.cons_append, splitFrom_cons_of_not_isPrefix hprefix, hrest]
    rfl

/-- **A text, a separator and one more part are split as they were put together exactly if** the
separator does not stand in that part and meets none in the last part of the text. -/
theorem splitFrom_append_separator_iff (hs : separator ≠ []) {t part : Text} :
    splitFrom separator 0 (t ++ separator ++ part) = splitFrom separator 0 t ++ [part] ↔
      ¬ separator <:+: part ∧ ¬ Straddles separator t := by
  have hsplit : splitFrom separator 0 t ++ [part] =
      (splitFrom separator 0 t).dropLast ++ [lastPart separator t, part] := by
    conv_lhs => rw [← dropLast_append_lastPart separator t]
    rw [List.append_assoc]
    rfl
  rw [List.append_assoc, splitFrom_append hs, hsplit, List.append_cancel_left_eq,
    ← List.append_assoc]
  constructor
  · intro h
    have hstraddles : ¬ Straddles separator t := by
      rintro ⟨b, hb, ⟨a, hab⟩, tail, htail⟩
      -- The separator in the part would end the first part there.
      have hat : lastPart separator t ++ separator ++ part = a ++ separator ++ (tail ++ part) := by
        rw [← hab, List.append_assoc a b separator, ← htail, List.append_assoc, List.append_assoc,
          List.append_assoc]
      rw [hat] at h
      have hlength := (length_head_splitFrom_le hs a _ _ _ h).1
      have hpos := List.length_pos_of_ne_nil hb
      rw [← hab, List.length_append] at hlength
      omega
    refine ⟨?_, hstraddles⟩
    rw [splitFrom_of_not_straddles hs (fun b hb hsuffix hp => hstraddles ⟨b, hb, hsuffix, hp⟩)] at h
    exact (splitFrom_eq_singleton_iff hs).mp (List.cons.inj h).2
  · rintro ⟨hpart, hstraddles⟩
    rw [splitFrom_of_not_straddles hs (fun b hb hsuffix hp => hstraddles ⟨b, hb, hsuffix, hp⟩),
      splitFrom_of_not_isInfix hpart]

end Localization.Text
