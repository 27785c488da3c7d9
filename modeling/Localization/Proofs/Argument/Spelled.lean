import Mathlib
import Localization.Argument.Reader
import Localization.Proofs.Argument.ReadBack
import Localization.Proofs.Script.Balanced

/-! Arguments and the texts that spell them.

A list of arguments is read text by text (`readArguments_eq_mapM`), so an argument at some place is
what the text at that place spells. A template, whatever it holds, is read as the string that its
body denotes: its substitutions are looked for only later, in the denoted text. One in which no line
ends and nothing is escaped is always recognized (`hasSubstitution_of_isSubstituted`). -/
namespace Localization

open Script

/-! ### Texts -/

/-- The texts that a list separates by commas, without comments and outer blanks; none if the
list is not balanced. -/
def argumentTexts? (src : Text) : Option (List Text) :=
  (splitTop ',' (withoutComments src)).map fun parts => (parts.map Text.trim).filter (!·.isEmpty)

def argumentTexts (src : Text) : List Text := (argumentTexts? src).getD []

theorem readParts_eq_mapM {bound : Nat} {parts : List Text} (h : ∀ p ∈ parts, p.length ≤ bound) :
    readParts bound parts h = ((parts.map Text.trim).filter (!·.isEmpty)).mapM readArgument := by
  induction parts with
  | nil => rw [readParts]; rfl
  | cons part rest ih =>
    rw [readParts, List.map_cons]
    split
    · next hempty => rw [ih, List.filter_cons_of_neg (by simp [hempty])]
    · next hne =>
      rw [List.filter_cons_of_pos (by simp [hne]), List.mapM_cons]
      cases readArgument (Text.trim part) with
      | none => rfl
      | some a =>
        simp only [ih, Option.bind_eq_bind, Option.bind_some]
        cases ((rest.map Text.trim).filter (!·.isEmpty)).mapM readArgument <;> rfl

/-- The arguments of a list are those that its texts spell. -/
theorem readArguments_eq_mapM (src : Text) :
    readArguments src = (argumentTexts? src).bind fun texts => texts.mapM readArgument := by
  rw [readArguments.eq_def, argumentTexts?]
  split
  · next hsplit => rw [hsplit]; rfl
  · next parts hsplit =>
    rw [readParts_eq_mapM, hsplit]
    rfl

theorem getElem?_of_mapM {α β : Type} {f : α → Option β} {l : List α} {l' : List β}
    (h : l.mapM f = some l') {i : Nat} {a : α} (ha : l[i]? = some a) :
    ∃ b, l'[i]? = some b ∧ f a = some b := by
  induction l generalizing l' i with
  | nil => cases ha
  | cons first rest ih =>
    rw [List.mapM_cons] at h
    obtain ⟨b, hb, h⟩ := Option.bind_eq_some_iff.mp h
    obtain ⟨bs, hbs, h⟩ := Option.bind_eq_some_iff.mp h
    obtain rfl : b :: bs = l' := Option.some.inj h
    cases i with
    | zero =>
      obtain rfl : first = a := by simpa using ha
      exact ⟨b, rfl, hb⟩
    | succ i => exact ih hbs (by simpa using ha)

/-- The argument at some place is what the text at that place spells. -/
theorem getElem?_of_readArguments {src : Text} {arguments : List Argument}
    (h : readArguments src = some arguments) {i : Nat} {t : Text}
    (ht : (argumentTexts src)[i]? = some t) :
    ∃ a, arguments[i]? = some a ∧ readArgument t = some a := by
  rw [readArguments_eq_mapM] at h
  obtain ⟨texts, htexts, h⟩ := Option.bind_eq_some_iff.mp h
  rw [argumentTexts, htexts, Option.getD_some] at ht
  exact getElem?_of_mapM h ht

/-! ### Templates and arrays -/

/-- A template with some body. -/
def template (body : Text) : Text := '`' :: (body ++ ['`'])

/-- An array with some text between its brackets. -/
def arrayOf (elements : Text) : Text := '[' :: (elements ++ [']'])

/-- A template is read as the string that its body denotes. -/
theorem readArgument_template {body : Text}
    (h : (State.inside .template).IsClosedBy (body ++ ['`'])) :
    readArgument (template body) = some (.string (decode body)) :=
  readArgument_of_isClosedBy rfl h

/-- The elements of an array are read as a list. -/
theorem readArgument_arrayOf {elements : Text}
    (h : (State.inside (.group ']')).IsClosedBy (elements ++ [']'])) :
    readArgument (arrayOf elements) = (readArguments elements).map .array := by
  have hprefix : groupPrefix? ('[' :: (elements ++ [']'])) =
      some ('[' :: (elements ++ [']']), []) := by
    have := h.closing_append []
    rw [List.append_nil] at this
    simp [groupPrefix?, closer?, this]
  rw [arrayOf, readArgument.eq_def]
  simp [literal?, hprefix]

/-! ### Substitutions -/

/-- The body of a template with a substitution: behind a `$` that is not escaped, a brace opens
a group of script. -/
structure IsSubstituted (body : Text) : Prop where
  closed : (State.inside .template).IsClosedBy (body ++ ['`'])
  opens : ∃ front inner, body = front ++ '{' :: inner ∧
    (State.inside .template).run front = some ⟨[.template], .dollar⟩

namespace Script

/-- Behind a text that it starts with, a closed text closes what the text has opened. -/
theorem State.IsClosedBy.behind {s next : State} {front t : Text} (h : s.IsClosedBy (front ++ t))
    (ht : t ≠ []) (hrun : s.run front = some next) : next.IsClosedBy t := by
  induction front generalizing s with
  | nil =>
    obtain rfl := Option.some.inj hrun
    exact h
  | cons c front ih =>
    obtain ⟨s', hstep, ⟨-, hnil⟩ | ⟨-, hrest⟩⟩ := isClosedBy_cons.mp h
    · exact absurd (List.append_eq_nil_iff.mp hnil).2 ht
    · rw [run, hstep] at hrun
      exact ih hrest hrun

/-- A group is closed by its closer. -/
theorem State.IsClosedBy.closer_mem {regions outer : List Region} {closer : Char}
    {pending : Pending} {t : Text}
    (h : (below ⟨regions ++ [.group closer], pending⟩ outer).IsClosedBy t) (ho : outer ≠ []) :
    closer ∈ t := by
  induction t generalizing regions pending with
  | nil => exact absurd h (not_isClosedBy_nil _)
  | cons c rest ih =>
    obtain ⟨next, hstep, hnext⟩ := isClosedBy_cons.mp h
    rw [step_below (by simp)] at hstep
    obtain ⟨inner, hinner, rfl⟩ := Option.map_eq_some_iff.mp hstep
    rcases step_inside_group hinner with ⟨-, rfl⟩ | ⟨more, hmore⟩
    · exact List.mem_cons_self
    · obtain ⟨regions, pending⟩ := inner
      obtain rfl : regions = more ++ [.group closer] := hmore
      rcases hnext with ⟨hnil, -⟩ | ⟨-, hrest⟩
      · exact absurd (List.append_eq_nil_iff.mp hnil).2 ho
      · exact List.mem_cons_of_mem _ (ih hrest)

/-- In a template a dollar sign is pending behind a dollar sign. -/
theorem State.eq_dollar_of_step {s : State} {c : Char} {regions : List Region}
    (h : s.step c = some ⟨regions, .dollar⟩) :
    c = '$' := by
  obtain ⟨rs, pending⟩ := s
  cases rs with
  | nil =>
    simp only [step, stepCode] at h
    repeat' split at h
    all_goals cases h
  | cons r outer =>
    cases r
    all_goals
      simp only [step, stepCode] at h
      repeat' split at h
      all_goals first
        | cases h; done
        | next hc => cases h; simpa using hc

theorem closesOnLine_of_mem {t : Text} (h : '}' ∈ t) (hline : '\n' ∉ t) :
    closesOnLine t = true := by
  induction t with
  | nil => cases h
  | cons c rest ih =>
    rw [List.mem_cons, not_or] at hline
    rw [closesOnLine, Bool.or_eq_true, beq_iff_eq, Bool.and_eq_true, bne_iff_ne]
    rcases List.mem_cons.mp h with rfl | h
    · exact .inl rfl
    · exact .inr ⟨Ne.symm hline.1, ih h hline.2⟩

/-- A substitution is recognized wherever it stands. -/
theorem hasSubstitution_append {inner : Text} (h : closesOnLine inner = true) (front : Text) :
    hasSubstitution (front ++ '$' :: '{' :: inner) = true := by
  induction front with
  | nil => rw [List.nil_append, hasSubstitution, h, Bool.true_or]
  | cons c front ih =>
    rw [List.cons_append, hasSubstitution.eq_def]
    split
    · next hnil => cases hnil
    · next rest hcons =>
      injection hcons with _ hrest
      rw [hrest, hasSubstitution] at ih
      · rw [ih, Bool.or_true]
      · intro rest hnot
        cases hnot
    · next hcons =>
      injection hcons with _ hrest
      rw [← hrest, ih]

end Script

theorem IsSubstituted.exists_eq {body : Text} (h : IsSubstituted body) :
    ∃ front inner, body = front ++ '$' :: '{' :: inner ∧ '}' ∈ inner := by
  obtain ⟨front, inner, rfl, hrun⟩ := h.opens
  induction front using List.reverseRecOn with
  | nil => cases hrun
  | append_singleton front c _ =>
    have hopened : (State.inside .template).run (front ++ [c] ++ ['{']) =
        some ⟨[.group '}', .template], .none⟩ := by
      rw [State.run_append, hrun]
      rfl
    have hclosed := h.closed
    have htext : front ++ [c] ++ '{' :: inner ++ ['`'] =
        front ++ [c] ++ ['{'] ++ (inner ++ ['`']) := by simp
    rw [htext] at hclosed
    have hinner :
        (State.below ⟨[] ++ [.group '}'], .none⟩ [.template]).IsClosedBy (inner ++ ['`']) :=
      hclosed.behind (by simp) hopened
    have hmem : '}' ∈ inner ++ ['`'] := hinner.closer_mem (by simp)
    rw [State.run_append] at hrun
    obtain ⟨s, -, hstep⟩ := Option.bind_eq_some_iff.mp hrun
    rw [State.run] at hstep
    split at hstep
    · next next hnext =>
      obtain rfl := Option.some.inj hstep
      obtain rfl := State.eq_dollar_of_step hnext
      exact ⟨front, inner, by simp, by simpa using hmem⟩
    · cases hstep

/-- A substitution is recognized in a template on one line without escapes. -/
theorem hasSubstitution_of_isSubstituted {body : Text} (h : IsSubstituted body)
    (hline : '\n' ∉ body) (hescape : '\\' ∉ body) : hasSubstitution (decode body) = true := by
  obtain ⟨front, inner, rfl, hmem⟩ := h.exists_eq
  rw [decode_of_not_mem hescape]
  exact hasSubstitution_append (closesOnLine_of_mem hmem fun hn => hline (by simp [hn])) front

end Localization
