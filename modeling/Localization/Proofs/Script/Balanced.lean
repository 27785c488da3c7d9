import Mathlib
import Localization.Script.Comment
import Localization.Script.Name
import Localization.Script.Part

/-! Balanced script text.

`Balanced avoided t` says that `t` closes whatever it opens, holds no comment, and has none of the
characters `avoided` outside of brackets and literals. Each reader passes such a text from one end
to the other as if it were one character: `closing` does not stop in it, `withoutComments` copies
it, and `splitTop` does not cut it. -/
namespace Localization.Script

/-! ### A character that stops a reader -/

section

variable {d : Char}

theorem dropWhile_stop {p : Char → Bool} (hp : p d = false) (t z : Text) :
    (t ++ d :: z).dropWhile p = t.dropWhile p ++ d :: z := by
  rw [List.dropWhile_append]
  split
  · next h =>
    rw [List.isEmpty_iff.mp h]
    exact List.dropWhile_cons_of_neg (by simp [hp])
  · rfl

theorem takeWhile_stop {p : Char → Bool} (hp : p d = false) (t z : Text) :
    (t ++ d :: z).takeWhile p = t.takeWhile p := by
  rw [List.takeWhile_append]
  split
  · next h =>
    rw [List.takeWhile_cons_of_neg (by simp [hp]), List.append_nil]
    exact ((List.takeWhile_prefix p).eq_of_length h).symm
  · rfl

/-- A word without the character does not reach behind it. -/
theorem isPrefixOf_stop {word : Text} (h : d ∉ word) (t z : Text) :
    word.isPrefixOf (t ++ d :: z) = word.isPrefixOf t := by
  induction word generalizing t with
  | nil => rfl
  | cons c word ih =>
    rw [List.mem_cons, not_or] at h
    cases t with
    | nil => simp [List.isPrefixOf, Ne.symm h.1]
    | cons e t => rw [List.cons_append, List.isPrefixOf, List.isPrefixOf, ih h.2]

theorem head?_stop {c : Char} (h : c ≠ d) (t z : Text) :
    ((t ++ d :: z).head? == some c) = (t.head? == some c) := by
  cases t with
  | nil => simpa using Ne.symm h
  | cons e t => rfl

theorem skipBlanks_stop (hd : Text.isAsciiBlank d = false) (t z : Text) :
    skipBlanks (t ++ d :: z) = skipBlanks t ++ d :: z :=
  dropWhile_stop hd t z

end

/-! ### What closes a region -/

/-- Reading goes on behind a character that leaves a region open. -/
theorem closing_cons {s next : State} {c : Char} (h : s.step c = some next) (hn : next.regions ≠ [])
    (rest : Text) :
    closing s (c :: rest) = (closing next rest).map fun (read, after) => (c :: read, after) := by
  have he : next.regions.isEmpty = false := by simpa using hn
  simp only [closing, h, he, Bool.false_eq_true, if_false]

/-- Whether the text reads up to the end of all regions, and not further. -/
def State.IsClosedBy (s : State) (t : Text) : Prop := closing s t = some (t, [])

/-- More regions around those of a state. -/
def State.below (s : State) (outer : List Region) : State := ⟨s.regions ++ outer, s.pending⟩

/-- A character of code acts on the innermost group alone. -/
theorem stepCode_below (closer : Char) (rs outer : List Region) (pending : Pending) (c : Char) :
    stepCode (.group closer :: (rs ++ outer)) pending c =
      (stepCode (.group closer :: rs) pending c).map (·.below outer) := by
  simp only [stepCode]
  repeat' split
  all_goals simp_all [State.below]

/-- A character acts on the innermost region alone. -/
theorem State.step_below {s : State} (hs : s.regions ≠ []) (outer : List Region) (c : Char) :
    (s.below outer).step c = (s.step c).map (·.below outer) := by
  obtain ⟨regions, pending⟩ := s
  cases regions with
  | nil => exact absurd rfl hs
  | cons r rs =>
    cases r with
    | group closer => exact stepCode_below closer rs outer pending c
    | _ =>
      simp only [State.step, State.below, List.cons_append, apply_ite (Option.map _),
        Option.map_some, Option.map_none] <;> rfl

/-- Nothing is pending where the last region ends. -/
theorem State.step_eq_top {s next : State} {c : Char} (hs : s.regions ≠ [])
    (h : s.step c = some next) (hnext : next.regions = []) : next = .top := by
  obtain ⟨regions, pending⟩ := s
  cases regions with
  | nil => exact absurd rfl hs
  | cons r rs =>
    cases r <;> simp only [State.step, stepCode] at h
    all_goals
      repeat' split at h
      all_goals first
        | cases h; done
        | cases h; simp only [List.cons_ne_nil] at hnext; done
        | cases h; simp only at hnext; rw [hnext]; rfl

namespace State

/-- A closed text is read character by character until no region is left. -/
theorem isClosedBy_cons {s : State} {c : Char} {rest : Text} :
    s.IsClosedBy (c :: rest) ↔ ∃ next, s.step c = some next ∧
      (next.regions = [] ∧ rest = [] ∨ next.regions ≠ [] ∧ next.IsClosedBy rest) := by
  rw [IsClosedBy, closing]
  cases hstep : s.step c with
  | none => simp
  | some next =>
    by_cases hn : next.regions = []
    · simp [hn]
    · have hopen : next.regions.isEmpty = false := by simpa using hn
      simp only [hopen, Bool.false_eq_true, if_false, Option.some.injEq, exists_eq_left', hn,
        false_and, false_or, not_false_eq_true, ne_eq, true_and, IsClosedBy]
      constructor
      · intro h
        obtain ⟨⟨read, after⟩, hread, he⟩ := Option.map_eq_some_iff.mp h
        cases he
        exact hread
      · intro h
        rw [h]
        rfl

theorem not_isClosedBy_nil (s : State) : ¬ s.IsClosedBy [] := by
  simp [IsClosedBy, closing]

/-- What follows a closed text is left. -/
theorem IsClosedBy.closing_append {s : State} {t : Text} (h : s.IsClosedBy t) (z : Text) :
    closing s (t ++ z) = some (t, z) := by
  induction t generalizing s with
  | nil => exact absurd h s.not_isClosedBy_nil
  | cons c rest ih =>
    obtain ⟨next, hstep, ⟨hn, rfl⟩ | ⟨hn, hrest⟩⟩ := isClosedBy_cons.mp h
    · simp [closing, hstep, hn]
    · have hopen : next.regions.isEmpty = false := by simpa using hn
      simp only [List.cons_append, closing, hstep, hopen, Bool.false_eq_true, if_false, ih hrest,
        Option.map_some]

/-- Inside of more regions, a closed text leads to these. -/
theorem IsClosedBy.closing_below {s : State} {t : Text} (hs : s.regions ≠ []) (h : s.IsClosedBy t)
    {outer : List Region} (ho : outer ≠ []) (z : Text) :
    closing (s.below outer) (t ++ z) =
      (closing ⟨outer, .none⟩ z).map fun (read, after) => (t ++ read, after) := by
  induction t generalizing s with
  | nil => exact absurd h s.not_isClosedBy_nil
  | cons c rest ih =>
    obtain ⟨next, hstep, hnext⟩ := isClosedBy_cons.mp h
    have hbelow : (s.below outer).step c = some (next.below outer) := by
      rw [step_below hs, hstep]; rfl
    have hopen : (next.below outer).regions.isEmpty = false := by simp [below, ho]
    simp only [List.cons_append, closing, hbelow, hopen, Bool.false_eq_true, if_false]
    rcases hnext with ⟨hn, rfl⟩ | ⟨hn, hrest⟩
    · rw [step_eq_top hs hstep hn]
      rfl
    · rw [ih hn hrest, Option.map_map]
      rfl

/-- A character leads out of the outermost group only if it is the closer of it. -/
theorem step_inside_group {regions : List Region} {closer c : Char} {pending : Pending}
    {next : State} (h : State.step ⟨regions ++ [.group closer], pending⟩ c = some next) :
    (next.regions = [] ∧ c = closer) ∨ ∃ inner, next.regions = inner ++ [.group closer] := by
  cases regions with
  | cons r rs =>
    have hbelow := step_below (s := ⟨r :: rs, pending⟩) (List.cons_ne_nil r rs) [.group closer] c
    rw [below, h] at hbelow
    obtain ⟨s, -, rfl⟩ := Option.map_eq_some_iff.mp hbelow.symm
    exact .inr ⟨s.regions, rfl⟩
  | nil =>
    simp only [List.nil_append, step, stepCode] at h
    repeat' split at h
    all_goals first
      | cases h; done
      | cases h; exact .inr ⟨[_], rfl⟩
      | cases h; exact .inr ⟨[], rfl⟩
      | next hc => cases h; exact .inl ⟨rfl, by simpa using hc⟩

/-- A text that closes a group ends with the closer of it. -/
theorem IsClosedBy.getLast?_group {regions : List Region} {closer : Char} {t : Text}
    {pending : Pending} (h : IsClosedBy ⟨regions ++ [.group closer], pending⟩ t) :
    t.getLast? = some closer := by
  induction t generalizing regions pending with
  | nil => exact absurd h (not_isClosedBy_nil _)
  | cons c rest ih =>
    obtain ⟨next, hstep, hnext⟩ := isClosedBy_cons.mp h
    rcases step_inside_group hstep with ⟨hn, rfl⟩ | ⟨inner, hn⟩
    · rcases hnext with ⟨-, rfl⟩ | ⟨hne, -⟩
      · rfl
      · exact absurd hn hne
    · rcases hnext with ⟨hnil, -⟩ | ⟨-, hrest⟩
      · rw [hn] at hnil
        cases inner <;> cases hnil
      · obtain ⟨regions, pending⟩ := next
        obtain rfl : regions = inner ++ [.group closer] := hn
        rw [List.getLast?_cons, ih hrest]
        rfl

/-- The outermost region stays open up to its end. -/
theorem getLast?_of_step {s next : State} {c : Char} (h : s.step c = some next)
    (hs : s.regions ≠ []) (hn : next.regions ≠ []) :
    next.regions.getLast? = s.regions.getLast? := by
  obtain ⟨_ | ⟨r, outer⟩, pending⟩ := s
  · exact absurd rfl hs
  · have hsame : next.regions = outer ∨ ∃ front, next.regions = front ++ r :: outer := by
      cases r
      all_goals
        simp only [step, stepCode] at h
        repeat' split at h
        all_goals first
          | cases h; done
          | cases h; exact .inl rfl
          | cases h; exact .inr ⟨[], rfl⟩
          | cases h; exact .inr ⟨[_], rfl⟩
    rcases hsame with hsame | ⟨front, hsame⟩
    · rw [hsame] at hn ⊢
      rw [List.getLast?_cons_of_ne_nil hn]
    · rw [hsame, List.getLast?_append_of_ne_nil _ (List.cons_ne_nil r outer)]

/-- No separator cuts a closed text, whatever is open around it. -/
theorem IsClosedBy.splitFrom_below {s : State} {t : Text} (hs : s.regions ≠ [])
    (hline : s.regions.getLast? ≠ some .lineComment) (h : s.IsClosedBy t) (outer : List Region)
    (separator : Char) (z : Text) :
    splitFrom separator (s.below outer) (t ++ z) =
      (splitFrom separator ⟨outer, .none⟩ z).map (t.foldr Text.consHead) := by
  induction t generalizing s with
  | nil => exact absurd h s.not_isClosedBy_nil
  | cons c rest ih =>
    obtain ⟨next, hstep, hnext⟩ := isClosedBy_cons.mp h
    have hbelow : (s.below outer).step c = some (next.below outer) := by
      rw [step_below hs, hstep]; rfl
    have hkeep : (s.below outer).cutsAt separator c = false := by
      refine cutsAt_of_open (by simp [below, hs]) fun hregions => ?_
      rcases List.append_eq_singleton_iff.mp hregions with ⟨hnil, -⟩ | ⟨hone, -⟩
      · exact hs hnil
      · exact hline (by rw [hone]; rfl)
    rw [List.cons_append, splitFrom_keep hbelow hkeep]
    rcases hnext with ⟨hn, rfl⟩ | ⟨hn, hrest⟩
    · rw [step_eq_top hs hstep hn]
      rfl
    · rw [ih hn (by rwa [getLast?_of_step hstep hs hn]) hrest, Option.map_map]
      rfl

theorem IsClosedBy.splitFrom_append {s : State} {t : Text} (hs : s.regions ≠ [])
    (hline : s.regions.getLast? ≠ some .lineComment) (h : s.IsClosedBy t) (separator : Char)
    (z : Text) :
    splitFrom separator s (t ++ z) = (splitFrom separator .top z).map (t.foldr Text.consHead) := by
  have hbelow := h.splitFrom_below hs hline [] separator z
  rwa [below, List.append_nil] at hbelow

end State

theorem isClosedBy_of_closing {s : State} {t read after : Text}
    (h : closing s t = some (read, after)) :
    s.IsClosedBy read := by
  induction t generalizing s read with
  | nil => simp [closing] at h
  | cons c rest ih =>
    simp only [closing] at h
    split at h
    · cases h
    · next next hstep =>
      split at h
      · next hn =>
        cases h
        exact State.isClosedBy_cons.mpr ⟨next, hstep, .inl ⟨by simpa using hn, rfl⟩⟩
      · next hn =>
        obtain ⟨⟨r, a⟩, hr, he⟩ := Option.map_eq_some_iff.mp h
        cases he
        exact State.isClosedBy_cons.mpr ⟨next, hstep, .inr ⟨by simpa using hn, ih hr⟩⟩

/-- What is closed stays closed with more text behind it. -/
theorem closing_append_of {s : State} {t read after : Text} (h : closing s t = some (read, after))
    (z : Text) :
    closing s (t ++ z) = some (read, after ++ z) := by
  rw [closing_append h, List.append_assoc]
  exact (isClosedBy_of_closing h).closing_append _

theorem groupPrefix?_append_of {t group after : Text} (h : groupPrefix? t = some (group, after))
    (z : Text) :
    groupPrefix? (t ++ z) = some (group, after ++ z) := by
  cases t with
  | nil => cases h
  | cons c rest =>
    simp only [groupPrefix?, List.cons_append] at h ⊢
    split at h
    · cases h
    · obtain ⟨⟨read, a⟩, hr, he⟩ := Option.map_eq_some_iff.mp h
      cases he
      simp [closing_append_of hr]

/-! ### Balanced text -/

/-- Whether a character of code stands for itself, inside of all brackets and outside. -/
def isOrdinary (c : Char) : Bool :=
  (literal? c).isNone && (closer? c).isNone && !isCloser c && c != '/'

/-- Text without comments that closes what it opens, and where no character of `avoided` stands
outside of brackets and literals. -/
inductive Balanced : (avoided : List Char) → Text → Prop
  | nil {avoided : List Char} : Balanced avoided []
  | ordinary {avoided : List Char} {c : Char} {rest : Text} (hc : isOrdinary c = true)
      (ha : c ∉ avoided)
      (hrest : Balanced avoided rest) : Balanced avoided (c :: rest)
  | literal {avoided : List Char} {quote : Char} {r : Region} {body rest : Text}
      (hquote : literal? quote = some r) (ha : quote ∉ avoided)
        (hbody : (State.inside r).IsClosedBy body)
      (hrest : Balanced avoided rest) : Balanced avoided (quote :: (body ++ rest))
  | group {avoided : List Char} {opener closer : Char} {inner rest : Text}
      (hopener : closer? opener = some closer) (ha : opener ∉ avoided) (hinner : Balanced [] inner)
      (hrest : Balanced avoided rest) : Balanced avoided (opener :: (inner ++ closer :: rest))

namespace Balanced

variable {avoided : List Char} {t : Text}

theorem append {u : Text} (ht : Balanced avoided t) (hu : Balanced avoided u) :
    Balanced avoided (t ++ u) := by
  induction ht with
  | nil => exact hu
  | ordinary hc ha _ ih => exact .ordinary hc ha (ih hu)
  | literal hquote ha hbody _ ih =>
    rw [List.cons_append, List.append_assoc]
    exact .literal hquote ha hbody (ih hu)
  | group hopener ha hinner _ _ ih =>
    rw [List.cons_append, List.append_assoc, List.cons_append]
    exact .group hopener ha hinner (ih hu)

/-- Fewer characters to avoid. -/
theorem mono {fewer : List Char} (h : fewer ⊆ avoided) (ht : Balanced avoided t) :
    Balanced fewer t := by
  induction ht with
  | nil => exact .nil
  | ordinary hc ha _ ih => exact .ordinary hc (fun hf => ha (h hf)) (ih h)
  | literal hquote ha hbody _ ih => exact .literal hquote (fun hf => ha (h hf)) hbody (ih h)
  | group hopener ha hinner _ _ ih => exact .group hopener (fun hf => ha (h hf)) hinner (ih h)

theorem of_ordinary (h : ∀ c ∈ t, isOrdinary c = true ∧ c ∉ avoided) : Balanced avoided t := by
  induction t with
  | nil => exact .nil
  | cons c rest ih =>
    have hc := h c List.mem_cons_self
    exact .ordinary hc.1 hc.2 (ih fun d hd => h d (List.mem_cons_of_mem _ hd))

end Balanced

/-! ### Single characters -/

theorem stepCode_ordinary {c : Char} (hc : isOrdinary c = true) (rs : List Region) :
    stepCode rs .none c = some ⟨rs, .none⟩ := by
  simp only [isOrdinary, Bool.and_eq_true, Option.isNone_iff_eq_none, Bool.not_eq_true', bne_iff_ne,
    ne_eq] at hc
  obtain ⟨⟨⟨hliteral, hopener⟩, hcloser⟩, hslash⟩ := hc
  simp [stepCode, hliteral, hopener, hcloser, hslash]

theorem stepCode_literal {quote : Char} {r : Region} (h : literal? quote = some r)
    (rs : List Region) :
    stepCode rs .none quote = some ⟨r :: rs, .none⟩ := by
  simp [stepCode, h]

theorem literal?_cases {c : Char} {r : Region} (h : literal? c = some r) :
    ((c = '\'' ∨ c = '"') ∧ r = .quoted c) ∨ (c = '`' ∧ r = .template) := by
  unfold literal? at h
  repeat' split at h
  all_goals simp_all

theorem not_lineComment_of_literal? {quote : Char} {r : Region} (h : literal? quote = some r) :
    (State.inside r).regions.getLast? ≠ some .lineComment := by
  rcases literal?_cases h with ⟨-, rfl⟩ | ⟨-, rfl⟩ <;> simp [State.inside]

theorem literal?_of_closer? {opener closer : Char} (h : closer? opener = some closer) :
    literal? opener = none ∧ opener ≠ '/' ∧ literal? closer = none ∧ closer ≠ '/' ∧
      closer? closer = none ∧
      isCloser closer = true := by
  unfold closer? at h
  repeat' split at h
  all_goals first
    | cases h; simp_all; decide
    | cases h

theorem isCloser_of_closer? {opener closer : Char} (h : closer? opener = some closer) :
    isCloser closer = true :=
  (literal?_of_closer? h).2.2.2.2.2

theorem stepCode_opener {opener closer : Char} (h : closer? opener = some closer)
    (rs : List Region) :
    stepCode rs .none opener = some ⟨.group closer :: rs, .none⟩ := by
  obtain ⟨hliteral, hslash, -⟩ := literal?_of_closer? h
  simp [stepCode, h, hliteral, hslash]

theorem stepCode_closer {opener closer : Char} (h : closer? opener = some closer)
    (rs : List Region) :
    stepCode (.group closer :: rs) .none closer = some ⟨rs, .none⟩ := by
  obtain ⟨-, -, hliteral, hslash, hopener, hcloser⟩ := literal?_of_closer? h
  simp [stepCode, hopener, hliteral, hslash, hcloser]

theorem closing_code {closer : Char} {rs next : List Region} {c : Char}
    (h : stepCode (.group closer :: rs) .none c = some ⟨next, .none⟩) (hn : next ≠ []) (z : Text) :
    closing ⟨.group closer :: rs, .none⟩ (c :: z) =
      (closing ⟨next, .none⟩ z).map fun (read, after) => (c :: read, after) :=
  closing_cons (s := ⟨.group closer :: rs, .none⟩) h hn z

theorem splitFrom_code {separator c : Char} {next : State} (h : stepCode [] .none c = some next)
    (hc : c ≠ separator) (z : Text) :
    splitFrom separator .top (c :: z) = (splitFrom separator next z).map (Text.consHead c) := by
  have hstep : State.top.step c = some next := h
  exact splitFrom_keep hstep (State.cutsAt_of_ne hc) z

theorem splitFrom_separator {separator : Char} (h : isOrdinary separator = true) (z : Text) :
    splitFrom separator .top (separator :: z) = (splitFrom separator .top z).map ([] :: ·) := by
  have hstep : State.top.step separator = some .top := stepCode_ordinary h []
  refine splitFrom_cut ?_ z
  rw [State.cutsAt, hstep, beq_self_eq_true, beq_self_eq_true]
  rfl

theorem stripFrom_code {c : Char} (hl : literal? c = none) (hs : c ≠ '/') (z : Text) :
    stripFrom 0 0 (c :: z) = c :: stripFrom 0 0 z := by
  have hcomment : commentPrefix? (c :: z) = none := by
    unfold commentPrefix?
    split <;> simp_all
  simp [stripFrom, hl, hcomment]

/-! ### The readers -/

/-- Inside of a group a balanced text leads to where it started. -/
theorem Balanced.closing_group {avoided : List Char} {t : Text} (ht : Balanced avoided t)
    (closer : Char) (rs : List Region) (z : Text) :
    closing ⟨.group closer :: rs, .none⟩ (t ++ z) =
      (closing ⟨.group closer :: rs, .none⟩ z).map fun (read, after) => (t ++ read, after) := by
  induction ht generalizing closer rs z with
  | nil => simp
  | ordinary hc _ _ ih =>
    rw [List.cons_append, closing_code (stepCode_ordinary hc _) (by simp), ih, Option.map_map]
    rfl
  | @literal _ _ r body rest hquote _ hbody _ ih =>
    have hin :=
      hbody.closing_below (by simp [State.inside]) (List.cons_ne_nil (.group closer) rs) (rest ++ z)
    rw [List.cons_append, List.append_assoc, closing_code (stepCode_literal hquote _) (by simp)]
    refine (congrArg _ hin).trans ?_
    rw [ih, Option.map_map, Option.map_map]
    simp [Function.comp_def]
  | @group _ opener inner_closer inner rest hopener _ _ _ ihinner ih =>
    rw [List.cons_append, List.append_assoc, closing_code (stepCode_opener hopener _) (by simp),
      ihinner, List.cons_append, closing_code (stepCode_closer hopener _) (by simp), ih]
    simp [Function.comp_def]

/-- A group around a balanced text is closed by its bracket. -/
theorem Balanced.isClosedBy {avoided : List Char} {t : Text} (ht : Balanced avoided t)
    {opener closer : Char} (h : closer? opener = some closer) :
    (State.inside (.group closer)).IsClosedBy (t ++ [closer]) := by
  rw [State.IsClosedBy, State.inside, ht.closing_group]
  have hstep : (⟨[.group closer], .none⟩ : State).step closer = some .top := stepCode_closer h []
  simp [closing, hstep, State.top]

theorem Balanced.groupPrefix? {avoided : List Char} {t : Text} (ht : Balanced avoided t)
    {opener closer : Char} (h : closer? opener = some closer) (z : Text) :
    groupPrefix? (opener :: (t ++ closer :: z)) = some (opener :: (t ++ [closer]), z) := by
  have := (ht.isClosedBy h).closing_append z
  rw [List.append_assoc, List.singleton_append] at this
  simp [Script.groupPrefix?, h, this]

/-- A balanced text is not cut at what it avoids. -/
theorem Balanced.splitFrom_append {avoided : List Char} {t : Text} (ht : Balanced avoided t)
    {separator : Char} (hs : separator ∈ avoided) (z : Text) :
    splitFrom separator .top (t ++ z) =
      (splitFrom separator .top z).map (t.foldr Text.consHead) := by
  induction ht with
  | nil => simp
  | @ordinary _ c rest hc ha _ ih =>
    have hne : c ≠ separator := fun he => ha (he ▸ hs)
    rw [List.cons_append, splitFrom_code (stepCode_ordinary hc _) hne]
    refine (congrArg _ (ih hs)).trans ?_
    rw [Option.map_map]
    rfl
  | @literal _ quote r body rest hquote ha hbody _ ih =>
    have hne : quote ≠ separator := fun he => ha (he ▸ hs)
    rw [List.cons_append, List.append_assoc, splitFrom_code (stepCode_literal hquote _) hne]
    refine (congrArg _ (hbody.splitFrom_append (by simp [State.inside])
      (not_lineComment_of_literal? hquote) separator _)).trans ?_
    rw [ih hs, Option.map_map, Option.map_map]
    simp [Function.comp_def]
  | @group _ opener closer inner rest hopener ha hinner _ _ ih =>
    have hne : opener ≠ separator := fun he => ha (he ▸ hs)
    have htext : (inner ++ closer :: rest) ++ z = (inner ++ [closer]) ++ (rest ++ z) := by simp
    rw [List.cons_append, htext, splitFrom_code (stepCode_opener hopener _) hne]
    refine (congrArg _ ((hinner.isClosedBy hopener).splitFrom_append (by simp [State.inside])
      (by simp [State.inside]) separator _)).trans ?_
    rw [ih hs, Option.map_map, Option.map_map]
    simp [Function.comp_def]

/-- A balanced text holds no comment. -/
theorem Balanced.stripFrom_append {avoided : List Char} {t : Text} (ht : Balanced avoided t)
    (z : Text) :
    stripFrom 0 0 (t ++ z) = t ++ stripFrom 0 0 z := by
  induction ht generalizing z with
  | nil => rfl
  | @ordinary _ c rest hc _ _ ih =>
    simp only [isOrdinary, Bool.and_eq_true, Option.isNone_iff_eq_none, bne_iff_ne, ne_eq] at hc
    rw [List.cons_append, stripFrom_code hc.1.1.1 hc.2, ih]
    rfl
  | @literal _ quote r body rest hquote _ hbody _ ih =>
    have hkept : ∀ read z : Text, stripFrom read.length 0 (read ++ z) =
        read ++ stripFrom 0 0 z := by
      intro read z
      induction read with
      | nil => rfl
      | cons c read ih => simp only [List.length_cons, List.cons_append, stripFrom, ih]
    simp only [List.cons_append, List.append_assoc, stripFrom, hquote,
      hbody.closing_append, hkept, ih]
  | @group _ opener closer inner rest hopener _ _ _ ihinner ih =>
    obtain ⟨hliteral, hslash, hliteral', hslash', -⟩ := literal?_of_closer? hopener
    rw [List.cons_append, List.append_assoc, stripFrom_code hliteral hslash, ihinner,
      List.cons_append, stripFrom_code hliteral' hslash', ih]
    simp

theorem Balanced.withoutComments_eq {avoided : List Char} {t : Text} (ht : Balanced avoided t) :
    withoutComments t = t := by
  have := ht.stripFrom_append []
  rwa [List.append_nil, stripFrom, List.append_nil] at this

end Localization.Script
