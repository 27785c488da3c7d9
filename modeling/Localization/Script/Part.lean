import Localization.Script.Region

/-! Parts of script text.

`splitTop` cuts a list of arguments, properties or the two sides of a property at the
separators that no bracket, literal or comment encloses. `typeArguments?` reads a list
of type arguments, which has brackets of its own. -/
namespace Localization.Script

/-- Whether a text may end here: everything is closed but for a comment. -/
def State.isSettled (s : State) : Bool :=
  match s.regions with
  | [] => true
  | [.lineComment] => true
  | [.blockComment] => true
  | _ => false

/-- Whether a separator cuts a text here: nothing is open around it and nothing opens with it. A
line end may separate behind a line comment. -/
def State.cutsAt (s : State) (separator c : Char) : Bool :=
  c == separator && s.step c == some .top &&
    match s.regions with
    | [] => true
    | [.lineComment] => true
    | _ => false

/-- The parts of a text between the separators that stand outside of everything; none if
the text is not balanced. -/
def splitFrom (separator : Char) (s : State) : Text → Option (List Text)
  | [] => if s.isSettled then some [[]] else none
  | c :: rest =>
    match s.step c with
    | some next =>
      if s.cutsAt separator c then (splitFrom separator next rest).map ([] :: ·)
      else (splitFrom separator next rest).map (Text.consHead c)
    | none => none

/-- Cuts a text at the separators outside of all brackets, literals and comments. -/
def splitTop (separator : Char) (t : Text) : Option (List Text) := splitFrom separator .top t

theorem State.cutsAt_of_ne {s : State} {separator c : Char} (h : c ≠ separator) :
    s.cutsAt separator c = false := by
  simp [cutsAt, h]

/-- Where something is open that is no line comment, no separator cuts. -/
theorem State.cutsAt_of_open {s : State} {separator c : Char} (hs : s.regions ≠ [])
    (hline : s.regions ≠ [.lineComment]) :
    s.cutsAt separator c = false := by
  rw [cutsAt]
  split <;> simp_all

/-- A character that opens something or goes on with it does not cut. -/
theorem State.cutsAt_of_step {s next : State} {separator c : Char} (h : s.step c = some next)
    (hne : next ≠ .top) :
    s.cutsAt separator c = false := by
  simp [cutsAt, h, hne]

theorem State.of_cutsAt {s : State} {separator c : Char} (h : s.cutsAt separator c = true) :
    c = separator ∧ s.step c = some .top ∧ s.isSettled = true := by
  simp only [cutsAt, Bool.and_eq_true, beq_iff_eq] at h
  refine ⟨h.1.1, h.1.2, ?_⟩
  rw [isSettled]
  split at h <;> simp_all

/-- A separator ends a part. -/
theorem splitFrom_cut {s : State} {separator c : Char} (h : s.cutsAt separator c = true)
    (rest : Text) :
    splitFrom separator s (c :: rest) = (splitFrom separator .top rest).map ([] :: ·) := by
  simp only [splitFrom, (State.of_cutsAt h).2.1, h, if_true]

/-- Any other character belongs to the part. -/
theorem splitFrom_keep {s next : State} {separator c : Char} (hstep : s.step c = some next)
    (h : s.cutsAt separator c = false) (rest : Text) :
    splitFrom separator s (c :: rest) = (splitFrom separator next rest).map (Text.consHead c) := by
  simp only [splitFrom, hstep, h, Bool.false_eq_true, if_false]

theorem splitFrom_ne_nil {separator : Char} {s : State} {t : Text} :
    splitFrom separator s t ≠ some [] := by
  cases t with
  | nil => rw [splitFrom]; split <;> simp
  | cons c rest =>
    rw [splitFrom]
    split
    · split
      · simp
      · intro h
        obtain ⟨later, -, hnil⟩ := Option.map_eq_some_iff.mp h
        cases later <;> cases hnil
    · simp

/-- A character ends a part or belongs to the one behind it. -/
theorem splitFrom_cons_cases {separator : Char} {s : State} {c : Char} {rest : Text}
    {parts : List Text} (h : splitFrom separator s (c :: rest) = some parts) :
    ∃ next first others, s.step c = some next ∧
      splitFrom separator next rest = some (first :: others) ∧
      (s.cutsAt separator c = true ∧ parts =
        [] :: first :: others ∨ s.cutsAt separator c = false ∧ parts = (c :: first) :: others) := by
  rw [splitFrom] at h
  split at h
  · next next hstep =>
    have hlater {later : List Text} (hlater : splitFrom separator next rest = some later) :
        ∃ first others, later = first :: others :=
      List.exists_cons_of_ne_nil fun hnil => splitFrom_ne_nil (hnil ▸ hlater)
    split at h
    · next hcut =>
      obtain ⟨later, hsplit, rfl⟩ := Option.map_eq_some_iff.mp h
      obtain ⟨first, others, rfl⟩ := hlater hsplit
      exact ⟨next, first, others, hstep, hsplit, .inl ⟨hcut, rfl⟩⟩
    · next hkeep =>
      obtain ⟨later, hsplit, rfl⟩ := Option.map_eq_some_iff.mp h
      obtain ⟨first, others, rfl⟩ := hlater hsplit
      exact ⟨next, first, others, hstep, hsplit, .inr ⟨by simpa using hkeep, rfl⟩⟩
  · cases h

/-- A part stands in the text. -/
theorem sublist_of_mem_splitFrom {separator : Char} {s : State} {t : Text} {parts : List Text}
    (h : splitFrom separator s t = some parts) : ∀ p ∈ parts, p.Sublist t := by
  induction t generalizing s parts with
  | nil =>
    rw [splitFrom] at h
    split at h
    · cases h
      simp
    · cases h
  | cons c rest ih =>
    intro p hp
    obtain ⟨next, first, others, -, hsplit, ⟨-, rfl⟩ | ⟨-, rfl⟩⟩ := splitFrom_cons_cases h
    · rcases List.mem_cons.mp hp with rfl | hp
      · exact List.nil_sublist _
      · exact (ih hsplit p hp).cons c
    · rcases List.mem_cons.mp hp with rfl | hp
      · exact (ih hsplit first List.mem_cons_self).cons_cons c
      · exact (ih hsplit p (List.mem_cons_of_mem _ hp)).cons c

/-- A part is no longer than the text. -/
theorem length_le_of_mem_splitFrom {separator : Char} {s : State} {t : Text} {parts : List Text}
    (h : splitFrom separator s t = some parts) : ∀ p ∈ parts, p.length ≤ t.length :=
  fun p hp => (sublist_of_mem_splitFrom h p hp).length_le

/-- A list of type arguments `<…>`, read with `depth` angle brackets open and `s` for the
string it may be in, and what follows it. A parenthesis, a semicolon, an assignment, a
line end or a doubled `&` or `|` shows that the `<` was a comparison. -/
def typeArgumentsFrom (depth : Nat) (s : State) : Text → Option (Text × Text)
  | [] => none
  | c :: rest =>
    let further (depth : Nat) (s : State) : Option (Text × Text) :=
      (typeArgumentsFrom depth s rest).map fun (read, after) => (c :: read, after)
    if s.regions.isEmpty then
      if c == '<' then further (depth + 1) .top
      else if c == '>' then if depth ≤ 1 then some ([c], rest) else further (depth - 1) .top
      else if c == '\'' || c == '"' then further depth (.inside (.quoted c))
      else if c == '(' || c == ')' || c == ';' || c == '=' || c == '\n' then none
      else if (c == '&' || c == '|') && rest.head? == some c then none
      else further depth .top
    else match s.step c with
      | some next => further depth next
      | none => none

/-- The list of type arguments at the head of a text and what follows it. -/
def typeArguments? (t : Text) : Option (Text × Text) := typeArgumentsFrom 0 .top t

end Localization.Script
