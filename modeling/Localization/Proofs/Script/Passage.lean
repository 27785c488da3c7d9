import Mathlib
import Localization.Proofs.Script.Embedded
import Localization.Proofs.Marker.Place
import Localization.Proofs.Script.Following

/-! The walk through the front of a text.

A `Passage` through a text, with more text behind it, is a walk that is between two pieces where
the text ends. What is found in a text is found on the passage through its front or behind it
(`Passage.occurrencesFrom_eq`). What stands behind the front is looked at by the pieces of the
front, but seldom matters: two texts that are `Interchangeable` there are passed alike
(`Passage.exchange`). -/
namespace Localization.Script

/-! ### Passages -/

/-- A place, with more text behind what follows it. -/
def Cursor.followedBy (z : Text) (place : Cursor) : Cursor := ⟨place.before, place.after ++ z⟩

/-- Whether the walk passes through a text, with `z` behind it, and ends a piece where the text
ends: the places where pieces start, with the frames there, and the frames at the end. -/
inductive Passage (z : Text) :
    List Frame → Text → Text → List (List Frame × Cursor) → List Frame → Prop
  | nil {frames : List Frame} {before : Text} : Passage z frames before [] [] frames
  | cons {frames next last : List Frame} {before a t : Text} {c : Char}
      {starts : List (List Frame × Cursor)}
      (hpiece : piece frames before c (a ++ (t ++ z)) = ⟨a.length + 1, next⟩)
      (ht : Passage z next (a.reverse ++ c :: before) t starts last) :
      Passage z frames before (c :: (a ++ t)) ((frames, ⟨before, c :: (a ++ t)⟩) :: starts) last

namespace Passage

variable {z t before : Text} {frames last : List Frame} {starts : List (List Frame × Cursor)}

/-- What is found from the start of a passage on: what is found on it, and what is found behind
it. -/
theorem occurrencesFrom_eq (h : Passage z frames before t starts last) (name : Text) :
    occurrencesFrom name 0 frames before (t ++ z) =
      ((starts.filter fun s => isOccurrence name s.1 (s.2.followedBy z)).map fun s =>
        s.2.followedBy z) ++
        occurrencesFrom name 0 last (t.reverse ++ before) z := by
  induction h with
  | nil => rfl
  | @cons frames next last before a t c starts hpiece _ ih =>
    have hlater : occurrencesFrom name a.length next (c :: before) (a ++ (t ++ z)) =
        ((starts.filter fun s => isOccurrence name s.1 (s.2.followedBy z)).map fun s =>
          s.2.followedBy z) ++
          occurrencesFrom name 0 last ((c :: (a ++ t)).reverse ++ before) z := by
      rw [occurrencesFrom_append name a (t ++ z) a.length rfl, ih]
      simp
    have hplace : (Cursor.followedBy z ⟨before, c :: (a ++ t)⟩) =
        ⟨before, c :: (a ++ (t ++ z))⟩ := by
      simp [Cursor.followedBy]
    rw [List.cons_append, List.append_assoc, occurrencesFrom]
    simp only [hpiece, Nat.add_sub_cancel, hlater, List.filter_cons, hplace]
    split <;> simp [hplace]

/-- A piece starts in the text of the passage. -/
theorem suffix_of_mem_starts (h : Passage z frames before t starts last) {s : List Frame × Cursor}
    (hs : s ∈ starts) :
    s.2.after <:+ t ∧ s.2.after ≠ [] ∧ s.2.before.reverse ++ s.2.after = before.reverse ++ t := by
  induction h with
  | nil => cases hs
  | @cons frames next last before a t c starts hpiece _ ih =>
    rcases List.mem_cons.mp hs with rfl | hs
    · exact ⟨List.suffix_rfl, List.cons_ne_nil _ _, rfl⟩
    · obtain ⟨hsuffix, hne, htext⟩ := ih hs
      refine ⟨hsuffix.trans ((List.suffix_append a t).trans (List.suffix_cons c _)), hne, ?_⟩
      rw [htext]
      simp

end Passage

theorem le_of_mem_occurrencesFrom {name : Text} {skip : Nat} {frames : List Frame} {before t : Text}
    {place : Cursor} (h : place ∈ occurrencesFrom name skip frames before t) :
    before.length + skip ≤ place.before.length := by
  induction t generalizing skip frames before with
  | nil => simp [occurrencesFrom] at h
  | cons c t ih =>
    cases skip with
    | succ skip =>
      rw [occurrencesFrom] at h
      have := ih h
      rw [List.length_cons] at this
      omega
    | zero =>
      rw [occurrencesFrom] at h
      have hlater {h : place ∈ occurrencesFrom name ((piece frames before c t).length - 1)
          (piece frames before c t).frames
          (c :: before) t} : before.length + 0 ≤ place.before.length := by
        have := ih h
        rw [List.length_cons] at this
        omega
      split at h
      · rcases List.mem_cons.mp h with rfl | h
        · exact Nat.le_refl _
        · exact hlater (h := h)
      · exact hlater (h := h)

theorem templateText_pos {t : Text} (h : t ≠ []) : 1 ≤ (templateText t).1 := by
  fun_cases templateText t <;> simp_all

theorem one_le_length_templatePiece (frames : List Frame) (rest : Text) :
    1 ≤ (templatePiece frames rest).length := by
  simp [templatePiece]

theorem one_le_length_tagPiece (frames : List Frame) (rest : Text) :
    1 ≤ (tagPiece frames rest).length := by
  unfold tagPiece
  split <;> simp

theorem one_le_stringLength (quote : Char) (rest : Text) : 1 ≤ stringLength quote rest := by
  unfold stringLength
  split <;> omega

theorem one_le_length_codePiece (frames : List Frame) (before : Text) (c : Char) (rest : Text) :
    1 ≤ (codePiece frames before c rest).length := by
  unfold codePiece
  split
  · show 1 ≤ if opensString before then stringLength c rest else 1
    split
    · exact one_le_stringLength c rest
    · exact Nat.le_refl 1
  split
  · exact one_le_length_templatePiece frames rest
  split
  · split
    · next hcomment =>
      have := length_commentPrefix?_lt hcomment
      rw [List.length_cons] at this
      show 1 ≤ 1 + rest.length - _
      omega
    · exact Nat.le_refl 1
  split
  · exact one_le_length_tagPiece frames rest
  split
  · exact Nat.le_refl 1
  split
  · split
    · exact one_le_length_templatePiece _ rest
    · exact Nat.le_refl 1
    · exact Nat.le_refl 1
  split
  · next hc => simp [hc]
  · exact Nat.le_refl 1

/-- Every piece has a character. -/
theorem one_le_length_piece (frames : List Frame) (before : Text) (c : Char) (rest : Text) :
    1 ≤ (piece frames before c rest).length := by
  unfold piece
  split
  · split
    · exact Nat.le_refl 1
    split
    · exact one_le_length_tagPiece _ rest
    · exact Nat.le_refl 1
  · split
    · exact one_le_stringLength c rest
    split
    · exact Nat.le_refl 1
    split
    · exact Nat.le_succ 1
    split
    · exact Nat.le_refl 1
    · exact Nat.le_refl 1
  · exact one_le_length_codePiece frames before c rest

/-- The walk passes through what stands in front of a place where something is found. -/
theorem exists_passage {name : Text} {frames : List Frame} {before t z : Text} {place : Cursor}
    (h : place ∈ occurrencesFrom name 0 frames before (t ++ z))
    (hplace : place.before = t.reverse ++ before) :
    ∃ starts last, Passage z frames before t starts last ∧
      isOccurrence name last ⟨t.reverse ++ before, z⟩ = true := by
  generalize hn : t.length = n
  induction n using Nat.strongRecOn generalizing frames before t with
  | ind n ih =>
    subst hn
    cases t with
    | nil =>
      refine ⟨[], frames, .nil, ?_⟩
      rw [List.nil_append] at h
      cases z with
      | nil => simp [occurrencesFrom] at h
      | cons d w =>
        rw [occurrencesFrom] at h
        have hlater {h : place ∈ occurrencesFrom name ((piece frames before d w).length - 1)
            (piece frames before d w).frames
            (d :: before) w} : False := by
          have := le_of_mem_occurrencesFrom h
          rw [hplace, List.reverse_nil, List.nil_append, List.length_cons] at this
          omega
        split at h
        · next hown => exact hown
        · exact (hlater (h := h)).elim
    | cons c t =>
      have hlen : place.before.length = t.length + 1 + before.length := by
        rw [hplace, List.length_append, List.length_reverse, List.length_cons]
      rw [List.cons_append, occurrencesFrom] at h
      have hlater : place ∈ occurrencesFrom name ((piece frames before c (t ++ z)).length - 1)
          (piece frames before c (t ++ z)).frames (c :: before) (t ++ z) := by
        split at h
        · rcases List.mem_cons.mp h with rfl | h
          · simp only at hlen
            omega
          · exact h
        · exact h
      -- The piece ends in the text, since something is found at its end.
      have hle := le_of_mem_occurrencesFrom hlater
      have hpos := one_le_length_piece frames before c (t ++ z)
      rw [hlen, List.length_cons] at hle
      obtain ⟨a, u, rfl, ha⟩ : ∃ a u, t = a ++ u ∧
          a.length = (piece frames before c (t ++ z)).length - 1 :=
        ⟨t.take ((piece frames before c (t ++ z)).length - 1), t.drop _,
          (List.take_append_drop _ t).symm,
          by rw [List.length_take]; omega⟩
      rw [List.append_assoc] at hlater ha hpos
      rw [← ha, occurrencesFrom_append name a (u ++ z) a.length rfl] at hlater
      obtain ⟨starts, last, hpassage, hown⟩ := ih u.length (by simp) hlater (by simp [hplace]) rfl
      refine ⟨_, last, .cons ?_ hpassage, by simpa using hown⟩
      rw [ha, Nat.sub_add_cancel hpos]

/-! ### Texts that end regions alike -/

/-- Whether a state is closed in two texts with the same text left, or in neither. -/
def State.EndsAlike (s : State) (z z' : Text) : Prop :=
  (closing s z).map Prod.snd = (closing s z').map Prod.snd

namespace State

variable {s : State} {z z' : Text}

/-- What is closed in a text is closed there whatever follows; what is not is closed alike in what
follows. -/
theorem closing_append_cases {t : Text} (hs : s.regions ≠ [])
    (h : ∀ s', s.run t = some s' → s'.regions ≠ [] → s'.EndsAlike z z') :
    (∃ read after, closing s t = some (read, after)) ∨ closing s t = none ∧
      s.EndsAlike (t ++ z) (t ++ z') := by
  induction t generalizing s with
  | nil => exact .inr ⟨rfl, h s rfl hs⟩
  | cons c t ih =>
    simp only [EndsAlike, List.cons_append, closing]
    cases hstep : s.step c with
    | none => exact .inr ⟨rfl, rfl⟩
    | some next =>
      by_cases hn : next.regions = []
      · exact .inl ⟨[c], t, by simp [hn]⟩
      · have hopen : next.regions.isEmpty = false := by simpa using hn
        simp only [hopen, Bool.false_eq_true, if_false]
        have hrun : ∀ s', next.run t = some s' → s'.regions ≠ [] → s'.EndsAlike z z' := by
          intro s' hs'
          exact h s' (by rw [run, hstep]; exact hs')
        rcases ih hn hrun with ⟨read, after, hclosed⟩ | ⟨hclosed, halike⟩
        · exact .inl ⟨c :: read, after, by rw [hclosed]; rfl⟩
        · refine .inr ⟨by rw [hclosed]; rfl, ?_⟩
          rw [Option.map_map, Option.map_map]
          exact halike

/-- A string leads to nothing but itself and its end. -/
theorem run_quoted {quote : Char} {pending : Pending} {t : Text} {s : State}
    (h : run ⟨[.quoted quote], pending⟩ t = some s)
    (hs : closing ⟨[.quoted quote], pending⟩ t = none) :
    ∃ p, s = ⟨[.quoted quote], p⟩ := by
  induction t generalizing pending with
  | nil => cases h; exact ⟨pending, rfl⟩
  | cons c t ih =>
    rcases step_quoted quote pending c with hstep | hstep | ⟨p, hstep⟩
    · rw [run, hstep] at h; cases h
    · simp [closing, hstep, top] at hs
    · rw [run, hstep] at h
      refine ih h ?_
      rw [closing_cons hstep (List.cons_ne_nil _ _)] at hs
      simpa using hs

end State

/-! ### Texts that may take each other's place -/

/-- Whether a character completes nothing that the walk looks for, and is no blank. -/
def isIndifferent (c : Char) : Bool := !Text.isAsciiBlank c && !",>=:(\x7bextnds".toList.contains c

/-- Whether two texts may take each other's place behind others: their first characters complete
nothing, both close a string, or neither does, and none looks like a tag where the other does
not, but for a name. -/
structure Interchangeable (z z' : Text) : Prop where
  head : ∃ c w, z = c :: w ∧ isIndifferent c = true
  head' : ∃ c w, z' = c :: w ∧ isIndifferent c = true
  notTag : looksLikeTag z' = false
  tag (frames : List Frame) : tagPiece frames z = ⟨1, .tag :: frames⟩
  quoted (quote : Char) (hq : quote = '\'' ∨ quote = '"') (pending : Pending) :
    State.EndsAlike ⟨[.quoted quote], pending⟩ z z'

/-- Whether what stands behind a text may be exchanged: the text does not end in a slash or in a
name, and each of its groups that is open at its end is closed alike in both. -/
structure AllowsExchange (z z' t : Text) : Prop where
  last (c : Char) (h : t.getLast? = some c) : c ≠ '/' ∧ isNameChar c = false
  groups (u : Text) (h : '(' :: u <:+
    t) (s : State) (hs : (State.inside (.group ')')).run u = some s)
    (hne : s.regions ≠ []) : s.EndsAlike z z'

theorem AllowsExchange.of_suffix {z z' t u : Text} (h : AllowsExchange z z' t) (hu : u <:+ t) :
    AllowsExchange z z' u := by
  obtain ⟨front, rfl⟩ := hu
  constructor
  · intro c hc
    refine h.last c ?_
    rw [List.getLast?_append, hc]
    rfl
  · intro v hv
    exact h.groups v (hv.trans (List.suffix_append front u))

section

variable {z z' t : Text} (hz : Interchangeable z z')

include hz

theorem Interchangeable.stringLength_eq {quote : Char} (hq : quote = '\'' ∨ quote = '"')
    (h : stringLength quote (t ++ z) ≤ t.length + 1) :
    stringLength quote (t ++ z') = stringLength quote (t ++ z) := by
  unfold stringLength at h ⊢
  cases hclosed : closing (.inside (.quoted quote)) t with
  | some p => rw [closing_append_of hclosed, closing_append_of hclosed]
  | none =>
    have hrun : ∀ s', (State.inside (.quoted quote)).run t = some s' → s'.regions ≠ [] →
        s'.EndsAlike z z' := by
      intro s' hs' _
      obtain ⟨p, rfl⟩ := State.run_quoted hs' hclosed
      exact hz.quoted quote hq p
    rcases State.closing_append_cases (List.cons_ne_nil _ _) hrun with ⟨read, after, hsome⟩
      | ⟨-, halike⟩
    · rw [hclosed] at hsome
      cases hsome
    · cases hmore : closing (.inside (.quoted quote)) (t ++ z) with
      | none =>
        rw [State.EndsAlike, hmore, Option.map_none, eq_comm, Option.map_eq_none_iff] at halike
        rw [halike]
      | some p =>
        -- A string that goes on behind the text is longer than the text.
        exfalso
        rw [hmore] at h
        obtain ⟨read, after⟩ := p
        simp only at h
        have htext := closing_append hmore
        obtain ⟨w, hw⟩ := suffix_of_closing hclosed hmore
        have hread : read = t ++ w := by
          rw [← hw, ← List.append_assoc] at htext
          exact (List.append_cancel_right htext).symm
        have hnil : w = [] := by
          rw [hread, List.length_append] at h
          exact List.length_eq_zero_iff.mp (by omega)
        rw [hread, hnil, List.append_nil] at hmore
        have hself := (isClosedBy_of_closing hmore)
        rw [State.IsClosedBy, hclosed] at hself
        cases hself

/-! ### Templates and comments -/

omit hz in
theorem templateText_cons {c : Char} {rest : Text} (h1 : c ≠ '\\') (h2 : c ≠ '`')
    (h3 : c = '$' → rest.head? ≠ some '{') :
    templateText (c :: rest) = ((templateText rest).1 + 1, (templateText rest).2) := by
  rw [templateText.eq_def]
  split
  · next heq => cases heq
  · next heq => cases heq; exact absurd rfl h1
  · next heq => cases heq; exact absurd rfl h1
  · next heq => cases heq; exact absurd rfl h2
  · next heq => cases heq; exact absurd rfl (h3 rfl)
  · next heq => cases heq; rfl

/-- The text of a template that ends in a text ends there whatever follows. -/
theorem Interchangeable.templateText_eq (h : (templateText (t ++ z)).1 ≤ t.length) :
    templateText (t ++ z') = templateText (t ++ z) := by
  obtain ⟨c, w, rfl, hc⟩ := hz.head
  obtain ⟨c', w', rfl, hc'⟩ := hz.head'
  fun_induction templateText t with
  | case1 => exact absurd (templateText_pos (List.cons_ne_nil c w)) (by simpa using h)
  | case2 => simp [templateText] at h
  | case3 d rest n more hrest ih =>
    simp only [List.cons_append, templateText, List.length_cons, Nat.add_le_add_iff_right] at h ⊢
    rw [ih h]
  | case4 => rfl
  | case5 => rfl
  | case6 d rest h1 h2 h3 h4 n more hrest ih =>
    have hstep (e : Char) (v : Text) (he : isIndifferent e = true) :
        templateText (d :: (rest ++ e :: v)) =
        ((templateText (rest ++ e :: v)).1 + 1, (templateText (rest ++ e :: v)).2) := by
      refine templateText_cons ?_ ?_ ?_
      · rintro rfl
        cases rest with
        | nil => exact h1 rfl rfl
        | cons f rest => exact h2 f rest rfl rfl
      · rintro rfl
        exact h3 rfl
      · rintro rfl hhead
        cases rest with
        | nil =>
          obtain rfl : e = '{' := by simpa using hhead
          cases he
        | cons f rest =>
          obtain rfl : f = '{' := by simpa using hhead
          exact h4 rest rfl rfl
    rw [List.cons_append, hstep c w hc, List.length_cons] at h
    rw [List.cons_append, List.cons_append, hstep c w hc, hstep c' w' hc', ih (by simpa using h)]

theorem Interchangeable.templatePiece_eq (frames : List Frame)
    (h : (templatePiece frames (t ++ z)).length ≤ t.length + 1) :
    templatePiece frames (t ++ z') = templatePiece frames (t ++ z) := by
  have hle : (templateText (t ++ z)).1 ≤ t.length := by
    simp only [templatePiece] at h
    omega
  rw [templatePiece, templatePiece, hz.templateText_eq hle]

omit hz in
/-- A block comment that ends in a text ends there whatever follows. -/
theorem exists_afterBlockComment (hne : z ≠ [])
    (h : z.length ≤ (afterBlockComment (t ++ z)).length) :
    ∃ u, u.length ≤ t.length ∧ ∀ y, afterBlockComment (t ++ y) = u ++ y := by
  have hshorter {d : Char} {v : Text} : (afterBlockComment (d :: v)).length ≤ v.length := by
    rw [afterBlockComment.eq_def]
    split
    · next heq => cases heq; simp
    · next heq => cases heq; exact length_afterBlockComment_le v
    · next heq => cases heq
  fun_induction afterBlockComment t with
  | case1 rest => exact ⟨rest, by simp; omega, fun _ => rfl⟩
  | case2 d rest hstar ih =>
    cases rest with
    | nil =>
      exfalso
      cases z with
      | nil => exact hne rfl
      | cons e z =>
        have : (afterBlockComment (d :: e :: z)).length ≤ z.length := by
          rw [afterBlockComment.eq_def]
          split
          · next heq => cases heq; exact Nat.le_refl _
          · next heq => cases heq; exact hshorter
          · next heq => cases heq
        rw [List.singleton_append, List.length_cons] at h
        omega
    | cons e rest =>
      have hstep (y : Text) : afterBlockComment (d :: (e :: rest ++ y)) =
          afterBlockComment (e :: rest ++ y) := by
        rw [afterBlockComment.eq_def]
        split
        · next heq => cases heq; exact absurd rfl (hstar rest rfl)
        · next heq => cases heq; rfl
        · next heq => cases heq
      rw [List.cons_append, hstep] at h
      obtain ⟨u, hu, hall⟩ := ih h
      exact ⟨u, hu.trans (by simp), fun y => by rw [List.cons_append, hstep, hall]⟩
  | case3 =>
    cases z with
    | nil => exact absurd rfl hne
    | cons e z =>
      rw [List.nil_append, List.length_cons] at h
      have := @hshorter e z
      omega

/-- A comment that ends in a text ends there whatever follows. -/
theorem Interchangeable.slashPiece_eq (frames : List Frame) (before : Text) (hne : t ≠ [])
    (h : (codePiece frames before '/' (t ++ z)).length ≤ t.length + 1) :
    codePiece frames before '/' (t ++ z') = codePiece frames before '/' (t ++ z) := by
  have hcode (u : Text) : codePiece frames before '/' u =
      ⟨((commentPrefix? ('/' :: u)).map fun after => 1 + u.length - after.length).getD 1,
        frames⟩ := by
    cases h : commentPrefix? ('/' :: u) <;> simp [codePiece, h]
  rw [hcode] at h
  rw [hcode, hcode]
  obtain ⟨c, w, rfl, hc⟩ := hz.head
  cases t with
  | nil => exact absurd rfl hne
  | cons d t =>
    by_cases h1 : d = '/'
    · subst h1
      simp only [List.cons_append, commentPrefix?, Option.map_some, Option.getD_some,
        List.length_cons, List.length_append] at h ⊢
      rw [List.dropWhile_append] at h
      rw [List.dropWhile_append, List.dropWhile_append]
      split at h
      · exfalso
        have hdrop : (c :: w).dropWhile (· != '\n') = w.dropWhile (· != '\n') := by
          refine List.dropWhile_cons_of_pos ?_
          rw [bne_iff_ne]
          rintro rfl
          cases hc
        rw [hdrop] at h
        have := (List.dropWhile_sublist (l := w) (· != '\n')).length_le
        omega
      · next hline =>
        rw [if_neg hline, if_neg hline]
        simp only [List.length_append, List.length_cons]
        congr 1
        omega
    by_cases h2 : d = '*'
    · subst h2
      simp only [List.cons_append, commentPrefix?, Option.map_some, Option.getD_some,
        List.length_cons, List.length_append] at h ⊢
      have hlong : (c :: w).length ≤ (afterBlockComment (t ++ c :: w)).length := by
        rw [List.length_cons]
        omega
      obtain ⟨u, hu, hall⟩ := exists_afterBlockComment (List.cons_ne_nil c w) hlong
      rw [hall, hall]
      simp only [List.length_append, List.length_cons]
      congr 1
      omega
    · have hnone (y : Text) : commentPrefix? ('/' :: (d :: t ++ y)) = none :=
        commentPrefix?_slash h1 h2 _
      rw [hnone, hnone]
      rfl

/-! ### Elements -/

/-- What opens a tag is read alike where the tag is closed in the text. -/
theorem Interchangeable.tagPiece_eq (frames : List Frame)
    (h : (tagPiece frames (t ++ z)).length ≤ t.length + 1)
    (hlast : t = [] → inCode (tagPiece frames (t ++ z)).frames = true) :
    tagPiece frames (t ++ z') = tagPiece frames (t ++ z) := by
  cases t with
  | nil =>
    rw [List.nil_append, hz.tag] at hlast
    cases hlast rfl
  | cons d t =>
    by_cases h1 : d = '/'
    · subst h1
      have htake (y : Text) : ('/' :: (t ++ y)).takeWhile (· != '>') =
          if (('/' :: t).takeWhile (· != '>')).length = ('/' :: t).length then
            '/' :: t ++ y.takeWhile (· != '>')
          else ('/' :: t).takeWhile (· != '>') := by
        rw [← List.cons_append, List.takeWhile_append]
      obtain ⟨c, w, rfl, hindifferent⟩ := hz.head
      have hle := (List.takeWhile_prefix (l := '/' :: t) (· != '>')).length_le
      simp only [tagPiece, List.cons_append, htake] at h ⊢
      split at h
      · exfalso
        have hc : (c :: w).takeWhile (· != '>') = c :: w.takeWhile (· != '>') := by
          refine List.takeWhile_cons_of_pos ?_
          rw [bne_iff_ne]
          rintro rfl
          cases hindifferent
        rw [hc] at h
        simp only [List.length_append, List.length_cons] at h
        omega
      · next hclosed =>
        rw [if_neg hclosed, if_neg hclosed]
        simp only [List.length_append, List.length_cons] at h hle hclosed ⊢
        congr 1
        omega
    · by_cases h2 : d = '>'
      · subst h2
        rfl
      · simp [tagPiece, h1, h2]

omit hz in
theorem followsParameters_indifferent {c : Char} (hc : isIndifferent c = true) (t w : Text) :
    followsParameters (t ++ c :: w) = followsParameters t := by
  simp only [isIndifferent, Bool.and_eq_true, Bool.not_eq_true'] at hc
  have hne {d : Char} (hd : ",>=:(\x7bextnds".toList.contains d = true) : d ≠ c := by
    rintro rfl
    rw [hc.2] at hd
    cases hd
  have hmem : c ∉ ['=', '>'] := by
    rw [List.mem_cons, List.mem_singleton, not_or]
    exact ⟨(hne rfl).symm, (hne rfl).symm⟩
  rw [followsParameters, skipBlanks_stop hc.1, isPrefixOf_stop hmem, head?_stop (hne rfl),
    followsParameters]

/-- Whether a group holds parameters is told alike. -/
theorem Interchangeable.startsNoParameters_eq (ht : AllowsExchange z z' ('(' :: t)) :
    startsNoParameters ('(' :: t ++ z') = startsNoParameters ('(' :: t ++ z) := by
  obtain ⟨c, w, rfl, hc⟩ := hz.head
  obtain ⟨c', w', rfl, hc'⟩ := hz.head'
  have hgroup (y : Text) : startsNoParameters ('(' :: t ++ y) =
      ((closing (.inside (.group ')')) (t ++ y)).map Prod.snd).elim true (fun behind =>
        !followsParameters behind) := by
    have hprefix : groupPrefix? ('(' :: (t ++ y)) =
        (closing (.inside (.group ')')) (t ++ y)).map fun p => ('(' :: p.1, p.2) := rfl
    rw [startsNoParameters, List.cons_append, hprefix]
    cases h : closing (.inside (.group ')')) (t ++ y) <;> simp
  rw [hgroup, hgroup]
  rcases State.closing_append_cases (List.cons_ne_nil _ _) (ht.groups t List.suffix_rfl) with ⟨read,
    after, hclosed⟩ | ⟨-, halike⟩
  · rw [closing_append_of hclosed, closing_append_of hclosed]
    simp only [Option.map_some, Option.elim_some, followsParameters_indifferent hc,
      followsParameters_indifferent hc']
  · rw [halike]

theorem Interchangeable.mayFollowTagName_eq (ht : AllowsExchange z z' t) :
    mayFollowTagName (t ++ z') = mayFollowTagName (t ++ z) := by
  have hindifferent {c : Char} {w : Text} (hc : isIndifferent c = true) :
      mayFollowTagName (c :: w) = true ∧ mayFollowTagName ('>' :: c :: w) = true := by
    refine ⟨?_, ?_⟩
    · rw [mayFollowTagName.eq_def]
      split
      · next heq => cases heq; cases hc
      · rfl
    · simp only [mayFollowTagName]
      split
      · next heq => cases heq; cases hc
      · rfl
  obtain ⟨c, w, he, hc⟩ := hz.head
  obtain ⟨c', w', he', hc'⟩ := hz.head'
  cases t with
  | nil => rw [List.nil_append, List.nil_append, he, he', (hindifferent hc).1, (hindifferent hc').1]
  | cons d t =>
    by_cases hd : d = '>'
    · subst hd
      cases t with
      | nil => rw [List.singleton_append, List.singleton_append, he, he', (hindifferent hc).2,
        (hindifferent hc').2]
      | cons e t =>
        by_cases hp : e = '('
        · subst hp
          exact hz.startsNoParameters_eq (ht.of_suffix (List.suffix_cons _ _))
        · simp [mayFollowTagName, hp]
    · simp [mayFollowTagName, hd]

/-- What stands behind a text does not tell whether an element starts in it. -/
theorem Interchangeable.looksLikeTag_eq (hne : t ≠ []) (ht : AllowsExchange z z' t) :
    looksLikeTag (t ++ z') = looksLikeTag (t ++ z) := by
  cases t with
  | nil => exact absurd rfl hne
  | cons d t =>
    by_cases hd : d = '>'
    · subst hd
      rfl
    have hdrop (y : Text) :
        (d :: t ++ y).dropWhile isNameChar = (d :: t).dropWhile isNameChar ++ y := by
      rw [List.dropWhile_append, if_neg]
      rw [List.isEmpty_iff, List.dropWhile_eq_nil_iff]
      intro hall
      have hlast := List.getLast?_eq_some_getLast (List.cons_ne_nil d t)
      have := (ht.last _ hlast).2
      rw [hall _ (List.getLast_mem _)] at this
      cases this
    have hsame (y : Text) (hy : ∃ c w, y = c :: w ∧ isIndifferent c = true) (k : Text) :
        skipBlanks (k ++ y) = skipBlanks k ++ y ∧ ((skipBlanks k ++ y).head? == some ',') =
          ((skipBlanks k).head? == some ',') ∧
          "extends ".toList.isPrefixOf (skipBlanks k ++ y) =
            "extends ".toList.isPrefixOf (skipBlanks k) := by
      obtain ⟨c, w, rfl, hc⟩ := hy
      simp only [isIndifferent, Bool.and_eq_true, Bool.not_eq_true'] at hc
      have hcomma : ',' ≠ c := by
        rintro rfl
        exact absurd hc.2 (by decide)
      have hword : c ∉ "extends ".toList := by
        intro hmem
        have hall : ("extends ".toList.all fun d => Text.isAsciiBlank d ||
            ",>=:(\x7bextnds".toList.contains d) = true := by decide
        have := List.all_eq_true.mp hall c hmem
        rw [hc.1, hc.2] at this
        cases this
      exact ⟨skipBlanks_stop hc.1 k w, head?_stop hcomma _ w, isPrefixOf_stop hword _ w⟩
    obtain ⟨hskip, hcomma, hword⟩ := hsame z hz.head ((d :: t).dropWhile isNameChar)
    obtain ⟨hskip', hcomma', hword'⟩ := hsame z' hz.head' ((d :: t).dropWhile isNameChar)
    have hfollow : AllowsExchange z z' (skipBlanks ((d :: t).dropWhile isNameChar)) :=
      ht.of_suffix ((List.dropWhile_suffix _).trans (List.dropWhile_suffix _))
    rw [List.cons_append, List.cons_append, looksLikeTag_cons hd, looksLikeTag_cons hd,
      ← List.cons_append, ← List.cons_append, hdrop, hdrop, hskip, hskip', hcomma, hcomma', hword,
      hword', hz.mayFollowTagName_eq hfollow]

/-! ### Pieces -/

omit hz in
theorem AllowsExchange.takeWhile_append (ht : AllowsExchange z z' t) (hne : t ≠ []) (y : Text) :
    (t ++ y).takeWhile isNameChar = t.takeWhile isNameChar := by
  rw [List.takeWhile_append, if_neg]
  intro hall
  have hself := (List.takeWhile_prefix (l := t) isNameChar).eq_of_length hall
  have := (ht.last _ (List.getLast?_eq_some_getLast hne)).2
  rw [List.takeWhile_eq_self_iff.mp hself _ (List.getLast_mem hne)] at this
  cases this

variable {c : Char} (ht : AllowsExchange z z' (c :: t))

include ht

theorem Interchangeable.opensElement_eq {frames : List Frame} {before : Text} (hc : c = '<')
    (hlast : t = [] → inCode (codePiece frames before c (t ++ z)).frames = true) :
    opensElement before (t ++ z') = opensElement before (t ++ z) := by
  subst hc
  by_cases hne : t = []
  · subst hne
    have hclosed : opensElement before z = false := by
      by_contra hopen
      have hcode : codePiece frames before '<' z = ⟨1, .tag :: frames⟩ := by
        rw [← hz.tag frames]
        simp [codePiece, hopen]
      rw [List.nil_append, hcode] at hlast
      cases hlast rfl
    rw [List.nil_append, List.nil_append, hclosed, opensElement, hz.notTag, Bool.false_and]
  · rw [opensElement, opensElement, hz.looksLikeTag_eq hne (ht.of_suffix (List.suffix_cons _ _))]

/-- A piece of code that ends in a text ends there alike. -/
theorem Interchangeable.codePiece_eq {frames : List Frame} {before : Text}
    (h : (codePiece frames before c (t ++ z)).length ≤ t.length + 1)
    (hlast : t = [] → inCode (codePiece frames before c (t ++ z)).frames = true) :
    codePiece frames before c (t ++ z') = codePiece frames before c (t ++ z) := by
  by_cases hq : c = '\'' ∨ c = '"'
  · have hquote : (c == '\'' || c == '"') = true := by simpa using hq
    simp only [codePiece, hquote, if_true] at h ⊢
    split
    · next hopens =>
      rw [if_pos hopens] at h
      rw [hz.stringLength_eq hq h]
    · rfl
  have hquote : (c == '\'' || c == '"') = false := by simpa using hq
  by_cases hb : c = '`'
  · subst hb
    exact hz.templatePiece_eq frames h
  by_cases hs : c = '/'
  · subst hs
    have hne : t ≠ [] := by
      rintro rfl
      exact (ht.last '/' rfl).1 rfl
    exact hz.slashPiece_eq frames before hne h
  by_cases hl : c = '<'
  · have hsame := hz.opensElement_eq ht hl hlast
    subst hl
    have hcode (u : Text) : codePiece frames before '<' u =
        if opensElement before u then tagPiece frames u else ⟨1, frames⟩ := by
      have hname : isNameChar '<' = false := rfl
      simp [codePiece, hname]
    rw [hcode] at h hlast
    rw [hcode, hcode, hsame]
    split
    · next hopens =>
      rw [if_pos hopens] at h hlast
      exact hz.tagPiece_eq frames h hlast
    · rfl
  have hname := ht.takeWhile_append (List.cons_ne_nil c t)
  simp only [List.cons_append] at hname
  have hopen : (c == '<') = false := beq_eq_false_iff_ne.mpr hl
  simp only [codePiece, hquote, beq_eq_false_iff_ne.mpr hb, beq_eq_false_iff_ne.mpr hs, hopen,
    Bool.false_and, Bool.false_eq_true, if_false, hname] at h ⊢
  split
  · rfl
  split
  · next hbrace hc =>
    simp only [hbrace, hc, if_true, Bool.false_eq_true, if_false] at h
    split
    · exact hz.templatePiece_eq _ h
    · rfl
    · rfl
  · rfl

/-- A piece that ends in a text ends there alike. -/
theorem Interchangeable.piece_eq {frames : List Frame} {before : Text}
    (h : (piece frames before c (t ++ z)).length ≤ t.length + 1)
    (hlast : t = [] → inCode (piece frames before c (t ++ z)).frames = true) :
    piece frames before c (t ++ z') = piece frames before c (t ++ z) := by
  match frames with
  | [] => exact hz.codePiece_eq ht h hlast
  | .block :: frames => exact hz.codePiece_eq ht h hlast
  | .substitution :: frames => exact hz.codePiece_eq ht h hlast
  | .elementCode :: frames => exact hz.codePiece_eq ht h hlast
  | .children :: frames =>
    simp only [piece] at h hlast ⊢
    split
    · rfl
    split
    · next hbrace hopen =>
      simp only [hbrace, Bool.false_eq_true, if_false, hopen, if_true] at h hlast
      exact hz.tagPiece_eq _ h hlast
    · rfl
  | .tag :: frames =>
    obtain ⟨d, w, hzd, hd⟩ := hz.head
    obtain ⟨d', w', hzd', hd'⟩ := hz.head'
    have hhead : ((t ++ z').head? == some '>') = ((t ++ z).head? == some '>') := by
      have hne {e : Char} (he : isIndifferent e = true) : '>' ≠ e := by
        rintro rfl
        cases he
      rw [hzd, hzd', head?_stop (hne hd), head?_stop (hne hd')]
    simp only [piece, hhead] at h ⊢
    split
    · next hq =>
      simp only [hq, if_true] at h
      rw [hz.stringLength_eq (by simpa using hq) h]
    · rfl

omit ht in
/-- **What stands behind a text may be exchanged without a trace in the walk through the text.** -/
theorem Passage.exchange {frames last : List Frame} {before : Text}
    {starts : List (List Frame × Cursor)} (ht : AllowsExchange z z' t) (hcode : inCode last = true)
    (h : Passage z frames before t starts last) :
    Passage z' frames before t starts last := by
  induction h with
  | nil => exact .nil
  | @cons frames next last before a t c starts hpiece hpassage ih =>
    rw [← List.append_assoc] at hpiece
    have hsame : piece frames before c ((a ++ t) ++ z') =
        piece frames before c ((a ++ t) ++ z) := by
      refine hz.piece_eq ht (by rw [hpiece]; simp) ?_
      intro hnil
      obtain ⟨rfl, rfl⟩ := List.append_eq_nil_iff.mp hnil
      cases hpassage
      rw [hpiece]
      exact hcode
    refine .cons ?_ (ih (ht.of_suffix ((List.suffix_append a t).trans (List.suffix_cons c _)))
      hcode)
    rw [← List.append_assoc, hsame, hpiece]

omit hz ht in
/-- Whether a name stands at a place of the text is told alike. -/
theorem AllowsExchange.isOccurrence_eq (ht : AllowsExchange z z' t) {place : Cursor}
    (hsuffix : place.after <:+ t) (hne : place.after ≠ []) (name : Text) (frames : List Frame) :
    isOccurrence name frames (place.followedBy z') =
      isOccurrence name frames (place.followedBy z) := by
  have htake := (ht.of_suffix hsuffix).takeWhile_append hne
  obtain ⟨c, w, hcw⟩ := List.exists_cons_of_ne_nil hne
  simp only [isOccurrence, Cursor.followedBy, htake]
  rw [hcw]
  rfl

end

end Localization.Script
