import Mathlib
import Localization.Config.Basic
import Localization.Proofs.Argument.ReadBack
import Localization.Proofs.Extraction.Collected
import Localization.Proofs.Marker.Place
import Localization.Proofs.Script.Embedded
import Localization.Proofs.Text.Replace

/-! Calls in an expression that a call carries.

An expression is carried by a call if it stands in a template among its parameters:
`carrying e`. If the expression can stand there (`CanBeCarried`), the calls of the carrying call's
text are this call itself and those of the expression, further to the right. -/
namespace Localization.Script

/-! ### Type arguments -/

/-- What stands behind the expression completes no type arguments. -/
theorem typeArgumentsFrom_ending {depth : Nat} {s : State} {t : Text}
    (hs : s = .top ∨ ∃ quote pending, (quote = '\'' ∨ quote = '"') ∧
      s = ⟨[.quoted quote], pending⟩) :
    typeArgumentsFrom depth s (t ++ ending) =
      (typeArgumentsFrom depth s t).map fun (read, after) => (read, after ++ ending) := by
  induction t generalizing depth s with
  | nil =>
    rcases hs with rfl | ⟨quote, pending, rfl | rfl, rfl⟩
    · rfl
    · cases pending <;> rfl
    · cases pending <;> rfl
  | cons c rest ih =>
    have further {depth : Nat} {s : State}
        (hs : s = .top ∨ ∃ quote pending, (quote = '\'' ∨ quote = '"') ∧
          s = ⟨[.quoted quote], pending⟩) :
        ((typeArgumentsFrom depth s (rest ++ ending)).map fun (read, after) => (c :: read, after)) =
          ((typeArgumentsFrom depth s rest).map fun (read, after) => (c :: read, after)).map
            fun (read, after) => (read, after ++ ending) := by
      rw [ih hs, Option.map_map, Option.map_map]
      rfl
    rcases hs with rfl | ⟨quote, pending, hq, rfl⟩
    · have hhead : ((rest ++ ending).head? == some c) = (rest.head? == some c) ∨ c = '}' := by
        by_cases hc : c = '}'
        · exact .inr hc
        · exact .inl (head?_stop hc rest _)
      have hdouble : ((c == '&' || c == '|') && (rest ++ ending).head? == some c) =
          ((c == '&' || c == '|') && rest.head? == some c) := by
        rcases hhead with h | rfl
        · rw [h]
        · rfl
      simp only [List.cons_append, typeArgumentsFrom, State.top, List.isEmpty_nil, if_true, hdouble]
      repeat' split
      all_goals first
        | exact further (.inl rfl)
        | exact further (.inr ⟨c, .none, by simpa using ‹(c == '\'' || c == '"') = true›, rfl⟩)
        | rfl
    · simp only [List.cons_append, typeArgumentsFrom, List.isEmpty_cons,
        Bool.false_eq_true, if_false]
      rcases step_quoted quote pending c with hstep | hstep | ⟨p, hstep⟩
      · rw [hstep]
        rfl
      · rw [hstep]
        exact further (.inl rfl)
      · rw [hstep]
        exact further (.inr ⟨quote, p, hq, rfl⟩)

end Localization.Script

namespace Localization.Marker

open Script

/-! ### One call -/

theorem afterCallee?_ending (t : Text) :
    afterCallee? (t ++ ending) = (afterCallee? t).map (· ++ ending) := by
  have hhead : ((t ++ ending).head? == some '<') = (t.head? == some '<') :=
    head?_stop (by decide) t _
  have hskip : skipBlanks (t ++ ending) = skipBlanks t ++ ending := skipBlanks_stop (by decide) t _
  have htypes : typeArguments? (t ++ ending) = (typeArguments? t).map fun (read, after) =>
      (read, after ++ ending) :=
    typeArgumentsFrom_ending (.inl rfl)
  rw [afterCallee?, afterCallee?, hhead, htypes, hskip, apply_ite (Option.map _), Option.map_map,
    Option.map_map]
  rfl

/-- Whether the list of arguments at a place, if there is one, ends in the text. -/
def ClosesCallAt (name : Text) (place : Cursor) : Prop :=
  ∀ opening, afterCallee? (place.after.drop name.length) = some opening → opening.head? = some '(' →
    (groupPrefix? opening).isSome = true

theorem closesCallAt_of_isSome {name : Text} {place : Cursor}
    (h : (callAt? name place).isSome = true) :
    ClosesCallAt name place := by
  intro opening hopening _
  obtain ⟨⟨raw, arguments⟩, hcall⟩ := Option.isSome_iff_exists.mp h
  obtain ⟨opening', group, rest, hopening', -, hgroup, -⟩ := callAt?_eq_some_iff.mp hcall
  rw [hopening] at hopening'
  cases hopening'
  rw [hgroup]
  rfl

/-- A call whose arguments end in the expression is read alike with more text behind it. -/
theorem callAt?_embed {name : Text} {place : Cursor} (hname : name <+: place.after)
    (h : ClosesCallAt name place) (base : Text) :
    callAt? name (place.embed base) = callAt? name place := by
  have hdrop : (place.after ++ ending).drop name.length = place.after.drop name.length ++ ending :=
    List.drop_append_of_le_length hname.length_le
  unfold callAt? Cursor.embed
  simp only [hdrop, afterCallee?_ending]
  cases hopening : afterCallee? (place.after.drop name.length) with
  | none => rfl
  | some opening =>
    have hhead : ((opening ++ ending).head? == some '(') = (opening.head? == some '(') :=
      head?_stop (by decide) opening _
    simp only [Option.map_some, Option.bind_eq_bind, Option.bind_some, hhead]
    split
    · next hparen =>
      obtain ⟨⟨group, rest⟩, hgroup⟩ :=
        Option.isSome_iff_exists.mp (h opening hopening (by simpa using hparen))
      have hmore : groupPrefix? (opening ++ ending) = some (group, rest ++ ending) :=
        groupPrefix?_append_of hgroup ending
      have hle : place.after.length - rest.length ≤ place.after.length := Nat.sub_le _ _
      have htake :
          (place.after ++ ending).take ((place.after ++ ending).length - (rest ++ ending).length) =
          place.after.take (place.after.length - rest.length) := by
        rw [List.length_append, List.length_append, Nat.add_sub_add_right,
          List.take_append_of_le_length hle]
      rw [hgroup, hmore]
      simp only [Option.bind_some, htake]
    · rfl

/-! ### The carrying call -/

/-- What stands in front of the expression. -/
def opening : Text := "$translate('k', \x7bp: `$\x7b"

/-- The call that carries an expression in its parameter. -/
def carrying (e : Text) : Text := opening ++ (e ++ ending)

/-- The value of the parameter. -/
def substitution (e : Text) : Text := '$' :: '{' :: (e ++ ['}'])

/-- The literal of the parameter. -/
def literal (e : Text) : Text := '`' :: (substitution e ++ ['`'])

/-- The object of parameters. -/
def parameters (e : Text) : Text :=
  '{' :: Text.join ", " [keyScript ['p'] ++ ':' :: ' ' :: literal e] ++ ['}']

/-- The text between the parentheses. -/
def argumentsText (e : Text) : Text := Text.join ", " ["'k'", parameters e]

theorem carrying_eq (e : Text) :
    carrying e = "$translate".toList ++ '(' :: (argumentsText e ++ [')']) := by
  rw [argumentsText, Text.join_cons (List.cons_ne_nil _ _), Text.join_singleton, parameters,
    Text.join_singleton, literal, substitution, carrying, ending]
  show opening ++ _ = opening ++ ((((e ++ ['}']) ++ ['`']) ++ ['}']) ++ [')'])
  simp only [List.append_assoc, List.singleton_append]
  rfl

section

variable {e : Text} (h : (State.inside (.group '}')).IsClosedBy (e ++ ['}']))

include h

/-- The template around a balanced substitution is one literal. -/
theorem isClosedBy_substitution :
    (State.inside .template).IsClosedBy (substitution e ++ ['`']) := by
  have hgroup := h.closing_below (by simp [State.inside]) (List.cons_ne_nil .template []) ['`']
  have hlast : closing ⟨[.template], .none⟩ ['`'] = some (['`'], []) := rfl
  rw [hlast] at hgroup
  have hdollar : (State.inside .template).step '$' = some ⟨[.template], .dollar⟩ := rfl
  have hbrace : (⟨[.template], .dollar⟩ : State).step '{' =
      some ((State.inside (.group '}')).below [.template]) := rfl
  rw [State.IsClosedBy, substitution, List.cons_append, closing_cons hdollar (by simp),
    List.cons_append, closing_cons hbrace (by simp [State.below, State.inside]), hgroup]
  rfl

theorem balanced_template : Balanced [',', ':'] (literal e) :=
  balanced_literal rfl (by decide) (isClosedBy_substitution h)

theorem readArgument_literal (hescape : '\\' ∉ e) :
    readArgument (literal e) = some (.string (substitution e)) := by
  have hdecode : decode (substitution e) = substitution e := by
    refine decode_of_not_mem ?_
    simp only [substitution, List.mem_cons, List.mem_append, List.not_mem_nil, or_false, not_or]
    exact ⟨by decide, by decide, hescape, by decide⟩
  rw [literal, readArgument_of_isClosedBy rfl (isClosedBy_substitution h), hdecode]

theorem balanced_properties :
    ∀ part ∈ [keyScript ['p'] ++ ':' :: ' ' :: literal e], Balanced [','] part := by
  intro part hp
  rw [List.mem_singleton.mp hp]
  exact balanced_property _ (balanced_template h)

theorem readArgument_parameters (hescape : '\\' ∉ e) :
    readArgument (parameters e) = some (.object [(['p'], .string (substitution e))]) := by
  have htrim : Text.IsTrimmed (literal e) := Text.isTrimmed_between (by decide) (by decide) _
  refine readArgument_object (balanced_join (balanced_properties h)) ?_
  refine readProperties_join (balanced_properties h) fun bound hb => ?_
  exact readMembers_cons hb (isTrimmed_property _ htrim).trim htrim (balanced_template h)
    (readArgument_literal h hescape) fun hrest => by simp [readMembers]

theorem balanced_parts : ∀ part ∈ ["'k'".toList, parameters e], Balanced [','] part := by
  intro part hp
  simp only [List.mem_cons, List.not_mem_nil, or_false] at hp
  rcases hp with rfl | rfl
  · have hquote : (State.inside (.quoted '\'')).IsClosedBy ['k', '\''] := rfl
    exact (balanced_literal rfl (by decide) hquote).mono (by simp)
  · exact (balanced_group rfl (by decide) (balanced_properties h)).mono (by simp)

/-- The arguments of the carrying call. -/
theorem readArguments_argumentsText (hescape : '\\' ∉ e) :
    readArguments (argumentsText e) = some
      [.string ['k'], .object [(['p'], .string (substitution e))]] := by
  refine readArguments_join (balanced_parts h) fun bound hb => ?_
  have hkey : readArgument "'k'".toList = some (.string ['k']) := by
    rw [readArgument.eq_def]
    show some (Argument.string (decode ['k'])) = _
    rw [decode_of_not_mem (by decide)]
  have htrim : Text.trim (' ' :: parameters e) = parameters e :=
    (Text.isTrimmed_between (by decide) (by decide) _).trim_cons_blank
  refine readParts_cons hb (by decide) hkey fun hrest => readParts_cons hrest ?_ ?_ fun hrest' => by
    simp [readParts]
  · rw [htrim]
    exact List.cons_ne_nil _ _
  · rw [htrim]
    exact readArgument_parameters h hescape

/-- The carrying call is read from its first character to its last. -/
theorem callAt?_carrying (hescape : '\\' ∉ e) :
    callAt? "$translate" ⟨[], carrying e⟩ =
      some (carrying e, [.string ['k'], .object [(['p'], .string (substitution e))]]) := by
  have hgroup : groupPrefix? ('(' :: (argumentsText e ++ [')'])) =
      some ('(' :: (argumentsText e ++ [')']), []) :=
    (balanced_join (balanced_parts h)).groupPrefix? rfl []
  refine callAt?_eq_some_iff.mpr ⟨'(' :: (argumentsText e ++ [')']),
    '(' :: (argumentsText e ++ [')']), [], ?_, rfl, ?_,
    ?_, ?_⟩
  · rw [carrying_eq]
    rfl
  · exact hgroup
  · simpa using readArguments_argumentsText h hescape
  · simp

end

/-! ### All calls -/

/-- The names of a family where nothing is renamed and no hook is declared. -/
def ownNames : Family → List Text
  | .useTranslate => []
  | f => [Markers.standard.name f]

/-- Whether every family goes by its own name in a text. -/
def HasOwnNames (code : Text) : Prop := ∀ f, aliases f (Markers.standard.name f) code = ownNames f

/-- Whether an expression can be carried: it is balanced for both readers, and it spells nothing
that would change what a literal or a name means. -/
structure CanBeCarried (e : Text) : Prop where
  noBackslash : '\\' ∉ e
  noLineEnd : '\n' ∉ e
  /-- No family is renamed by the expression, or by the call around it. -/
  names : HasOwnNames e
  names_carrying : HasOwnNames (carrying e)
  /-- The brackets and literals of the expression are closed. -/
  closes : (State.inside (.group '}')).IsClosedBy (e ++ ['}'])
  /-- It has no `}` that would end the substitution. -/
  staysInside : staysInside e = true
  /-- The arguments of a marker end in the expression. -/
  closesCalls : ∀ f, ∀ name ∈ ownNames f, ∀ place ∈ occurrences name e, ClosesCallAt name place

/-- A call further to the right. -/
def Call.shift (n : Nat) (call : Call) : Call := { call with start := call.start + n }

/-- The call that carries an expression. -/
def carryingCall (e : Text) : Call :=
  ⟨.translate, 0, carrying e, [.string ['k'], .object [(['p'], .string (substitution e))]]⟩

theorem inOrder_shift (n : Nat) (calls : List Call) :
    inOrder (calls.map (·.shift n)) = (inOrder calls).map (·.shift n) := by
  refine (List.map_mergeSort fun a _ b _ => ?_).symm
  simp [Call.shift]

/-- A call that starts first comes first. -/
theorem inOrder_cons {call : Call} {calls : List Call} (h : ∀ c ∈ calls, call.start ≤ c.start) :
    inOrder (call :: calls) = call :: inOrder calls := by
  have trans (a b c : Call) : decide (a.start ≤ b.start) = true →
      decide (b.start ≤ c.start) = true →
      decide (a.start ≤ c.start) = true := by
    simp only [decide_eq_true_eq]
    omega
  have total (a b : Call) : (decide (a.start ≤ b.start) || decide (b.start ≤ a.start)) = true := by
    simp only [Bool.or_eq_true, decide_eq_true_eq]
    omega
  obtain ⟨first, rest, hall, hcalls, hfirst⟩ := List.mergeSort_cons trans total call calls
  have hnil : first = [] := by
    rw [List.eq_nil_iff_forall_not_mem]
    intro c hc
    have hmem : c ∈ calls := by
      have : c ∈ calls.mergeSort fun a b => decide (a.start ≤ b.start) :=
        hcalls ▸ List.mem_append_left _ hc
      exact List.mem_mergeSort.mp this
    have := hfirst c hc
    simp [h c hmem] at this
  subst hnil
  rw [inOrder, inOrder, hall, hcalls]
  rfl

/-- A text without a name has no calls of it. -/
theorem scanName_of_not_occursIn {f : Family} {name code : Text}
    (h : Text.occursIn name code = false) :
    scanName f name code = [] := by
  have hnone : occurrences name code = [] := by
    rw [List.eq_nil_iff_forall_not_mem]
    intro place hplace
    obtain ⟨hcode, own, hown⟩ := isPlace_of_mem_occurrencesFrom hplace
    have hprefix : name <+: place.after :=
      (takeWhile_of_isOccurrence hown).1 ▸ List.takeWhile_prefix _
    have hinside : name <:+: code :=
      hprefix.isInfix.trans ⟨place.before.reverse, [], by simpa using hcode⟩
    rw [Text.occursIn_iff.mpr hinside] at h
    cases h
  rw [scanName, hnone]
  rfl

theorem scan_eq {code : Text} (h : HasOwnNames code) (f : Family) :
    scan f (Markers.standard.name f) code =
      inOrder ((ownNames f).flatMap fun name => scanName f name code) := by
  rw [scan, h f]
  split
  · rfl
  · next hnot =>
    have hnone : ∀ name ∈ ownNames f, scanName f name code = [] := by
      intro name hname
      cases f with
      | useTranslate => cases hname
      | translate | inlineTranslate | plural =>
        rw [List.mem_singleton.mp hname]
        exact scanName_of_not_occursIn (by simpa using hnot)
    rw [List.flatMap_eq_nil_iff.mpr hnone, inOrder, List.mergeSort_nil]

section

variable {e : Text} (h : CanBeCarried e)

include h

/-- The places of a name in the expression are those of the carrying text, but for its own. -/
theorem occurrences_carrying {f : Family} {name : Text} (hname : name ∈ ownNames f) :
    occurrences name (carrying e) = (if f = .translate then [Cursor.start (carrying e)] else []) ++
      (occurrences name e).map (·.embed opening.reverse) := by
  have hinner :=
    @occurrencesFrom_substitution [.substitution, .block] rfl name opening.reverse.tail e
      h.noBackslash
    h.noLineEnd h.staysInside
  have hbase : '{' :: opening.reverse.tail = opening.reverse := rfl
  rw [hbase] at hinner
  rw [← hinner]
  cases f with
  | useTranslate => cases hname
  | translate | inlineTranslate | plural =>
    rw [List.mem_singleton.mp hname]
    rfl

theorem scanName_carrying {f : Family} {name : Text} (hname : name ∈ ownNames f) :
    scanName f name (carrying e) = (if f = .translate then [carryingCall e] else []) ++
      (scanName f name e).map (·.shift opening.length) := by
  have hinner : ((occurrences name e).map (·.embed opening.reverse)).filterMap (fun place =>
        (callAt? name place).map fun r => (⟨f, place.position, r.1, r.2⟩ : Call)) =
      (scanName f name e).map (·.shift opening.length) := by
    rw [List.filterMap_map, scanName, List.map_filterMap]
    refine List.filterMap_congr fun place hplace => ?_
    obtain ⟨-, own, hown⟩ := isPlace_of_mem_occurrencesFrom hplace
    have hprefix : name <+: place.after :=
      (takeWhile_of_isOccurrence hown).1 ▸ List.takeWhile_prefix _
    rw [Function.comp, callAt?_embed hprefix (h.closesCalls f name hname place hplace),
      Option.map_map]
    congr 1
    funext r
    simp [Call.shift, Cursor.embed, Cursor.position]
  rw [scanName, occurrences_carrying h hname, List.filterMap_append, hinner]
  congr 1
  split
  · next hf =>
    subst hf
    have hcall : callAt? name (Cursor.start (carrying e)) =
        some (carrying e, [.string ['k'], .object [(['p'], .string (substitution e))]]) := by
      rw [List.mem_singleton.mp hname]
      exact callAt?_carrying h.closes h.noBackslash
    rw [List.filterMap_cons, hcall]
    rfl
  · rfl

/-- The calls of a family are the carrying one and those of the expression. -/
theorem scan_carrying (f : Family) :
    scan f (Markers.standard.name f) (carrying e) =
      (if f = .translate then [carryingCall e] else []) ++
      (scan f (Markers.standard.name f) e).map (·.shift opening.length) := by
  rw [scan_eq h.names_carrying, scan_eq h.names]
  cases f with
  | useTranslate => simp [ownNames, inOrder]
  | translate =>
    have hscan := scanName_carrying (f := .translate) h List.mem_cons_self
    simp only [ownNames, List.flatMap_cons, List.flatMap_nil, List.append_nil] at hscan ⊢
    rw [hscan]
    simp only [if_true, List.singleton_append]
    rw [inOrder_cons fun _ _ => Nat.zero_le _, inOrder_shift]
  | inlineTranslate | plural =>
    simp only [ownNames, List.flatMap_cons, List.flatMap_nil, List.append_nil]
    rw [scanName_carrying h List.mem_cons_self, ← inOrder_shift]
    rfl

end

end Localization.Marker
