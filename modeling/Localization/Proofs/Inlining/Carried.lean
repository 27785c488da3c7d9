import Mathlib
import Localization.Proofs.Argument.Spelled
import Localization.Proofs.Inlining.Replaced
import Localization.Proofs.Marker.Carried

/-! Inlining an expression that a call carries.

A call that carries an expression in a template has the calls of the expression nested in it, and
its value carries the expression again. There the outermost calls of the expression are looked for
by their texts, so the expression is inlined as if it stood alone exactly if none of these texts
stands elsewhere in it, as in a string or behind a longer name: `inlineText_carrying`. -/
namespace Localization.Inlining

open Marker (Call CanBeCarried carrying carryingCall substitution literal opening)
open Text (replaceAll)

/-! ### Further to the right -/

namespace Site

mutual

/-- A site further to the right, with all that is nested in it. -/
def shift (n : Nat) : Site → Site
  | mk call request nested => mk (call.shift n) request (shiftAll n nested)

def shiftAll (n : Nat) : List Site → List Site
  | [] => []
  | site :: rest => site.shift n :: shiftAll n rest

end

variable {n : Nat}

mutual

theorem insertBehind_shift (last site : Site) :
    insertBehind (last.shift n) (site.shift n) = shiftAll n (insertBehind last site) := by
  cases last with
  | mk call request nested =>
    have hstart : (site.shift n).call.start < (call.shift n).stop ↔
        site.call.start < call.stop := by
      cases site
      simp only [shift, Site.call, Call.shift, Call.stop]
      omega
    simp only [shift, insertBehind, hstart]
    split
    · rw [insert_shift nested site]
      rfl
    · rfl

theorem insert_shift (sites : List Site) (site : Site) :
    insert (shiftAll n sites) (site.shift n) = shiftAll n (insert sites site) := by
  match sites with
  | [] => rfl
  | [last] => exact insertBehind_shift last site
  | first :: next :: rest =>
    rw [insert, shiftAll, shiftAll, insert, shiftAll, ← insert_shift (next :: rest) site]
    rfl

end

end Site

/-- The forest of calls further to the right. -/
theorem sitesOf_shift (n : Nat) (calls : List Call) :
    (sitesOf (calls.map (·.shift n))).1 = Site.shiftAll n (sitesOf calls).1 := by
  induction calls using List.reverseRecOn with
  | nil => rfl
  | append_singleton calls call ih =>
    have hclass : classify (call.shift n) = classify call := rfl
    rw [List.map_append, List.map_singleton, sitesOf_concat, sitesOf_concat, hclass]
    split
    · rw [ih, ← Site.insert_shift]
      rfl
    · exact ih

section

variable (x : Context) (lang : Text) (n : Nat)

mutual

/-- Where a site stands has no part in its value. -/
theorem resolve_shift (site : Site) : resolve x lang (site.shift n) = resolve x lang site := by
  cases site with
  | mk call request nested =>
    have hown : x.render lang (call.shift n) request = x.render lang call request := rfl
    simp only [Site.shift, resolve]
    rw [hown, resolveCarried_shift nested]

theorem resolveCarried_shift (sites : List Site) (carrier : Text) :
    resolveCarried x lang carrier (Site.shiftAll n sites) =
      resolveCarried x lang carrier sites := by
  cases sites with
  | nil => rfl
  | cons site rest =>
    have hraw : (site.shift n).call.raw = site.call.raw := by cases site; rfl
    simp only [Site.shiftAll, resolveCarried]
    rw [hraw, resolve_shift site, resolveCarried_shift rest carrier]

end

end

/-! ### One call around all others -/

/-- Calls that start inside of the first one are nested in it. -/
theorem sitesOf_cons_of_inside {outer : Call} {request : Request}
    (hc : classify outer = .ok request) {calls : List Call}
    (h : ∀ c ∈ calls, c.start < outer.stop) :
    (sitesOf (outer :: calls)).1 = [.mk outer request (sitesOf calls).1] := by
  induction calls using List.reverseRecOn with
  | nil =>
    have := sitesOf_concat [] outer
    rw [hc] at this
    exact this
  | append_singleton calls call ih =>
    have hcall := h call (List.mem_append_right _ List.mem_cons_self)
    rw [← List.cons_append, sitesOf_concat, sitesOf_concat, ih fun c hc =>
      h c (List.mem_append_left _ hc)]
    split
    · rw [Site.insert, Site.insertBehind,
        if_pos (show (Site.mk call _ []).call.start < outer.stop from hcall)]
    · rfl

/-! ### The carrying call -/

theorem hasSubstitution_substitution {e : Text} (h : '\n' ∉ e) :
    Script.hasSubstitution (substitution e) = true := by
  have hclosed : Script.closesOnLine (e ++ ['\x7d']) = true :=
    Script.closesOnLine_of_mem (by simp) (by simpa using h)
  exact Script.hasSubstitution_append hclosed []

/-- The text of the parameter alone makes the carried expression a literal. -/
theorem render_carryingCall {x : Context} {lang e : Text}
    (hk : x.valueOf? lang ['k'] = some (.string "\x7b\x7bp\x7d\x7d")) (h : '\n' ∉ e) :
    (x.render lang (carryingCall e) (.key ['k'])).1 = literal e := by
  have hrender : x.render lang (carryingCall e) (.key ['k']) =
      x.lookup lang ['k'] [(['p'], .string (substitution e))] := rfl
  have hinsertion : insertion (.string (substitution e)) = substitution e := by
    rw [insertion, if_pos]
    exact hasSubstitution_substitution h
  have hbody : templateBody [(['p'], .string (substitution e))] "\x7b\x7bp\x7d\x7d" =
      substitution e := by
    have hencode : Script.encode "\x7b\x7bp\x7d\x7d" = "\x7b\x7bp\x7d\x7d".toList ++ [] := rfl
    have hparameter :
        parameter? [(['p'], .string (substitution e))] ("\x7b\x7bp\x7d\x7d".toList ++ []) =
        some (substitution e, 5) := by
      show some (insertion (.string (substitution e)), 5) = _
      rw [hinsertion]
    rw [templateBody, hencode, Text.replaceAll_match (by decide) hparameter]
    exact List.append_nil _
  rw [hrender, lookup_eq_getD, hk]
  show '`' :: templateBody [(['p'], .string (substitution e))] "\x7b\x7bp\x7d\x7d" ++ ['`'] = _
  rw [hbody]
  rfl

section

variable {e : Text} (h : CanBeCarried e)

include h

/-- The calls of a carrying call are itself and those of the expression. -/
theorem calls_carrying {config : Config} (hm : config.markers = Markers.standard) :
    calls config (carrying e) = carryingCall e ::
      (calls config e).map (·.shift opening.length) := by
  have hscan (f : Marker.Family) := Marker.scan_carrying h f
  rw [calls, calls, hm, ← Marker.inOrder_shift, ← Marker.inOrder_cons fun _ _ => Nat.zero_le _]
  simp only [Marker.Family.all, List.flatMap_cons, List.flatMap_nil, List.append_nil,
    List.map_append, hscan]
  rfl

theorem sites_carrying {config : Config} (hm : config.markers = Markers.standard) :
    (Plan.of config (carrying e)).sites =
      [.mk (carryingCall e) (.key ['k']) (Site.shiftAll opening.length
        (Plan.of config e).sites)] := by
  have hinside : ∀ c ∈ (calls config e).map (·.shift opening.length),
      c.start < (carryingCall e).stop := by
    intro c hc
    obtain ⟨call, hcall, rfl⟩ := List.mem_map.mp hc
    obtain ⟨f, hf⟩ := mem_calls.mp hcall
    have hat := Marker.isAt_of_mem_scan hf
    have hstop := stop_le_of_isAt hat
    have hpos := List.length_pos_of_ne_nil hat.ne_nil
    have hlength :
        (carryingCall e).stop = 0 + (opening.length + (e.length + Script.ending.length)) := by
      rw [Call.stop]
      show 0 + (carrying e).length = _
      rw [carrying, List.length_append, List.length_append]
    rw [Call.stop] at hstop
    rw [hlength]
    show call.start + opening.length < _
    omega
  show (sitesOf (calls config (carrying e))).1 = _
  rw [calls_carrying h hm, sitesOf_cons_of_inside rfl hinside, sitesOf_shift]
  rfl

/-- The carrying call becomes the literal of the expression, with the texts of its calls
replaced. -/
theorem inlineText_carrying_eq {x : Context} {lang : Text}
    (hm : x.config.markers = Markers.standard)
    (hk : x.valueOf? lang ['k'] = some (.string "\x7b\x7bp\x7d\x7d")) :
    (inlineText x lang (carrying e)).1 =
      replaceAll (replacement? (callTexts (replacements x lang e))) 0 (literal e) := by
  have hcarried : ∀ site ∈ (Plan.of x.config e).sites, site.call.raw <:+: literal e := by
    intro site hs
    obtain ⟨before, after, he, -⟩ := (isAt_of_mem_sites hs).split
    have hinside : site.call.raw <:+: e := ⟨before, after, by rw [he, List.append_assoc]⟩
    exact hinside.trans ⟨['`', '$', '\x7b'], ['\x7d', '`'], by simp [literal, substitution]⟩
  have hpairs : (resolveCarried x lang (literal e) (Plan.of x.config e).sites).1 =
      callTexts (replacements x lang e) := by
    have hall :
        (Plan.of x.config e).sites.filter (fun site => Text.occursIn site.call.raw (literal e)) =
        (Plan.of x.config e).sites :=
      List.filter_eq_self.mpr fun site hs => Text.occursIn_iff.mpr (hcarried site hs)
    rw [resolveCarried_eq, hall, callTexts, replacements, List.map_map]
    rfl
  have hvalue : (resolve x lang
      (.mk (carryingCall e) (.key ['k']) (Site.shiftAll opening.length
        (Plan.of x.config e).sites))).1 =
        replaceAll (replacement? (callTexts (replacements x lang e))) 0 (literal e) := by
    rw [resolve_mk, render_carryingCall hk h.noLineEnd, resolveCarried_shift, hpairs]
  rw [inlineText_eq_splice, replacements, sites_carrying h hm, List.map_singleton, hvalue]
  show (carrying e).take 0 ++ _ ++ (carrying e).drop ((carryingCall e).stop - 0) = _
  have hstop : (carryingCall e).stop - 0 = (carrying e).length := Nat.zero_add _
  rw [hstop, List.drop_length, List.append_nil]
  rfl

/-- The calls of a carried expression go by their own names. -/
theorem exists_eq_dollar {x : Context} {lang : Text} (hm : x.config.markers = Markers.standard)
    {r : Call × Text} (hr : r ∈ replacements x lang e) :
    ∃ c rest, r.1.raw = '$' :: c :: rest ∧ c ≠ '\x7b' ∧ r.1.raw.getLast? = some ')' := by
  obtain ⟨site, hs, he⟩ := exists_site_of_mem_replacements hr
  obtain ⟨-, f, hf⟩ := scanned_of_mem_sites hs
  obtain ⟨name, hname, hcall⟩ := Marker.isCallText_of_mem_scan hf
  have hlast := hcall.getLast?_eq
  rw [hm, h.names f] at hname
  obtain ⟨gap, group, hraw, -⟩ := hcall
  rw [he]
  cases f with
  | useTranslate => cases hname
  | translate | inlineTranslate | plural =>
    rw [List.mem_singleton.mp hname] at hraw
    exact ⟨_, _, hraw, by decide, hlast⟩

/-- Nothing but the expression is changed in its literal. -/
theorem replaceAll_literal {x : Context} {lang : Text} (hm : x.config.markers = Markers.standard) :
    replaceAll (replacement? (callTexts (replacements x lang e))) 0 (literal e) =
      literal (replaceAll (replacement? (callTexts (replacements x lang e))) 0 e) := by
  have hnone {c : Char} (hc : c ≠ '$') (rest : Text) :
      replacement? (callTexts (replacements x lang e)) (c :: rest) = none := by
    refine replacement?_eq_none_iff.mpr fun p hp hprefix => ?_
    obtain ⟨r, hr, rfl⟩ := List.mem_map.mp hp
    obtain ⟨d, raw, hraw, -⟩ := exists_eq_dollar h hm hr
    have hprefix : r.1.raw <+: c :: rest := hprefix
    rw [hraw, List.cons_prefix_cons] at hprefix
    exact hc hprefix.1.symm
  have hdollar (rest : Text) :
      replacement? (callTexts (replacements x lang e)) ('$' :: '\x7b' :: rest) = none := by
    refine replacement?_eq_none_iff.mpr fun p hp hprefix => ?_
    obtain ⟨r, hr, rfl⟩ := List.mem_map.mp hp
    obtain ⟨d, raw, hraw, hd, -⟩ := exists_eq_dollar h hm hr
    have hprefix : r.1.raw <+: '$' :: '\x7b' :: rest := hprefix
    rw [hraw, List.cons_prefix_cons, List.cons_prefix_cons] at hprefix
    exact hd hprefix.2.1
  -- A call ends with a parenthesis, so what stands behind the expression ends none.
  have hinner :
      replaceAll (replacement? (callTexts (replacements x lang e))) 0 (e ++ ['\x7d', '`']) =
      replaceAll (replacement? (callTexts (replacements x lang e))) 0 e ++ ['\x7d', '`'] := by
    have hbehind : replaceAll (replacement? (callTexts (replacements x lang e))) 0 ['\x7d', '`'] =
        ['\x7d', '`'] := by
      rw [Text.replaceAll_cons_of_none (hnone (by decide) _),
        Text.replaceAll_cons_of_none (hnone (by decide) _)]
      rfl
    rw [Text.replaceAll_append 0 (Nat.zero_le _), hbehind]
    intro s _ _
    constructor
    · refine replacement?_congr fun p hp => ?_
      obtain ⟨r, hr, rfl⟩ := List.mem_map.mp hp
      obtain ⟨-, -, -, -, hlast⟩ := exists_eq_dollar h hm hr
      exact Text.prefix_append_iff_of_getLast? hlast (by decide)
    · intro p hp
      obtain ⟨q, -, hprefix, rfl⟩ := exists_of_replacement? hp
      exact hprefix.length_le
  have happend : substitution e ++ ['`'] = '$' :: '\x7b' :: (e ++ ['\x7d', '`']) := by
    simp [substitution]
  have hliteral (t : Text) : literal t = '`' :: '$' :: '\x7b' :: (t ++ ['\x7d', '`']) := by
    simp [literal, substitution]
  rw [hliteral, hliteral, Text.replaceAll_cons_of_none (hnone (by decide) _),
    Text.replaceAll_cons_of_none (hdollar _),
    Text.replaceAll_cons_of_none (hnone (by decide) _), hinner]

end

/-- **An expression that a call carries is inlined by the texts of its outermost calls.** That
is the inlined expression exactly if none of these texts stands anywhere else in it. -/
theorem inlineText_carrying (x : Context) (lang e : Text) (hm : x.config.markers = Markers.standard)
    (hk : x.valueOf? lang ['k'] = some (.string "\x7b\x7bp\x7d\x7d")) (h : CanBeCarried e) :
    (inlineText x lang (carrying e)).1 =
        literal (replaceAll (replacement? (callTexts (replacements x lang e))) 0 e) ∧
      (HaveOneValue (replacements x lang e) →
        ((inlineText x lang (carrying e)).1 = literal (inlineText x lang e).1 ↔
          ∀ place < e.length, IsOutside (replacements x lang e) place →
            ∀ r ∈ replacements x lang e, ¬ r.1.raw <+: e.drop place)) := by
  have hvalue := (inlineText_carrying_eq h hm hk).trans (replaceAll_literal h hm)
  refine ⟨hvalue, fun hvalues => ?_⟩
  have hliteral {a b : Text} : literal a = literal b ↔ a = b := by
    simp [literal, substitution]
  have hhead : ∀ r ∈ replacements x lang e, r.1.raw.head? ≠ some 'n' := by
    intro r hr
    obtain ⟨c, rest, hraw, -⟩ := exists_eq_dollar h hm hr
    rw [hraw]
    rintro ⟨⟩
  rw [hvalue, hliteral, replaceAll_callTexts_iff (.inl hhead) hvalues]

/-! ### A text that stands elsewhere -/

/-- The arguments end in an expression whose only call of a marker is the first thing in it. -/
theorem closesCallAt_of_call {e : Text}
    (hcall : (Marker.callAt? "$translate" (Script.Cursor.start e)).isSome = true)
    (htranslate : Script.occurrences "$translate" e = [Script.Cursor.start e])
    (hinline : Script.occurrences "$inlineTranslate" e = [])
    (hplural : Script.occurrences "$plural" e = []) :
    ∀ f, ∀ name ∈ Marker.ownNames f, ∀ place ∈ Script.occurrences name e,
      Marker.ClosesCallAt name place := by
  intro f name hname place hp
  cases f with
  | useTranslate => cases hname
  | translate =>
    obtain rfl : name = "$translate".toList := List.mem_singleton.mp hname
    rw [htranslate] at hp
    rw [List.mem_singleton.mp hp]
    exact Marker.closesCallAt_of_isSome hcall
  | inlineTranslate =>
    obtain rfl : name = "$inlineTranslate".toList := List.mem_singleton.mp hname
    rw [hinline] at hp
    cases hp
  | plural =>
    obtain rfl : name = "$plural".toList := List.mem_singleton.mp hname
    rw [hplural] at hp
    cases hp

/-- A call, and its text once more in a string. -/
def quotedCopy : Text := "$translate('a') + \"$translate('a')\""

/-- A call, and nothing that spells it again. -/
def plainSum : Text := "$translate('a') + b"

/-- A text that is nothing but its parameter, and a text for the call. -/
def quotedCopyTexts : Context :=
  ⟨Config.standard, [("en-US", [("k", .string "\x7b\x7bp\x7d\x7d"), ("a", .string "A")])]⟩

theorem canBeCarried_quotedCopy : CanBeCarried quotedCopy where
  noBackslash := by decide
  noLineEnd := by decide
  names := by
    intro f
    cases f <;> cbv
  names_carrying := by
    intro f
    cases f <;> cbv
  closes := by
    unfold Script.State.IsClosedBy
    cbv
  staysInside := by cbv
  closesCalls := closesCallAt_of_call (by cbv) (by cbv) (by cbv) (by cbv)

theorem canBeCarried_plainSum : CanBeCarried plainSum where
  noBackslash := by decide
  noLineEnd := by decide
  names := by
    intro f
    cases f <;> cbv
  names_carrying := by
    intro f
    cases f <;> cbv
  closes := by
    unfold Script.State.IsClosedBy
    cbv
  staysInside := by cbv
  closesCalls := closesCallAt_of_call (by cbv) (by cbv) (by cbv) (by cbv)

/-- A copy of a call is replaced with it; without one the carried text is the inlined one. -/
theorem inlineText_carrying_quotedCopy :
    quotedCopyTexts.config.markers = Markers.standard ∧
      quotedCopyTexts.valueOf? "en-US" ['k'] = some (.string "\x7b\x7bp\x7d\x7d") ∧
      CanBeCarried quotedCopy ∧
      (inlineText quotedCopyTexts "en-US" (carrying quotedCopy)).1 =
        literal
          (replaceAll (replacement? (callTexts (replacements quotedCopyTexts "en-US" quotedCopy))) 0
            quotedCopy) ∧
      CanBeCarried plainSum ∧
      HaveOneValue (replacements quotedCopyTexts "en-US" plainSum) ∧
      (inlineText quotedCopyTexts "en-US" plainSum).1 = "`A` + b".toList ∧
      (inlineText quotedCopyTexts "en-US" (carrying plainSum)).1 =
        literal (inlineText quotedCopyTexts "en-US" plainSum).1 := by
  have hreplacements : replacements quotedCopyTexts "en-US" plainSum =
      [(⟨.translate, 0, "$translate('a')", [.string ['a']]⟩, "`A`".toList)] := by cbv
  have hvalues : HaveOneValue (replacements quotedCopyTexts "en-US" plainSum) := by
    rw [hreplacements]
    intro r hr s hs _
    rw [List.mem_singleton.mp hr, List.mem_singleton.mp hs]
  refine ⟨rfl, rfl, canBeCarried_quotedCopy,
    (inlineText_carrying quotedCopyTexts "en-US" quotedCopy rfl rfl canBeCarried_quotedCopy).1,
    canBeCarried_plainSum, hvalues, by cbv,
    ((inlineText_carrying quotedCopyTexts "en-US" plainSum rfl rfl canBeCarried_plainSum).2
      hvalues).mpr ?_⟩
  rw [hreplacements]
  simp only [IsOutside, List.mem_singleton, forall_eq]
  decide

/-- The text in the string is replaced as well, which it is not where the expression stands
alone. -/
theorem inlineText_carrying_ne_quotedCopy :
    CanBeCarried quotedCopy ∧
      (inlineText quotedCopyTexts "en-US" (carrying quotedCopy)).1 =
        "`$\x7b`A` + \"`A`\"\x7d`".toList ∧
      literal (inlineText quotedCopyTexts "en-US" quotedCopy).1 =
        "`$\x7b`A` + \"$translate('a')\"\x7d`".toList :=
  ⟨canBeCarried_quotedCopy, by cbv, by cbv⟩

end Localization.Inlining
