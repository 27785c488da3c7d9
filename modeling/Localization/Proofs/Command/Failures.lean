import Mathlib
import Localization.Command.Execute
import Localization.Proofs.Project.Extract
import Localization.Proofs.Project.Leaves

/-! Runs that fail.

A run reads all it needs and works out all it will write before its first step. So whatever is
wrong with its inputs (`ReadsOnly`) it finds while the store is as it was, and behind the first
step it can only fail because a directory or a file cannot be made
(`isOutputFailure_of_runSteps`). A run that fails for any other reason has changed nothing
(`store_unchanged_of_failure`), such as one whose inputs are not there (`inlined_erase`). -/
namespace Localization

/-- Whether an output could not be made. -/
def Error.isOutputFailure : Error → Bool
  | uncreatedDirectory _ | unwrittenFile _ | unopenedLog _ => true
  | _ => false

/-! ### Reading -/

/-- Whether a result is no failure to make an output. -/
def ReadsOnly {α : Type} (x : Except Error α) : Prop :=
  ∀ e, x = .error e → e.isOutputFailure = false

namespace ReadsOnly

variable {α β : Type}

theorem ok (a : α) : ReadsOnly (.ok a : Except Error α) := fun _ h => by cases h

theorem error {e : Error} (h : e.isOutputFailure = false) :
    ReadsOnly (.error e : Except Error α) := by
  rintro _ ⟨⟩
  exact h

theorem bind {x : Except Error α} {f : α → Except Error β} (hx : ReadsOnly x)
    (hf : ∀ a, ReadsOnly (f a)) :
    ReadsOnly (x >>= f) := by
  cases x with
  | ok a => exact hf a
  | error e => exact error (hx e rfl)

theorem mapM {f : α → Except Error β} (hf : ∀ a, ReadsOnly (f a)) (l : List α) :
    ReadsOnly (l.mapM f) := by
  induction l with
  | nil => exact ok []
  | cons a l ih =>
    rw [List.mapM_cons]
    exact (hf a).bind fun b => ih.bind fun bs => ok (b :: bs)

end ReadsOnly

namespace Project

theorem readsOnly_readText (s : Store) (p : Path) : ReadsOnly (readText s p) := by
  unfold readText
  split
  · exact .ok _
  · exact .error rfl

theorem readsOnly_parse (p text : Text) : ReadsOnly (Assets.parse p text) := by
  unfold Assets.parse
  split
  · exact .ok _
  · exact .error rfl
  · exact .error rfl

theorem readsOnly_readLocales (s : Store) (format : Text) (required : Bool) (dir : Path)
    (langs : List Text) :
    ReadsOnly (readLocales s format required dir langs) := by
  have hlocale (dir : Path) : ReadsOnly (readLocale s format required dir) := by
    unfold readLocale
    split
    · split
      · exact .error rfl
      · refine .bind (.mapM (fun p => ?_) _) fun trees => .ok _
        exact (readsOnly_readText s p).bind fun text => readsOnly_parse p text
    · split
      · exact .error rfl
      · exact .ok _
  exact .mapM (fun lang => (hlocale _).bind fun tree => .ok _) langs

theorem readsOnly_sources (s : Store) (base : Path) (roots excluded : List Text) :
    ReadsOnly (Discovery.sources s base roots excluded) := by
  have hexclusions : ReadsOnly (Discovery.Exclusions.ofTexts base excluded) := by
    refine .bind (.mapM (fun t => ?_) _) fun patterns => .ok _
    split
    · exact .ok _
    · exact .error rfl
  have hroots (root : Text) : ReadsOnly (Discovery.rootsOf s base root) := by
    unfold Discovery.rootsOf
    dsimp only
    split
    · split
      · exact .ok _
      · exact .error rfl
    · split
      · exact .ok _
      · exact .error rfl
  exact hexclusions.bind fun exclusions => (ReadsOnly.mapM hroots roots).bind fun dirs => .ok _

theorem readsOnly_extractTrees (c : Config) (s : Store) : ReadsOnly (extractTrees c s) := by
  refine (readsOnly_sources s _ _ _).bind fun files => ?_
  refine (ReadsOnly.mapM (readsOnly_readText s) files).bind fun sources => ?_
  refine (readsOnly_readLocales s _ _ _ _).bind fun assets => ?_
  refine .bind (.mapM (fun raw => ?_) _) fun seeds => .ok _
  have hinitial (key : Text) (default : Option Text) :
      ReadsOnly (Key.initialValue key default) := by
    unfold Key.initialValue
    split
    · exact .ok _
    · split
      · split
        · exact .ok _
        · exact .error rfl
      · exact .ok _
  exact (hinitial _ _).bind fun v => .ok _

theorem readsOnly_inlineOutput (c : Config) (s : Store) : ReadsOnly (inlineOutput c s) := by
  have hchunks : ReadsOnly (chunksIn s c.chunkDir) := by
    unfold chunksIn
    split
    · exact .error rfl
    · exact .mapM (fun p => (readsOnly_readText s p).bind fun text => .ok _) _
  exact hchunks.bind fun chunks => (readsOnly_readLocales s _ _ _ _).bind fun trees => .ok _

/-! ### Writing -/

theorem Run.eq_of_change {error e : Error} {f : Store → Option Store} {s s' : Store}
    (h : Run.change error f s = (.error e, s')) : e = error := by
  unfold Run.change at h
  split at h
  · cases h
  · cases h
    rfl

theorem isOutputFailure_of_step {step : Step} {s s' : Store} {e : Error}
    (h : step.run s = (.error e, s')) :
    e.isOutputFailure = true := by
  cases step with
  | directory p =>
    have h : makeDirectories p s = (.error e, s') := h
    unfold makeDirectories at h
    split at h
    · cases h
    · cases h
      rfl
  | file p t =>
    have h : writeText p t s = (.error e, s') := h
    rw [Run.eq_of_change h]
    rfl

/-- Steps fail only because an output cannot be made. -/
theorem isOutputFailure_of_runSteps {steps : List Step} {s s' : Store} {e : Error}
    (h : runSteps steps s = (.error e, s')) : e.isOutputFailure = true := by
  induction steps generalizing s with
  | nil => cases h
  | cons step rest ih =>
    rcases Run.bind_eq_error_iff.mp h with h | ⟨u, s₁, -, h⟩
    · exact isOutputFailure_of_step h
    · exact ih h

/-- An extraction fails for a reason that is not an output exactly if its trees cannot be worked
out, and then it has changed nothing. -/
theorem extract_eq_error_iff {c : Config} {s s' : Store} {e : Error} :
    (extract c s = (.error e, s') ∧ e.isOutputFailure = false) ↔
      (extractTrees c s = .error e ∧ s' = s) := by
  cases h : extractTrees c s with
  | error e' =>
    rw [extract_of_error h]
    constructor
    · rintro ⟨⟨⟩, -⟩
      exact ⟨rfl, rfl⟩
    · rintro ⟨⟨⟩, rfl⟩
      exact ⟨rfl, readsOnly_extractTrees c s' e h⟩
  | ok output =>
    rw [extract_of_ok h]
    refine ⟨fun ⟨hrun, hinput⟩ => ?_, fun ⟨h, _⟩ => (by cases h)⟩
    rcases Run.bind_eq_error_iff.mp hrun with hsteps | ⟨_, _, -, hrest⟩
    · rw [isOutputFailure_of_runSteps hsteps] at hinput
      cases hinput
    · cases hrest

theorem inlined_eq_error_iff {c : Config} {s s' : Store} {e : Error} :
    (inlined c s = (.error e, s') ∧ e.isOutputFailure = false) ↔
      (inlineOutput c s = .error e ∧ s' = s) := by
  cases h : inlineOutput c s with
  | error e' =>
    rw [inlined_of_error h]
    constructor
    · rintro ⟨⟨⟩, -⟩
      exact ⟨rfl, rfl⟩
    · rintro ⟨⟨⟩, rfl⟩
      exact ⟨rfl, readsOnly_inlineOutput c s' e h⟩
  | ok output =>
    obtain ⟨count, output⟩ := output
    rw [inlined_of_ok h]
    refine ⟨fun ⟨hrun, hinput⟩ => ?_, fun ⟨h, _⟩ => (by cases h)⟩
    rcases Run.bind_eq_error_iff.mp hrun with hsteps | ⟨_, _, -, hrest⟩
    · rw [isOutputFailure_of_runSteps hsteps] at hinput
      cases hinput
    · rcases Run.bind_eq_error_iff.mp hrest with hlog | ⟨_, _, -, hdone⟩
      · rw [Run.eq_of_change hlog] at hinput
        cases hinput
      · cases hdone

/-! ### Missing inputs -/

theorem chunksIn_of_not_isDirectory {s : Store} {dir : Path} (h : ¬ s.isDirectory dir = true) :
    chunksIn s dir = .error (.unreadableChunks dir) := by
  rw [chunksIn, filesWith, Store.names?, if_neg h]
  rfl

theorem readLocale_of_not_isDirectory {s : Store} {dir : Path} (h : ¬ s.isDirectory dir = true)
    (format : Text) : readLocale s format true dir = .error (.missingAssets dir) := by
  rw [readLocale, if_neg h, if_pos rfl]

/-- **Inlining misses what is taken away**: without the directory of the chunks, or that of the
assets of a language, it fails before its first step. -/
theorem inlined_erase {c : Config} {s : Store} {l : Location} (hne : l ≠ []) :
    (s.locate c.chunkDir = some l →
      inlined c (s.erase l) = (.error (.unreadableChunks c.chunkDir), s.erase l)) ∧
    ∀ lang ∈ c.langs, s.locate (Path.join c.assetsRoot lang) = some l →
      ∃ e, inlined c (s.erase l) = (.error e, s.erase l) := by
  refine ⟨fun hl => inlined_of_error ?_, fun lang hlang hl => ?_⟩
  · rw [inlineOutput, chunksIn_of_not_isDirectory (Store.not_isDirectory_erase hl hne)]
    rfl
  · cases h : inlineOutput c (s.erase l) with
    | error e => exact ⟨e, inlined_of_error h⟩
    | ok output =>
      -- All languages would have been read, this one as well.
      obtain ⟨chunks, -, h⟩ := Except.bind_eq_ok_iff.mp h
      obtain ⟨trees, htrees, -⟩ := Except.bind_eq_ok_iff.mp h
      obtain ⟨tree, -, hread⟩ := exists_lookup_readLocales htrees lang hlang
      rw [readLocale_of_not_isDirectory (Store.not_isDirectory_erase hl hne)] at hread
      cases hread

end Project

/-! ### Commands -/

namespace Command

open Project (Run)

theorem readsOnly_configOf (s : Store) (cwd : Path) (o : Options) :
    ReadsOnly (configOf s cwd o) := by
  have hroot : ReadsOnly (rootOf s cwd o) := by
    unfold rootOf
    dsimp only
    split
    · exact .ok _
    · exact .error rfl
  have hfound (root : Path) : ReadsOnly (Project.configFrom s root) := by
    unfold Project.configFrom
    split
    · exact .ok _
    · split
      · exact .error rfl
      · split
        · exact .ok _
        · exact .error rfl
  have hvalid (c : Config) : ReadsOnly c.validate := by
    unfold Config.validate
    split
    · exact .error rfl
    · exact .ok _
  exact hroot.bind fun root => (hfound root).bind fun found => hvalid _

/-- What fails behind the configuration of a command fails in the store that it was read from. -/
theorem exists_of_configOf_error {α : Type} {s s' : Store} {cwd : Path} {o : Options}
    {f : Config → Run α} {e : Error}
    (h : (Run.ofExcept (configOf s cwd o) >>= f) s = (.error e, s')) :
    s' = s ∨ ∃ c, f c s = (.error e, s') := by
  rcases Project.Run.bind_eq_error_iff.mp h with hconfig | ⟨c, s₁, hconfig, h⟩
  · exact .inl (congrArg Prod.snd hconfig).symm
  · obtain rfl : s = s₁ := congrArg Prod.snd hconfig
    exact .inr ⟨c, h⟩

/-- A command that fails for a reason that is not an output has changed nothing. -/
theorem run_eq_error {cwd : Path} {colored : Bool} {command : Command} {s s' : Store} {e : Error}
    (h : command.run cwd colored s = (.error e, s')) (hinput : e.isOutputFailure = false) :
    s' = s := by
  cases command with
  | extract o =>
    have h : (Run.ofExcept (configOf s cwd o) >>= fun c => do
        return Report.ofExtract (o.display colored) c (← Project.extract c)) s = (.error e, s') := h
    rcases exists_of_configOf_error h with rfl | ⟨c, h⟩
    · rfl
    · rcases Project.Run.bind_eq_error_iff.mp h with h | ⟨_, _, -, h⟩
      · exact (Project.extract_eq_error_iff.mp ⟨h, hinput⟩).2
      · cases h
  | inlined o =>
    have h : (Run.ofExcept (configOf s cwd o) >>= fun c => do
        let c := { c with outDir := o.outDir.getD c.outDir }
        return Report.ofInlined (o.display colored) o.denyMissing c (← Project.inlined c)) s =
          (.error e, s') := h
    rcases exists_of_configOf_error h with rfl | ⟨c, h⟩
    · rfl
    · rcases Project.Run.bind_eq_error_iff.mp h with h | ⟨_, _, -, h⟩
      · exact (Project.inlined_eq_error_iff.mp ⟨h, hinput⟩).2
      · cases h
  | init =>
    rcases Project.Run.bind_eq_error_iff.mp h with h | ⟨_, _, -, h⟩
    · rcases Project.Run.bind_eq_error_iff.mp h with h | ⟨_, _, hget, h⟩
      · cases h
      · cases hget
        split at h
        · rcases Project.Run.bind_eq_error_iff.mp h with h | ⟨_, _, h, -⟩
          · exact (congrArg Prod.snd h).symm
          · cases h
        · rw [Project.Run.eq_of_change h] at hinput
          cases hinput
    · cases h

theorem execute_eq_error {s s' : Store} {cwd : Path} {colored : Bool} {command : Command}
    {report : Report} {e : Error} (h : command.execute s cwd colored = (report, some e, s')) :
    command.run cwd colored s = (.error e, s') := by
  unfold execute at h
  dsimp only at h
  split at h
  · cases h
  · next hrun =>
    cases h
    exact hrun

end Command

/-- **A run that fails on its inputs changes nothing.** Extracting and inlining fail for a reason
that is not an output exactly if what they are to write cannot be worked out from the store, and
they leave the store as it was; and so does every command, which also reads its configuration: what
is wrong with that is no output either. -/
theorem store_unchanged_of_failure (s s' : Store) (e : Error) :
    (∀ c, (Project.extract c s = (.error e, s') ∧ e.isOutputFailure = false) ↔
      (Project.extractTrees c s = .error e ∧ s' = s)) ∧
    (∀ c, (Project.inlined c s = (.error e, s') ∧ e.isOutputFailure = false) ↔
      (Project.inlineOutput c s = .error e ∧ s' = s)) ∧
    (∀ cwd o, Command.configOf s cwd o = .error e → e.isOutputFailure = false) ∧
    ∀ cwd colored (command : Command) report, command.execute s cwd colored = (report, some e, s') →
      e.isOutputFailure = false → s' = s :=
  ⟨fun _ => Project.extract_eq_error_iff, fun _ => Project.inlined_eq_error_iff,
    fun cwd o => Command.readsOnly_configOf s cwd o e,
    fun _ _ _ _ h hinput => Command.run_eq_error (Command.execute_eq_error h) hinput⟩

/-- A project of two languages in which the asset file of the second one is cut short. -/
def brokenProject : Store := ⟨[
  ([".tolkrc.json"], .file (.text "\x7b\"supportedLocales\": [\"en-US\", \"fr\"]\x7d")),
  (["src"], .directory), (["src", "a.ts"], .file (.text "$translate('home.new')")),
  (["i18n"], .directory), (["i18n", "en-US"], .directory),
  (["i18n", "en-US", "app.json"], .file (.text "\x7b\x7d")),
  (["i18n", "fr"], .directory), (["i18n", "fr", "app.json"], .file (.text "\x7b"))],
  by decide⟩

/-- The error is found in the last file that is read, and the store is as it was. -/
theorem store_unchanged_of_failure_fr :
    ∃ report s', Command.execute brokenProject "/" false (.extract .none) =
      (report, some (.malformedJson "/./i18n/fr/app.json"), s') ∧ s' = brokenProject := by
  have herror : (Command.execute brokenProject "/" false (.extract .none)).2.1 =
      some (.malformedJson "/./i18n/fr/app.json") := by cbv
  generalize hrun : Command.execute brokenProject "/" false (.extract .none) = r at herror ⊢
  obtain ⟨report, error, s'⟩ := r
  subst herror
  exact ⟨report, s', rfl, (store_unchanged_of_failure brokenProject s' _).2.2.2 _ _ _ _ hrun
    (by decide)⟩

end Localization
