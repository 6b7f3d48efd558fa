import TypeGraph.Command.Process
import TypeGraph.Manifest.Decode
import TypeGraph.Proofs.ManifestNames

/-!
# Setting up a process

Setting a process up changes all of it or nothing. A configuration is refused before
any of it is put to use: what could go wrong when it is applied is its level, and
validation has looked at the level by then. So a process whose setup fails still has
the registry and the settings that it had, and one whose configuration loads gets the
settings of the configuration and all of its entries (`setup_all_or_nothing`).
-/

namespace TypeGraph

namespace Manifest

/-! ## Configurations that load -/

/-- The severity that the logging part of a configuration means: what its level says,
or that of information if it has none. -/
def LogConfig.Means (c : LogConfig) (level : Log.Severity) : Prop :=
  if c.level = "" then level = .info else Log.Severity.ofText? c.level = some level

theorem LogConfig.severity_eq_ok_iff {c : LogConfig} {level : Log.Severity} :
    c.severity = .ok level ↔ c.Means level := by
  unfold severity Means
  split
  · simp [eq_comm]
  · cases Log.Severity.ofText? c.level <;> simp

namespace Config

variable {decode : Decoder} {c : Config} {text : String}

/-- A configuration loads if it can be decoded and nothing is wrong with it. -/
theorem load_eq_ok_iff :
    load decode text = .ok c ↔ decode text = .ok c ∧ c.problems = [] := by
  unfold load
  cases decode text with
  | error e => simp
  | ok d =>
    simp only [Except.ok.injEq]
    constructor
    · intro h
      have heq : d = c := by
        unfold validate at h
        split at h <;> simp_all
      exact ⟨heq, c.validate_eq_ok_iff.1 (heq ▸ h)⟩
    · rintro ⟨rfl, h⟩
      exact d.validate_eq_ok_iff.2 h

/-- What a loaded configuration can be compared with by evaluation. -/
theorem load_eq_ok_of_toOption (h : (load decode text).toOption = some c) :
    load decode text = .ok c := by
  cases hload : load decode text with
  | error e => simp [hload, Except.toOption] at h
  | ok d => simpa [hload, Except.toOption] using h

/-- Validation has looked at the level. -/
theorem exists_severity (h : c.problems = []) : ∃ level, c.log.severity = .ok level := by
  rw [problems_eq_findings] at h
  have hlevel := (List.append_eq_nil_iff.1 h).1
  cases hseverity : c.log.severity with
  | error f => simp [hseverity] at hlevel
  | ok level => exact ⟨level, rfl⟩

end Config

/-- **Applying the logging part cannot fail** once the level is known to have
a meaning. -/
theorem LogConfig.apply_eq {c : LogConfig} {level : Log.Severity}
    (h : c.severity = .ok level) (settings : Log.Settings) :
    c.apply settings = .ok ⟨level,
      if c.sections = [] then settings.sections else c.sections⟩ := by
  rw [apply, h]
  cases c.sections <;> rfl

end Manifest

namespace Command.Process

open Manifest

variable {decode : Decoder}

/-! ## Steps of a setup -/

/-- Registering entries changes nothing but the registry and the log. -/
theorem registerEntries (es : List Entry) (p : Process) :
    (es.foldl registerEntry p).registry =
        es.foldl (fun r e => r.register e.name e.doc e.expr) p.registry ∧
      (es.foldl registerEntry p).settings = p.settings ∧
        (es.foldl registerEntry p).store = p.store := by
  induction es generalizing p with
  | nil => exact ⟨rfl, rfl, rfl⟩
  | cons e es ih => exact ih (p.registerEntry e)

/-- Logging why a configuration was refused changes nothing but the log. -/
theorem noteRefusal_keeps (p : Process) (e : LoadError) :
    (p.noteRefusal e).registry = p.registry ∧ (p.noteRefusal e).settings = p.settings ∧
      (p.noteRefusal e).store = p.store := by
  unfold noteRefusal
  split <;> exact ⟨rfl, rfl, rfl⟩

/-- What a process becomes when a configuration has been applied whose level means
`level`. -/
structure Configured (p : Process) (c : Config) (level : Log.Severity)
    (p' : Process) : Prop where
  settings : p'.settings = ⟨level,
    if c.log.sections = [] then p.settings.sections else c.log.sections⟩
  /-- The entries have been registered one after the other. -/
  registry : p'.registry =
    c.types.foldl (fun r e => r.register e.name e.doc e.expr) p.registry
  store : p'.store = p.store

theorem configure_ok {c : Config} {level : Log.Severity}
    (h : c.log.severity = .ok level) (path : String) (p : Process) :
    ∃ p', p.configure path c = .ok p' ∧ p.Configured c level p' := by
  let settings : Log.Settings :=
    ⟨level, if c.log.sections = [] then p.settings.sections else c.log.sections⟩
  obtain ⟨hregistry, hsettings, hstore⟩ := registerEntries c.types { p with settings }
  refine ⟨(c.types.foldl registerEntry { p with settings }).note
    (.loaded path c.types.length), ?_, ?_⟩
  · rw [configure, LogConfig.apply_eq h]
  · exact ⟨hsettings, hregistry, hstore⟩

/-- What a setup does with the text of a file. -/
theorem setup_text (decode : Decoder) (path text : String) (p : Process) :
    p.setup decode path (.ok text) = match Config.load decode text with
      | .error e => (.error (.unloadable path e), p.noteRefusal e)
      | .ok c => match p.configure path c with
        | .ok p' => (.ok (), p')
        | .error e => (.error (.unloadable path e), p) :=
  rfl

/-- A setup comes to its end if the configuration loads. -/
theorem setup_of_load {text : String} {c : Config}
    (h : Config.load decode text = .ok c) (path : String) (p : Process) :
    ∃ level p', c.log.Means level ∧ p.setup decode path (.ok text) = (.ok (), p') ∧
      p.Configured c level p' := by
  obtain ⟨level, hlevel⟩ := Config.exists_severity (Config.load_eq_ok_iff.1 h).2
  obtain ⟨p', hrun, hconfigured⟩ := configure_ok hlevel path p
  refine ⟨level, p', LogConfig.severity_eq_ok_iff.1 hlevel, ?_, hconfigured⟩
  rw [setup_text, h]
  dsimp only
  rw [hrun]

/-- Otherwise it fails, and nothing but the log has changed. -/
theorem setup_of_not_load {file : Except FileError String}
    (h : ∀ text c, file = .ok text → Config.load decode text ≠ .ok c)
    (path : String) (p : Process) : ∃ e p', p.setup decode path file = (.error e, p') ∧
      p'.registry = p.registry ∧ p'.settings = p.settings ∧ p'.store = p.store := by
  cases file with
  | error e => exact ⟨_, p, rfl, rfl, rfl, rfl⟩
  | ok text =>
    cases hload : Config.load decode text with
    | ok c => exact absurd hload (h text c rfl)
    | error e =>
      refine ⟨.unloadable path e, p.noteRefusal e, ?_, p.noteRefusal_keeps e⟩
      rw [setup_text, hload]

/-! ## All or nothing -/

/-- **Setting a process up changes all of it or nothing.** However configurations are
decoded, a setup succeeds just when the file can be read and the configuration in it
loads. If it fails, the registry and the settings are what they were. If the
configuration loads, its logging part can be applied to any settings, and setting up
puts its level and its sections in force and registers all of its entries, in order. -/
theorem setup_all_or_nothing (decode : Decoder) (p : Process) (path : String)
    (file : Except FileError String) :
    ((p.setup decode path file).1 = .ok () ↔
        ∃ text c, file = .ok text ∧ Config.load decode text = .ok c) ∧
      (∀ e p', p.setup decode path file = (.error e, p') →
        p'.registry = p.registry ∧ p'.settings = p.settings ∧ p'.store = p.store) ∧
      ∀ text c, file = .ok text → Config.load decode text = .ok c →
        (∀ settings, ∃ applied, c.log.apply settings = .ok applied) ∧
          ∃ level p', c.log.Means level ∧ p.setup decode path file = (.ok (), p') ∧
            p.Configured c level p' := by
  by_cases hloads : ∃ text c, file = .ok text ∧ Config.load decode text = .ok c
  · obtain ⟨text, c, rfl, hload⟩ := hloads
    obtain ⟨level, p', hlevel, hrun, hconfigured⟩ := setup_of_load hload path p
    refine ⟨?_, ?_, ?_⟩
    · rw [hrun]
      exact iff_of_true rfl ⟨text, c, rfl, hload⟩
    · intro e q hfailed
      rw [hrun] at hfailed
      cases hfailed
    · intro text' c' htext hload'
      cases htext
      cases hload.symm.trans hload'
      refine ⟨fun settings => ?_, level, p', hlevel, hrun, hconfigured⟩
      exact ⟨_, LogConfig.apply_eq (LogConfig.severity_eq_ok_iff.2 hlevel) settings⟩
  · have hnot : ∀ text c, file = .ok text → Config.load decode text ≠ .ok c :=
        fun text c htext hload =>
      hloads ⟨text, c, htext, hload⟩
    obtain ⟨e, p', hrun, hkept⟩ := setup_of_not_load hnot path p
    refine ⟨?_, ?_, fun text c htext hload => absurd hload (hnot text c htext)⟩
    · rw [hrun]
      exact iff_of_false (by simp) hloads
    · intro e' q hfailed
      cases hrun.symm.trans hfailed
      exact hkept

/-- A configuration that logs everything and registers a field. -/
def fieldText : String := "log:\n  level: debug\ntypes:\n  - name: a.b\n    type: int\n"

/-- A configuration whose level means nothing. -/
def loudText : String := "log:\n  level: loud\n  sections: [cmd]\ntypes:\n  - name: c\n"

/-- A process that was set up keeps its level, its sections and its names when
a second setup fails. -/
theorem setup_all_or_nothing_twice :
    ∃ p e p', ({} : Process).setup Config.decode "field.yaml" (.ok fieldText) =
        (.ok (), p) ∧
      p.setup Config.decode "loud.yaml" (.ok loudText) = (.error e, p') ∧
      p'.settings = ⟨.debug, ["cmd", "config", "registry"]⟩ ∧
      p'.registry.names = ["a", "bool", "float", "int", "string"] := by
  have hload : Config.load Config.decode fieldText =
      .ok { log := { level := "debug" }, types := [{ name := "a.b", type := "int" }] } :=
    Config.load_eq_ok_of_toOption (by decide +kernel)
  have hrefused : (Config.load Config.decode loudText).toOption = none := by
    decide +kernel
  obtain ⟨-, -, hall⟩ :=
    setup_all_or_nothing Config.decode {} "field.yaml" (.ok fieldText)
  obtain ⟨-, level, p, hlevel, hrun, hconfigured⟩ := hall _ _ rfl hload
  obtain ⟨hsucceeds, hnothing, -⟩ :=
    setup_all_or_nothing Config.decode p "loud.yaml" (.ok loudText)
  rcases hsecond : p.setup Config.decode "loud.yaml" (.ok loudText) with ⟨e | ⟨⟩, p'⟩
  · obtain ⟨hregistry, hsettings, -⟩ := hnothing e p' hsecond
    have hdebug : level = .debug :=
      Option.some.inj (hlevel.symm.trans (by decide +kernel))
    refine ⟨p, e, p', hrun, hsecond, ?_, ?_⟩
    · rw [hsettings, hconfigured.settings, hdebug]
      rfl
    · rw [hregistry, hconfigured.registry]
      decide +kernel
  · obtain ⟨text, c, htext, hloaded⟩ := hsucceeds.1 (congrArg Prod.fst hsecond)
    cases htext
    rw [hloaded] at hrefused
    cases hrefused

end Command.Process

end TypeGraph
