import TypeGraph.Log.Logger
import Mathlib.Data.List.Induction

/-!
# What a log writes over any sequence of calls

The calls set the level, enable sections, derive loggers from loggers, and log
records, in any order. A record passes or not by what is in force when it is logged,
and by the sections that its own attributes name or any attributes that were given on
the way to its logger, whether before or after a group was opened (`Journal.Passes`).

The loggers keep the sections that they have been given, and the settings what was
last set. Both are read off the calls here, so the statement about what is written
(`log_writes_iff`) is one about the history of the log.
-/

namespace TypeGraph.Log

/-! ## Calls -/

/-- A call on the log. Loggers go by number: the default one is the first, with number
0, and every call that derives a logger gives it the next number. A number that has
not been given stands for the default logger. -/
inductive Call where
  | setLevel (level : Severity)
  | enableSections (sections : List String)
  | forSection (sect : String)
  | withAttrs (parent : Nat) (attrs : List Attr)
  | withGroup (parent : Nat) (name : String)
  | log (logger : Nat) (severity : Severity) (message : String) (attrs : List Attr)

namespace Call

/-- The logger that a call derives another one from, if it does. -/
def parent? : Call → Option Nat
  | forSection _ => some 0
  | withAttrs parent _ | withGroup parent _ => some parent
  | _ => none

/-- Does the call derive a logger? -/
def derives (c : Call) : Bool := c.parent?.isSome

/-- The attributes that a call gives to the logger that it derives. -/
def given : Call → List Attr
  | forSection sect => [("section", .text sect)]
  | withAttrs _ attrs => attrs
  | _ => []

/-- The level that a call sets. -/
def level? : Call → Option Severity
  | setLevel level => some level
  | _ => none

/-- The sections that a call enables. -/
def sections? : Call → Option (List String)
  | enableSections sections => some sections
  | _ => none

end Call

/-- What has become of a log: the settings in force, the loggers by number, and what
has been written. -/
structure Journal where
  settings : Settings := {}
  loggers : List Logger := [{}]
  output : String := ""

namespace Journal

def logger (j : Journal) (n : Nat) : Logger := j.loggers[n]?.getD {}

/-- Give the next number to a logger. -/
def add (j : Journal) (l : Logger) : Journal := { j with loggers := j.loggers ++ [l] }

/-- The log after one more call. -/
def step (j : Journal) : Call → Journal
  | .setLevel level => { j with settings.level := level }
  | .enableSections sections => { j with settings.sections := sections }
  | .forSection sect => j.add (.forSection sect)
  | .withAttrs parent attrs => j.add ((j.logger parent).withAttrs attrs)
  | .withGroup parent name => j.add ((j.logger parent).withGroup name)
  | .log n severity message attrs =>
    { j with output := j.output ++ (j.logger n).log j.settings severity message attrs }

/-- The log after some calls. -/
def run (settings : Settings) (calls : List Call) : Journal :=
  calls.foldl step { settings }

/-! ## The history of a log -/

/-- The level in force after some calls. -/
def levelAfter (settings : Settings) (calls : List Call) : Severity :=
  (calls.filterMap Call.level?).getLastD settings.level

/-- The sections that are enabled after some calls. -/
def sectionsAfter (settings : Settings) (calls : List Call) : List String :=
  (calls.filterMap Call.sections?).getLastD settings.sections

/-- The calls that derived the loggers, in the order of the numbers, the default
logger apart. -/
def derivations (calls : List Call) : List Call := calls.filter Call.derives

/-- **The call belongs to the derivation of a logger**: it derived the logger itself,
or one that the logger was derived from on the way. -/
inductive InDerivation (made : List Call) : Nat → Call → Prop
  | last {k : Nat} {c : Call} (h : made[k]? = some c) : InDerivation made (k + 1) c
  | earlier {k parent : Nat} {c d : Call} (h : made[k]? = some c)
      (hp : c.parent? = some parent) (hk : parent ≤ k)
      (hd : InDerivation made parent d) : InDerivation made (k + 1) d

/-- The attributes name a section. -/
def Names (attrs : List Attr) (sect : String) : Prop :=
  ∃ value, ("section", value) ∈ attrs ∧ value.asText = sect

/-- **The logger belongs to a section**: some attributes that name it were given in
its derivation. -/
def BelongsTo (calls : List Call) (n : Nat) (sect : String) : Prop :=
  ∃ c, InDerivation (derivations calls) n c ∧ Names c.given sect

/-- **A record passes** if it is severe enough, and is at least a warning or has
a section, its own or that of its logger, that begins with an enabled one. An empty
group is no attribute of a record. -/
def Passes (settings : Settings) (calls : List Call) (n : Nat) (severity : Severity)
    (attrs : List Attr) : Prop :=
  levelAfter settings calls ≤ severity ∧
    (Severity.warn ≤ severity ∨
      ∃ sect, (BelongsTo calls n sect ∨ Names (withoutEmpty attrs) sect) ∧
        ∃ enabled ∈ sectionsAfter settings calls, enabled.toList <+: sect.toList)

variable {made more calls : List Call} {n : Nat} {c : Call} {sect : String}

/-- What is derived later does not change how a logger came about. -/
theorem inDerivation_append (hn : n ≤ made.length) :
    InDerivation (made ++ more) n c ↔ InDerivation made n c := by
  constructor
  · intro h
    induction h with
    | last h => exact .last (by rwa [List.getElem?_append_left hn] at h)
    | earlier h hp hk _ ih =>
      rw [List.getElem?_append_left hn] at h
      exact .earlier h hp hk (ih (by omega))
  · intro h
    induction h with
    | last h => exact .last (by rwa [List.getElem?_append_left hn])
    | earlier h hp hk _ ih =>
      exact .earlier (by rwa [List.getElem?_append_left hn]) hp hk (ih (by omega))

/-- The last call of a derivation is the one that derived the logger, and the others
are those of the logger it was derived from. -/
theorem inDerivation_concat {d : Call} {parent : Nat} (hp : c.parent? = some parent) :
    InDerivation (made ++ [c]) (made.length + 1) d ↔
      d = c ∨ parent ≤ made.length ∧ InDerivation made parent d := by
  have hlast : (made ++ [c])[made.length]? = some c := List.getElem?_concat_length
  constructor
  · intro h
    cases h with
    | last h => exact Or.inl (Option.some.inj (h.symm.trans hlast))
    | earlier h hp' hk hd =>
      cases h.symm.trans hlast
      cases hp'.symm.trans hp
      exact Or.inr ⟨hk, (inDerivation_append hk).1 hd⟩
  · rintro (rfl | ⟨hk, hd⟩)
    · exact .last hlast
    · exact .earlier hlast hp hk ((inDerivation_append hk).2 hd)

/-- Only loggers that exist have a derivation. -/
theorem InDerivation.le_length {d : Call} (h : InDerivation made n d) :
    n ≤ made.length := by
  cases h with
  | last h | earlier h => exact (List.getElem?_eq_some_iff.1 h).1

/-! ## Loggers -/

theorem mem_sectionsOf {attrs : List Attr} :
    sect ∈ sectionsOf attrs ↔ Names attrs sect := by
  simp [sectionsOf, Names]

theorem sections_withAttrs (l : Logger) (attrs : List Attr) :
    (l.withAttrs attrs).sections = l.sections ++ sectionsOf attrs := by
  unfold Logger.withAttrs
  dsimp only
  split <;> rfl

theorem sections_withGroup (l : Logger) (name : String) :
    (l.withGroup name).sections = l.sections := by
  unfold Logger.withGroup
  split <;> rfl

theorem enables_iff {settings : Settings} :
    settings.enables sect = true ↔
      ∃ enabled ∈ settings.sections, enabled.toList <+: sect.toList := by
  simp [Settings.enables]

/-- The filter, in terms of the sections that a logger keeps. -/
theorem writes_iff {l : Logger} {settings : Settings} {severity : Severity}
    {attrs : List Attr} :
    l.writes settings severity attrs = true ↔
      settings.level ≤ severity ∧
        (Severity.warn ≤ severity ∨
          ∃ sect, (sect ∈ l.sections ∨ Names attrs sect) ∧
            ∃ enabled ∈ settings.sections, enabled.toList <+: sect.toList) := by
  have hany : (l.sections ++ sectionsOf attrs).any settings.enables = true ↔
      ∃ sect, (sect ∈ l.sections ∨ Names attrs sect) ∧
        ∃ enabled ∈ settings.sections, enabled.toList <+: sect.toList := by
    simp only [List.any_eq_true, List.mem_append, mem_sectionsOf, enables_iff]
  rw [Logger.writes, Settings.admits, Bool.and_eq_true, Bool.or_eq_true,
    decide_eq_true_iff, decide_eq_true_iff, hany]

/-! ## Runs -/

/-- **The log as its history has it.** -/
structure Follows (settings : Settings) (calls : List Call) (j : Journal) : Prop where
  level : j.settings.level = levelAfter settings calls
  sections : j.settings.sections = sectionsAfter settings calls
  loggers : j.loggers.length = (derivations calls).length + 1
  /-- A logger keeps the sections that it belongs to. -/
  belongs : ∀ n sect, sect ∈ (j.logger n).sections ↔ BelongsTo calls n sect

variable {settings : Settings} {j : Journal}

theorem logger_add_of_lt (l : Logger) (h : n < j.loggers.length) :
    (j.add l).logger n = j.logger n := by
  rw [logger, logger, add, List.getElem?_append_left h]

theorem logger_add_length (l : Logger) : (j.add l).logger j.loggers.length = l := by
  rw [logger, add, List.getElem?_concat_length]
  rfl

/-- The default logger stands in for one that does not exist. -/
theorem logger_of_le (h : j.loggers.length ≤ n) : j.logger n = {} := by
  rw [logger, List.getElem?_eq_none h]
  rfl

theorem levelAfter_concat (settings : Settings) (calls : List Call) (c : Call) :
    levelAfter settings (calls ++ [c]) = c.level?.getD (levelAfter settings calls) := by
  cases h : c.level? <;> simp [levelAfter, h]

theorem sectionsAfter_concat (settings : Settings) (calls : List Call) (c : Call) :
    sectionsAfter settings (calls ++ [c]) =
      c.sections?.getD (sectionsAfter settings calls) := by
  cases h : c.sections? <;> simp [sectionsAfter, h]

/-- The default logger belongs to no section. -/
theorem not_belongsTo_zero : ¬BelongsTo calls 0 sect := by
  rintro ⟨c, hc, -⟩
  cases hc

/-- A call that derives nothing changes settings at most. -/
theorem Follows.edit (h : Follows settings calls j) {j' : Journal}
    (hc : c.derives = false) (hlevel : j'.settings.level = c.level?.getD j.settings.level)
    (hsections : j'.settings.sections = c.sections?.getD j.settings.sections)
    (hloggers : j'.loggers = j.loggers) : Follows settings (calls ++ [c]) j' := by
  have hmade : derivations (calls ++ [c]) = derivations calls := by simp [derivations, hc]
  refine ⟨?_, ?_, ?_, fun n sect => ?_⟩
  · rw [hlevel, h.level, levelAfter_concat]
  · rw [hsections, h.sections, sectionsAfter_concat]
  · rw [hloggers, h.loggers, hmade]
  · rw [logger, hloggers, BelongsTo, hmade]
    exact h.belongs n sect

/-- A call that derives a logger from `parent` gives it the sections of `parent` and
those that the call names. -/
theorem Follows.add (h : Follows settings calls j) {l : Logger} (parent : Nat)
    (hp : c.parent? = some parent) (hlevel : c.level? = none)
    (hsections : c.sections? = none) (hl : ∀ sect, sect ∈ l.sections ↔
      sect ∈ (j.logger parent).sections ∨ Names c.given sect) :
    Follows settings (calls ++ [c]) (j.add l) := by
  have hderives : c.derives = true := by
    rw [Call.derives, hp]
    rfl
  have hmade : derivations (calls ++ [c]) = derivations calls ++ [c] := by
    simp [derivations, hderives]
  have hlength : (j.add l).loggers.length = (derivations calls).length + 2 := by
    simp [Journal.add, h.loggers]
  refine ⟨?_, ?_, ?_, fun n sect => ?_⟩
  · rw [levelAfter_concat, hlevel]
    exact h.level
  · rw [sectionsAfter_concat, hsections]
    exact h.sections
  · rw [hlength, hmade, List.length_append, List.length_singleton]
  · rw [BelongsTo, hmade]
    rcases Nat.lt_trichotomy n j.loggers.length with hn | rfl | hn
    · -- A logger that was there before.
      rw [logger_add_of_lt l hn, h.belongs, BelongsTo]
      rw [h.loggers] at hn
      simp only [inDerivation_append (Nat.le_of_lt_succ hn)]
    · -- The new one, which takes over what its parent belongs to.
      rw [logger_add_length, hl, h.belongs, BelongsTo, h.loggers]
      simp only [inDerivation_concat hp]
      constructor
      · rintro (⟨d, hd, hnames⟩ | hnames)
        · exact ⟨d, Or.inr ⟨hd.le_length, hd⟩, hnames⟩
        · exact ⟨c, Or.inl rfl, hnames⟩
      · rintro ⟨d, rfl | ⟨-, hd⟩, hnames⟩
        · exact Or.inr hnames
        · exact Or.inl ⟨d, hd, hnames⟩
    · -- A number that has not been given.
      rw [h.loggers] at hn
      rw [logger_of_le (by omega)]
      refine iff_of_false List.not_mem_nil ?_
      rintro ⟨d, hd, -⟩
      have hle := hd.le_length
      rw [List.length_append, List.length_singleton] at hle
      omega

/-- **One call keeps the log in line with its history.** -/
theorem Follows.step (h : Follows settings calls j) (c : Call) :
    Follows settings (calls ++ [c]) (j.step c) := by
  cases c with
  | setLevel level => exact h.edit rfl rfl rfl rfl
  | enableSections sections => exact h.edit rfl rfl rfl rfl
  | log n severity message attrs => exact h.edit rfl rfl rfl rfl
  | forSection sect =>
    refine h.add 0 rfl rfl rfl fun sect' => ?_
    rw [Logger.forSection, sections_withAttrs, List.nil_append, mem_sectionsOf, h.belongs]
    exact (or_iff_right not_belongsTo_zero).symm
  | withAttrs parent attrs =>
    refine h.add parent rfl rfl rfl fun sect => ?_
    rw [sections_withAttrs, List.mem_append, mem_sectionsOf]
    rfl
  | withGroup parent name =>
    refine h.add parent rfl rfl rfl fun sect => ?_
    rw [sections_withGroup]
    simp [Call.given, Names]

theorem run_concat (settings : Settings) (calls : List Call) (c : Call) :
    run settings (calls ++ [c]) = (run settings calls).step c := by
  rw [run, List.foldl_append]
  rfl

/-- So do all calls. -/
theorem follows_run (settings : Settings) (calls : List Call) :
    Follows settings calls (run settings calls) := by
  induction calls using List.reverseRecOn with
  | nil =>
    refine ⟨rfl, rfl, rfl, fun n sect => iff_of_false ?_ ?_⟩
    · cases n <;> exact List.not_mem_nil
    · rintro ⟨c, hc, -⟩
      cases hc with
      | last h | earlier h => cases h
  | append_singleton calls c ih =>
    rw [run_concat]
    exact ih.step c

/-- **What passes is what the filter lets through.** -/
theorem Follows.writes_iff_passes (h : Follows settings calls j) {severity : Severity}
    {attrs : List Attr} :
    (j.logger n).writes j.settings severity (withoutEmpty attrs) = true ↔
      Passes settings calls n severity attrs := by
  simp only [writes_iff, h.level, h.sections, h.belongs, Passes]

/-! ## Output -/

/-- A record always adds something. -/
theorem append_line_ne (text : String) (severity : Severity) (message : String)
    (words : List String) :
    text ++ line severity message words ≠ text := by
  intro h
  have hchars := congrArg String.toList h
  simp [line] at hchars

/-- A record that passes is written as one line behind what was written before. -/
theorem run_log_of_passes {severity : Severity} {attrs : List Attr}
    (h : Passes settings calls n severity attrs) (message : String) :
    ∃ words, run settings (calls ++ [.log n severity message attrs]) =
      { run settings calls with
        output := (run settings calls).output ++ line severity message words } := by
  have hwrites := (follows_run settings calls).writes_iff_passes.2 h
  rw [run_concat, Journal.step, Logger.log, if_pos hwrites]
  exact ⟨_, rfl⟩

/-- One that does not pass changes nothing. -/
theorem run_log_of_not_passes {severity : Severity} {attrs : List Attr}
    (h : ¬Passes settings calls n severity attrs) (message : String) :
    run settings (calls ++ [.log n severity message attrs]) = run settings calls := by
  have hwrites := mt (follows_run settings calls).writes_iff_passes.1 h
  rw [run_concat, Journal.step, Logger.log, if_neg hwrites, String.append_empty]

/-- Loggers that are derived later do not change what a logger is. -/
theorem logger_derived {derived : List Call} (hderived : ∀ c ∈ derived, c.derives = true)
    (hn : n < j.loggers.length) :
    (derived.foldl Journal.step j).logger n = j.logger n ∧
      (derived.foldl Journal.step j).settings = j.settings ∧
      (derived.foldl Journal.step j).output = j.output := by
  induction derived generalizing j with
  | nil => exact ⟨rfl, rfl, rfl⟩
  | cons c derived ih =>
    obtain ⟨hc, hrest⟩ := List.forall_mem_cons.1 hderived
    obtain ⟨l, hl⟩ : ∃ l, j.step c = j.add l := by
      cases c with
      | setLevel | enableSections | log => cases hc
      | forSection | withAttrs | withGroup => exact ⟨_, rfl⟩
    have hlonger : n < (j.add l).loggers.length := by
      simp only [Journal.add, List.length_append]
      omega
    obtain ⟨hlogger, hsettings, houtput⟩ := ih (j := j.add l) hrest hlonger
    rw [List.foldl_cons, hl]
    exact ⟨hlogger.trans (logger_add_of_lt l hn), hsettings, houtput⟩

/-- **What a log writes, after any sequence of calls.** A record is written just when
it passes, as one line behind what was written before; one that does not pass changes
nothing. And it makes no difference for a logger if others are derived before it logs,
from itself or from any other one. -/
theorem log_writes_iff (settings : Settings) (calls : List Call) (n : Nat)
    (severity : Severity) (message : String) (attrs : List Attr) :
    ((∃ words, (run settings (calls ++ [.log n severity message attrs])).output =
          (run settings calls).output ++ line severity message words) ↔
        Passes settings calls n severity attrs) ∧
      (¬Passes settings calls n severity attrs →
        run settings (calls ++ [.log n severity message attrs]) = run settings calls) ∧
      ∀ derived, (∀ c ∈ derived, c.derives = true) → n ≤ (derivations calls).length →
        (run settings (calls ++ derived ++ [.log n severity message attrs])).output =
          (run settings (calls ++ [.log n severity message attrs])).output := by
  refine ⟨⟨?_, ?_⟩, fun h => run_log_of_not_passes h message, ?_⟩
  · rintro ⟨words, hwritten⟩
    by_contra hnot
    rw [run_log_of_not_passes hnot message] at hwritten
    exact append_line_ne _ severity message words hwritten.symm
  · intro h
    obtain ⟨words, hrun⟩ := run_log_of_passes h message
    exact ⟨words, by rw [hrun]⟩
  · intro derived hderived hn
    have hknown : n < (run settings calls).loggers.length := by
      rw [(follows_run settings calls).loggers]
      omega
    obtain ⟨hlogger, hsettings, houtput⟩ := logger_derived hderived hknown
    have hrun : run settings (calls ++ derived) =
        derived.foldl Journal.step (run settings calls) := by
      rw [run, List.foldl_append]
      rfl
    rw [run_concat, run_concat, hrun, Journal.step, Journal.step,
      hlogger, hsettings, houtput]

/-- A logger that is given a section, then a group and then another section, before
the first one is enabled. -/
def derivedExample : List Call :=
  [.withAttrs 0 [("section", .text "registry.fields")], .withGroup 1 "fields",
    .withAttrs 2 [("size", .int 3), ("section", .text "config")],
      .enableSections ["registry"], .setLevel .debug]

/-- The last logger writes below `WARN` because of the first section, the default one
writes nothing for a section that is not enabled, and a further logger changes nothing
for the last one. -/
theorem log_writes_iff_derived :
    (∃ words, (run {} (derivedExample ++ [.log 3 .debug "found" []])).output =
        line .debug "found" words) ∧
      (run {} (derivedExample ++
        [.log 0 .info "lost" [("section", .text "cmd")]])).output = "" ∧
      (run {} (derivedExample ++ [.withGroup 3 "more"] ++
          [.log 3 .debug "found" []])).output =
        (run {} (derivedExample ++ [.log 3 .debug "found" []])).output := by
  obtain ⟨hwritten, -, hderived⟩ := log_writes_iff {} derivedExample 3 .debug "found" []
  obtain ⟨-, hfiltered, -⟩ :=
    log_writes_iff {} derivedExample 0 .info "lost" [("section", .text "cmd")]
  have hfirst : BelongsTo derivedExample 3 "registry.fields" :=
    ⟨_, .earlier rfl rfl (by decide) (.earlier rfl rfl (by decide) (.last rfl)), _,
      List.mem_singleton.2 rfl, rfl⟩
  refine ⟨?_, ?_, hderived [.withGroup 3 "more"] (by decide) (by decide)⟩
  · obtain ⟨words, hrun⟩ :=
      hwritten.2 ⟨by decide, Or.inr ⟨_, Or.inl hfirst, "registry",
        List.mem_singleton.2 rfl, by decide⟩⟩
    exact ⟨words, hrun⟩
  · rw [hfiltered]
    · rfl
    · rintro ⟨-, hwarn | ⟨sect, hzero | ⟨value, hvalue, rfl⟩, enabled, henabled, hbegins⟩⟩
      · revert hwarn
        decide
      · exact not_belongsTo_zero hzero
      · cases List.mem_singleton.1 hvalue
        rw [List.mem_singleton.1 henabled] at hbegins
        revert hbegins
        decide

end Journal

end TypeGraph.Log
