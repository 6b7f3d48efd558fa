import TypeGraph.Proofs.RecordText
import TypeGraph.Proofs.Setup
import Mathlib.Data.List.Basic

/-!
# What validation reports

A configuration has places that are checked one after the other: the level, and of
each entry its name and its type. To each place there may be an objection, and the
report is the list of all objections, in the order of the places (`Config.report`).

A configuration with an empty report passes. Otherwise the first problem of the report
is returned, and if there are others, the whole report goes to the log, as one record
that shows the problems by number (`validate_reports`).
-/

namespace TypeGraph

namespace Manifest

/-! ## Places and objections -/

/-- A place of a configuration. Entries go by their index. -/
inductive Place where
  | level
  | name (index : Nat)
  | type (index : Nat)

/-- What a place is called. -/
def Place.field : Place → String
  | level => "log.level"
  | name index => s!"types[{index}].name"
  | type index => s!"types[{index}].type"

namespace Config

variable {c : Config}

/-- The places of a configuration, in the order in which they are checked. -/
def places (c : Config) : List Place :=
  .level :: (List.range c.types.length).flatMap fun index => [.name index, .type index]

/-- Why the configuration cannot be used as it is at a place, if it cannot. A level
has to be empty or that of a severity, a name must not be empty, and a type has to be
empty or well formed. -/
def objection? (c : Config) : Place → Option String
  | .level =>
    if c.log.level ≠ "" ∧ Log.Severity.ofText? c.log.level = none then
      some s!"unknown level '{c.log.level}'"
    else none
  | .name index => do
    let entry ← c.types[index]?
    if entry.name = "" then some "must not be empty" else none
  | .type index => do
    let entry ← c.types[index]?
    if entry.type = "" then none
    else (TypeExpr.problem? entry.type.toList).map TypeProblem.message

/-- The problem at a place. -/
def problemAt? (c : Config) (place : Place) : Option Fault :=
  (c.objection? place).map (.invalidConfig place.field)

/-- **The report on a configuration**: the problems at its places, in order. -/
def report (c : Config) : List Fault := c.places.filterMap c.problemAt?

/-- The problems of an entry are those at its two places. -/
theorem problems_entry {e : Entry} {index : Nat} (h : c.types[index]? = some e) :
    e.problems index = [.name index, .type index].filterMap c.problemAt? := by
  have hname : c.problemAt? (.name index) =
      if e.name = "" then
        some (.invalidConfig (Place.field (.name index)) "must not be empty")
      else none := by
    rw [problemAt?, objection?, h]
    by_cases hempty : e.name = "" <;> simp [hempty]
  have htype : c.problemAt? (.type index) =
      if e.type = "" then none
      else (TypeExpr.problem? e.type.toList).map fun p =>
        .invalidConfig (Place.field (.type index)) p.message := by
    rw [problemAt?, objection?, h]
    by_cases hempty : e.type = "" <;> simp [hempty, Function.comp_def]
  rw [List.filterMap_cons, List.filterMap_cons, List.filterMap_nil, hname,
    htype, Entry.problems]
  by_cases hnamed : e.name = "" <;> by_cases htyped : e.type = "" <;>
    cases TypeExpr.problem? e.type.toList <;> simp [hnamed, htyped, Place.field]

/-- The problem of the level is the one at its place. -/
theorem problemAt?_level (c : Config) :
    (c.problemAt? .level).toList = match c.log.severity with
      | .ok _ => []
      | .error problem => [problem] := by
  rw [problemAt?, objection?, LogConfig.severity]
  by_cases hempty : c.log.level = ""
  · simp [hempty]
  · cases hlevel : Log.Severity.ofText? c.log.level <;> simp [hempty, Place.field]

/-- **The problems of a configuration are its report.** -/
theorem problems_eq_report (c : Config) : c.problems = c.report := by
  have hentries : c.types.zipIdx.flatMap (fun entry => entry.1.problems entry.2) =
      (List.range c.types.length).flatMap fun index =>
        [.name index, .type index].filterMap c.problemAt? := by
    rw [List.range_eq_range', ← List.zipIdx_map_snd, List.flatMap_map]
    refine List.flatMap_congr fun entry hentry => ?_
    exact problems_entry (List.mem_zipIdx_iff_getElem?.1 hentry)
  calc c.problems
      = c.findings := c.problems_eq_findings
    _ = (c.problemAt? .level).toList ++
          c.types.zipIdx.flatMap fun entry => entry.1.problems entry.2 := by
        rw [problemAt?_level]
        rfl
    _ = c.report := by
        rw [hentries, report, places, List.filterMap_cons, List.filterMap_flatMap]
        cases c.problemAt? .level <;> rfl

end Config

end Manifest

namespace Command.Process

open Manifest

variable {c : Config}

/-! ## Refusals -/

/-- Validation within a process: the configuration passes or is refused, and what
there is to say about a refusal is logged. -/
def validate (p : Process) (c : Config) : Except LoadError Config × Process :=
  match c.validate with
  | .ok c => (.ok c, p)
  | .error e => (.error e, p.noteRefusal e)

/-- A setup validates what it has decoded, and applies what has passed. -/
theorem setup_decoded {decode : Decoder} {text : String} (h : decode text = .ok c)
    (path : String) (p : Process) :
    p.setup decode path (.ok text) = match p.validate c with
      | (.error e, p') => (.error (.unloadable path e), p')
      | (.ok c, p') => match p'.configure path c with
        | .ok p'' => (.ok (), p'')
        | .error e => (.error (.unloadable path e), p') := by
  have hload : Config.load decode text = c.validate := by rw [Config.load, h]
  rw [setup_text, hload, validate]
  cases c.validate <;> rfl

/-- The attributes that show problems by number, counted from `index`. -/
def numbered (index : Nat) : List Fault → List Log.Attr
  | [] => []
  | problem :: rest =>
    (s!"e{index}", .group [("msg", .text s!"(E006) {problem.message}")]) ::
      numbered (index + 1) rest

/-- The process after one warning that carries all of the problems. -/
def warned (p : Process) (problems : List Fault) : Process :=
  { p with
    log :=
      p.log ++ (Log.Logger.forSection "config").log p.settings .warn
        "invalid configuration" [("errors", .group (numbered 0 problems))] }

theorem code_of_mem_report {problem : Fault} (h : problem ∈ c.report) :
    problem.code = .invalidConfig := by
  obtain ⟨place, -, hplace⟩ := List.mem_filterMap.1 h
  obtain ⟨reason, -, rfl⟩ := Option.map_eq_some_iff.1 hplace
  rfl

theorem withoutEmpty_numbered (index : Nat) (problems : List Fault) :
    Log.withoutEmpty (numbered index problems) = numbered index problems := by
  refine List.filter_eq_self.2 ?_
  induction problems generalizing index with
  | nil => exact fun _ h => absurd h List.not_mem_nil
  | cons problem rest ih => exact List.forall_mem_cons.2 ⟨rfl, ih (index + 1)⟩

/-- The attributes of several problems show them by number. -/
theorem problemAttrs_eq {problems : List Fault}
    (h : ∀ problem ∈ problems, problem.code = .invalidConfig) :
    Config.problemAttrs problems = [("errors", .group (numbered 0 problems))] := by
  have hnumbered : ∀ index, ((problems.zipIdx index).map fun entry =>
      (s!"e{entry.2}", Log.Value.groupOf [("msg",
        .text ((Error.fault .zero entry.1).withCode entry.1.code))])) =
      numbered index problems := by
    induction problems with
    | nil => exact fun _ => rfl
    | cons problem rest ih =>
      intro index
      obtain ⟨hcode, hrest⟩ := List.forall_mem_cons.1 h
      have htext : (Error.fault .zero problem).withCode .invalidConfig =
          s!"(E006) {problem.message}" := rfl
      rw [List.zipIdx_cons, List.map_cons, ih hrest, hcode, htext]
      rfl
  calc Config.problemAttrs problems
      = [("errors", Log.Value.groupOf (numbered 0 problems))] := by
        rw [← hnumbered 0]; rfl
    _ = [("errors", .group (numbered 0 problems))] := by
      rw [Log.Value.groupOf, withoutEmpty_numbered]

theorem noteRefusal_report {first : Fault} {others : List Fault}
    (h : c.report = first :: others) (p : Process) :
    p.noteRefusal (.invalid first others) = if 2 ≤ c.report.length then
      p.warned c.report else p := by
  cases others with
  | nil => rw [h]; rfl
  | cons other others =>
    have hattrs := problemAttrs_eq fun problem (hproblem : problem ∈ c.report) =>
      code_of_mem_report hproblem
    rw [h] at hattrs
    rw [h, if_pos (by simp), warned, ← hattrs]
    rfl

/-! ## The record -/

/-- The word that shows a problem under its number. -/
def problemWord (index : Nat) (problem : Fault) : String :=
  let shown := Text.quote s!"(E006) {problem.message}"
  s!"errors.e{index}.msg={shown}"

/-- The words that show problems by number, counted from `index`. -/
def words (index : Nat) : List Fault → List String
  | [] => []
  | problem :: rest => problemWord index problem :: words (index + 1) rest

/-- The code in front of a message makes it a text that is quoted. -/
theorem word_withCode (message : String) :
    Text.word s!"(E006) {message}" = Text.quote s!"(E006) {message}" := by
  have hblank : (s!"(E006) {message}").toList.any Text.needsQuotes = true := by
    rw [String.toList_append, List.any_append]
    exact Bool.or_eq_true_iff.2 (.inl (by decide +kernel))
  rw [Text.word, hblank, Bool.or_true, if_pos rfl]

/-- A numbered problem is one word. -/
theorem writeAttr_numbered (index : Nat) (problem : Fault) :
    Log.writeAttr (Text.bytes "errors.") (s!"e{index}",
        .group [("msg", .text s!"(E006) {problem.message}")]) =
      ⟨[problemWord index problem], Text.bytes "errors.", true⟩ := by
  have hnumber : Text.isPlainText s!"e{index}" = true := by
    rw [Text.isPlainText_append]
    exact Bool.and_eq_true_iff.2 ⟨by decide +kernel, Text.isPlainText_toString index⟩
  have hkey : Text.isPlainText ("errors." ++ s!"e{index}" ++ ".") = true := by
    rw [Text.isPlainText_append, Text.isPlainText_append, hnumber]
    decide +kernel
  have hplain : Text.isPlainText "msg" = true := by decide +kernel
  have hmsg :=
    Log.writeAttr_text hkey hplain (by decide) (by decide) s!"(E006) {problem.message}"
  have hword : "errors." ++ s!"e{index}" ++ "." ++ "msg" ++ "=" ++
      Text.quote s!"(E006) {problem.message}" = problemWord index problem := by
    simp [problemWord, ← String.toList_inj, toString]
  refine Log.writeAttr_group ?_ (by simp) ?_
  · simp
  · rw [Log.writeAttrs, hmsg, word_withCode, hword, Log.writeAttrs]
    rfl

theorem writeAttrs_numbered (index : Nat) (problems : List Fault) :
    Log.writeAttrs (Text.bytes "errors.") (numbered index problems) =
      ⟨words index problems, Text.bytes "errors.", !problems.isEmpty⟩ := by
  induction problems generalizing index with
  | nil => rw [numbered, Log.writeAttrs]; rfl
  | cons problem rest ih =>
    rw [numbered, Log.writeAttrs, writeAttr_numbered, ih]
    rfl

theorem forSection_config :
    Log.Logger.forSection "config" = ⟨["section=config"], [], [], ["config"]⟩ := by
  have hword : Text.joinedWord [] "section" ++ "=" ++ Text.word "config" =
      "section=config" := by decide +kernel
  have hwritten : Log.writeAttrs [] [("section", .text "config")] =
      ⟨["section=config"], [], true⟩ := by
    rw [Log.writeAttrs, Log.writeAttrs, Log.writeAttr, Log.writeWord,
      if_neg (by decide), hword]
    rfl
  simp only [Log.Logger.forSection, Log.Logger.withAttrs, Log.Logger.openScope,
    List.foldl_nil, hwritten]
  rfl

/-- **The record of a warning** shows the problems in order, each under its number. -/
theorem log_warned (p : Process) {problems : List Fault} (h : problems ≠ []) :
    (p.warned problems).log = p.log ++
      if p.settings.admits .warn then
        Log.line .warn "invalid configuration" ("section=config" :: words 0 problems)
      else "" := by
  obtain ⟨first, others, rfl⟩ := List.exists_cons_of_ne_nil h
  let attrs : List Log.Attr := [("errors", .group (numbered 0 (first :: others)))]
  let logger : Log.Logger := ⟨["section=config"], [], [], ["config"]⟩
  have hwritten : Log.writeAttrs logger.openScope attrs = ⟨words 0 (first :: others),
      Text.bytes "", true⟩ := by
    have hgroup : Log.writeAttr (Text.bytes "") ("errors",
        .group (numbered 0 (first :: others))) =
        ⟨words 0 (first :: others), Text.bytes "", true⟩ :=
      Log.writeAttr_group (by decide) (List.cons_ne_nil _ _)
        (writeAttrs_numbered 0 (first :: others))
    rw [show logger.openScope = Text.bytes "" from rfl, Log.writeAttrs, hgroup,
      Log.writeAttrs, List.append_nil]
    rfl
  have hwrites : logger.writes p.settings .warn attrs = p.settings.admits .warn := by
    rw [Log.Logger.writes, decide_eq_true (by decide), Bool.true_or, Bool.and_true]
  have hlog : logger.log p.settings .warn "invalid configuration" attrs =
      if p.settings.admits .warn then
        Log.line .warn "invalid configuration"
          ("section=config" :: words 0 (first :: others))
      else "" := by
    have hkept : Log.withoutEmpty attrs = attrs := rfl
    simp only [Log.Logger.log, hkept, hwrites, hwritten]
    rfl
  rw [warned, forSection_config, hlog]

/-! ## What validation does -/

theorem validate_of_report_nil (h : c.report = []) (p : Process) :
    p.validate c = (.ok c, p) := by
  rw [validate, Config.validate, Config.problems_eq_report, h]

theorem validate_of_report_cons {first : Fault} {others : List Fault}
    (h : c.report = first :: others) (p : Process) :
    p.validate c = (.error (.invalid first others),
      if 2 ≤ c.report.length then p.warned c.report else p) := by
  rw [validate, Config.validate, Config.problems_eq_report, ← noteRefusal_report h, h]

/-- **Validation reports exactly the problems, in order.** A configuration passes just
when its report is empty. Otherwise it is refused for the first problem of the report.
A warning is logged just when there are several problems: it is one record, and it
carries the whole report, numbered from zero. A setup validates what it has decoded,
and fails with what validation has returned. -/
theorem validate_reports (p : Process) (c : Config) :
    ((p.validate c).1 = .ok c ↔ c.report = []) ∧
      (∀ first others, c.report = first :: others →
        (p.validate c).1 = .error (.invalid first others)) ∧
      (p.validate c).2 = (if 2 ≤ c.report.length then p.warned c.report else p) ∧
      (2 ≤ c.report.length → p.settings.admits .warn = true →
        (p.validate c).2.log = p.log ++
          Log.line .warn "invalid configuration" ("section=config" :: words 0 c.report)) ∧
      ∀ (decode : Decoder) path text first others, decode text = .ok c →
        c.report = first :: others →
        ∃ e, p.setup decode path (.ok text) = (.error e, (p.validate c).2) ∧
          e.message = s!"config {path}: {first.message}" := by
  have hprocess : (p.validate c).2 = if 2 ≤ c.report.length then
      p.warned c.report else p := by
    cases hreport : c.report with
    | nil => rw [validate_of_report_nil hreport]; rfl
    | cons first others => rw [validate_of_report_cons hreport, hreport]
  refine ⟨?_, ?_, hprocess, ?_, ?_⟩
  · constructor
    · intro hok
      cases hreport : c.report with
      | nil => rfl
      | cons first others =>
        rw [validate_of_report_cons hreport] at hok
        cases hok
    · exact fun hreport => by rw [validate_of_report_nil hreport]
  · intro first others hreport
    rw [validate_of_report_cons hreport]
  · intro hseveral hadmits
    have hsome : c.report ≠ [] :=
      List.ne_nil_of_length_pos (Nat.lt_of_lt_of_le Nat.zero_lt_two hseveral)
    rw [hprocess, if_pos hseveral, log_warned p hsome, if_pos hadmits]
  · intro decode path text first others hdecoded hreport
    refine ⟨.unloadable path (.invalid first others), ?_, rfl⟩
    rw [setup_decoded hdecoded, validate_of_report_cons hreport]

/-- A configuration with a level that means nothing, and between two good entries one
without a name, whose type has an open bracket. -/
def faultyText : String :=
  "log:\n  level: loud\ntypes:\n  - name: a\n  - type: '[int'\n  - name: b\n    type: int?\n"

/-- Three problems of two entries and the level make one record. -/
theorem validate_reports_faulty :
    ∃ c first others e, Config.decode faultyText = .ok c ∧ c.report = first :: others ∧
      first = .invalidConfig "log.level" "unknown level 'loud'" ∧
      others = [.invalidConfig "types[1].name" "must not be empty",
        .invalidConfig "types[1].type" "unexpected bracket or '?' in '[int'"] ∧
      (({} : Process).validate c).1 = .error (.invalid first others) ∧
      (({} : Process).validate c).2.log =
        "level=WARN msg=\"invalid configuration\" section=config " ++
          "errors.e0.msg=\"(E006) invalid configuration for 'log.level': unknown level 'loud'\" " ++
          "errors.e1.msg=\"(E006) invalid configuration for 'types[1].name': must not be empty\" " ++
          "errors.e2.msg=\"(E006) invalid configuration for 'types[1].type': unexpected bracket or '?' in '[int'\"\n" ∧
      ({} : Process).setup Config.decode "faulty.yaml" (.ok faultyText) =
        (.error e, (({} : Process).validate c).2) ∧
      e.message =
        "config faulty.yaml: invalid configuration for 'log.level': unknown level 'loud'" := by
  let c : Config :=
    { log := { level := "loud" },
      types := [{ name := "a" }, { type := "[int" }, { name := "b", type := "int?" }] }
  have hdecoded : Config.decode faultyText = .ok c := by
    have hsome : (Config.decode faultyText).toOption = some c := by decide +kernel
    cases h : Config.decode faultyText with
    | error e => simp [h, Except.toOption] at hsome
    | ok d => simpa [h, Except.toOption] using hsome
  have hreport : c.report = .invalidConfig "log.level" "unknown level 'loud'" ::
      [.invalidConfig "types[1].name" "must not be empty",
        .invalidConfig "types[1].type"
          "unexpected bracket or '?' in '[int'"] := by decide +kernel
  obtain ⟨-, hrefused, -, hlog, hsetup⟩ := validate_reports {} c
  obtain ⟨e, hrun, hmessage⟩ :=
    hsetup Config.decode "faulty.yaml" faultyText _ _ hdecoded hreport
  refine ⟨c, _, _, e, hdecoded, hreport, rfl, rfl,
    hrefused _ _ hreport, ?_, hrun, hmessage⟩
  rw [hlog (by rw [hreport]; decide) (by decide), hreport]
  decide +kernel

end Command.Process

end TypeGraph
