import Gridlock.Analysis.Analyzer
import Gridlock.Proofs.Consistency
import Gridlock.Proofs.Renaming

/-!
# Analyses do not affect each other

An analyzer starts its session anew for every trace. The graph is then in a new epoch and has no rows, but it is
not the graph of a new analyzer: the epoch is another, and the vertices of earlier epochs are still outside the
table. Neither shows in a finding, as the vertices of the two epochs can be exchanged. A file is read as a whole before
the session starts anew, so that one that is no trace leaves everything as it is.

* `Analyzer.finding_analyze` : what an analyzer finds, whatever it and its session have been through
* `Analyzer.analyzeFile_cases` : what an analyzer does with a file; `Failed`, `analyzeFile_of_failed`
* `SharedAnalyzer`, `SharedAnalyzer.run` : an analyzer whose graph is shared, and its history
* `SharedAnalyzer.finding_run` : what it finds after any history
-/

namespace Gridlock

/-- What an analysis adds to a finding: what another finding says of the trace, and the warnings of the trace. -/
def Finding.withResult (base result : Finding) (warnings : List Text) : Finding :=
  { base with
    warnings := base.warnings ++ warnings
    hasDeadlock := result.hasDeadlock
    cycles := result.cycles
    report := result.report
    suggestions := result.suggestions
    metrics := result.metrics }

namespace Analyzer

theorem orderly_loaded (a : Analyzer) (t : Trace) : (a.loaded t).graph.Orderly :=
  Session.orderly_feed (.of_rows_eq_nil rfl) t.script

/-- Sessions that load the same trace correspond. -/
theorem renamed_loaded (a a' : Analyzer) (t : Trace) : ∃ f, Session.Renamed f (a.loaded t) (a'.loaded t) :=
  ⟨_, (Session.Renamed.reset a.session a'.session).feed t.script⟩

/-- An analyzer finds what a new one finds. -/
theorem finding_analyze (a : Analyzer) (t : Trace) (base : Finding) :
    (a.analyze t base).2 = base.withResult (analyze {} t {}).2 (t.warnings.map (·.text)) := by
  obtain ⟨f, h⟩ := renamed_loaded {} a t
  unfold analyze Finding.withResult
  dsimp only
  rw [h.graph.hasDeadlock, h.graph.cycleNames, h.graph.metrics, h.graph.detect, f.deadlockReport_map,
    f.suggestions_map]

end Analyzer

/-! ## Files -/

/-- A finding that says why there has been no analysis, and no more. -/
def Finding.refusal (file : String) (warnings : List Text) (error : String) : Finding :=
  { file := file, warnings := warnings, errors := [error] }

namespace Analyzer

/-- Before a file is read, the finding on it refuses it or has nothing but warnings. -/
theorem inspect_cases {files : FileTree} {path : Path} {base : Finding} (h : inspect files path = .ok base) :
    (∃ error, base = .refusal path.text [] error) ∨ ∃ warnings, base = { file := path.text, warnings := warnings } := by
  unfold inspect at h
  cases hfound : files.has path.text with
  | error e =>
    rw [hfound] at h
    cases h
  | ok found =>
    rw [hfound] at h
    cases found with
    | false =>
      cases h
      exact Or.inl ⟨_, rfl⟩
    | true =>
      rcases hlook : files.lookup path.text with e | content | - | size | - <;> rw [hlook] at h <;> cases h
      · exact Or.inl ⟨_, rfl⟩
      · exact Or.inr ⟨_, rfl⟩
      · exact Or.inl ⟨_, rfl⟩
      · exact Or.inr ⟨_, rfl⟩
      · exact Or.inl ⟨_, rfl⟩

/-- A file is no trace, which leaves every analyzer as it is, or a trace, for which every analyzer starts anew. -/
theorem analyzeFile_cases (files : FileTree) (path : Path) :
    (∃ outcome, (∀ a : Analyzer, a.analyzeFile files path = (a, outcome)) ∧
      ∀ f, outcome = .ok f → ∃ warnings error, f = .refusal path.text warnings error) ∨
    (∃ t warnings, ∀ a : Analyzer, a.analyzeFile files path =
      ((a.analyze t { file := path.text, warnings := warnings }).1,
        .ok (a.analyze t { file := path.text, warnings := warnings }).2)) := by
  unfold analyzeFile
  cases hbase : inspect files path with
  | error e => exact Or.inl ⟨_, fun _ => rfl, by simp⟩
  | ok base =>
    rcases inspect_cases hbase with ⟨error, rfl⟩ | ⟨warnings, rfl⟩
    · refine Or.inl ⟨_, fun _ => rfl, ?_⟩
      rintro f hf
      cases hf
      exact ⟨[], error, rfl⟩
    · dsimp only
      simp only [List.isEmpty_nil, Bool.not_true, Bool.false_eq_true, if_false]
      cases ht : Trace.load files path with
      | ok t => exact Or.inr ⟨t, warnings, fun _ => rfl⟩
      | error e =>
        by_cases hformat : e.isFormat = true
        · simp only [hformat, if_true]
          refine Or.inl ⟨_, fun _ => rfl, ?_⟩
          rintro f hf
          cases hf
          exact ⟨warnings, _, rfl⟩
        · simp only [hformat]
          exact Or.inl ⟨_, fun _ => rfl, by simp⟩

/-- Whether an analysis has failed: it has stopped, or its finding has errors. -/
def Failed : Except TraceError Finding → Prop
  | .error _ => True
  | .ok f => f.errors ≠ []

instance : DecidablePred Failed
  | .error _ => inferInstanceAs (Decidable True)
  | .ok f => inferInstanceAs (Decidable (f.errors ≠ []))

/-- An analysis of a file that fails leaves the analyzer as it is, with its session and what it has detected last. If
there is a finding, it has one error and no result. -/
theorem analyzeFile_of_failed (a : Analyzer) (files : FileTree) (path : Path)
    (h : Failed (a.analyzeFile files path).2) :
    (a.analyzeFile files path).1 = a ∧
      ∀ f, (a.analyzeFile files path).2 = .ok f →
        f.hasDeadlock = false ∧ f.cycles = [] ∧ f.metrics = [] ∧ f.report = "" ∧ ∃ error, f.errors = [error] := by
  rcases analyzeFile_cases files path with ⟨outcome, hall, hfail⟩ | ⟨t, warnings, hall⟩
  · rw [hall a]
    refine ⟨rfl, ?_⟩
    intro f hf
    obtain ⟨warnings, error, rfl⟩ := hfail f hf
    exact ⟨rfl, rfl, rfl, rfl, error, rfl⟩
  · rw [hall a] at h
    exact absurd rfl h

/-- An analyzer that has seen a thread take a lock. -/
def holding : Analyzer :=
  (analyze {} { threads := [{ thread := "T", events := [{ action := .acquire, thread := "T", lock := some "L" }] }] }
    {}).1

def noise : FileTree :=
  { entries := [(["t.json"], .file ⟨#[255]⟩)] }

/-- A file that is not there, a directory, and a file that is no text. -/
theorem analyzeFile_of_failed_holding :
    holding.session.heldBy "T" = [Text.plain "L"] ∧
      ∀ path ∈ ["s.json", ".", "t.json"].map Path.ofString, Failed (holding.analyzeFile noise path).2 ∧
        (holding.analyzeFile noise path).1 = holding ∧
          ∀ f, (holding.analyzeFile noise path).2 = .ok f → f.hasDeadlock = false ∧ f.cycles = [] ∧
            f.metrics = [] ∧ f.report = "" ∧ ∃ error, f.errors = [error] := by
  have hfailed : ∀ path ∈ ["s.json", ".", "t.json"].map Path.ofString, Failed (holding.analyzeFile noise path).2 := by
    decide +kernel
  refine ⟨by decide +kernel, ?_⟩
  intro path hpath
  exact ⟨hfailed path hpath, analyzeFile_of_failed holding noise path (hfailed path hpath)⟩

end Analyzer

/-! ## Histories -/

/-- An analyzer, and sessions that share its graph. The session of the analyzer is the first. -/
structure SharedAnalyzer where
  pool : Pool
  lastDetection : Option Detection := none

namespace SharedAnalyzer

/-- A new analyzer, beside `others` sessions that have seen nothing. -/
def ofSize (others : Nat) : SharedAnalyzer :=
  { pool := .ofSize (others + 1) }

def analyzer (s : SharedAnalyzer) : Analyzer :=
  ⟨s.pool.session 0, s.lastDetection⟩

def update (s : SharedAnalyzer) (a : Analyzer) : SharedAnalyzer :=
  ⟨s.pool.update 0 a.session, a.lastDetection⟩

/-- What can happen to an analyzer that others share the graph of. -/
inductive Use
  /-- It analyzes a trace. -/
  | trace (t : Trace) (base : Finding)
  /-- It analyzes a file, or stops at it. -/
  | file (files : FileTree) (path : Path)
  /-- A session, which may be its own, is called. -/
  | call (i : Nat) (call : Session.Call)
  /-- The graph is changed by hand. -/
  | edit (change : Graph → Graph)

def use (s : SharedAnalyzer) : Use → SharedAnalyzer
  | .trace t base => s.update (s.analyzer.analyze t base).1
  | .file files path => s.update (s.analyzer.analyzeFile files path).1
  | .call i call => { s with pool := s.pool.call (i, call) }
  | .edit change => { s with pool := { s.pool with graph := change s.pool.graph } }

def run (s : SharedAnalyzer) (uses : List Use) : SharedAnalyzer :=
  uses.foldl use s

/-- After any history, an analysis sets what a new analyzer finds in the trace alone. It adds the warnings of
the trace to those that were there, and leaves the file and its errors. -/
theorem finding_run (others : Nat) (uses : List Use) (t : Trace) (base : Finding) :
    let finding := (((ofSize others).run uses).analyzer.analyze t base).2
    let alone := (Analyzer.analyze {} t {}).2
    finding.hasDeadlock = alone.hasDeadlock ∧ finding.cycles = alone.cycles ∧
      finding.report = alone.report ∧ finding.suggestions = alone.suggestions ∧
      finding.metrics = alone.metrics ∧
      finding.warnings = base.warnings ++ t.warnings.map (·.text) ∧
      finding.errors = base.errors ∧ finding.file = base.file := by
  intro finding alone
  have h : finding = base.withResult alone _ := Analyzer.finding_analyze _ t base
  rw [h]
  exact ⟨rfl, rfl, rfl, rfl, rfl, rfl, rfl, rfl⟩

end SharedAnalyzer

end Gridlock
