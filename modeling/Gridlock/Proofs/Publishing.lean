import Gridlock.CommandLine.Run
import Gridlock.Proofs.Isolation
import Gridlock.Proofs.Writing

/-!
# What a run publishes

Reports are printed or written in one piece, so that a single lone half keeps all of them back. It comes from a
warning or from the name of a thread or lock in a cycle; all else in a report is made of characters. In a summary,
halves are written by number, and nothing is kept back.

* `Text.HasHalf`, `Text.hasHalf_iff` : the texts that cannot be printed
* `hasHalf_deadlockReport`, `exists_of_hasHalf_suggestions` : reports on cycles
* `Finding.Garbled`, `Finding.hasHalf_renderWith` : reports on files, if the finding is a `Finding.Regular` one;
  `Analyzer.regular_of_analyzeFile` : those of an analyzer are
* `Work.publishReports_plain`, `Work.publishReports_garbled` : all reports of a run
* `Work.publishSummary_spec` : the summary
* `Work.finish_plain`, `Work.finish_garbled` : the end of a run
-/

namespace Gridlock

/-! ## Texts that cannot be printed -/

namespace Text

def HasHalf (t : Text) : Prop :=
  ∃ h, CodePoint.half h ∈ t.points

/-- A text cannot be printed if there is a lone half in it. -/
theorem hasHalf_iff {t : Text} : t.HasHalf ↔ ∃ f, t.encode = .error f := by
  cases t with
  | plain run => simp [HasHalf, points, encode]
  | broken run half rest =>
    refine iff_of_true ⟨half, ?_⟩ ⟨_, rfl⟩
    rw [points]
    exact List.mem_append_right _ List.mem_cons_self

theorem exists_plain_of_not_hasHalf {t : Text} (h : ¬t.HasHalf) : ∃ s, t = plain s := by
  cases t with
  | plain run => exact ⟨run, rfl⟩
  | broken run half rest => exact absurd (hasHalf_iff.mpr ⟨_, rfl⟩) h

@[simp] theorem not_hasHalf_plain (s : String) : ¬(plain s).HasHalf := by
  simp [HasHalf, points]

instance : DecidablePred HasHalf
  | plain _ => .isFalse (not_hasHalf_plain _)
  | broken _ _ _ => .isTrue (hasHalf_iff.mpr ⟨_, rfl⟩)

@[simp] theorem hasHalf_append {s t : Text} : (s ++ t).HasHalf ↔ s.HasHalf ∨ t.HasHalf := by
  simp only [HasHalf, points_append, List.mem_append, exists_or]

@[simp] theorem hasHalf_intercalate {s : String} {l : List Text} :
    (intercalate s l).HasHalf ↔ ∃ t ∈ l, t.HasHalf := by
  induction l with
  | nil => simp [intercalate]
  | cons t l ih =>
    by_cases hl : l = []
    · simp [hl, intercalate]
    · rw [intercalate_cons_of_ne_nil hl, hasHalf_append, hasHalf_append, ih]
      simp

/-- A half is no blank. -/
theorem half_mem_dropWhile {s : List CodePoint} {h : Half} :
    CodePoint.half h ∈ s.dropWhile CodePoint.isBlank ↔ CodePoint.half h ∈ s := by
  induction s with
  | nil => rfl
  | cons p s ih =>
    rw [List.dropWhile_cons]
    split
    · next hblank =>
      rw [ih, List.mem_cons]
      refine ⟨Or.inr, Or.rec ?_ id⟩
      rintro rfl
      cases hblank
    · rfl

theorem half_mem_trimEndPoints {s : List CodePoint} {h : Half} :
    CodePoint.half h ∈ trimEndPoints s ↔ CodePoint.half h ∈ s := by
  rw [trimEndPoints, List.mem_reverse, half_mem_dropWhile, List.mem_reverse]

@[simp] theorem hasHalf_trimEnd {t : Text} : t.trimEnd.HasHalf ↔ t.HasHalf := by
  simp only [HasHalf, trimEnd, points_ofPoints, half_mem_trimEndPoints]

@[simp] theorem hasHalf_trim {t : Text} : t.trim.HasHalf ↔ t.HasHalf := by
  simp only [HasHalf, trim, trimPoints, points_ofPoints, half_mem_trimEndPoints, half_mem_dropWhile]

end Text

/-! ## Reports on cycles -/

def AnyHalf (lines : List Text) : Prop :=
  ∃ line ∈ lines, line.HasHalf

instance (lines : List Text) : Decidable (AnyHalf lines) :=
  inferInstanceAs (Decidable (∃ line ∈ lines, line.HasHalf))

@[simp] theorem not_anyHalf_nil : ¬AnyHalf [] := by
  simp [AnyHalf]

@[simp] theorem anyHalf_cons {t : Text} {lines : List Text} : AnyHalf (t :: lines) ↔ t.HasHalf ∨ AnyHalf lines := by
  simp [AnyHalf]

@[simp] theorem anyHalf_append {lines lines' : List Text} :
    AnyHalf (lines ++ lines') ↔ AnyHalf lines ∨ AnyHalf lines' := by
  simp only [AnyHalf, List.mem_append, or_and_right, exists_or]

@[simp] theorem hasHalf_unlines {lines : List Text} : (unlines lines).HasHalf ↔ AnyHalf lines :=
  Text.hasHalf_intercalate

/-- Numbers hold no halves. -/
theorem anyHalf_numbered {α : Type} {line : String → α → List Text} {items : List α} {p : α → Prop}
    (h : ∀ n a, AnyHalf (line n a) ↔ p a) : AnyHalf (numbered line items) ↔ ∃ a ∈ items, p a := by
  unfold numbered
  generalize 1 = start
  induction items generalizing start with
  | nil => simp
  | cons a items ih => simp [List.zipIdx_cons, h, ih]

section Cycles
variable {cycles : List (List Node)}

theorem hasHalf_cycleText {cycle : List Node} : (cycleText cycle).HasHalf ↔ ∃ n ∈ cycle, n.name.HasHalf := by
  have hpart (n : Node) : (n.name ++ if n.isProcess then ("(process)" : Text) else "(resource)").HasHalf ↔
      n.name.HasHalf := by
    split <;> simp
  unfold cycleText
  rw [Text.hasHalf_intercalate]
  simp only [List.mem_map, exists_exists_and_eq_and, hpart]

/-- A report on cycles names all threads and locks in them. -/
theorem hasHalf_deadlockReport : (deadlockReport cycles).HasHalf ↔ ∃ c ∈ cycles, ∃ n ∈ c, n.name.HasHalf := by
  unfold deadlockReport
  split
  · next h => simp [List.isEmpty_iff.mp h]
  · rw [Text.hasHalf_append, hasHalf_unlines, anyHalf_cons,
      anyHalf_numbered (p := fun c => ∃ n ∈ c, n.name.HasHalf) fun n c => by simp [hasHalf_cycleText]]
    simp

theorem anyHalf_cycleAdvice (n : String) (cycle : List Node) :
    AnyHalf (cycleAdvice n cycle) ↔ 2 ≤ (lockOrder cycle).length ∧ AnyHalf (lockOrder cycle) := by
  unfold cycleAdvice
  dsimp only
  split
  · next h => simp [h, AnyHalf]
  · next h => simp [h]

theorem not_anyHalf_generalAdvice : ¬AnyHalf generalAdvice := by
  simp [generalAdvice]

/-- Advice names only what is in the cycles. -/
theorem exists_of_hasHalf_suggestions (h : (suggestions cycles).HasHalf) :
    ∃ c ∈ cycles, ∃ n ∈ c, n.name.HasHalf := by
  have hcycles : ∃ c ∈ cycles, 2 ≤ (lockOrder c).length ∧ AnyHalf (lockOrder c) := by
    unfold suggestions at h
    dsimp only at h
    split at h
    · simp at h
    · rw [Text.hasHalf_append, hasHalf_unlines, anyHalf_append, anyHalf_append, anyHalf_append,
        anyHalf_numbered (p := Text.HasHalf) (by simp), anyHalf_numbered anyHalf_cycleAdvice] at h
      simpa [show ¬∃ a ∈ generalAdvice, a.HasHalf from not_anyHalf_generalAdvice] using h
  obtain ⟨c, hc, -, t, ht, hhalf⟩ := hcycles
  obtain ⟨n, hn, rfl⟩ := List.mem_map.mp (List.mem_eraseDups.mp ht)
  exact ⟨c, hc, n, List.mem_of_mem_filter hn, hhalf⟩

end Cycles

/-! ## Reports on files -/

namespace Finding

/-- There is a lone half in a warning, or in the name of a thread or lock in a cycle. -/
def Garbled (f : Finding) : Prop :=
  AnyHalf f.warnings ∨ ∃ cycle ∈ f.cycles, AnyHalf cycle

instance : DecidablePred Garbled :=
  fun f => inferInstanceAs (Decidable (AnyHalf f.warnings ∨ ∃ cycle ∈ f.cycles, AnyHalf cycle))

theorem anyHalf_headed {heading : String} {lines : List Text} : AnyHalf (headed heading lines) ↔ AnyHalf lines := by
  simp [headed]

theorem anyHalf_listed {lines : List Text} : AnyHalf (listed lines) ↔ AnyHalf lines :=
  anyHalf_numbered fun n t => by simp

@[simp] theorem not_anyHalf_map_plain (lines : List String) : ¬AnyHalf (lines.map .plain) := by
  simp [AnyHalf]

theorem not_anyHalf_outcome (f : Finding) : ¬AnyHalf f.outcome := by
  unfold outcome
  split
  · simp
  · split <;> simp

/-- All that can hold halves in a report are the warnings and, if there is a deadlock, what is said of the cycles. -/
theorem hasHalf_renderWith {f : Finding} {now : Moment} {file seconds : String} :
    (f.renderWith now file seconds).HasHalf ↔
      AnyHalf f.warnings ∨ f.hasDeadlock = true ∧ (f.report.HasHalf ∨ f.suggestions.HasHalf) := by
  unfold renderWith
  rw [hasHalf_unlines]
  simp only [anyHalf_append, anyHalf_headed, not_anyHalf_outcome]
  have hfront : ¬AnyHalf (front now file seconds) := by simp [front]
  have hmetrics : ¬AnyHalf f.metricLines := by simp [metricLines]
  have herrors : ¬AnyHalf (if f.errors.isEmpty then [] else headed "❌ ERRORS" (listed (f.errors.map .plain))) := by
    split
    · simp
    · rw [anyHalf_headed, anyHalf_listed]
      exact not_anyHalf_map_plain _
  have hwarnings : AnyHalf (if f.warnings.isEmpty then [] else headed "⚠️  TRACE WARNINGS" (listed f.warnings)) ↔
      AnyHalf f.warnings := by
    split
    · next h => rw [List.isEmpty_iff.mp h]
    · rw [anyHalf_headed, anyHalf_listed]
  simp only [hfront, hmetrics, herrors, hwarnings, false_or]
  cases f.hasDeadlock <;> simp [anyHalf_headed]

/-- A finding as the analysis of a file gives it: its time was not measured, and its report can be printed unless it is
garbled. -/
structure Regular (f : Finding) : Prop where
  elapsed : f.elapsed = .real (.zero false)
  garbled : ∀ now file seconds, (f.renderWith now file seconds).HasHalf ↔ f.Garbled

end Finding

namespace Analyzer

theorem garbled_cycleNames {d : Detection} :
    (∃ cycle ∈ d.cycleNames, AnyHalf cycle) ↔ ∃ c ∈ d.cycles, ∃ n ∈ c, n.name.HasHalf := by
  simp only [Detection.cycleNames, AnyHalf, List.mem_map, exists_exists_and_eq_and]

theorem regular_analyze (a : Analyzer) (t : Trace) (file : String) (warnings : List Text) :
    (a.analyze t { file := file, warnings := warnings }).2.Regular where
  elapsed := rfl
  garbled now name seconds := by
    rw [Finding.hasHalf_renderWith]
    refine or_congr_right ?_
    show (!(a.loaded t).graph.detect.cycles.isEmpty) = true ∧
      ((deadlockReport (a.loaded t).graph.detect.cycles).HasHalf ∨
        (suggestions (a.loaded t).graph.detect.cycles).HasHalf) ↔
      ∃ cycle ∈ (a.loaded t).graph.detect.cycleNames, AnyHalf cycle
    rw [garbled_cycleNames, hasHalf_deadlockReport]
    constructor
    · rintro ⟨-, h | h⟩
      · exact h
      · exact exists_of_hasHalf_suggestions h
    · rintro ⟨c, hc, h⟩
      refine ⟨?_, .inl ⟨c, hc, h⟩⟩
      rw [Bool.not_eq_true', List.isEmpty_eq_false_iff]
      exact List.ne_nil_of_mem hc

theorem regular_refusal (file : String) (warnings : List Text) (error : String) :
    (Finding.refusal file warnings error).Regular where
  elapsed := rfl
  garbled now name seconds := by
    rw [Finding.hasHalf_renderWith]
    simp [Finding.refusal, Finding.Garbled]

theorem regular_of_analyzeFile {a a' : Analyzer} {files : FileTree} {path : Path} {f : Finding}
    (h : a.analyzeFile files path = (a', .ok f)) : f.Regular := by
  rcases analyzeFile_cases files path with ⟨outcome, hall, hfail⟩ | ⟨t, warnings, hall⟩
  · rw [hall a] at h
    cases h
    obtain ⟨warnings, error, rfl⟩ := hfail f rfl
    exact regular_refusal path.text warnings error
  · rw [hall a] at h
    cases h
    exact a.regular_analyze t path.text warnings

end Analyzer

/-! ## Publishing -/

namespace CommandLine.Work

variable {w : Work} {s : Settings}

/-- A report can be made of every finding. -/
theorem exists_renders {entries : List SummaryEntry} (h : ∀ e ∈ entries, e.finding.Regular) (now : Moment) :
    ∃ texts, (entries.mapM fun e => e.finding.render? now e.file) = some texts ∧
      (AnyHalf texts ↔ ∃ e ∈ entries, e.finding.Garbled) := by
  induction entries with
  | nil => exact ⟨[], rfl, by simp⟩
  | cons e entries ih =>
    obtain ⟨texts, htexts, hhalf⟩ := ih fun e' he' => h e' (List.mem_cons_of_mem e he')
    have hregular := h e List.mem_cons_self
    obtain ⟨seconds, hrender⟩ : ∃ seconds,
        e.finding.render? now e.file = some (e.finding.renderWith now e.file seconds) := by
      unfold Finding.render?
      rw [hregular.elapsed]
      exact ⟨_, rfl⟩
    refine ⟨e.finding.renderWith now e.file seconds :: texts, by rw [List.mapM_cons, hrender, htexts]; rfl, ?_⟩
    rw [anyHalf_cons, hregular.garbled, hhalf]
    simp

theorem exists_reports (h : ∀ e ∈ w.entries, e.finding.Regular) (now : Moment) :
    ∃ text, w.reports now = .ok text ∧ (text.HasHalf ↔ ∃ e ∈ w.entries, e.finding.Garbled) := by
  obtain ⟨texts, htexts, hhalf⟩ := exists_renders h now
  unfold reports
  rw [htexts]
  exact ⟨_, rfl, Text.hasHalf_intercalate.trans hhalf⟩

/-- What was noted down stays, and what could be written can still be written. -/
structure Keeps (w w' : Work) : Prop where
  entries : w'.entries = w.entries
  hadError : w'.hadError = w.hadError
  writable : ∀ path, w.console.files.Writable path → w'.console.files.Writable path

theorem Keeps.refl (w : Work) : Keeps w w :=
  ⟨rfl, rfl, fun _ => id⟩

theorem Keeps.trans {w' w'' : Work} (h : Keeps w w') (h' : Keeps w' w'') : Keeps w w'' where
  entries := h'.entries.trans h.entries
  hadError := h'.hadError.trans h.hadError
  writable path hpath := h'.writable path (h.writable path hpath)

theorem files_say (w : Work) (s : Settings) (line : String) :
    (w.say s line).console.files = w.console.files := by
  unfold Work.say
  split <;> rfl

theorem keeps_say (w : Work) (s : Settings) (line : String) : Keeps w (w.say s line) := by
  refine ⟨?_, ?_, fun path hpath => by rwa [files_say]⟩ <;>
  · unfold Work.say
    split <;> rfl

theorem saveAs_plain {path : String} (h : w.console.files.Writable path) (s : Settings) (text title : String) :
    ∃ w', w.saveAs s path text title = (w', .ok ()) ∧ Keeps w w' ∧
      w'.console.files.read path = .ok text.toUTF8 := by
  obtain ⟨files, hreplace, hwrite⟩ := h.write_plain text
  have hkeeps : Keeps w { w with console.files := files } := ⟨rfl, rfl, fun path hpath => hpath.replace hreplace⟩
  unfold saveAs save
  rw [hwrite]
  refine ⟨_, rfl, hkeeps.trans (keeps_say _ _ _), ?_⟩
  rw [files_say]
  exact FileTree.read_replace hreplace

theorem saveAs_unencodable {path : String} (h : w.console.files.Writable path) (s : Settings) {text : Text}
    {u : Text.Unencodable} (hu : text.encode = .error u) (title : String) :
    ∃ w', w.saveAs s path text title = (w', .error (.unencodable u)) ∧
      w.console.files.replace path .empty = .ok w'.console.files := by
  obtain ⟨files, hreplace, hwrite⟩ := h.write_unencodable hu
  unfold saveAs save
  rw [hwrite]
  exact ⟨_, rfl, hreplace⟩

/-- A report that is to be printed is not, and the file that it was to be written to is empty. -/
def Emptied (output : Option String) (files files' : FileTree) : Prop :=
  match output with
  | none => files' = files
  | some path => files.replace path .empty = .ok files'

section Reports
variable (h : ∀ e ∈ w.entries, e.finding.Regular) (hout : ∀ path, s.output = some path → w.console.files.Writable path)
  (now : Moment)
include h hout

theorem publishReports_plain (hplain : ∀ e ∈ w.entries, ¬e.finding.Garbled) :
    ∃ w', w.publishReports s now = (w', .ok ()) ∧ Keeps w w' := by
  obtain ⟨text, htext, hhalf⟩ := exists_reports h now
  have hnone : ¬text.HasHalf := by
    rw [hhalf]
    rintro ⟨e, he, hgarbled⟩
    exact hplain e he hgarbled
  obtain ⟨text, rfl⟩ := Text.exists_plain_of_not_hasHalf hnone
  unfold publishReports
  split
  · exact ⟨w, rfl, .refl w⟩
  · rw [htext]
    cases ho : s.output with
    | none => exact ⟨_, rfl, rfl, rfl, fun _ => id⟩
    | some path =>
      obtain ⟨w', hsave, hkeeps, -⟩ := saveAs_plain (hout path ho) s text "Report"
      exact ⟨w', hsave, hkeeps⟩

theorem publishReports_garbled (hgarbled : ∃ e ∈ w.entries, e.finding.Garbled) :
    ∃ w' u, w.publishReports s now = (w', .error (.unencodable u)) ∧
      Emptied s.output w.console.files w'.console.files := by
  obtain ⟨text, htext, hhalf⟩ := exists_reports h now
  obtain ⟨u, hu⟩ := Text.hasHalf_iff.mp (hhalf.mpr hgarbled)
  have hentries : ¬w.entries.isEmpty = true := by
    obtain ⟨e, he, -⟩ := hgarbled
    rw [List.isEmpty_iff]
    exact List.ne_nil_of_mem he
  unfold publishReports
  rw [if_neg hentries, htext]
  cases ho : s.output with
  | none =>
    refine ⟨w, u, ?_, rfl⟩
    show w.display text = _
    unfold display Console.display?
    rw [hu]
    rfl
  | some path =>
    obtain ⟨w', hsave, hfiles⟩ := saveAs_unencodable (hout path ho) s hu "Report"
    exact ⟨w', u, hsave, hfiles⟩

end Reports

theorem publishSummary_spec (hjson : ∀ path, s.json = some path → w.console.files.Writable path) (now : Moment) :
    ∃ w', w.publishSummary s now = (w', .ok ()) ∧ Keeps w w' ∧
      ∀ path, s.json = some path → w.entries ≠ [] →
        w'.console.files.read path = .ok (summary now w.entries).pretty.toUTF8 := by
  unfold publishSummary
  cases hj : s.json with
  | none => exact ⟨w, rfl, .refl w, nofun⟩
  | some path =>
    dsimp only
    split
    · next hempty => exact ⟨w, rfl, .refl w, fun _ _ hne => absurd (List.isEmpty_iff.mp hempty) hne⟩
    · obtain ⟨w', hsave, hkeeps, hread⟩ := saveAs_plain (hjson path hj) s (summary now w.entries).pretty "JSON report"
      refine ⟨w', hsave, hkeeps, ?_⟩
      rintro path' ⟨⟩ -
      exact hread

section Finish
variable (h : ∀ e ∈ w.entries, e.finding.Regular) (hout : ∀ path, s.output = some path → w.console.files.Writable path)
  (now : Moment)
include h hout

/-- The end of a run that has visited its files. -/
theorem finish_plain (hplain : ∀ e ∈ w.entries, ¬e.finding.Garbled)
    (hjson : ∀ path, s.json = some path → w.console.files.Writable path) :
    (w.finish s now).exit =
        (if s.ciMode then (verdict w.hadError w.cycleCount s.maxDeadlocks).map (·.1) else .ok 0) ∧
      ∀ path, s.json = some path → w.entries ≠ [] →
        (w.finish s now).console.files.read path = .ok (summary now w.entries).pretty.toUTF8 := by
  obtain ⟨w₁, hreports, hkeeps⟩ := publishReports_plain h hout now hplain
  obtain ⟨w₂, hsummary, hkeeps', hread⟩ :=
    publishSummary_spec (fun path hpath => hkeeps.writable path (hjson path hpath)) now
  have hboth := hkeeps.trans hkeeps'
  have hcycles : w₂.cycleCount = w.cycleCount := by
    unfold cycleCount
    rw [hboth.entries]
  rw [hkeeps.entries] at hread
  unfold finish
  rw [hreports]
  dsimp only
  rw [hsummary]
  dsimp only
  split
  · rw [hboth.hadError, hcycles]
    cases verdict w.hadError w.cycleCount s.maxDeadlocks with
    | error e => exact ⟨rfl, hread⟩
    | ok v => exact ⟨rfl, hread⟩
  · exact ⟨rfl, hread⟩

/-- The end of a run of which a report cannot be printed. -/
theorem finish_garbled (hgarbled : ∃ e ∈ w.entries, e.finding.Garbled) :
    (∃ u, (w.finish s now).exit = .error (.unencodable u)) ∧
      Emptied s.output w.console.files (w.finish s now).console.files := by
  obtain ⟨w', u, hreports, hfiles⟩ := publishReports_garbled h hout now hgarbled
  unfold finish
  rw [hreports]
  exact ⟨⟨u, rfl⟩, hfiles⟩

end Finish

end CommandLine.Work

end Gridlock
