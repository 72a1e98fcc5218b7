import Gridlock.Proofs.Diagnosis
import Gridlock.Proofs.Exporting
import Gridlock.Proofs.Logging
import Gridlock.Proofs.Publishing

/-!
# What a run makes of its files

A run has one analyzer for all files. What it notes down of a file is still what it would note down if the file
were the only one: the analyzer starts anew for every trace, and a log that goes to the console leaves the files
as they are. So a run is described file by file. Its end is not: one file whose report cannot be printed keeps all
reports back.

* `Fate`, `Settings.fate` : what becomes of a file
* `diagnose`, `isAnalyzed` : what a new analyzer makes of it, and whether it makes anything of it
* `Work.visit_of_reached`, `Work.visitAll_append` : one file, and a row of files
* `Unprintable`, `garbled_entries` : files whose reports cannot be printed
* `analyzeAll_of_goesOn`, `analyzeAll_of_unprintable` : a run that visits all of its files, and prints its reports or
  not; `analyzeAll_of_unreachable`, `analyzeAll_of_lost` : one that ends at a file before
* `IsName`, `ofWords_of_take` : the words of a command line that name files
* `sampleConsole`, `bareConsole`, `longName` : files to run on, and a name that is too long
-/

namespace Gridlock

/-! ## One analyzer for all files -/

namespace CommandLine

variable {lib : Multigraph}

/-- The entry of the summary that a file gets from an analyzer, unless its analysis stops. -/
def Settings.entryFor? (lib : Multigraph) (s : Settings) (files : FileTree) (path : Path) (a : Analyzer) :
    Option SummaryEntry :=
  match a.analyzeFile files path with
  | (a, .ok f) => some (Work.entryOf lib a s path f)
  | (_, .error _) => none

/-- Every analyzer gives a file the same entry. -/
theorem Settings.entryFor?_eq (s : Settings) (files : FileTree) (path : Path) (a : Analyzer) :
    s.entryFor? lib files path a = s.entryFor? lib files path {} := by
  unfold entryFor?
  rcases Analyzer.analyzeFile_cases files path with ⟨outcome, hall, hfail⟩ | ⟨t, warnings, hall⟩
  · rw [hall a, hall {}]
    cases outcome with
    | error e => rfl
    | ok f =>
      obtain ⟨warnings, error, rfl⟩ := hfail f rfl
      have hnonempty : (Finding.refusal path.text warnings error).errors.isEmpty = false := rfl
      simp only [Work.entryOf, hnonempty, Bool.and_false]
      rfl
  · -- the graphs of the two analyzers differ in how often they have been emptied, which is not exported
    have hfinding (base : Finding) : (a.analyze t base).2 = (Analyzer.analyze {} t base).2 :=
      (a.finding_analyze t base).trans (Analyzer.finding_analyze {} t base).symm
    obtain ⟨f, hf⟩ := Analyzer.renamed_loaded {} a t
    have hexport (base : Finding) : (a.analyze t base).1.session.graph.exportTo lib =
        (Analyzer.analyze {} t base).1.session.graph.exportTo lib := hf.graph.exportTo lib
    rw [hall a, hall {}]
    simp only [Work.entryOf, hfinding, hexport]

theorem Settings.regular_of_entryFor? {s : Settings} {files : FileTree} {path : Path} {entry : SummaryEntry}
    (h : s.entryFor? lib files path {} = some entry) : entry.finding.Regular := by
  unfold entryFor? at h
  split at h
  · next a f hf =>
    cases h
    exact Analyzer.regular_of_analyzeFile hf
  · cases h

/-! ## What becomes of a file -/

inductive Fate
  /-- Its path cannot be looked up. -/
  | unreachable (e : FileError)
  /-- It is not there, or its analysis stops. -/
  | lost
  /-- It is analyzed, and noted down. -/
  | found (entry : SummaryEntry)

namespace Fate

def item? : Fate → Option SummaryEntry
  | found entry => some entry
  | _ => none

def isFound (fate : Fate) : Bool :=
  fate.item?.isSome

/-- Whether the file is one that a run complains about. -/
def isFault : Fate → Bool
  | found entry => !entry.finding.errors.isEmpty
  | _ => true

end Fate

/-- What becomes of a file that is the only one. -/
def Settings.fate (lib : Multigraph) (s : Settings) (files : FileTree) (file : String) : Fate :=
  match files.has (Path.ofString file).text with
  | .error e => .unreachable e
  | .ok false => .lost
  | .ok true =>
    match s.entryFor? lib files (Path.ofString file) {} with
    | some entry => .found entry
    | none => .lost

/-- What a new analyzer makes of a file. -/
def diagnose (files : FileTree) (file : String) : Analyzer × Except TraceError Finding :=
  Analyzer.analyzeFile {} files (Path.ofString file)

def Reachable (files : FileTree) (file : String) : Prop :=
  ∃ found, files.has (Path.ofString file).text = .ok found

/-- Whether the file is there and its analysis does not stop. -/
def isAnalyzed (files : FileTree) (file : String) : Bool :=
  match files.has (Path.ofString file).text with
  | .ok true => (diagnose files file).2.isOk
  | _ => false

def Unprintable (files : FileTree) (file : String) : Prop :=
  ∃ f, (diagnose files file).2 = .ok f ∧ f.Garbled

section Fate
variable {files : FileTree} {file : String}

theorem fate_of_error (lib : Multigraph) (s : Settings) {e : FileError}
    (h : files.has (Path.ofString file).text = .error e) : s.fate lib files file = .unreachable e := by
  unfold Settings.fate
  rw [h]

theorem reachable_of_analyzed (h : isAnalyzed files file = true) : Reachable files file := by
  unfold isAnalyzed at h
  split at h
  · next hhas => exact ⟨true, hhas⟩
  · cases h

/-- A file that is analyzed gets the entry that a new analyzer gives it. -/
theorem fate_of_analyzed (lib : Multigraph) (s : Settings) (h : isAnalyzed files file = true) :
    ∃ a f, diagnose files file = (a, .ok f) ∧
      s.fate lib files file = .found (Work.entryOf lib a s (Path.ofString file) f) := by
  unfold isAnalyzed at h
  split at h
  · next hhas =>
    cases hd : diagnose files file with
    | mk a outcome =>
      cases outcome with
      | error e =>
        rw [hd] at h
        cases h
      | ok f =>
        refine ⟨a, f, rfl, ?_⟩
        unfold diagnose at hd
        unfold Settings.fate Settings.entryFor?
        rw [hhas, hd]
  · cases h

theorem item?_of_analyzed (lib : Multigraph) (s : Settings) (h : isAnalyzed files file = true) :
    ∃ a f, diagnose files file = (a, .ok f) ∧
      (s.fate lib files file).item? = some (Work.entryOf lib a s (Path.ofString file) f) := by
  obtain ⟨a, f, hf, hfate⟩ := fate_of_analyzed lib s h
  refine ⟨a, f, hf, ?_⟩
  rw [hfate]
  rfl

theorem fate_of_not_analyzed (lib : Multigraph) (s : Settings) (h : isAnalyzed files file = false) :
    (∃ e, files.has (Path.ofString file).text = .error e ∧ s.fate lib files file = .unreachable e) ∨
      Reachable files file ∧ s.fate lib files file = .lost := by
  unfold Reachable Settings.fate Settings.entryFor?
  unfold isAnalyzed diagnose at h
  cases hhas : files.has (Path.ofString file).text with
  | error e => exact Or.inl ⟨e, rfl, rfl⟩
  | ok found =>
    refine Or.inr ⟨⟨found, rfl⟩, ?_⟩
    cases found with
    | false => rfl
    | true =>
      rw [hhas] at h
      cases hd : Analyzer.analyzeFile {} files (Path.ofString file) with
      | mk a outcome =>
        rw [hd] at h
        cases outcome with
        | error e => rfl
        | ok f => cases h

/-- The report on a file that is not there has nothing in it but the name of the file. -/
theorem isAnalyzed_of_unprintable (h : Unprintable files file) : isAnalyzed files file = true := by
  obtain ⟨f, hf, hgarbled⟩ := h
  unfold isAnalyzed
  cases hhas : files.has (Path.ofString file).text with
  | error e =>
    unfold diagnose Analyzer.analyzeFile Analyzer.inspect at hf
    rw [hhas] at hf
    cases hf
  | ok found =>
    cases found with
    | false =>
      unfold diagnose Analyzer.analyzeFile Analyzer.inspect at hf
      rw [hhas] at hf
      cases hf
      simp [Finding.Garbled] at hgarbled
    | true =>
      dsimp only
      rw [hf]
      rfl

end Fate

/-- Whether the run goes on after a file. In CI mode it does not after a file that was not analyzed. -/
def Settings.goesOn (s : Settings) : Fate → Bool
  | .unreachable _ => false
  | .lost => !s.ciMode
  | .found _ => true

namespace Work

/-- The files are these, and the log does not write to them. -/
structure Sees (files : FileTree) (w : Work) : Prop where
  files : w.console.files = files
  log : w.log.Unfiled

/-- Entries were noted down from one state of a run to another, and there was a fault or not. -/
structure Noted (files : FileTree) (entries : List SummaryEntry) (fault : Bool) (w w' : Work) : Prop
    extends w'.Sees files where
  entries : w'.entries = w.entries ++ entries
  hadError : w'.hadError = (w.hadError || fault)

section Visit
variable {files : FileTree} {w w' w'' : Work}

theorem Noted.trans {es es' : List SummaryEntry} {fault fault' : Bool} (h : Noted files es fault w w')
    (h' : Noted files es' fault' w' w'') : Noted files (es ++ es') (fault || fault') w w'' where
  files := h'.files
  log := h'.log
  entries := by rw [h'.entries, h.entries, List.append_assoc]
  hadError := by rw [h'.hadError, h.hadError, Bool.or_assoc]

theorem Sees.noted (hw : w.Sees files) : Noted files [] false w w :=
  ⟨hw, (List.append_nil _).symm, (Bool.or_false _).symm⟩

theorem Sees.say (hw : w.Sees files) (s : Settings) (line : String) : Noted files [] false w (w.say s line) := by
  unfold Work.say
  split
  · exact hw.noted
  · exact ⟨⟨hw.files, hw.log⟩, hw.noted.entries, hw.noted.hadError⟩

theorem analyzer_say (w : Work) (s : Settings) (line : String) : (w.say s line).analyzer = w.analyzer := by
  unfold Work.say
  split <;> rfl

theorem Sees.follow (hw : w.Sees files) (now : Moment) (records : List Log.Record) :
    Noted files [] false w (w.follow now records) := by
  obtain ⟨hlog, hfiles⟩ := Log.Registry.unfiled_sendAll now (w.log, w.console) hw.log records
  exact ⟨⟨hfiles.trans hw.files, hlog⟩, hw.noted.entries, hw.noted.hadError⟩

theorem Sees.complain (hw : w.Sees files) (line : String) : Noted files [] true w (w.complain line) where
  files := hw.files
  log := hw.log
  entries := (List.append_nil _).symm
  hadError := (Bool.or_true _).symm

theorem Sees.record (hw : w.Sees files) (s : Settings) (a : Analyzer) (path : Path) (f : Finding) :
    Noted files [entryOf lib a s path f] (!f.errors.isEmpty) w (w.record lib s a path f) := by
  have hfold (errors : List String) (w : Work) (hw : w.Sees files) :
      Noted files [] (!errors.isEmpty) w (errors.foldl (fun w e => w.complain ("Error: " ++ e)) w) := by
    induction errors generalizing w with
    | nil => exact hw.noted
    | cons e errors ih =>
      have hcomplain := hw.complain ("Error: " ++ e)
      have hrest := hcomplain.trans (ih _ hcomplain.toSees)
      rwa [Bool.true_or] at hrest
  have hnoted : Noted files [entryOf lib a s path f] false w
      { w with analyzer := a, entries := w.entries ++ [entryOf lib a s path f] } :=
    ⟨⟨hw.files, hw.log⟩, rfl, (Bool.or_false _).symm⟩
  exact hnoted.trans (hfold f.errors _ hnoted.toSees)

/-- A file that is there. -/
theorem Sees.examine (hw : w.Sees files) (s : Settings) (now : Moment) (path : Path) :
    ∃ w', w.examine lib s now path = (w', (s.entryFor? lib files path {}).isSome) ∧
      Noted files (s.entryFor? lib files path {}).toList
        ((s.entryFor? lib files path {}).all fun entry => !entry.finding.errors.isEmpty) w w' := by
  have hsaid := hw.say s ("Analyzing " ++ path.text ++ "...")
  rw [← s.entryFor?_eq files path w.analyzer]
  unfold Work.examine Settings.entryFor?
  dsimp only
  rw [hw.files, analyzer_say]
  cases w.analyzer.analyzeFile files path with
  | mk a outcome =>
    cases outcome with
    | error e =>
      have hkept : Noted files [] false (w.say s ("Analyzing " ++ path.text ++ "..."))
          { w.say s ("Analyzing " ++ path.text ++ "...") with analyzer := a } :=
        ⟨⟨hsaid.files, hsaid.log⟩, (List.append_nil _).symm, (Bool.or_false _).symm⟩
      have hcomplain := (hsaid.trans hkept).trans
        (hkept.complain ("Error analyzing " ++ path.text ++ ": " ++ e.message))
      refine ⟨_, rfl, ?_⟩
      by_cases hdebug : s.debug = true
      · rw [if_pos hdebug]
        exact hcomplain.trans (hcomplain.complain "<traceback>")
      · rw [if_neg hdebug]
        exact hcomplain
    | ok f =>
      have hfollow := hsaid.trans (hsaid.follow now (w.analyzer.fileNotes files path))
      exact ⟨_, rfl, hfollow.trans (hfollow.record s a path f)⟩

/-- A file whose path can be looked up. -/
theorem visit_of_reached (hw : w.Sees files) (s : Settings) (now : Moment) {file : String}
    (h : ∀ e, s.fate lib files file ≠ .unreachable e) :
    ∃ w', w.visit lib s now file = (w', .ok (s.fate lib files file).isFound) ∧
      Noted files (s.fate lib files file).item?.toList (s.fate lib files file).isFault w w' := by
  unfold Work.visit
  dsimp only
  rw [hw.files]
  unfold Settings.fate at h ⊢
  cases hfound : files.has (Path.ofString file).text with
  | error e =>
    rw [hfound] at h
    exact absurd rfl (h e)
  | ok found =>
    cases found with
    | false => exact ⟨_, rfl, hw.complain _⟩
    | true =>
      obtain ⟨w', hexamine, hnoted⟩ := hw.examine s now (Path.ofString file)
      dsimp only
      rw [hexamine]
      refine ⟨w', ?_, ?_⟩
      · cases s.entryFor? lib files (Path.ofString file) {} <;> rfl
      · cases hentry : s.entryFor? lib files (Path.ofString file) {} with
        | none =>
          rw [hentry] at hnoted
          exact hnoted
        | some entry =>
          rw [hentry] at hnoted
          exact hnoted

theorem visit_of_unreachable (hw : w.Sees files) (s : Settings) (now : Moment) {file : String} {e : FileError}
    (h : s.fate lib files file = .unreachable e) : w.visit lib s now file = (w, .error (.file e)) := by
  have hhas : files.has (Path.ofString file).text = .error e := by
    unfold Settings.fate at h
    split at h
    · next e' he' =>
      cases h
      exact he'
    · cases h
    · split at h <;> cases h
  unfold Work.visit
  dsimp only
  rw [hw.files, hhas]

end Visit

/-! ## Rows of files -/

section VisitAll
variable {files : FileTree} {w : Work} {s : Settings}

theorem visitAll_cons_ok {w' : Work} {now : Moment} {file : String} {found : Bool}
    (h : w.visit lib s now file = (w', .ok found)) (rest : List String) : w.visitAll lib s now (file :: rest) =
      if s.ciMode && !found then (w', .ok false) else w'.visitAll lib s now rest := by
  rw [visitAll, h, proceed]

/-- Files after each of which the run goes on. -/
theorem visitAll_append (hw : w.Sees files) (now : Moment) {before : List String}
    (h : ∀ file ∈ before, s.goesOn (s.fate lib files file) = true) (rest : List String) :
    ∃ w', w.visitAll lib s now (before ++ rest) = w'.visitAll lib s now rest ∧
      Noted files (before.filterMap fun file => (s.fate lib files file).item?)
        (before.any fun file => (s.fate lib files file).isFault) w w' := by
  induction before generalizing w with
  | nil => exact ⟨w, rfl, hw.noted⟩
  | cons file before ih =>
    have hgoes := h file List.mem_cons_self
    have hreached : ∀ e, s.fate lib files file ≠ .unreachable e := by
      intro e he
      rw [he] at hgoes
      cases hgoes
    obtain ⟨w₁, hvisit, hnoted⟩ := visit_of_reached hw s now hreached
    obtain ⟨w', hrest, hnoted'⟩ := ih hnoted.toSees fun f hf => h f (List.mem_cons_of_mem file hf)
    have hcont : (s.ciMode && !(s.fate lib files file).isFound) = false := by
      cases hfate : s.fate lib files file with
      | unreachable e => exact absurd hfate (hreached e)
      | lost =>
        rw [hfate] at hgoes
        simpa [Fate.isFound, Fate.item?, Settings.goesOn] using hgoes
      | found entry => simp [Fate.isFound, Fate.item?]
    refine ⟨w', ?_, ?_⟩
    · rw [List.cons_append, visitAll_cons_ok hvisit, hcont, if_neg Bool.false_ne_true]
      exact hrest
    · have hboth := hnoted.trans hnoted'
      rw [List.any_cons]
      cases hentry : (s.fate lib files file).item? with
      | none =>
        rw [hentry] at hboth
        rw [List.filterMap_cons_none (f := fun file => (s.fate lib files file).item?) hentry]
        exact hboth
      | some entry =>
        rw [hentry] at hboth
        rw [List.filterMap_cons_some (f := fun file => (s.fate lib files file).item?) hentry]
        exact hboth

/-- In CI mode a file that is lost is the last one. -/
theorem visitAll_of_lost (hw : w.Sees files) (now : Moment) (hci : s.ciMode = true) {file : String}
    (h : s.fate lib files file = .lost) (rest : List String) :
    (w.visitAll lib s now (file :: rest)).2 = .ok false := by
  have hreached : ∀ e, s.fate lib files file ≠ .unreachable e := by
    rw [h]
    nofun
  obtain ⟨w', hvisit, -⟩ := visit_of_reached hw s now hreached
  rw [visitAll_cons_ok hvisit, h, hci]
  rfl

end VisitAll

end Work

/-! ## The whole run -/

/-- All files are of a kind, or there is a first one that is not. -/
theorem forall_or_first (p : String → Bool) (row : List String) :
    (∀ file ∈ row, p file = true) ∨
    ∃ before file after, row = before ++ file :: after ∧ (∀ f ∈ before, p f = true) ∧ p file = false := by
  cases hfind : row.find? (!p ·) with
  | none =>
    left
    intro file hfile
    simpa using List.find?_eq_none.mp hfind file hfile
  | some file =>
    obtain ⟨hfile, before, after, hrow, hbefore⟩ := List.find?_eq_some_iff_append.mp hfind
    right
    refine ⟨before, file, after, hrow, ?_, by simpa using hfile⟩
    intro f hf
    simpa using hbefore f hf

section Run
variable {s : Settings} {c : Console}

def Settings.entries (lib : Multigraph) (s : Settings) (files : FileTree) : List SummaryEntry :=
  s.files.filterMap fun file => (s.fate lib files file).item?

theorem Settings.regular_of_mem_entries {files : FileTree} {e : SummaryEntry} (h : e ∈ s.entries lib files) :
    e.finding.Regular := by
  obtain ⟨file, -, hitem⟩ := List.mem_filterMap.mp h
  unfold Settings.fate at hitem
  split at hitem
  · cases hitem
  · cases hitem
  · split at hitem
    · next entry hentry =>
      cases hitem
      exact s.regular_of_entryFor? hentry
    · cases hitem

theorem Settings.garbled_entries {files : FileTree} :
    (∃ e ∈ s.entries lib files, e.finding.Garbled) ↔ ∃ file ∈ s.files, Unprintable files file := by
  constructor
  · rintro ⟨e, he, hgarbled⟩
    obtain ⟨file, hfile, hitem⟩ := List.mem_filterMap.mp he
    cases h : isAnalyzed files file with
    | true =>
      obtain ⟨a, f, hf, hitem'⟩ := item?_of_analyzed lib s h
      cases hitem.symm.trans hitem'
      exact ⟨file, hfile, f, by rw [hf], hgarbled⟩
    | false =>
      rcases fate_of_not_analyzed lib s h with ⟨e, -, hfate⟩ | ⟨-, hfate⟩ <;> rw [hfate] at hitem <;> cases hitem
  · rintro ⟨file, hfile, hunprintable⟩
    obtain ⟨a, f, hf, hitem⟩ := item?_of_analyzed lib s (isAnalyzed_of_unprintable hunprintable)
    obtain ⟨f', hf', hgarbled⟩ := hunprintable
    rw [hf] at hf'
    cases hf'
    exact ⟨_, List.mem_filterMap.mpr ⟨file, hfile, hitem⟩, hgarbled⟩

/-- A run without a log file starts with nothing noted down, and ends as the visits of its files end. -/
theorem exists_start (lib : Multigraph) (hlog : s.logFile = none) (now : Moment) (c : Console) :
    ∃ w : Work, w.Sees c.files ∧ w.entries = [] ∧ w.hadError = false ∧
      ∀ w' outcome, w.visitAll lib s now s.files = (w', outcome) → analyzeAll lib s now c =
        match outcome with
        | .ok true => w'.finish s now
        | .ok false => ⟨.ok 3, w'.console⟩
        | .error e => ⟨.error e, w'.console⟩ := by
  obtain ⟨log, hsetup, hunfiled⟩ := Log.Registry.unfiled_initial.setup c.files "lockgraph" s.logLevel
  refine ⟨{ console := c, log := log }, ⟨rfl, hunfiled⟩, rfl, rfl, ?_⟩
  intro w' outcome hvisit
  unfold analyzeAll
  rw [hlog, hsetup]
  dsimp only
  rw [hvisit]
  rcases outcome with e | _ | _ <;> rfl

/-- If the run goes on after every file, it publishes what it has noted down. -/
theorem exists_finish (hlog : s.logFile = none) (now : Moment)
    (h : ∀ file ∈ s.files, s.goesOn (s.fate lib c.files file) = true) :
    ∃ w : Work, analyzeAll lib s now c = w.finish s now ∧ w.entries = s.entries lib c.files ∧
      w.hadError = (s.files.any fun file => (s.fate lib c.files file).isFault) ∧ w.console.files = c.files := by
  obtain ⟨w, hsees, hempty, herror, hrun⟩ := exists_start lib hlog now c
  obtain ⟨w', hvisit, hnoted⟩ := Work.visitAll_append hsees now h []
  refine ⟨w', ?_, ?_, ?_, hnoted.files⟩
  · rw [List.append_nil] at hvisit
    exact hrun w' (.ok true) (hvisit.trans rfl)
  · rw [hnoted.entries, hempty, List.nil_append]
    rfl
  · rw [hnoted.hadError, herror, Bool.false_or]

section GoesOn
variable (hlog : s.logFile = none) (hout : ∀ path, s.output = some path → c.files.Writable path) (now : Moment)
  (h : ∀ file ∈ s.files, s.goesOn (s.fate lib c.files file) = true)
include hlog hout h

theorem analyzeAll_of_goesOn (hplain : ∀ file ∈ s.files, ¬Unprintable c.files file)
    (hjson : ∀ path, s.json = some path → c.files.Writable path) :
    (analyzeAll lib s now c).exit =
        (if s.ciMode then
          (verdict (s.files.any fun file => (s.fate lib c.files file).isFault)
            ((s.entries lib c.files).flatMap (·.finding.cycles)).length s.maxDeadlocks).map (·.1)
        else .ok 0) ∧
      ∀ path, s.json = some path → s.entries lib c.files ≠ [] →
        (analyzeAll lib s now c).console.files.read path =
          .ok (summary now (s.entries lib c.files)).pretty.toUTF8 := by
  obtain ⟨w, hfinish, hentries, hfault, hfiles⟩ := exists_finish hlog now h
  have hregular : ∀ e ∈ w.entries, e.finding.Regular := fun e he => Settings.regular_of_mem_entries (hentries ▸ he)
  have hnone : ∀ e ∈ w.entries, ¬e.finding.Garbled := by
    intro e he hgarbled
    obtain ⟨file, hfile, hunprintable⟩ := Settings.garbled_entries.mp ⟨e, hentries ▸ he, hgarbled⟩
    exact hplain file hfile hunprintable
  rw [← hfiles] at hout hjson
  rw [hfinish, ← hentries, ← hfault]
  exact Work.finish_plain hregular hout now hnone hjson

theorem analyzeAll_of_unprintable (hunprintable : ∃ file ∈ s.files, Unprintable c.files file) :
    (∃ u, (analyzeAll lib s now c).exit = .error (.unencodable u)) ∧
      Work.Emptied s.output c.files (analyzeAll lib s now c).console.files := by
  obtain ⟨w, hfinish, hentries, -, hfiles⟩ := exists_finish hlog now h
  have hregular : ∀ e ∈ w.entries, e.finding.Regular := fun e he => Settings.regular_of_mem_entries (hentries ▸ he)
  have hgarbled : ∃ e ∈ w.entries, e.finding.Garbled := hentries ▸ Settings.garbled_entries.mpr hunprintable
  rw [← hfiles] at hout ⊢
  rw [hfinish]
  exact Work.finish_garbled hregular hout now hgarbled

end GoesOn

/-- If the run does not go on after a file, it ends there. -/
theorem analyzeAll_of_unreachable (hlog : s.logFile = none) (now : Moment) {before after : List String}
    {file : String} {e : FileError} (hfiles : s.files = before ++ file :: after)
    (h : ∀ file ∈ before, s.goesOn (s.fate lib c.files file) = true) (he : s.fate lib c.files file = .unreachable e) :
    (analyzeAll lib s now c).exit = .error (.file e) ∧ (analyzeAll lib s now c).console.files = c.files := by
  obtain ⟨w, hsees, -, -, hrun⟩ := exists_start lib hlog now c
  obtain ⟨w', hvisit, hnoted⟩ := Work.visitAll_append hsees now h (file :: after)
  rw [← hfiles, Work.visitAll, Work.visit_of_unreachable hnoted.toSees s now he] at hvisit
  rw [hrun w' _ hvisit]
  exact ⟨rfl, hnoted.files⟩

theorem analyzeAll_of_lost (hlog : s.logFile = none) (hci : s.ciMode = true) (now : Moment)
    {before after : List String} {file : String} (hfiles : s.files = before ++ file :: after)
    (h : ∀ file ∈ before, s.goesOn (s.fate lib c.files file) = true) (he : s.fate lib c.files file = .lost) :
    (analyzeAll lib s now c).exit = .ok 3 := by
  obtain ⟨w, hsees, -, -, hrun⟩ := exists_start lib hlog now c
  obtain ⟨w', hvisit, hnoted⟩ := Work.visitAll_append hsees now h (file :: after)
  have hlast := Work.visitAll_of_lost hnoted.toSees now hci he after
  rw [← hfiles] at hvisit
  cases hend : w'.visitAll lib s now (file :: after) with
  | mk w'' outcome =>
    rw [hend] at hlast
    rw [hrun w'' outcome (hvisit.trans hend), show outcome = .ok false from hlast]

/-- A run with files to analyze. -/
theorem run_eq (lib : Multigraph) {args : List String} (hargs : Settings.ofWords args = .ok s)
    (hfiles : s.files ≠ []) (now : Moment) (c : Console) : run lib now c args = analyzeAll lib s now c := by
  unfold run
  rw [hargs]
  dsimp only
  rw [if_neg (by simpa using hfiles)]

end Run

/-! ## Command lines that name files -/

/-- A word that is no switch. -/
def IsName (w : String) : Prop :=
  w.toList.head? ≠ some '-'

theorem words_of_names {names : List String} (h : ∀ w ∈ names, IsName w) : words names = .ok (names.map .plain) := by
  induction names with
  | nil => rfl
  | cons w names ih =>
    have hw := h w List.mem_cons_self
    have hdash : w ≠ "--" := by
      rintro rfl
      exact hw rfl
    have hplain : Word.ofString w = .ok (.plain w) := by
      unfold Word.ofString
      rw [if_pos (show w.toList.head? ≠ some '-' ∨ w = "-" from Or.inl hw)]
    rw [words, if_neg hdash, hplain, ih fun w' hw' => h w' (List.mem_cons_of_mem w hw')]
    rfl

theorem take_of_names (p : Progress) (h : p.row ≠ .after) (names : List String) :
    ∃ row, p.take (names.map .plain) =
      .ok { p with row := row, settings.files := p.settings.files ++ names } := by
  induction names generalizing p with
  | nil => exact ⟨p.row, by simp [Progress.take]⟩
  | cons w names ih =>
    have hplain : p.plain w = { p with row := .within, settings.files := p.settings.files ++ [w] } := by
      unfold Progress.plain
      rw [if_neg h]
    obtain ⟨row, hrow⟩ := ih (p.plain w) (by rw [hplain]; nofun)
    refine ⟨row, ?_⟩
    rw [List.map_cons, Progress.take, hrow, hplain]
    simp

/-- A command line of switches, and of names after them. -/
theorem ofWords_of_take {args names : List String} {ws : List Word} {s : Settings} (hwords : words args = .ok ws)
    (htake : ({} : Progress).take ws = Progress.take { settings := s } (names.map .plain)) :
    Settings.ofWords args = .ok { s with files := s.files ++ names } := by
  obtain ⟨row, hnames⟩ := take_of_names { settings := s } (by simp) names
  unfold Settings.ofWords
  rw [hwords]
  dsimp only
  rw [htake, hnames]
  rfl

/-! ## Files to run on -/

/-- What the exit code of a run is made of. -/
structure Gist where
  errors : List String := []
  cycles : List (List Text) := []
  garbled : Bool := false
deriving DecidableEq

def gist (f : Finding) : Gist :=
  ⟨f.errors, f.cycles, f.Garbled⟩

theorem unprintable_iff_of_gist {files : FileTree} {file : String} {g : Gist}
    (h : ∃ f, (diagnose files file).2 = .ok f ∧ gist f = g) : Unprintable files file ↔ g.garbled = true := by
  obtain ⟨f, hf, rfl⟩ := h
  unfold Unprintable
  rw [hf]
  simp [gist]

section Text
variable {files : FileTree} {file text : String}
  (h : files.lookup (Path.ofString file).text = .ok (.file text.toUTF8))
include h

theorem isAnalyzed_of_text {f : Finding} (hf : (diagnose files file).2 = .ok f) : isAnalyzed files file = true := by
  unfold isAnalyzed FileTree.has
  rw [h]
  dsimp only
  rw [hf]
  rfl

variable (hbreaks : '\r' ∉ text.toList)
include hbreaks

theorem diagnose_of_text : (diagnose files file).2 =
    match Trace.ofText (Path.ofString file).text text.toList with
    | .ok t => .ok (Analyzer.analyze {} { t with source := (Path.ofString file).text }
        (Analyzer.unread (Path.ofString file) text.toUTF8.size)).2
    | .error e =>
      if e.isFormat then
        .ok { Analyzer.unread (Path.ofString file) text.toUTF8.size with
          errors := ["ERROR loading trace " ++ (Path.ofString file).text ++ ": " ++ e.message] }
      else .error e := by
  have hbytes : Trace.ofBytes (Path.ofString file).text text.toUTF8.data.toList =
      Trace.ofText (Path.ofString file).text text.toList := by
    rw [← Trace.ofBytes_utf8Encode hbreaks, String.utf8Encode_toList]
    rfl
  rw [← hbytes]
  exact Analyzer.analyzeFile_of_file {} h

/-- A file with a text that is a trace. -/
theorem gist_of_trace {j : Json} {g : Gist} (hparse : Json.parse text.toList = .ok j)
    (hg : (Trace.ofJson? j).map (fun t => gist (Analyzer.analyze {} { t with source := (Path.ofString file).text }
      (Analyzer.unread (Path.ofString file) text.toUTF8.size)).2) = some g) :
    isAnalyzed files file = true ∧ ∃ f, (diagnose files file).2 = .ok f ∧ gist f = g := by
  obtain ⟨t, ht, hgist⟩ := Option.map_eq_some_iff.mp hg
  have hf := diagnose_of_text h hbreaks
  unfold Trace.ofText Trace.ofJson at hf
  rw [hparse] at hf
  dsimp only at hf
  rw [ht] at hf
  exact ⟨isAnalyzed_of_text h hf, _, hf, hgist⟩

/-- A file with a text that is no JSON. -/
theorem gist_of_malformed {cause : Json.Fault.Cause} {left : Nat}
    (hparse : Json.parse text.toList = .error (.malformed cause left)) :
    isAnalyzed files file = true ∧ ∃ f, (diagnose files file).2 = .ok f ∧ gist f =
      { errors := ["ERROR loading trace " ++ (Path.ofString file).text ++ ": " ++
        (TraceError.malformed (Path.ofString file).text (Text.positionOf text.toList left) cause).message] } := by
  have hf := diagnose_of_text h hbreaks
  unfold Trace.ofText at hf
  rw [hparse] at hf
  dsimp only at hf
  rw [if_pos (show (TraceError.malformed _ _ cause).isFormat = true from rfl)] at hf
  exact ⟨isAnalyzed_of_text h hf, _, hf, by simp [gist, Finding.Garbled, Analyzer.unread]⟩

end Text

def bareConsole : Console :=
  { files := { entries := [(["t.json"], .file "[]".toUTF8)] } }

/-- A thread that takes a lock inside another one. -/
def nestedThread (name outer inner : Text) : Json :=
  .obj [("id", .str name),
    ("regions", .arr [.obj [("resource", .str outer), ("body", .arr [.obj [("resource", .str inner)]])]])]

def nestedText (name outer inner : String) : String :=
  "\x7b\"id\":\"" ++ name ++ "\",\"regions\":[\x7b\"resource\":\"" ++ outer ++
    "\",\"body\":[\x7b\"resource\":\"" ++ inner ++ "\"\x7d]\x7d]\x7d"

/-- Two threads that take two locks in opposite orders. -/
def crossedText : String :=
  "[" ++ nestedText "A" "L" "M" ++ "," ++ nestedText "B" "M" "L" ++ "]"

/-- A thread that has half a character for a name, and an entry that is no event. -/
def halfText : String :=
  "[\x7b\"id\":\"\\ud800\",\"events\":[5]\x7d]"

/-- A console with the two, and a file that ends too early. -/
def sampleConsole : Console :=
  { files := { entries := [(["crossed.json"], .file crossedText.toUTF8), (["half.json"], .file halfText.toUTF8),
      (["torn.json"], .file "[".toUTF8)] } }

def sampleNames : List String :=
  ["crossed.json", "torn.json", "gone.json", "half.json"]

theorem onePart_sampleNames : ∀ name ∈ "t.json" :: sampleNames,
    FileTree.OnePart name ∧ name.utf8ByteSize ≤ FileTree.nameLimit := by
  decide +kernel

theorem lookup_sample {name : String} (hname : name ∈ "t.json" :: sampleNames) {files : FileTree} {entry : Entry}
    (h : files.entryAt (files.home ++ [name]) = some entry) :
    files.lookup (Path.ofString name).text = .ok entry := by
  obtain ⟨hpart, hshort⟩ := onePart_sampleNames name hname
  rw [hpart.text_eq, hpart.lookup_eq, if_neg (Nat.not_lt.mpr hshort), h]
  rfl

theorem isAnalyzed_bareConsole : isAnalyzed bareConsole.files "t.json" = true := by
  have hfile : bareConsole.files.lookup (Path.ofString "t.json").text = .ok (.file "[]".toUTF8) :=
    lookup_sample (by decide) (by simp [bareConsole, FileTree.entryAt])
  exact (gist_of_trace hfile (by decide) (j := .arr []) (g := {}) (by cbv) (by decide +kernel)).1

theorem entryAt_sampleConsole :
    sampleConsole.files.entryAt ["crossed.json"] = some (.file crossedText.toUTF8) ∧
    sampleConsole.files.entryAt ["half.json"] = some (.file halfText.toUTF8) ∧
    sampleConsole.files.entryAt ["torn.json"] = some (.file "[".toUTF8) ∧
    sampleConsole.files.entryAt ["gone.json"] = none := by
  simp [sampleConsole, FileTree.entryAt, List.lookup_cons]

theorem parse_crossedText :
    Json.parse crossedText.toList = .ok (.arr [nestedThread "A" "L" "M", nestedThread "B" "M" "L"]) := by
  simp only [crossedText, nestedText, String.toList_append]
  cbv

theorem parse_halfText : Json.parse halfText.toList =
    .ok (.arr [.obj [("id", .str (.broken "" 0 "")), ("events", .arr [.num (.whole 5)])]]) := by
  cbv

theorem parse_torn : Json.parse "[".toList = .error (.malformed .noValue 0) := by
  cbv

theorem gist_crossed : isAnalyzed sampleConsole.files "crossed.json" = true ∧
    ∃ f, (diagnose sampleConsole.files "crossed.json").2 = .ok f ∧
      gist f = { cycles := [["A", "M", "B", "L", "A"]] } := by
  have hbreaks : '\r' ∉ crossedText.toList := by
    simp only [crossedText, nestedText, String.toList_append]
    decide
  exact gist_of_trace (lookup_sample (by decide) entryAt_sampleConsole.1) hbreaks parse_crossedText (by decide +kernel)

theorem gist_half : isAnalyzed sampleConsole.files "half.json" = true ∧
    ∃ f, (diagnose sampleConsole.files "half.json").2 = .ok f ∧ gist f = { garbled := true } :=
  gist_of_trace (lookup_sample (by decide) entryAt_sampleConsole.2.1) (by decide) parse_halfText (by decide +kernel)

theorem gist_torn : isAnalyzed sampleConsole.files "torn.json" = true ∧
    ∃ f, (diagnose sampleConsole.files "torn.json").2 = .ok f ∧ gist f = { errors :=
      ["ERROR loading trace torn.json: Invalid JSON in torn.json (line 1, column 2): Expecting value"] } := by
  have hfile : sampleConsole.files.lookup (Path.ofString "torn.json").text = .ok (.file "[".toUTF8) :=
    lookup_sample (by decide) entryAt_sampleConsole.2.2.1
  obtain ⟨hanalyzed, f, hf, hgist⟩ := gist_of_malformed hfile (by decide) parse_torn
  exact ⟨hanalyzed, f, hf, hgist.trans (by decide +kernel)⟩

theorem isName_sampleNames : ∀ w ∈ sampleNames, IsName w := by
  unfold IsName
  decide

theorem has_gone {files : FileTree} (h : files.entryAt (files.home ++ ["gone.json"]) = none) :
    files.has (Path.ofString "gone.json").text = .ok false := by
  obtain ⟨hpart, hshort⟩ := onePart_sampleNames "gone.json" (by decide)
  exact hpart.has_of_none hshort h

theorem isAnalyzed_gone : isAnalyzed sampleConsole.files "gone.json" = false := by
  unfold isAnalyzed
  rw [has_gone entryAt_sampleConsole.2.2.2]

theorem reachable_sampleNames : ∀ file ∈ sampleNames, Reachable sampleConsole.files file := by
  simpa [sampleNames] using ⟨reachable_of_analyzed gist_crossed.1, reachable_of_analyzed gist_torn.1,
    ⟨false, has_gone entryAt_sampleConsole.2.2.2⟩, reachable_of_analyzed gist_half.1⟩

theorem unprintable_sampleNames : ∀ file ∈ sampleNames, Unprintable sampleConsole.files file ↔ file = "half.json" := by
  have hgone : ¬ Unprintable sampleConsole.files "gone.json" := by
    intro h
    cases isAnalyzed_gone.symm.trans (isAnalyzed_of_unprintable h)
  simp [sampleNames, unprintable_iff_of_gist gist_crossed.2, unprintable_iff_of_gist gist_torn.2, hgone,
    unprintable_iff_of_gist gist_half.2]

/-- A name of one character more than a part of a path may have. -/
def longName : String :=
  String.ofList (List.replicate 256 'a')

theorem toList_longName : longName.toList = List.replicate 256 'a' :=
  String.toList_ofList

theorem utf8ByteSize_longName : longName.utf8ByteSize = 256 := by
  have hsize : ∀ n, (String.ofList (List.replicate n 'a')).utf8ByteSize = n := by
    intro n
    induction n with
    | zero => rfl
    | succ n ih =>
      rw [List.replicate_succ', String.ofList_append, String.utf8ByteSize_append, ih]
      rfl
  exact hsize 256

theorem onePart_longName : FileTree.OnePart longName where
  slash := by
    rw [toList_longName]
    exact fun h => absurd (List.eq_of_mem_replicate h) (by decide)
  null := by
    rw [toList_longName]
    exact fun h => absurd (List.eq_of_mem_replicate h) (by decide)
  short := by
    rw [utf8ByteSize_longName]
    decide
  proper h := by
    have hsize : ∀ part ∈ ["", ".", ".."], part.utf8ByteSize ≤ 2 := by decide
    have hlong := hsize _ h
    rw [utf8ByteSize_longName] at hlong
    omega

theorem nameLimit_lt_longName : FileTree.nameLimit < longName.utf8ByteSize := by
  rw [utf8ByteSize_longName]
  decide

theorem lookup_longName (files : FileTree) : files.lookup longName = .error .tooLong := by
  rw [onePart_longName.lookup_eq, if_pos nameLimit_lt_longName]

theorem has_longName (files : FileTree) :
    files.has (Path.ofString longName).text = .error ⟨.tooLong, longName⟩ :=
  onePart_longName.has_of_long nameLimit_lt_longName files

theorem isName_longName : IsName longName := by
  unfold IsName
  rw [toList_longName]
  decide

end CommandLine

end Gridlock
