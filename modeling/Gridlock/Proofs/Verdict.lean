import Gridlock.Proofs.Visiting

/-!
# The exit code in CI mode

In CI mode a run tells by its exit code whether all is well: 3 if something is wrong with a file, 2 if there are
more cycles than are allowed, and 0 else. All of this is up to what a new analyzer makes of each file, and not to
the order of the files. There are two exceptions, in which the run has no exit code. At a path that is too long to be
looked up it breaks off, unless a file before it already stops the run. And if all files are analyzed and the report on
one of them cannot be printed, it breaks off before its verdict.

* `Faulty`, `cyclesIn` : what is said of one file
* `BreaksOff` : the run comes to a path that cannot be looked up
* `Garbles` : the run comes to print reports and cannot
* `exit_cases` : how a run can end; `exit_eq_file_iff`, `exit_eq_unencodable_iff`, `exit_eq_verdict` : when it does so
* `exit_of_perm` : the order of the files does not matter
* `run_ciMode` : all of it
* `exit_longName` : the order of two files that are not there decides whether there is an exit code
-/

namespace Gridlock.CommandLine

variable {lib : Multigraph}

/-! ## One file -/

/-- The file is not there, or its analysis stops, or there are errors in what is found. -/
def Faulty (files : FileTree) (file : String) : Prop :=
  files.has (Path.ofString file).text = .ok false ∨ (∃ e, (diagnose files file).2 = .error e) ∨
    ∃ f, (diagnose files file).2 = .ok f ∧ f.errors ≠ []

def cyclesIn (files : FileTree) (file : String) : List (List Text) :=
  match (diagnose files file).2 with
  | .ok f => f.cycles
  | .error _ => []

section File
variable {s : Settings} {files : FileTree} {file : String}

theorem diagnose_of_error {e : FileError} (h : files.has (Path.ofString file).text = .error e) :
    (diagnose files file).2 = .error (.unreachable e) := by
  unfold diagnose Analyzer.analyzeFile Analyzer.inspect
  rw [h]
  rfl

theorem faulty_of_not_analyzed (h : isAnalyzed files file = false) : Faulty files file := by
  unfold isAnalyzed at h
  cases hhas : files.has (Path.ofString file).text with
  | error e => exact Or.inr (Or.inl ⟨_, diagnose_of_error hhas⟩)
  | ok found =>
    cases found with
    | false => exact Or.inl hhas
    | true =>
      rw [hhas] at h
      cases hd : (diagnose files file).2 with
      | error e => exact Or.inr (Or.inl ⟨e, hd⟩)
      | ok f =>
        rw [hd] at h
        cases h

theorem faulty_iff_of_analyzed {f : Finding} (h : isAnalyzed files file = true)
    (hf : (diagnose files file).2 = .ok f) : Faulty files file ↔ f.errors ≠ [] := by
  unfold Faulty
  rw [hf]
  constructor
  · rintro (hmissing | ⟨e, he⟩ | ⟨f', hf', herrors⟩)
    · unfold isAnalyzed at h
      rw [hmissing] at h
      cases h
    · cases he
    · cases hf'
      exact herrors
  · intro herrors
    exact Or.inr (Or.inr ⟨f, rfl, herrors⟩)

/-- A run complains about the files that are faulty. -/
theorem isFault_iff : (s.fate lib files file).isFault = true ↔ Faulty files file := by
  cases h : isAnalyzed files file with
  | false =>
    refine iff_of_true ?_ (faulty_of_not_analyzed h)
    rcases fate_of_not_analyzed lib s h with ⟨e, -, hfate⟩ | ⟨-, hfate⟩
    · rw [hfate]
      rfl
    · rw [hfate]
      rfl
  | true =>
    obtain ⟨a, f, hf, hfate⟩ := fate_of_analyzed lib s h
    rw [hfate, faulty_iff_of_analyzed h (by rw [hf])]
    show (!f.errors.isEmpty) = true ↔ _
    rw [Bool.not_eq_true', List.isEmpty_eq_false_iff]

theorem goesOn_of_analyzed (h : isAnalyzed files file = true) : s.goesOn (s.fate lib files file) = true := by
  obtain ⟨a, f, -, hfate⟩ := fate_of_analyzed lib s h
  rw [hfate]
  rfl

end File

/-! ## Rows of files -/

/-- The run comes to a path that cannot be looked up. -/
def BreaksOff (files : FileTree) (row : List String) (e : FileError) : Prop :=
  ∃ before file after, row = before ++ file :: after ∧ (∀ f ∈ before, isAnalyzed files f = true) ∧
    files.has (Path.ofString file).text = .error e

/-- All files are analyzed, and the report on one of them cannot be printed. -/
def Garbles (files : FileTree) (row : List String) : Prop :=
  (∀ file ∈ row, isAnalyzed files file = true) ∧ ∃ file ∈ row, Unprintable files file

theorem Garbles.of_perm {files : FileTree} {row row' : List String} (h : Garbles files row) (hperm : row'.Perm row) :
    Garbles files row' := by
  obtain ⟨hall, file, hfile, hunprintable⟩ := h
  exact ⟨fun file hfile => hall file (hperm.mem_iff.mp hfile), file, hperm.mem_iff.mpr hfile, hunprintable⟩

theorem not_garbles_of_breaksOff {files : FileTree} {row : List String} {e : FileError}
    (h : BreaksOff files row e) : ¬ Garbles files row := by
  rintro ⟨hall, -⟩
  obtain ⟨before, file, after, rfl, -, he⟩ := h
  obtain ⟨found, hfound⟩ := reachable_of_analyzed (hall file (List.mem_append_right before List.mem_cons_self))
  cases he.symm.trans hfound

section Row
variable {s : Settings} {files : FileTree}

theorem cycles_entries {row : List String} (h : ∀ file ∈ row, isAnalyzed files file = true) :
    (row.filterMap fun file => (s.fate lib files file).item?).flatMap (·.finding.cycles) =
      row.flatMap (cyclesIn files) := by
  induction row with
  | nil => rfl
  | cons file row ih =>
    have ih := ih fun f hf => h f (List.mem_cons_of_mem file hf)
    obtain ⟨a, f, hf, hitem⟩ := item?_of_analyzed lib s (h file List.mem_cons_self)
    have hcycles : cyclesIn files file = f.cycles := by
      unfold cyclesIn
      rw [hf]
    rw [List.filterMap_cons_some (f := fun file => (s.fate lib files file).item?) hitem, List.flatMap_cons,
      List.flatMap_cons, ih, hcycles]
    rfl

end Row

section Verdict
variable {hadError : Bool} {cycles : Nat} {max : Option Int}

theorem verdict_eq_three_iff : (verdict hadError cycles max).map (·.1) = .ok 3 ↔ hadError = true := by
  unfold verdict
  cases hadError with
  | true => exact iff_of_true rfl rfl
  | false =>
    refine iff_of_false ?_ Bool.false_ne_true
    simp only [Bool.false_eq_true, if_false]
    split
    · simp [Except.map]
    · split <;> simp [Except.map]

theorem verdict_some (m : Int) :
    (verdict false cycles (some m)).map (·.1) = .ok (if m < cycles then 2 else 0) := by
  unfold verdict
  simp only [Bool.false_eq_true, if_false]
  split <;> rfl

theorem noLimit_of_verdict {f : Failure} (h : (verdict hadError cycles max).map (·.1) = .error f) : f = .noLimit := by
  cases hadError with
  | true => cases h
  | false =>
    cases max with
    | none => exact (Except.error.inj h).symm
    | some m =>
      rw [verdict_some] at h
      cases h

end Verdict

section Exit
variable (lib : Multigraph) {s : Settings} {c : Console} (hci : s.ciMode = true) (hlog : s.logFile = none)
  (hout : ∀ path, s.output = some path → c.files.Writable path)
  (hjson : ∀ path, s.json = some path → c.files.Writable path) (now : Moment)

include hlog in
theorem exit_of_breaksOff {e : FileError} (h : BreaksOff c.files s.files e) :
    (analyzeAll lib s now c).exit = .error (.file e) := by
  obtain ⟨before, file, after, hfiles, hbefore, he⟩ := h
  exact (analyzeAll_of_unreachable hlog now hfiles (fun f hf => goesOn_of_analyzed (hbefore f hf))
    (fate_of_error lib s he)).1

include hci hlog hout hjson

/-- A run breaks off at a path, or it cannot print its reports, or it gives its verdict. -/
theorem exit_cases :
    (∃ e, BreaksOff c.files s.files e ∧ (analyzeAll lib s now c).exit = .error (.file e)) ∨
    (Garbles c.files s.files ∧ ∃ u, (analyzeAll lib s now c).exit = .error (.unencodable u)) ∨
    (¬ Garbles c.files s.files ∧ (analyzeAll lib s now c).exit =
      (verdict (s.files.any fun file => (s.fate lib c.files file).isFault)
        (s.files.flatMap (cyclesIn c.files)).length s.maxDeadlocks).map (·.1)) := by
  rcases forall_or_first (isAnalyzed c.files) s.files with hall | ⟨before, file, after, hfiles, hbefore, hfile⟩
  · have hgoes : ∀ file ∈ s.files, s.goesOn (s.fate lib c.files file) = true :=
      fun file hfile => goesOn_of_analyzed (hall file hfile)
    by_cases hunprintable : ∃ file ∈ s.files, Unprintable c.files file
    · exact .inr (.inl ⟨⟨hall, hunprintable⟩, (analyzeAll_of_unprintable hlog hout now hgoes hunprintable).1⟩)
    · have hprintable : ∀ file ∈ s.files, ¬Unprintable c.files file := fun file hfile h => hunprintable ⟨file, hfile, h⟩
      refine .inr (.inr ⟨fun h => hunprintable h.2, ?_⟩)
      rw [(analyzeAll_of_goesOn hlog hout now hgoes hprintable hjson).1, if_pos hci, Settings.entries,
        cycles_entries hall]
  · rcases fate_of_not_analyzed lib s hfile with ⟨e, he, -⟩ | ⟨-, hfate⟩
    · have hbreaks : BreaksOff c.files s.files e := ⟨before, file, after, hfiles, hbefore, he⟩
      exact .inl ⟨e, hbreaks, exit_of_breaksOff lib hlog now hbreaks⟩
    · have hmem : file ∈ s.files := by
        rw [hfiles]
        exact List.mem_append_right before List.mem_cons_self
      have hfault : (s.files.any fun file => (s.fate lib c.files file).isFault) = true :=
        List.any_eq_true.mpr ⟨file, hmem, isFault_iff.mpr (faulty_of_not_analyzed hfile)⟩
      refine .inr (.inr ⟨?_, ?_⟩)
      · rintro ⟨hall, -⟩
        cases hfile.symm.trans (hall file hmem)
      · rw [analyzeAll_of_lost hlog hci now hfiles (fun f hf => goesOn_of_analyzed (hbefore f hf)) hfate, hfault]
        rfl

theorem exit_eq_file_iff (e : FileError) :
    (analyzeAll lib s now c).exit = .error (.file e) ↔ BreaksOff c.files s.files e := by
  refine ⟨fun he => ?_, exit_of_breaksOff lib hlog now⟩
  rcases exit_cases lib hci hlog hout hjson now with ⟨e', hbreaks, hexit⟩ | ⟨-, u, hexit⟩ | ⟨-, hexit⟩
  · cases he.symm.trans hexit
    exact hbreaks
  · cases he.symm.trans hexit
  · cases noLimit_of_verdict (hexit.symm.trans he)

theorem exit_eq_unencodable_iff :
    (∃ u, (analyzeAll lib s now c).exit = .error (.unencodable u)) ↔ Garbles c.files s.files := by
  rcases exit_cases lib hci hlog hout hjson now with ⟨e, hbreaks, hexit⟩ | ⟨hgarbles, hexit⟩ | ⟨hnot, hexit⟩
  · refine iff_of_false ?_ (not_garbles_of_breaksOff hbreaks)
    rintro ⟨u, hu⟩
    cases hexit.symm.trans hu
  · exact iff_of_true hexit hgarbles
  · refine iff_of_false ?_ hnot
    rintro ⟨u, hu⟩
    cases noLimit_of_verdict (hexit.symm.trans hu)

theorem exit_eq_verdict (hbreaks : ∀ e, ¬ BreaksOff c.files s.files e) (hgarbles : ¬ Garbles c.files s.files) :
    (analyzeAll lib s now c).exit = (verdict (s.files.any fun file => (s.fate lib c.files file).isFault)
      (s.files.flatMap (cyclesIn c.files)).length s.maxDeadlocks).map (·.1) := by
  rcases exit_cases lib hci hlog hout hjson now with ⟨e, hbreak, -⟩ | ⟨hgarble, -⟩ | ⟨-, hexit⟩
  · exact absurd hbreak (hbreaks e)
  · exact absurd hgarble hgarbles
  · exact hexit

end Exit

theorem not_breaksOff {files : FileTree} {row : List String} (h : ∀ file ∈ row, Reachable files file)
    (e : FileError) : ¬ BreaksOff files row e := by
  rintro ⟨before, file, after, rfl, -, he⟩
  obtain ⟨found, hfound⟩ := h file (List.mem_append_right before List.mem_cons_self)
  rw [he] at hfound
  cases hfound

theorem any_isFault_iff {s : Settings} {files : FileTree} :
    (s.files.any fun file => (s.fate lib files file).isFault) = true ↔ ∃ file ∈ s.files, Faulty files file := by
  rw [List.any_eq_true]
  simp only [isFault_iff]

/-- What the exit code is made of does not depend on the order of the files. -/
theorem exit_of_perm (lib : Multigraph) {s : Settings} {c : Console} (hci : s.ciMode = true)
    (hlog : s.logFile = none) (hout : ∀ path, s.output = some path → c.files.Writable path)
    (hjson : ∀ path, s.json = some path → c.files.Writable path) (now : Moment)
    (hreach : ∀ file ∈ s.files, Reachable c.files file) {files' : List String} (hperm : files'.Perm s.files)
    (code : Nat) :
    (analyzeAll lib { s with files := files' } now c).exit = .ok code ↔ (analyzeAll lib s now c).exit = .ok code := by
  have hreach' : ∀ file ∈ files', Reachable c.files file := fun file hfile => hreach file (hperm.mem_iff.mp hfile)
  by_cases hgarbles : Garbles c.files s.files
  · obtain ⟨u, hu⟩ := (exit_eq_unencodable_iff lib hci hlog hout hjson now).mpr hgarbles
    obtain ⟨u', hu'⟩ := (exit_eq_unencodable_iff lib (s := { s with files := files' }) hci hlog hout hjson now).mpr
      (hgarbles.of_perm hperm)
    rw [hu, hu']
    simp
  · have hgarbles' : ¬ Garbles c.files files' := fun h => hgarbles (h.of_perm hperm.symm)
    have hany : (files'.any fun file => (Settings.fate lib { s with files := files' } c.files file).isFault) =
        s.files.any fun file => (s.fate lib c.files file).isFault := by
      rw [Bool.eq_iff_iff, any_isFault_iff, List.any_eq_true]
      simp only [isFault_iff, hperm.mem_iff]
    rw [exit_eq_verdict lib hci hlog hout hjson now (not_breaksOff hreach) hgarbles,
      exit_eq_verdict lib (s := { s with files := files' }) hci hlog hout hjson now (not_breaksOff hreach') hgarbles',
      hany, (hperm.flatMap_right _).length_eq]

/-- In CI mode a run breaks off if it comes to a path that cannot be looked up, or if it has analyzed all files and
cannot print the report on one of them. Else the exit code is 3 if one of the files is faulty, and if none is, it is 2
or 0 as there are more cycles in all files than are allowed or not. If all paths can be looked up, the order of the
files does not matter. -/
theorem run_ciMode (lib : Multigraph) {args : List String} {s : Settings} (hargs : Settings.ofWords args = .ok s)
    (hfiles : s.files ≠ []) (hci : s.ciMode = true) (hlog : s.logFile = none) (c : Console)
    (hout : ∀ path, s.output = some path → c.files.Writable path)
    (hjson : ∀ path, s.json = some path → c.files.Writable path) (now : Moment) :
    (∀ e, (run lib now c args).exit = .error (.file e) ↔ BreaksOff c.files s.files e) ∧
    ((∃ u, (run lib now c args).exit = .error (.unencodable u)) ↔ Garbles c.files s.files) ∧
    ((∀ e, ¬ BreaksOff c.files s.files e) → ¬ Garbles c.files s.files →
      ((run lib now c args).exit = .ok 3 ↔ ∃ file ∈ s.files, Faulty c.files file) ∧
      ((∀ file ∈ s.files, ¬ Faulty c.files file) →
        (∀ max, s.maxDeadlocks = some max → (run lib now c args).exit =
          .ok (if max < (s.files.flatMap (cyclesIn c.files)).length then 2 else 0)) ∧
        (s.maxDeadlocks = none → (run lib now c args).exit = .error .noLimit))) ∧
    ((∀ file ∈ s.files, Reachable c.files file) → ∀ args' files',
      Settings.ofWords args' = .ok { s with files := files' } → files'.Perm s.files →
        ∀ code, (run lib now c args').exit = .ok code ↔ (run lib now c args).exit = .ok code) := by
  rw [run_eq lib hargs hfiles now c]
  refine ⟨exit_eq_file_iff lib hci hlog hout hjson now, exit_eq_unencodable_iff lib hci hlog hout hjson now, ?_, ?_⟩
  · intro hbreaks hgarbles
    rw [exit_eq_verdict lib hci hlog hout hjson now hbreaks hgarbles]
    refine ⟨verdict_eq_three_iff.trans any_isFault_iff, fun hnone => ?_⟩
    have hsound : (s.files.any fun file => (s.fate lib c.files file).isFault) = false := by
      rw [← Bool.not_eq_true, any_isFault_iff]
      rintro ⟨file, hfile, hfaulty⟩
      exact hnone file hfile hfaulty
    rw [hsound]
    constructor
    · intro max hmax
      rw [hmax, verdict_some]
    · intro hmax
      rw [hmax]
      rfl
  · intro hreach args' files' hargs' hperm code
    have hne : files' ≠ [] := by
      intro hnil
      rw [hnil] at hperm
      exact hfiles hperm.nil_eq.symm
    rw [run_eq lib hargs' hne now c]
    exact exit_of_perm lib hci hlog hout hjson now hreach hperm code

/-! ## Runs -/

theorem ofWords_ciMode {names : List String} (h : ∀ w ∈ names, IsName w) :
    Settings.ofWords ("--ci-mode" :: names) = .ok { files := names, ciMode := true } := by
  have hswitch : Word.ofString "--ci-mode" = .ok (.switch .ciMode false none) := by decide +kernel
  have hwords : words ("--ci-mode" :: names) = .ok (.switch .ciMode false none :: names.map .plain) := by
    rw [words, if_neg (by decide), hswitch, words_of_names h]
    rfl
  have htake : ({} : Progress).take (.switch .ciMode false none :: names.map .plain) =
      Progress.take { settings := { ciMode := true } } (names.map .plain) := by
    rw [Progress.take]
    rfl
  exact ofWords_of_take hwords htake

theorem run_ciMode_sample :
    (∀ a ∈ sampleNames, ∀ b ∈ sampleNames,
      Settings.ofWords ["--ci-mode", a, b] = .ok { files := [a, b], ciMode := true }) ∧
    ∀ (lib : Multigraph) (now : Moment),
      (run lib now sampleConsole ["--ci-mode", "crossed.json", "crossed.json"]).exit = .ok 2 ∧
      (run lib now sampleConsole ["--ci-mode", "torn.json", "crossed.json"]).exit = .ok 3 ∧
      (run lib now sampleConsole ["--ci-mode", "crossed.json", "torn.json"]).exit = .ok 3 ∧
      (run lib now sampleConsole ["--ci-mode", "crossed.json", "gone.json"]).exit = .ok 3 ∧
      ∃ u, (run lib now sampleConsole ["--ci-mode", "crossed.json", "half.json"]).exit = .error (.unencodable u) := by
  have hargs : ∀ a ∈ sampleNames, ∀ b ∈ sampleNames,
      Settings.ofWords ["--ci-mode", a, b] = .ok { files := [a, b], ciMode := true } :=
    fun a ha b hb => ofWords_ciMode (by simpa using ⟨isName_sampleNames a ha, isName_sampleNames b hb⟩)
  obtain ⟨hcrossed, f, hf, hgist⟩ := gist_crossed
  obtain ⟨htorn, f', hf', hgist'⟩ := gist_torn
  have hcycles : (cyclesIn sampleConsole.files "crossed.json").length = 1 := by
    unfold cyclesIn
    rw [hf]
    exact congrArg (·.cycles.length) hgist
  have hsound : ¬ Faulty sampleConsole.files "crossed.json" := by
    rw [faulty_iff_of_analyzed hcrossed hf, not_not]
    exact congrArg Gist.errors hgist
  have hfaulty : Faulty sampleConsole.files "torn.json" := by
    rw [faulty_iff_of_analyzed htorn hf', show f'.errors = _ from congrArg Gist.errors hgist']
    exact List.cons_ne_nil _ _
  refine ⟨hargs, fun lib now => ?_⟩
  have hrun (a : String) (ha : a ∈ sampleNames) (b : String) (hb : b ∈ sampleNames) :=
    run_ciMode lib (hargs a ha b hb) (List.cons_ne_nil _ _) rfl rfl sampleConsole nofun nofun now
  have hends (a : String) (ha : a ∈ sampleNames) (hne : a ≠ "half.json") (b : String) (hb : b ∈ sampleNames)
      (hne' : b ≠ "half.json") :
      (∀ e, ¬ BreaksOff sampleConsole.files [a, b] e) ∧ ¬ Garbles sampleConsole.files [a, b] := by
    refine ⟨not_breaksOff (by simpa using ⟨reachable_sampleNames a ha, reachable_sampleNames b hb⟩), ?_⟩
    rintro ⟨-, file, hfile, h⟩
    rcases List.mem_pair.mp hfile with rfl | rfl
    · exact hne ((unprintable_sampleNames file ha).mp h)
    · exact hne' ((unprintable_sampleNames file hb).mp h)
  have hc : "crossed.json" ∈ sampleNames := by decide
  have ht : "torn.json" ∈ sampleNames := by decide
  have hg : "gone.json" ∈ sampleNames := by decide
  have hh : "half.json" ∈ sampleNames := by decide
  refine ⟨?_, ?_, ?_, ?_, ?_⟩
  · obtain ⟨hbreaks, hgarbles⟩ := hends _ hc (by decide) _ hc (by decide)
    have hexit := (((hrun _ hc _ hc).2.2.1 hbreaks hgarbles).2 (by simpa using hsound)).1 0 rfl
    simpa [hcycles] using hexit
  · obtain ⟨hbreaks, hgarbles⟩ := hends _ ht (by decide) _ hc (by decide)
    exact ((hrun _ ht _ hc).2.2.1 hbreaks hgarbles).1.mpr ⟨"torn.json", by simp, hfaulty⟩
  · obtain ⟨hbreaks, hgarbles⟩ := hends _ hc (by decide) _ ht (by decide)
    exact ((hrun _ hc _ ht).2.2.1 hbreaks hgarbles).1.mpr ⟨"torn.json", by simp, hfaulty⟩
  · obtain ⟨hbreaks, hgarbles⟩ := hends _ hc (by decide) _ hg (by decide)
    exact ((hrun _ hc _ hg).2.2.1 hbreaks hgarbles).1.mpr
      ⟨"gone.json", by simp, faulty_of_not_analyzed isAnalyzed_gone⟩
  · exact (hrun _ hc _ hh).2.1.mpr ⟨by simpa using ⟨hcrossed, gist_half.1⟩, "half.json", by simp,
      (unprintable_sampleNames _ hh).mpr rfl⟩

/-- A file whose name is too long is not there, but there is no exit code that says so. Of two files that are not
there, the order decides whether there is one. -/
theorem exit_longName :
    (∀ entry, ({} : FileTree).lookup longName ≠ .ok entry) ∧
    ∀ (lib : Multigraph) (now : Moment),
      (run lib now {} ["--ci-mode", longName]).exit = .error (.file ⟨.tooLong, longName⟩) ∧
      (run lib now {} ["--ci-mode", "gone.json", longName]).exit = .ok 3 ∧
      (run lib now {} ["--ci-mode", longName, "gone.json"]).exit = .error (.file ⟨.tooLong, longName⟩) := by
  have hhas : ({} : FileTree).has (Path.ofString longName).text = .error ⟨.tooLong, longName⟩ :=
    has_longName {}
  have hgone (lib : Multigraph) :
      Settings.fate lib { files := ["gone.json", longName], ciMode := true } {} "gone.json" = .lost := by
    unfold Settings.fate
    rw [has_gone (by simp [FileTree.entryAt])]
  have hname : IsName "gone.json" := by
    unfold IsName
    decide
  refine ⟨?_, fun lib now => ⟨?_, ?_, ?_⟩⟩
  · intro entry
    rw [lookup_longName]
    simp
  · rw [run_eq lib (ofWords_ciMode (by simpa using isName_longName)) (by simp) now]
    exact exit_of_breaksOff lib rfl now ⟨[], longName, [], rfl, by simp, hhas⟩
  · rw [run_eq lib (ofWords_ciMode (by simpa using ⟨hname, isName_longName⟩)) (by simp) now]
    exact analyzeAll_of_lost rfl rfl now (List.nil_append ["gone.json", longName]).symm (by simp) (hgone lib)
  · rw [run_eq lib (ofWords_ciMode (by simpa using ⟨isName_longName, hname⟩)) (by simp) now]
    exact exit_of_breaksOff lib rfl now ⟨[], longName, ["gone.json"], rfl, by simp, hhas⟩

end Gridlock.CommandLine
