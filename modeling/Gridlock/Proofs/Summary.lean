import Gridlock.Proofs.Reading
import Gridlock.Proofs.Visiting

/-!
# The summary of a run

A run that writes a summary has an item in it for every file that was analyzed, in the order of the files. The
item says what a new analyzer finds in the file, and gives the graph of this file, although one analyzer goes
through all files. There are two exceptions, in which there is no summary at all. At a path that is too long to be
looked up the run breaks off. And the reports come first: if the report on one file cannot be printed, the run breaks
off there, and a file that the reports should go to is left empty.

* `Describes` : an item that tells of a file what a new analyzer finds in it
* `describes_entryOf` : the entries of a run do
* `run_summary` : the whole summary
* `no_summary_longName` : a name that is too long keeps the other files from being told of
-/

namespace Gridlock.CommandLine

variable {lib : Multigraph} {edges : Text}

/-! ## One file -/

/-- The data of a graph lists as many nodes and edges as the finding says. -/
def HasSizes (edges : Text) (graph : Json) (metrics : List (String × Int)) : Prop :=
  ∃ nodes links, graph.field "nodes" = .arr nodes ∧ graph.field edges = .arr links ∧
    ∃ processes resources,
      metrics.lookup "processes" = some processes ∧ metrics.lookup "resources" = some resources ∧
      (nodes.length : Int) = processes + resources ∧ metrics.lookup "edges" = some (links.length : Int)

/-- The item tells of the file what a new analyzer finds in it. -/
def Describes (lib : Multigraph) (edges : Text) (files : FileTree) (file : String) (item : Json) : Prop :=
  ∃ a f, diagnose files file = (a, .ok f) ∧
    item.field "file" = .str (Path.ofString file).text ∧
    item.field "has_deadlock" = .bool f.hasDeadlock ∧
    item.field "cycles" = .arr (f.cycles.map fun cycle => .arr (cycle.map .str)) ∧
    item.field "metrics" = .obj (f.metrics.map fun m => (.plain m.1, .num (.whole m.2))) ∧
    item.field "warnings" = .arr (f.warnings.map .str) ∧
    item.field "errors" = .arr (f.errors.map fun e => .str (.plain e)) ∧
    (item.field "graph" = .null ↔ f.errors ≠ []) ∧
    (f.errors = [] → item.field "graph" = lib.toJson (a.session.graph.exportTo lib) ∧
      HasSizes edges (item.field "graph") f.metrics)

theorem ne_null_of_hasSizes {graph : Json} {metrics : List (String × Int)} (h : HasSizes edges graph metrics) :
    graph ≠ .null := by
  rintro rfl
  obtain ⟨nodes, links, hnodes, -⟩ := h
  cases hnodes

section File
variable (hlib : lib.Lawful) (hshows : lib.Shows edges)
include hlib hshows

/-- The sizes of a graph that is orderly are those of its export. -/
theorem hasSizes_exportTo {g : Graph} (h : g.WellFormed) (events : Nat) :
    HasSizes edges (lib.toJson (g.exportTo lib)) (g.metrics events).toList := by
  obtain ⟨nodes, hnodes, hshown⟩ := hshows.nodes (g.exportTo lib)
  obtain ⟨links, hlinks, hshown'⟩ := hshows.links (g.exportTo lib)
  refine ⟨nodes, links, hnodes, hlinks, _, _, rfl, rfl, ?_, ?_⟩
  · rw [← hshown.length_eq, h.nodes_exportTo hlib, List.length_map, Graph.length_rows]
    exact Int.natCast_add _ _
  · rw [← hshown'.length_eq, Graph.length_links hlib, Graph.edgeCount_eq_edgesOf]
    rfl

variable {s : Settings} {files : FileTree} {file : String} {a : Analyzer} {f : Finding}

/-- A finding without errors comes with the graph of its trace. -/
theorem hasSizes_of_diagnose (hf : diagnose files file = (a, .ok f)) (herrors : f.errors = []) :
    HasSizes edges (lib.toJson (a.session.graph.exportTo lib)) f.metrics := by
  unfold diagnose at hf
  rcases Analyzer.analyzeFile_cases files (Path.ofString file) with ⟨outcome, hall, hfail⟩ | ⟨t, warnings, hall⟩
  · rw [hall] at hf
    cases hf
    obtain ⟨warnings, error, rfl⟩ := hfail f rfl
    cases herrors
  · rw [hall] at hf
    cases hf
    exact hasSizes_exportTo hlib hshows (Analyzer.orderly_loaded {} t).toWellFormed t.eventCount

theorem describes_entryOf (hjson : s.json.isSome = true) (hf : diagnose files file = (a, .ok f)) :
    Describes lib edges files file (Work.entryOf lib a s (Path.ofString file) f).toJson := by
  have hgraph : (Work.entryOf lib a s (Path.ofString file) f).graph =
      if f.errors.isEmpty then lib.toJson (a.session.graph.exportTo lib) else .null := by
    unfold Work.entryOf
    rw [hjson, Bool.true_and]
  have hfield : (Work.entryOf lib a s (Path.ofString file) f).toJson.field "graph" =
      (Work.entryOf lib a s (Path.ofString file) f).graph := rfl
  have herrors : (Work.entryOf lib a s (Path.ofString file) f).toJson.field "errors" =
      .arr (f.errors.map fun e => .str (.plain e)) :=
    congrArg Json.arr (List.map_map ..)
  refine ⟨a, f, hf, rfl, rfl, rfl, rfl, rfl, herrors, ?_, ?_⟩
  · rw [hfield, hgraph]
    split
    · next hempty =>
      rw [List.isEmpty_iff] at hempty
      exact iff_of_false (ne_null_of_hasSizes (hasSizes_of_diagnose hlib hshows hf hempty)) (not_not_intro hempty)
    · next hempty =>
      rw [List.isEmpty_iff] at hempty
      exact iff_of_true rfl hempty
  · intro hnone
    rw [hfield, hgraph, if_pos (by rw [hnone]; rfl)]
    exact ⟨rfl, hasSizes_of_diagnose hlib hshows hf hnone⟩

/-- There is an item for every file that is analyzed, in order. -/
theorem forall₂_describes (hjson : s.json.isSome = true) (files : FileTree) (row : List String) :
    List.Forall₂ (Describes lib edges files) (row.filter (isAnalyzed files))
      ((row.filterMap fun file => (s.fate lib files file).item?).map (·.toJson)) := by
  induction row with
  | nil => exact .nil
  | cons file row ih =>
    cases h : isAnalyzed files file with
    | true =>
      obtain ⟨a, f, hf, hitem⟩ := item?_of_analyzed lib s h
      rw [List.filter_cons_of_pos h, List.filterMap_cons_some (f := fun file => (s.fate lib files file).item?) hitem,
        List.map_cons]
      exact .cons (describes_entryOf hlib hshows hjson hf) ih
    | false =>
      have hitem : (s.fate lib files file).item? = none := by
        rcases fate_of_not_analyzed lib s h with ⟨e, -, hfate⟩ | ⟨-, hfate⟩
        · rw [hfate]
          rfl
        · rw [hfate]
          rfl
      rw [List.filter_cons_of_neg (by rw [h]; exact Bool.false_ne_true),
        List.filterMap_cons_none (f := fun file => (s.fate lib files file).item?) hitem]
      exact ih

end File

/-! ## All files -/

/-- The counts of a summary are those of its items. -/
structure Totals (items : List Json) (totals : Json) : Prop where
  files : totals.field "total_files" = .num (.whole items.length)
  deadlocks : totals.field "files_with_deadlocks" =
    .num (.whole (items.countP fun item => (item.field "has_deadlock").holds))
  cycles : totals.field "total_cycles" = .num (.whole (items.flatMap (·.entries "cycles")).length)

theorem totals_summary (now : Moment) (entries : List SummaryEntry) :
    Totals (entries.map (·.toJson)) ((summary now entries).field "analysis_summary") where
  files := by
    rw [List.length_map]
    rfl
  deadlocks := by
    rw [List.countP_map]
    rfl
  cycles := by
    have hlength : ((entries.map (·.toJson)).flatMap (·.entries "cycles")).length =
        (entries.flatMap (·.finding.cycles)).length := by
      induction entries with
      | nil => rfl
      | cons e entries ih =>
        have he : (e.toJson.entries "cycles").length = e.finding.cycles.length := List.length_map _
        rw [List.map_cons, List.flatMap_cons, List.flatMap_cons, List.length_append, List.length_append, ih, he]
    rw [hlength]
    rfl

/-- Outside CI mode, a run goes on after every file that can be looked up. -/
theorem goesOn_of_reachable {s : Settings} {files : FileTree} {file : String} (hci : s.ciMode = false)
    (h : Reachable files file) : s.goesOn (s.fate lib files file) = true := by
  obtain ⟨found, hfound⟩ := h
  unfold Settings.fate
  rw [hfound]
  cases found with
  | false =>
    unfold Settings.goesOn
    rw [hci]
    rfl
  | true =>
    dsimp only
    split
    · rfl
    · unfold Settings.goesOn
      rw [hci]
      rfl

theorem fate_of_not_reachable (lib : Multigraph) (s : Settings) {files : FileTree} {file : String}
    (h : ¬ Reachable files file) : ∃ e, s.fate lib files file = .unreachable e := by
  cases hhas : files.has (Path.ofString file).text with
  | error e => exact ⟨e, fate_of_error lib s hhas⟩
  | ok found => exact absurd ⟨found, hhas⟩ h

theorem exists_item {s : Settings} {files : FileTree} (h : ∃ file ∈ s.files, isAnalyzed files file = true) :
    s.entries lib files ≠ [] := by
  obtain ⟨file, hfile, hanalyzed⟩ := h
  obtain ⟨a, f, -, hitem⟩ := item?_of_analyzed lib s hanalyzed
  apply List.ne_nil_of_mem
  exact List.mem_filterMap.mpr ⟨file, hfile, hitem⟩

/-- Outside CI mode, a run breaks off at the first path that cannot be looked up. -/
theorem analyzeAll_of_not_reachable (lib : Multigraph) {s : Settings} {c : Console} (hci : s.ciMode = false)
    (hlog : s.logFile = none) (h : ∃ file ∈ s.files, ¬ Reachable c.files file) (now : Moment) :
    (∃ e, (analyzeAll lib s now c).exit = .error (.file e)) ∧ (analyzeAll lib s now c).console.files = c.files := by
  rcases forall_or_first (fun file => s.goesOn (s.fate lib c.files file)) s.files with
    hall | ⟨before, file, after, hrow, hbefore, hfile⟩
  · obtain ⟨file, hfile, hnot⟩ := h
    obtain ⟨e, he⟩ := fate_of_not_reachable lib s hnot
    have hon := hall file hfile
    rw [he] at hon
    cases hon
  · have hnot : ¬ Reachable c.files file := by
      intro hreach
      rw [goesOn_of_reachable hci hreach] at hfile
      cases hfile
    obtain ⟨e, he⟩ := fate_of_not_reachable lib s hnot
    obtain ⟨hexit, hsame⟩ := analyzeAll_of_unreachable hlog now hrow hbefore he
    exact ⟨⟨e, hexit⟩, hsame⟩

/-- A run breaks off and writes nothing if a path cannot be looked up. If a report cannot be printed, it breaks off
before the summary. Else it ends well, and if a file was analyzed, it has written a summary: of every file that was
analyzed, in the order of the files, it says what a new analyzer finds, and its counts are those of its items. -/
theorem run_summary (hlib : lib.Lawful) (hshows : lib.Shows edges) {args : List String} {s : Settings}
    (hargs : Settings.ofWords args = .ok s) (hci : s.ciMode = false) (hlog : s.logFile = none) (c : Console)
    {path : String} (hjson : s.json = some path) (hpath : c.files.Writable path)
    (hout : ∀ path, s.output = some path → c.files.Writable path) (now : Moment) :
    ((∃ file ∈ s.files, ¬ Reachable c.files file) →
      (∃ e, (run lib now c args).exit = .error (.file e)) ∧ (run lib now c args).console.files = c.files) ∧
    ((∀ file ∈ s.files, Reachable c.files file) → (∃ file ∈ s.files, Unprintable c.files file) →
      (∃ u, (run lib now c args).exit = .error (.unencodable u)) ∧
      Work.Emptied s.output c.files (run lib now c args).console.files) ∧
    ((∀ file ∈ s.files, Reachable c.files file) → (∀ file ∈ s.files, ¬ Unprintable c.files file) →
      (∃ file ∈ s.files, isAnalyzed c.files file = true) →
      (run lib now c args).exit = .ok 0 ∧
      ∃ (j : Json) (items : List Json), (run lib now c args).console.files.read path = .ok j.pretty.toUTF8 ∧
        j.field "files" = .arr items ∧
        List.Forall₂ (Describes lib edges c.files) (s.files.filter (isAnalyzed c.files)) items ∧
        Totals items (j.field "analysis_summary")) := by
  have hrun {file : String} (hfile : file ∈ s.files) : run lib now c args = analyzeAll lib s now c :=
    run_eq lib hargs (List.ne_nil_of_mem hfile) now c
  have hgoes (hreachable : ∀ file ∈ s.files, Reachable c.files file) :
      ∀ file ∈ s.files, s.goesOn (s.fate lib c.files file) = true :=
    fun file hfile => goesOn_of_reachable hci (hreachable file hfile)
  refine ⟨?_, ?_, ?_⟩
  · rintro ⟨file, hfile, hnot⟩
    rw [hrun hfile]
    exact analyzeAll_of_not_reachable lib hci hlog ⟨file, hfile, hnot⟩ now
  · intro hreachable hunprintable
    obtain ⟨file, hfile, -⟩ := id hunprintable
    rw [hrun hfile]
    exact analyzeAll_of_unprintable hlog hout now (hgoes hreachable) hunprintable
  · intro hreachable hprintable hanalyzed
    obtain ⟨file, hfile, -⟩ := id hanalyzed
    have hwritable : ∀ p, s.json = some p → c.files.Writable p := by
      intro p hp
      cases hjson.symm.trans hp
      exact hpath
    obtain ⟨hexit, hread⟩ := analyzeAll_of_goesOn hlog hout now (hgoes hreachable) hprintable hwritable
    rw [hrun hfile]
    refine ⟨?_, summary now (s.entries lib c.files), (s.entries lib c.files).map (·.toJson),
      hread path hjson (exists_item hanalyzed), rfl, ?_, totals_summary now _⟩
    · rw [hexit, hci]
      rfl
    · exact forall₂_describes hlib hshows (by rw [hjson]; rfl) c.files s.files

/-! ## A run with a summary, and one without -/

theorem ofWords_json {path : String} {names : List String} (hpath : IsName path) (hne : path ≠ "")
    (h : ∀ w ∈ names, IsName w) :
    Settings.ofWords ("--json" :: path :: names) = .ok { files := names, json := some path } := by
  have hdash : path ≠ "--" := by
    rintro rfl
    exact hpath rfl
  have hswitch : Word.ofString "--json" = .ok (.switch .json false none) := by decide +kernel
  have hwords : words ("--json" :: path :: names) =
      .ok (.switch .json false none :: .plain path :: names.map .plain) := by
    rw [words, if_neg (by decide), hswitch, words_of_names (List.forall_mem_cons.mpr ⟨hpath, h⟩)]
    rfl
  have hobey : ({} : Progress).obey [] .json (some path) = .ok { settings := { json := some path } } := by
    unfold Progress.obey Settings.flags Settings.value Settings.fileName?
    simp only [if_neg hdash, if_neg hne]
    rfl
  have htake : ({} : Progress).take (.switch .json false none :: .plain path :: names.map .plain) =
      Progress.take { settings := { json := some path } } (names.map .plain) := by
    rw [Progress.take]
    show (({} : Progress).obey [] .json (some path) >>= fun p => p.take (names.map .plain)) = _
    rw [hobey]
    rfl
  exact ofWords_of_take hwords htake

theorem isName_json : IsName "t.json" ∧ IsName "out.json" := by
  unfold IsName
  decide

/-- A file with a deadlock, one that is not there and one that is no JSON; and the first with one whose report cannot be
printed. -/
theorem run_summary_sample :
    Multigraph.ordered.Lawful ∧ Multigraph.ordered.Shows "edges" ∧
    Settings.ofWords ["--json", "out.json", "crossed.json", "gone.json", "torn.json"] =
      .ok { files := ["crossed.json", "gone.json", "torn.json"], json := some "out.json" } ∧
    Settings.ofWords ["--json", "out.json", "crossed.json", "half.json"] =
      .ok { files := ["crossed.json", "half.json"], json := some "out.json" } ∧
    sampleConsole.files.Writable "out.json" ∧
    ∀ now,
      ((run .ordered now sampleConsole ["--json", "out.json", "crossed.json", "gone.json", "torn.json"]).exit = .ok 0 ∧
      ∃ j crossed torn : Json,
        (run .ordered now sampleConsole
          ["--json", "out.json", "crossed.json", "gone.json", "torn.json"]).console.files.read "out.json" =
            .ok j.pretty.toUTF8 ∧
        j.field "files" = .arr [crossed, torn] ∧ Totals [crossed, torn] (j.field "analysis_summary") ∧
        Describes .ordered "edges" sampleConsole.files "crossed.json" crossed ∧
        Describes .ordered "edges" sampleConsole.files "torn.json" torn ∧
        crossed.field "cycles" = .arr [.arr [.str "A", .str "M", .str "B", .str "L", .str "A"]] ∧
        crossed.field "graph" ≠ .null ∧ torn.field "graph" = .null) ∧
      (∃ u, (run .ordered now sampleConsole ["--json", "out.json", "crossed.json", "half.json"]).exit =
        .error (.unencodable u)) ∧
      (run .ordered now sampleConsole ["--json", "out.json", "crossed.json", "half.json"]).console.files =
        sampleConsole.files := by
  have hargs {names : List String} (h : ∀ w ∈ names, w ∈ sampleNames) :
      Settings.ofWords ("--json" :: "out.json" :: names) = .ok { files := names, json := some "out.json" } :=
    ofWords_json isName_json.2 (by decide) fun w hw => isName_sampleNames w (h w hw)
  have hthree : ∀ w ∈ ["crossed.json", "gone.json", "torn.json"], w ∈ sampleNames := by decide
  have htwo : ∀ w ∈ ["crossed.json", "half.json"], w ∈ sampleNames := by decide
  have hwritable : sampleConsole.files.Writable "out.json" := ⟨_, rfl⟩
  have hlib := Multigraph.lawful_ordered
  have hshows := Multigraph.shows_ordered
  refine ⟨hlib, hshows, hargs hthree, hargs htwo, hwritable, fun now => ⟨?_, ?_⟩⟩
  · obtain ⟨hcrossed, f, hf, hgist⟩ := gist_crossed
    obtain ⟨htorn, f', hf', hgist'⟩ := gist_torn
    have hplain : ∀ file ∈ ["crossed.json", "gone.json", "torn.json"], ¬ Unprintable sampleConsole.files file := by
      intro file hfile
      rw [unprintable_sampleNames file (hthree file hfile)]
      rintro rfl
      exact absurd hfile (by decide)
    obtain ⟨hexit, j, items, hread, hitems, hall, htotals⟩ :=
      (run_summary hlib hshows (hargs hthree) rfl rfl sampleConsole rfl hwritable nofun now).2.2
        (fun file hfile => reachable_sampleNames file (hthree file hfile)) hplain ⟨"crossed.json", by simp, hcrossed⟩
    have hfilter : ["crossed.json", "gone.json", "torn.json"].filter (isAnalyzed sampleConsole.files) =
        ["crossed.json", "torn.json"] := by
      simp [hcrossed, htorn, isAnalyzed_gone]
    rw [hfilter] at hall
    obtain ⟨crossed, _, hdescribes, hrest, rfl⟩ := List.forall₂_cons_left_iff.mp hall
    obtain ⟨torn, _, hdescribes', hnil, rfl⟩ := List.forall₂_cons_left_iff.mp hrest
    cases List.forall₂_nil_left_iff.mp hnil
    refine ⟨hexit, j, crossed, torn, hread, hitems, htotals, hdescribes, hdescribes', ?_⟩
    obtain ⟨a, g, hg, -, -, hcycles, -, -, -, hgraph, -⟩ := hdescribes
    obtain ⟨a', g', hg', -, -, -, -, -, -, hgraph', -⟩ := hdescribes'
    rw [hg, Except.ok.injEq] at hf
    rw [hg', Except.ok.injEq] at hf'
    subst hf hf'
    refine ⟨?_, ?_, hgraph'.mpr ?_⟩
    · rw [hcycles, show g.cycles = _ from congrArg Gist.cycles hgist]
      rfl
    · rw [ne_eq, hgraph, not_not]
      exact congrArg Gist.errors hgist
    · rw [show g'.errors = _ from congrArg Gist.errors hgist']
      exact List.cons_ne_nil _ _
  · exact (run_summary hlib hshows (hargs htwo) rfl rfl sampleConsole rfl hwritable nofun now).2.1
      (fun file hfile => reachable_sampleNames file (htwo file hfile))
      ⟨"half.json", by simp, (unprintable_sampleNames _ (by decide)).mpr rfl⟩

/-- A file whose name is too long keeps a file before it, which was analyzed, from being told of. -/
theorem no_summary_longName :
    (∀ entry, bareConsole.files.lookup longName ≠ .ok entry) ∧ isAnalyzed bareConsole.files "t.json" = true ∧
    bareConsole.files.Writable "out.json" ∧
    ∀ (lib : Multigraph) (now : Moment),
      (run lib now bareConsole ["--json", "out.json", "t.json", longName]).exit =
        .error (.file ⟨.tooLong, longName⟩) ∧
      (run lib now bareConsole ["--json", "out.json", "t.json", longName]).console.files = bareConsole.files := by
  have hanalyzed := isAnalyzed_bareConsole
  have hhas : bareConsole.files.has (Path.ofString longName).text = .error ⟨.tooLong, longName⟩ :=
    has_longName _
  refine ⟨?_, hanalyzed, ⟨_, rfl⟩, fun lib now => ?_⟩
  · intro entry
    rw [lookup_longName]
    simp
  · have hnames : ∀ w ∈ ["t.json", longName], IsName w := by simpa using ⟨isName_json.1, isName_longName⟩
    have hargs := ofWords_json isName_json.2 (by decide) hnames
    have hbefore : ∀ file ∈ ["t.json"], Settings.goesOn { files := ["t.json", longName], json := some "out.json" }
        (Settings.fate lib { files := ["t.json", longName], json := some "out.json" } bareConsole.files file) =
          true := by
      simpa using goesOn_of_reachable rfl (reachable_of_analyzed hanalyzed)
    rw [run_eq lib hargs (by simp) now]
    exact analyzeAll_of_unreachable rfl now (List.singleton_append).symm hbefore (fate_of_error lib _ hhas)

end Gridlock.CommandLine
