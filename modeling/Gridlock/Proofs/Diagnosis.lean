import Mathlib
import Gridlock.Analysis.Analyzer
import Gridlock.Proofs.Account
import Gridlock.Proofs.Parsing
import Gridlock.Proofs.Utf8

/-!
# What an analyzer says of a file

A file is analyzed in layers: the path is looked up, the bytes are read as text, the text as JSON, and the value
as a trace. Each layer has its own faults, and almost all of them are noted in the finding. The exception is a
whole number of too many digits that comes up before any other fault of the text: then there is no finding.

* `FileTree.Holds` : the text that a file holds
* `NoTrace` : there is no trace at a path, for one of six reasons
* `FileTree.holds_iff`, `Trace.ofText_cases` : the layers
* `Analyzer.analyzeFile_outcome` : what comes out in the end
* `Analyzer.analyzeFile_overlong` : a file of one list with one number, of which nothing is said
-/

namespace Gridlock

/-- Where there is one kind of line breaks already, it stays. -/
theorem Text.unifyBreaks_of_notMem {s : List Char} (h : '\r' ∉ s) : unifyBreaks s = s := by
  have hfrom (done : List Char) : unifyBreaksFrom done s = done.reverse ++ s := by
    induction s generalizing done with
    | nil => rw [unifyBreaksFrom, List.append_nil]
    | cons x s ih =>
      rw [List.mem_cons, not_or] at h
      rw [unifyBreaksFrom, ih h.2, List.reverse_cons, List.append_assoc, List.singleton_append]
      · exact fun _ hx => absurd hx.symm h.1
      · exact fun hx => absurd hx.symm h.1
  exact hfrom []

/-! ## Files and texts -/

/-- The file at a path holds a text. Line breaks of all kinds count as line feeds. -/
inductive FileTree.Holds (files : FileTree) (path : String) : List Char → Prop
  | intro {text : List Char} : files.lookup path = .ok (.file text.utf8Encode) →
      files.Holds path (Text.unifyBreaks text)

/-- The value is a list, or an object with a list of threads. -/
def Json.IsTrace (j : Json) : Prop :=
  ∃ items, j = .arr items ∨ j.field? "threads" = some (.arr items)

inductive NoTrace (files : FileTree) (path : String) : Prop
  | missing : (∀ entry, files.lookup path ≠ .ok entry) → NoTrace files path
  | noFile : files.lookup path = .ok .directory ∨ files.lookup path = .ok (.barred .directory) → NoTrace files path
  | unreadable {size : Nat} : files.lookup path = .ok (.barred (.file size)) → NoTrace files path
  | noText {content : ByteArray} : files.lookup path = .ok (.file content) → ¬ content.IsValidUTF8 →
      NoTrace files path
  | noValue {text : List Char} : files.Holds path text → (∀ j, ¬ Json.SpellsText text j) → NoTrace files path
  | noThreads {text : List Char} {j : Json} : files.Holds path text → Json.SpellsText text j → ¬ j.IsTrace →
      NoTrace files path

section Layers
variable {files : FileTree} {path : String} {content : ByteArray} {text : List Char}

theorem eq_utf8Encode_iff : content = text.utf8Encode ↔ Text.Utf8.decode content.data.toList = .ok text := by
  rw [Text.Utf8.decode_eq_ok_iff, ← List.toList_data_toByteArray (l := text.flatMap String.utf8EncodeChar)]
  constructor
  · rintro rfl
    rfl
  · intro h
    exact ByteArray.ext (Array.toList_inj.mp h)

theorem FileTree.holds_iff {raw : List Char} (h : files.lookup path = .ok (.file content))
    (hraw : Text.Utf8.decode content.data.toList = .ok raw) (text : List Char) :
    files.Holds path text ↔ text = Text.unifyBreaks raw := by
  constructor
  · rintro ⟨h'⟩
    rw [h, Except.ok.injEq, Entry.file.injEq, eq_utf8Encode_iff, hraw] at h'
    cases h'
    rfl
  · rintro rfl
    exact .intro (by rw [h, ← eq_utf8Encode_iff.mpr hraw])

/-- Of a file whose text can be read, there is no trace if the text spells none. -/
theorem noTrace_iff {raw : List Char} (h : files.lookup path = .ok (.file content))
    (hraw : Text.Utf8.decode content.data.toList = .ok raw) :
    NoTrace files path ↔ ∀ j, Json.SpellsText (Text.unifyBreaks raw) j → ¬ j.IsTrace := by
  have hholds := FileTree.holds_iff h hraw
  constructor
  · intro hn j hj
    cases hn with
    | missing h' => exact absurd h (h' _)
    | noFile h' =>
      rw [h] at h'
      rcases h' with h' | h' <;> cases h'
    | unreadable h' =>
      rw [h] at h'
      cases h'
    | noText h' hu =>
      rw [h] at h'
      cases h'
      exact absurd (.intro raw (eq_utf8Encode_iff.mpr hraw)) hu
    | noValue h' hv =>
      rw [(hholds _).mp h'] at hv
      exact absurd hj (hv j)
    | @noThreads text j' h' hj' hs =>
      rw [(hholds _).mp h'] at hj'
      rwa [Json.eq_of_spellsText hj hj']
  · intro hn
    by_cases hj : ∃ j, Json.SpellsText (Text.unifyBreaks raw) j
    · obtain ⟨j, hj⟩ := hj
      exact .noThreads ((hholds _).mpr rfl) hj (hn j hj)
    · exact .noValue ((hholds _).mpr rfl) fun j h => hj ⟨j, h⟩

theorem not_isValidUTF8 {fault : Text.Utf8.Fault}
    (h : Text.Utf8.decode content.data.toList = .error fault) : ¬ content.IsValidUTF8 := by
  rintro ⟨raw, hraw⟩
  rw [eq_utf8Encode_iff.mp hraw] at h
  cases h

theorem FileTree.Holds.isValidUTF8 (ht : files.Holds path text)
    (h : files.lookup path = .ok (.file content)) : content.IsValidUTF8 := by
  obtain ⟨h'⟩ := ht
  rw [h, Except.ok.injEq, Entry.file.injEq] at h'
  exact .intro _ h'

end Layers

theorem isSome_threadList? {j : Json} : (threadList? j).isSome ↔ j.IsTrace := by
  constructor
  · intro h
    obtain ⟨items, h⟩ := Option.isSome_iff_exists.mp h
    exact ⟨items, threadList?_cases h⟩
  · rintro ⟨items, rfl | h⟩
    · rfl
    · unfold threadList?
      split
      · rfl
      · rw [h]
        rfl

namespace Trace

/-- A text is a trace, or a number in it is too long, or the fault is one that the finding takes. -/
theorem ofText_cases (path : String) (text : List Char) :
    (∃ t j, ofText path text = .ok t ∧ Json.SpellsText text j ∧ j.IsTrace) ∨
    (∃ n, Json.MeetsOverlong text n) ∨
    (∃ e, ofText path text = .error e ∧ e.isFormat = true ∧ (∀ n, ¬ Json.MeetsOverlong text n) ∧
      ∀ j, Json.SpellsText text j → ¬ j.IsTrace) := by
  unfold ofText
  cases hp : Json.parse text with
  | ok j =>
    have hj := Json.parse_eq_ok_iff.mp hp
    cases ht : ofJson? j with
    | some t =>
      refine Or.inl ⟨t, j, by simp [ofJson, ht], hj, isSome_threadList?.mp ?_⟩
      obtain ⟨items, hi, -⟩ := Option.map_eq_some_iff.mp ht
      rw [hi]
      rfl
    | none =>
      refine Or.inr (Or.inr ⟨.wrongShape, by simp [ofJson, ht], rfl,
        fun n hn => Json.not_spellsText_of_meetsOverlong hn j hj, ?_⟩)
      intro j' hj' hs
      cases Json.eq_of_spellsText hj hj'
      have hnone : threadList? j = none := Option.map_eq_none_iff.mp ht
      rw [← isSome_threadList?, hnone] at hs
      cases hs
  | error e =>
    cases e with
    | tooLong n => exact Or.inr (Or.inl ⟨n, Json.parse_eq_tooLong_iff.mp hp⟩)
    | malformed cause left =>
      refine Or.inr (Or.inr ⟨_, rfl, rfl, ?_, ?_⟩)
      · intro n hn
        rw [Json.parse_eq_tooLong_iff.mpr hn] at hp
        cases hp
      · intro j hj
        rw [Json.parse_eq_ok_iff.mpr hj] at hp
        cases hp

theorem ofBytes_utf8Encode {text : List Char} (h : '\r' ∉ text) (path : String) :
    ofBytes path text.utf8Encode.data.toList = ofText path text := by
  unfold ofBytes
  rw [eq_utf8Encode_iff.mp rfl]
  dsimp only
  rw [Text.unifyBreaks_of_notMem h]

end Trace

namespace Analyzer

variable (a : Analyzer) {files : FileTree} {path : Path}

def unread (path : Path) (size : Nat) : Finding :=
  { file := path.text, warnings := (fileWarnings path size).map .plain }

/-- If there is a file at the path, the rest is up to its content. -/
theorem analyzeFile_of_file {content : ByteArray} (h : files.lookup path.text = .ok (.file content)) :
    (a.analyzeFile files path).2 =
      match Trace.ofBytes path.text content.data.toList with
      | .ok t => .ok (a.analyze { t with source := path.text } (unread path content.size)).2
      | .error e =>
        if e.isFormat then
          .ok { unread path content.size with errors := ["ERROR loading trace " ++ path.text ++ ": " ++ e.message] }
        else .error e := by
  have hinspect : inspect files path = .ok (unread path content.size) := by
    unfold inspect FileTree.has
    rw [h]
    rfl
  have hload : Trace.load files path =
      (Trace.ofBytes path.text content.data.toList).map fun t => { t with source := path.text } := by
    unfold Trace.load FileTree.read
    rw [h]
    show (Trace.ofBytes path.text content.data.toList >>= _) = _
    cases Trace.ofBytes path.text content.data.toList <;> rfl
  unfold analyzeFile
  rw [hinspect, hload]
  show (if false then _ else _ : Analyzer × Except TraceError Finding).2 = _
  rw [if_neg Bool.false_ne_true]
  cases Trace.ofBytes path.text content.data.toList with
  | ok t => rfl
  | error e =>
    show (if e.isFormat then _ else _ : Analyzer × Except TraceError Finding).2 = if e.isFormat then _ else _
    split <;> rfl

/-- A number of too many digits that is met first leaves no finding. -/
theorem analyzeFile_of_meetsOverlong {content : ByteArray} {raw : List Char} {n : Nat}
    (h : files.lookup path.text = .ok (.file content))
    (hraw : Text.Utf8.decode content.data.toList = .ok raw)
    (hn : Json.MeetsOverlong (Text.unifyBreaks raw) n) :
    (a.analyzeFile files path).2 = .error (.digitLimit n) := by
  rw [a.analyzeFile_of_file h]
  unfold Trace.ofBytes Trace.ofText
  rw [hraw]
  dsimp only
  rw [Json.parse_eq_tooLong_iff.mpr hn]
  exact if_neg Bool.false_ne_true

theorem errors_of_format {content : ByteArray} {e : TraceError} (h : files.lookup path.text = .ok (.file content))
    (he : Trace.ofBytes path.text content.data.toList = .error e) (hformat : e.isFormat = true) :
    ∃ finding, (a.analyzeFile files path).2 = .ok finding ∧ finding.errors ≠ [] := by
  rw [a.analyzeFile_of_file h, he]
  dsimp only
  rw [if_pos hformat]
  exact ⟨_, rfl, List.cons_ne_nil _ _⟩

theorem errors_of_missing (h : files.has path.text = .ok false) :
    ∃ finding, (a.analyzeFile files path).2 = .ok finding ∧ finding.errors ≠ [] := by
  unfold analyzeFile inspect
  rw [h]
  exact ⟨_, rfl, List.cons_ne_nil _ _⟩

theorem errors_of_directory
    (h : files.lookup path.text = .ok .directory ∨ files.lookup path.text = .ok (.barred .directory)) :
    ∃ finding, (a.analyzeFile files path).2 = .ok finding ∧ finding.errors ≠ [] := by
  unfold analyzeFile inspect FileTree.has
  rcases h with h | h
  · rw [h]
    exact ⟨_, rfl, List.cons_ne_nil _ _⟩
  · rw [h]
    exact ⟨_, rfl, List.cons_ne_nil _ _⟩

/-- A file that may not be opened is there, with its size, and is no trace. -/
theorem analyzeFile_of_barred {size : Nat} (h : files.lookup path.text = .ok (.barred (.file size))) :
    (a.analyzeFile files path).2 = .ok { unread path size with
      errors := ["ERROR loading trace " ++ path.text ++ ": " ++
        (TraceError.unreadable path.text ⟨.denied, path.text⟩).message] } := by
  have hinspect : inspect files path = .ok (unread path size) := by
    unfold inspect FileTree.has
    rw [h]
    rfl
  have hload : Trace.load files path = .error (.unreadable path.text ⟨.denied, path.text⟩) := by
    unfold Trace.load FileTree.read
    rw [h]
    rfl
  unfold analyzeFile
  rw [hinspect, hload]
  rfl

/-- A file whose bytes can be read. -/
theorem outcome_of_text {content : ByteArray} {raw : List Char}
    (h : files.lookup path.text = .ok (.file content))
    (hraw : Text.Utf8.decode content.data.toList = .ok raw) :
    (∃ n, Json.MeetsOverlong (Text.unifyBreaks raw) n ∧
      (a.analyzeFile files path).2 = .error (.digitLimit n)) ∨
    ((∀ n, ¬ Json.MeetsOverlong (Text.unifyBreaks raw) n) ∧
      ∃ finding, (a.analyzeFile files path).2 = .ok finding ∧ (finding.errors ≠ [] ↔ NoTrace files path.text)) := by
  have hbytes : Trace.ofBytes path.text content.data.toList =
      Trace.ofText path.text (Text.unifyBreaks raw) := by
    unfold Trace.ofBytes
    rw [hraw]
  rcases Trace.ofText_cases path.text (Text.unifyBreaks raw) with
    ⟨t, j, ht, hj, hs⟩ | ⟨n, hn⟩ | ⟨e, he, hformat, hn, hj⟩
  · have hf := a.analyzeFile_of_file h
    rw [hbytes, ht] at hf
    refine Or.inr ⟨fun n hn => Json.not_spellsText_of_meetsOverlong hn j hj, _, hf, ?_⟩
    rw [noTrace_iff h hraw]
    constructor
    · intro he
      exact absurd rfl he
    · intro hn
      exact absurd hs (hn j hj)
  · exact Or.inl ⟨n, hn, a.analyzeFile_of_meetsOverlong h hraw hn⟩
  · obtain ⟨finding, hf, herrors⟩ := a.errors_of_format h (hbytes.trans he) hformat
    exact Or.inr ⟨hn, finding, hf, iff_of_true herrors ((noTrace_iff h hraw).mpr hj)⟩

/-- If the path can be looked up, there is a finding, which has errors exactly if there is no trace at the path;
unless the file holds a text in which a whole number of too many digits comes up before any other fault. -/
theorem analyzeFile_outcome (files : FileTree) (path : Path) (h : ∃ found, files.has path.text = .ok found) :
    (∃ n text, files.Holds path.text text ∧ Json.MeetsOverlong text n ∧
      (a.analyzeFile files path).2 = .error (.digitLimit n)) ∨
    ((∀ n text, files.Holds path.text text → ¬ Json.MeetsOverlong text n) ∧
      ∃ finding, (a.analyzeFile files path).2 = .ok finding ∧ (finding.errors ≠ [] ↔ NoTrace files path.text)) := by
  obtain ⟨found, hfound⟩ := h
  cases hl : files.lookup path.text with
  | error cause =>
    have hmissing (entry : Entry) : files.lookup path.text ≠ .ok entry := by simp [hl]
    have hfalse : files.has path.text = .ok false := by
      unfold FileTree.has at hfound ⊢
      rw [hl] at hfound ⊢
      dsimp only at hfound ⊢
      split at hfound
      · next habsent => rw [if_pos habsent]
      · cases hfound
    obtain ⟨finding, hf, herrors⟩ := a.errors_of_missing hfalse
    refine Or.inr ⟨?_, finding, hf, iff_of_true herrors (.missing hmissing)⟩
    rintro n text ⟨h⟩
    exact absurd h (hmissing _)
  | ok entry =>
    have hnone (hentry : ∀ content, entry ≠ .file content) (n : Nat) (text : List Char)
        (ht : files.Holds path.text text) : ¬ Json.MeetsOverlong text n := by
      obtain ⟨h⟩ := ht
      rw [hl] at h
      exact absurd (Except.ok.inj h) (hentry _)
    cases entry with
    | directory =>
      obtain ⟨finding, hf, herrors⟩ := a.errors_of_directory (Or.inl hl)
      exact Or.inr ⟨hnone (by simp), finding, hf, iff_of_true herrors (.noFile (Or.inl hl))⟩
    | barred s =>
      cases s with
      | directory =>
        obtain ⟨finding, hf, herrors⟩ := a.errors_of_directory (Or.inr hl)
        exact Or.inr ⟨hnone (by simp), finding, hf, iff_of_true herrors (.noFile (Or.inr hl))⟩
      | file size =>
        exact Or.inr ⟨hnone (by simp), _, a.analyzeFile_of_barred hl,
          iff_of_true (List.cons_ne_nil _ _) (.unreadable hl)⟩
    | file content =>
      cases hd : Text.Utf8.decode content.data.toList with
      | error fault =>
        have he : Trace.ofBytes path.text content.data.toList = .error (.undecodable path.text fault) := by
          unfold Trace.ofBytes
          rw [hd]
        obtain ⟨finding, hf, herrors⟩ := a.errors_of_format hl he rfl
        refine Or.inr ⟨?_, finding, hf, iff_of_true herrors (.noText hl (not_isValidUTF8 hd))⟩
        intro n text ht
        exact absurd (ht.isValidUTF8 hl) (not_isValidUTF8 hd)
      | ok raw =>
        have hholds := FileTree.holds_iff hl hd
        rcases a.outcome_of_text hl hd with ⟨n, hn, he⟩ | ⟨hn, hf⟩
        · exact Or.inl ⟨n, _, (hholds _).mpr rfl, hn, he⟩
        · refine Or.inr ⟨?_, hf⟩
          intro n text ht
          rw [(hholds text).mp ht]
          exact hn n

/-- A trace of one entry that is no thread, and a file that may not be opened. -/
def openAndBarred : FileTree :=
  { entries := [(["t.json"], .file (String.ofList ['[', '1', ']']).toUTF8), (["s.json"], .barred (.file 3))] }

theorem analyzeFile_outcome_openAndBarred :
    (openAndBarred.has (Path.ofString "t.json").text = .ok true ∧
      ¬ NoTrace openAndBarred (Path.ofString "t.json").text ∧
      ∃ finding, (analyzeFile {} openAndBarred (Path.ofString "t.json")).2 = .ok finding ∧ finding.errors = [] ∧
        finding.warnings = (["Thread #0 skipped: missing 'id'"] : List Text)) ∧
    (openAndBarred.has (Path.ofString "s.json").text = .ok true ∧
      NoTrace openAndBarred (Path.ofString "s.json").text ∧
      ∃ finding, (analyzeFile {} openAndBarred (Path.ofString "s.json")).2 = .ok finding ∧ finding.errors =
        ["ERROR loading trace s.json: Cannot read trace s.json: [Errno 13] Permission denied: 's.json'"]) := by
  have hopen : openAndBarred.has (Path.ofString "t.json").text = .ok true := by decide +kernel
  have hbarred : openAndBarred.has (Path.ofString "s.json").text = .ok true := by decide +kernel
  have houtcome {file : String} (hfound : openAndBarred.has (Path.ofString file).text = .ok true) {f : Finding}
      (hf : (analyzeFile {} openAndBarred (Path.ofString file)).2 = .ok f) :
      f.errors ≠ [] ↔ NoTrace openAndBarred (Path.ofString file).text := by
    rcases analyzeFile_outcome {} openAndBarred (Path.ofString file) ⟨true, hfound⟩ with
      ⟨n, text, -, -, herror⟩ | ⟨-, f', hf', hiff⟩
    · cases hf.symm.trans herror
    · cases hf.symm.trans hf'
      exact hiff
  have hbytes : Trace.ofBytes "t.json" ['[', '1', ']'].utf8Encode.data.toList =
      .ok { warnings := [.namelessThread 0] } := by
    have hparse : Json.parse ['[', '1', ']'] = .ok (.arr [.num (.whole 1)]) := by cbv
    rw [Trace.ofBytes_utf8Encode (by decide)]
    unfold Trace.ofText
    rw [hparse]
    rfl
  have hlookup : openAndBarred.lookup (Path.ofString "t.json").text = .ok (.file ['[', '1', ']'].utf8Encode) := rfl
  have hbar : openAndBarred.lookup (Path.ofString "s.json").text = .ok (.barred (.file 3)) := rfl
  have htrace := analyzeFile_of_file {} hlookup
  rw [show (Path.ofString "t.json").text = "t.json" by decide +kernel, hbytes] at htrace
  have hdenied := analyzeFile_of_barred {} hbar
  refine ⟨⟨hopen, ?_, _, htrace, rfl, ?_⟩, hbarred, ?_, _, hdenied, ?_⟩
  · rw [← houtcome hopen htrace, not_not]
    rfl
  · decide +kernel
  · exact (houtcome hbarred hdenied).mp (List.cons_ne_nil _ _)
  · decide +kernel

def numberFile (digits : List Char) : FileTree :=
  { entries := [(["t.json"], .file (String.ofList ('[' :: (digits ++ [']']))).toUTF8)] }

theorem lookup_numberFile (digits : List Char) : (numberFile digits).lookup (Path.ofString "t.json").text =
    .ok (.file ('[' :: (digits ++ [']'])).utf8Encode) := rfl

/-- A number that is too long, alone in a list. -/
theorem meetsOverlong_list {ds : List Char} (h : Json.Whole ds) (hl : Number.digitLimit < ds.length) :
    Json.MeetsOverlong ('[' :: (ds ++ [']'])) ds.length := by
  have hends : Json.EndsNumber [']'] :=
    ⟨by simp [Json.NoDigit], Json.Reader.fraction?_eq_none_iff.mp rfl, Json.Reader.exponent?_eq_none_iff.mp rfl⟩
  have hblank : Json.Blank [] := by simp [Json.Blank]
  have hreaches : Json.Reaches ('[' :: ([] ++ (ds ++ [']']))) (ds ++ [']']) :=
    .items hblank (.first (.here _))
  exact .intro hblank hreaches (.intro false h hl hends)

theorem analyzeFile_ones {n : Nat} (h : Number.digitLimit < n) :
    (analyzeFile {} (numberFile (List.replicate n '1')) (Path.ofString "t.json")).2 = .error (.digitLimit n) := by
  have hwhole : Json.Whole (List.replicate n '1') := by
    refine ⟨⟨?_, ?_⟩, ?_⟩
    · rw [ne_eq, List.replicate_eq_nil_iff]
      omega
    · intro x hx
      rw [List.eq_of_mem_replicate hx]
      rfl
    · intro h0
      cases List.eq_of_mem_replicate (List.mem_of_head? h0)
  have hbreaks : '\r' ∉ '[' :: (List.replicate n '1' ++ [']']) := by
    simp [List.mem_replicate]
  have hmeets := meetsOverlong_list hwhole (by rwa [List.length_replicate])
  rw [← Text.unifyBreaks_of_notMem hbreaks, List.length_replicate] at hmeets
  exact analyzeFile_of_meetsOverlong {} (lookup_numberFile _) (eq_utf8Encode_iff.mp rfl) hmeets

/-- There is no finding on a file that is a list of one number of one digit too many. -/
theorem analyzeFile_overlong :
    (numberFile (List.replicate 4301 '1')).has (Path.ofString "t.json").text = .ok true ∧
    (analyzeFile {} (numberFile (List.replicate 4301 '1')) (Path.ofString "t.json")).2 =
      .error (.digitLimit 4301) :=
  ⟨rfl, analyzeFile_ones (by decide)⟩

end Analyzer

end Gridlock
