import Gridlock.Proofs.Reading

/-!
# Nothing of a trace is lost without a warning

Every list in a trace is read entry by entry: an entry is kept, after those kept before it, or left out. What
reading a trace warns about can be counted on the trace itself.

* `Tally` : the entries left out, the fields that should be lists and are not, the flavours that are not known
* `Retained` : a list of entries, what is kept of it, and the tally
* `EventEntry`, `RegionEntry`, `ThreadEntry` : an entry that is kept, what it is kept as, and the tally
* `Reading.Accounted` : one entry; `retained_of_list` : a list of entries
* `Trace.Owned` : every event is one of the thread that lists it; `owned_of_ofJson?`
* `ofJson?_accounted` : a whole trace
-/

namespace Gridlock

/-- What is counted in the entries of a trace. -/
structure Tally where
  /-- Entries that are left out. -/
  skipped : Nat := 0
  /-- Fields of kept entries that have a value and should be lists. -/
  misplaced : Nat := 0
  /-- Kept entries with a flavour that is not known. -/
  strange : Nat := 0

namespace Tally

instance : Add Tally where
  add a b := ⟨a.skipped + b.skipped, a.misplaced + b.misplaced, a.strange + b.strange⟩

def total (n : Tally) : Nat :=
  n.skipped + n.misplaced + n.strange

@[simp] theorem total_add (a b : Tally) : (a + b).total = a.total + b.total := by
  show a.skipped + b.skipped + (a.misplaced + b.misplaced) + (a.strange + b.strange) = _
  unfold total
  omega

end Tally

/-- A list of entries, what is kept of it in the same order, and the tally. An entry that is left out counts
as such; an entry that is kept has a tally of its own. -/
inductive Retained {β : Type} (keeps : Json → β → Tally → Prop) (skips : Json → Prop) :
    List Json → List β → Tally → Prop
  | nil : Retained keeps skips [] [] {}
  | skip {j : Json} {rest : List Json} {kept : List β} {n : Tally} (hj : skips j)
    (h : Retained keeps skips rest kept n) : Retained keeps skips (j :: rest) kept ({ skipped := 1 } + n)
  | keep {j : Json} {b : β} {rest : List Json} {kept : List β} {m n : Tally} (hj : keeps j b m)
    (h : Retained keeps skips rest kept n) : Retained keeps skips (j :: rest) (b :: kept) (m + n)

/-! ## Entries that are kept -/

namespace Json

def MakesNoEvent (j : Json) : Prop :=
  ∀ action, ¬ j.MakesEvent action

def MakesNoRegion (j : Json) : Prop :=
  j.MakesNoEvent ∧ ¬ j.MakesBlock

def MakesNoThread (j : Json) : Prop :=
  ¬ j.MakesThread

/-- The tally of an entry by itself, of which some fields should be lists. -/
def tally (lists : List Text) (j : Json) : Tally where
  misplaced := lists.countP (j.misplaces ·)
  strange := if j.strange then 1 else 0

theorem total_tally (lists : List Text) (j : Json) :
    (j.tally lists).total = lists.countP (j.misplaces ·) + if j.strange then 1 else 0 := by
  show 0 + lists.countP (j.misplaces ·) + (if j.strange then 1 else 0) = _
  rw [Nat.zero_add]

end Json

inductive EventEntry (thread : Text) : Json → Event → Tally → Prop
  | event {j : Json} {action : Action} (h : j.MakesEvent action) :
    EventEntry thread j (j.event thread action) (j.tally [])

/-- An entry in a list of regions: an event, or a block with what is kept of its body. -/
inductive RegionEntry (thread : Text) : Json → Region → Tally → Prop
  | event {j : Json} {action : Action} (h : j.MakesEvent action) :
    RegionEntry thread j (.event (j.event thread action)) (j.tally [])
  | block {j : Json} {body : List Region} {n : Tally} (h : j.MakesBlock)
    (hbody : Retained (RegionEntry thread) Json.MakesNoRegion (j.entries "body") body n) :
    RegionEntry thread j (.block j.lock j.takenFlavour body) (j.tally ["body"] + n)

/-- An entry in a list of threads, with what is kept of its events and regions. A thread has no flavour. -/
inductive ThreadEntry : Json → ThreadTrace → Tally → Prop
  | thread {j : Json} {events : List Event} {regions : List Region} {m n : Tally} (h : j.MakesThread)
    (hevents : Retained (EventEntry (j.field "id").text) Json.MakesNoEvent (j.entries "events") events m)
    (hregions : Retained (RegionEntry (j.field "id").text) Json.MakesNoRegion (j.entries "regions") regions n) :
    ThreadEntry j ⟨(j.field "id").text, events, regions⟩
      ({ misplaced := (["events", "regions"] : List Text).countP (j.misplaces ·) } + (m + n))

theorem total_misplaced (n : Nat) : Tally.total { misplaced := n } = n := by
  show 0 + n + 0 = n
  omega

/-! ## Whose events are kept -/

theorem action?_ne_start (j : Json) : j.action? ≠ some .start := by
  unfold Json.action? operation?
  split <;> simp

theorem event_of_makes {thread : Text} {j : Json} {action : Action} (h : j.MakesEvent action) :
    (j.event thread action).thread = thread ∧ (j.event thread action).action ≠ .start :=
  ⟨rfl, fun ha => action?_ne_start j (h.1.trans (congrArg some ha))⟩

theorem Retained.events {thread : Text} {items : List Json} {kept : List Event} {n : Tally}
    (h : Retained (EventEntry thread) Json.MakesNoEvent items kept n) :
    ∀ e ∈ kept, e.thread = thread ∧ e.action ≠ .start := by
  induction h with
  | nil => simp
  | skip hj h ih => exact ih
  | keep hj h ih =>
    obtain ⟨hmakes⟩ := hj
    intro e he
    rcases List.mem_cons.mp he with rfl | he
    · exact event_of_makes hmakes
    · exact ih e he

mutual

theorem RegionEntry.script {thread : Text} {j : Json} {r : Region} {n : Tally} :
    RegionEntry thread j r n → ∀ e ∈ r.script thread, e.thread = thread ∧ e.action ≠ .start
  | .event h => by
    simp only [Region.script, List.mem_singleton, forall_eq]
    exact event_of_makes h
  | .block h hbody => by
    have hin := hbody.scripts
    intro e he
    simp only [Region.script, List.mem_cons, List.mem_append, List.not_mem_nil, or_false] at he
    rcases he with rfl | he | rfl
    · exact ⟨rfl, nofun⟩
    · exact hin e he
    · exact ⟨rfl, nofun⟩

theorem Retained.scripts {thread : Text} {items : List Json} {kept : List Region} {n : Tally} :
    Retained (RegionEntry thread) Json.MakesNoRegion items kept n →
      ∀ e ∈ Region.scripts thread kept, e.thread = thread ∧ e.action ≠ .start
  | .nil => by simp [Region.scripts]
  | .skip _ h => h.scripts
  | .keep hj h => by
    have hfirst := hj.script
    have hrest := h.scripts
    intro e he
    rcases List.mem_append.mp he with he | he
    · exact hfirst e he
    · exact hrest e he

end

/-! ## Every reader accounts for its entry -/

section Accounted
variable {β : Type} {keeps : Json → β → Tally → Prop} {skips : Json → Prop}

/-- An entry is left out with one warning, or kept with the warnings of its tally. -/
def Reading.Accounted (keeps : Json → β → Tally → Prop) (skips : Json → Prop) (j : Json) (r : Reading β) : Prop :=
  (skips j ∧ ∃ w, r = .skip w) ∨ ∃ b m, keeps j b m ∧ r.kept = some b ∧ r.warnings.length = m.total

/-- A list that is read entry by entry is accounted for if each of its entries is. -/
theorem retained_of_list (read : Nat → Json → Reading β) (list : Nat → List Json → List β × List Warning)
    (hnil : ∀ i, list i [] = ([], []))
    (hcons : ∀ i j rest, list i (j :: rest) =
      ((read i j).kept.toList ++ (list (i + 1) rest).1, (read i j).warnings ++ (list (i + 1) rest).2))
    (items : List Json) (h : ∀ i, ∀ j ∈ items, (read i j).Accounted keeps skips j) (i : Nat) :
    ∃ n, Retained keeps skips items (list i items).1 n ∧ (list i items).2.length = n.total := by
  induction items generalizing i with
  | nil =>
    refine ⟨{}, ?_, ?_⟩
    · rw [hnil]
      exact .nil
    · rw [hnil]
      rfl
  | cons j rest ih =>
    obtain ⟨n, hrest, hlength⟩ := ih (fun k j' hj' => h k j' (List.mem_cons_of_mem j hj')) (i + 1)
    rw [hcons]
    rcases h i j List.mem_cons_self with ⟨hskip, w, hw⟩ | ⟨b, m, hkeep, hb, hm⟩
    · refine ⟨{ skipped := 1 } + n, ?_, ?_⟩
      · rw [hw]
        exact .skip hskip hrest
      · rw [hw, List.length_append, hlength, Tally.total_add]
        rfl
    · refine ⟨m + n, ?_, ?_⟩
      · rw [hb]
        exact .keep hkeep hrest
      · rw [List.length_append, hm, hlength, Tally.total_add]

end Accounted

theorem length_flavourWarnings_eq (place : Place) (j : Json) :
    (flavourWarnings place j).length = (j.tally []).total := by
  rw [length_flavourWarnings, Json.total_tally, List.countP_nil, Nat.zero_add]

theorem readEvent_accounted (thread : Text) (place : Place) (j : Json) :
    (readEvent thread place j).Accounted (EventEntry thread) Json.MakesNoEvent j := by
  by_cases h : ∃ action, j.MakesEvent action
  · obtain ⟨action, h⟩ := h
    refine Or.inr ⟨_, _, .event h, ?_, ?_⟩
    · rw [readEvent_of_makes thread place h]
    · rw [readEvent_of_makes thread place h]
      exact length_flavourWarnings_eq place j
  · rw [not_exists] at h
    exact Or.inl ⟨h, readEvent_of_not_makes thread place h⟩

theorem sizeOf_lt_of_mem_entries {j j' : Json} {name : Text} (h : j' ∈ j.entries name) :
    sizeOf j' < sizeOf j := by
  unfold Json.entries at h
  split at h
  · next items hf =>
    have hfield : j.field? name = some (.arr items) := by
      unfold Json.field at hf
      cases hv : j.field? name with
      | none => rw [hv] at hf; cases hf
      | some v => rw [hv, Option.getD_some] at hf; rw [hf]
    have hlt := Json.sizeOf_field?_lt hfield
    have hmem := List.sizeOf_lt_of_mem h
    simp only [Json.arr.sizeOf_spec] at hlt
    omega
  · cases h

theorem readRegions_retained_of (thread : Text) (path : List Nat) (items : List Json)
    (h : ∀ i, ∀ j ∈ items, (readRegion thread (path ++ [i]) j).Accounted (RegionEntry thread) Json.MakesNoRegion j)
    (index : Nat) :
    ∃ n, Retained (RegionEntry thread) Json.MakesNoRegion items (readRegions thread path index items).1 n ∧
      (readRegions thread path index items).2.length = n.total := by
  refine retained_of_list _ (readRegions thread path) ?_ ?_ items h index
  · intro i
    rw [readRegions]
  · intro i j rest
    rw [readRegions]

/-- The recursion is on the entry: what is in the body of a block is smaller than the block. -/
theorem readRegion_accounted (thread : Text) (path : List Nat) (j : Json) :
    (readRegion thread path j).Accounted (RegionEntry thread) Json.MakesNoRegion j := by
  by_cases he : ∃ action, j.MakesEvent action
  · obtain ⟨action, he⟩ := he
    refine Or.inr ⟨_, _, .event he, ?_, ?_⟩
    · rw [readRegion_of_makesEvent thread path he]
    · rw [readRegion_of_makesEvent thread path he]
      exact length_flavourWarnings_eq _ j
  · rw [not_exists] at he
    by_cases hb : j.MakesBlock
    · obtain ⟨n, hbody, hlength⟩ := readRegions_retained_of thread path (j.entries "body")
        (fun i j' hj' => readRegion_accounted thread (path ++ [i]) j') 0
      refine Or.inr ⟨_, _, .block hb hbody, ?_, ?_⟩
      · rw [readRegion_of_makesBlock thread path hb]
      · rw [readRegion_of_makesBlock thread path hb, List.length_append, List.length_append, hlength,
          length_flavourWarnings, length_listWarnings, Tally.total_add, Json.total_tally, List.countP_singleton]
        omega
    · exact Or.inl ⟨⟨he, hb⟩, readRegion_of_not_makes thread path he hb⟩
termination_by sizeOf j
decreasing_by exact sizeOf_lt_of_mem_entries hj'

theorem readEvents_retained (thread : Text) (index : Nat) (items : List Json) :
    ∃ n, Retained (EventEntry thread) Json.MakesNoEvent items (readEvents thread index items).1 n ∧
      (readEvents thread index items).2.length = n.total :=
  retained_of_list _ (readEvents thread) (fun _ => rfl) (fun _ _ _ => rfl) items
    (fun i j _ => readEvent_accounted thread (.event thread i) j) index

theorem readRegions_retained (thread : Text) (path : List Nat) (index : Nat) (items : List Json) :
    ∃ n, Retained (RegionEntry thread) Json.MakesNoRegion items (readRegions thread path index items).1 n ∧
      (readRegions thread path index items).2.length = n.total :=
  readRegions_retained_of thread path items (fun i j _ => readRegion_accounted thread (path ++ [i]) j) index

theorem readThread_accounted (position : Nat) (j : Json) :
    (readThread position j).Accounted ThreadEntry Json.MakesNoThread j := by
  by_cases h : j.MakesThread
  · obtain ⟨m, hevents, hm⟩ := readEvents_retained (j.field "id").text 0 (j.entries "events")
    obtain ⟨n, hregions, hn⟩ := readRegions_retained (j.field "id").text [] 0 (j.entries "regions")
    refine Or.inr ⟨_, _, .thread h hevents hregions, ?_, ?_⟩
    · rw [readThread_of_makes position h]
    · rw [readThread_of_makes position h]
      simp only [List.length_append, hm, hn, length_listWarnings, Tally.total_add, total_misplaced,
        List.countP_cons, List.countP_nil]
      omega
  · exact Or.inl ⟨h, readThread_of_not_makes position h⟩

theorem readThreads_retained (position : Nat) (items : List Json) :
    ∃ n, Retained ThreadEntry Json.MakesNoThread items (readThreads position items).1 n ∧
      (readThreads position items).2.length = n.total :=
  retained_of_list _ readThreads (fun _ => rfl) (fun _ _ _ => rfl) items
    (fun i j _ => readThread_accounted i j) position

theorem ThreadEntry.events {j : Json} {t : ThreadTrace} {n : Tally} (h : ThreadEntry j t n) :
    ∀ e ∈ t.events ++ Region.scripts t.thread t.regions, e.thread = t.thread ∧ e.action ≠ .start := by
  obtain ⟨hthread, hevents, hregions⟩ := h
  intro e he
  rcases List.mem_append.mp he with he | he
  · exact hevents.events e he
  · exact hregions.scripts e he

theorem Retained.exists_entry {β : Type} {keeps : Json → β → Tally → Prop} {skips : Json → Prop}
    {items : List Json} {kept : List β} {n : Tally} (h : Retained keeps skips items kept n) :
    ∀ b ∈ kept, ∃ j ∈ items, ∃ m, keeps j b m := by
  induction h with
  | nil => simp
  | @skip j _ _ _ hj h ih =>
    intro b hb
    obtain ⟨j', hj', hkeep⟩ := ih b hb
    exact ⟨j', List.mem_cons_of_mem j hj', hkeep⟩
  | @keep j _ _ _ _ _ hj h ih =>
    intro b hb
    rcases List.mem_cons.mp hb with rfl | hb
    · exact ⟨j, List.mem_cons_self, _, hj⟩
    · obtain ⟨j', hj', hkeep⟩ := ih b hb
      exact ⟨j', List.mem_cons_of_mem j hj', hkeep⟩

/-! ## Whole traces -/

/-- Every event is one of the thread that lists it. -/
def Trace.Owned (t : Trace) : Prop :=
  ∀ entry ∈ t.threads, ∀ e ∈ entry.script, e.thread = entry.thread

instance (t : Trace) : Decidable t.Owned :=
  inferInstanceAs (Decidable (∀ entry ∈ t.threads, ∀ e ∈ entry.script, e.thread = entry.thread))

/-- The events that are read are of the thread that lists them, and none is the start of a thread. -/
theorem events_of_ofJson? {j : Json} {t : Trace} (h : Trace.ofJson? j = some t) : ∀ entry ∈ t.threads,
    ∀ e ∈ entry.events ++ Region.scripts entry.thread entry.regions, e.thread = entry.thread ∧ e.action ≠ .start := by
  unfold Trace.ofJson? at h
  obtain ⟨items, -, rfl⟩ := Option.map_eq_some_iff.mp h
  obtain ⟨n, hthreads, -⟩ := readThreads_retained 0 items
  intro entry hentry
  obtain ⟨j', -, m, hkeep⟩ := hthreads.exists_entry entry hentry
  exact hkeep.events

theorem owned_of_ofJson? {j : Json} {t : Trace} (h : Trace.ofJson? j = some t) : t.Owned := by
  intro entry hentry e he
  rcases List.mem_cons.mp he with rfl | he
  · rfl
  · exact (events_of_ofJson? h entry hentry e he).1

theorem threadList?_cases {j : Json} {items : List Json} (h : threadList? j = some items) :
    j = .arr items ∨ j.field? "threads" = some (.arr items) := by
  unfold threadList? at h
  split at h
  · next items' =>
    rw [Option.some.inj h]
    exact Or.inl rfl
  · split at h
    · next items' hf =>
      rw [Option.some.inj h] at hf
      exact Or.inr hf
    · cases h

/-- Of a trace that is read, every entry is kept in its place or left out. There are as many warnings as there
are entries left out, fields that should be lists, and flavours that are not known; and all events are of the
thread that lists them, and none is the start of a thread. -/
theorem ofJson?_accounted {j : Json} {t : Trace} (h : Trace.ofJson? j = some t) :
    ∃ items n, (j = .arr items ∨ j.field? "threads" = some (.arr items)) ∧
      Retained ThreadEntry Json.MakesNoThread items t.threads n ∧
      t.warnings.length = n.skipped + n.misplaced + n.strange ∧
      ∀ entry ∈ t.threads, ∀ e ∈ entry.events ++ Region.scripts entry.thread entry.regions,
        e.thread = entry.thread ∧ e.action ≠ .start := by
  obtain ⟨items, hitems, rfl⟩ := Option.map_eq_some_iff.mp h
  obtain ⟨n, hthreads, hlength⟩ := readThreads_retained 0 items
  refine ⟨items, n, threadList?_cases hitems, hthreads, hlength, ?_⟩
  intro entry hentry
  obtain ⟨j', -, m, hkeep⟩ := hthreads.exists_entry entry hentry
  exact hkeep.events

/-- A trace with four entries to leave out, a body that is no list and a flavour that is not known. -/
def patchyJson : Json :=
  .obj [("threads", .arr [.num (.whole 5),
    .obj [("id", .str "T"),
      ("events", .arr [.obj [("op", .str "acquire"), ("resource", .str "L"), ("kind", .str "odd")],
        .str "x", .obj [("op", .str "release")]]),
      ("regions", .arr [.obj [("resource", .str " M "), ("body", .arr [.obj [("op", .str "Park")],
        .obj [("resource", .str "N"), ("body", .num (.whole 3))], .obj []])]])]])]

theorem ofJson?_accounted_patchy :
    ∃ t, Trace.ofJson? patchyJson = some t ∧ t.warnings.length = 6 ∧
      ∃ items n, (patchyJson = .arr items ∨ patchyJson.field? "threads" = some (.arr items)) ∧
        Retained ThreadEntry Json.MakesNoThread items t.threads n ∧
        t.warnings.length = n.skipped + n.misplaced + n.strange ∧
        ∀ entry ∈ t.threads, ∀ e ∈ entry.events ++ Region.scripts entry.thread entry.regions,
          e.thread = entry.thread ∧ e.action ≠ .start := by
  have hread : (Trace.ofJson? patchyJson).map (·.warnings.length) = some 6 := by decide +kernel
  obtain ⟨t, ht, hlength⟩ := Option.map_eq_some_iff.mp hread
  exact ⟨t, ht, hlength, ofJson?_accounted ht⟩

end Gridlock
