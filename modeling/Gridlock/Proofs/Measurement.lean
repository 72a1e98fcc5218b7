import Mathlib.Data.List.Dedup
import Gridlock.Analysis.Analyzer
import Gridlock.Proofs.Account
import Gridlock.Proofs.BareRelease
import Gridlock.Proofs.Chronicle
import Gridlock.Proofs.Exporting
import Gridlock.Proofs.Ring

/-!
# The sizes that are reported of a trace

The sizes are counted in the graph when the trace has been loaded. They can be counted in the trace as well: a thread
of the trace is a vertex, and so is a lock that an event takes or waits for; a lock that a thread takes and does not
hold yet is an edge to the thread, and an edge from the thread unless it holds nothing; and a thread that parks is an
edge to its permit.

* `Graph.edgesOf_intern`, `Graph.edgesOf_link` : the edges of one side, counted
* `Step.addsEdge` : the edges that a step adds; `Session.edgesOf_feed` : the edges of a history
* `Event.resource?`, `mem_nodes_lock_feed` : the locks of a history; `hasThread_load` : the threads of a trace
* `Trace.countP_script` : the operations of a trace
* `Metrics.Measures` : the sizes of a trace, counted in the trace; `Analyzer.metrics_analyze`
-/

namespace Gridlock

namespace Graph

variable {g : Graph} {u v : Node}

/-! ## Edges -/

theorem edgesOf_intern (g : Graph) (side' : Side) (name : Text) (flavour : Option Flavour) (side : Side) :
    (g.intern side' name flavour).edgesOf side = g.edgesOf side := by
  unfold intern edgesOf rowsOf
  dsimp only
  split
  · rw [List.filter_map, List.flatMap_map]
    congr 1
    have hnode (r : Row) (x : Option Flavour) :
        (if r.node = g.listed side' name then { r with flavour := x } else r).node = r.node := by
      split <;> rfl
    have htargets (r : Row) (x : Option Flavour) :
        (if r.node = g.listed side' name then { r with flavour := x } else r).targets = r.targets := by
      split <;> rfl
    simp only [Function.comp_def, hnode, htargets]
  · rw [List.filter_append, List.flatMap_append, List.length_append]
    by_cases hs : side' = side <;> simp [listed, hs]

theorem map_node_rowsOf (g : Graph) (side : Side) :
    (g.rowsOf side).map (·.node) = g.nodes.filter (·.side = side) := by
  rw [rowsOf, nodes, List.filter_map]
  rfl

theorem length_flatMap_linkRow {rows : List Row} (h : (rows.map (·.node)).Nodup) (u v : Node) :
    ((rows.map (linkRow u v)).flatMap (·.targets)).length =
      (rows.flatMap (·.targets)).length + if u ∈ rows.map (·.node) then 1 else 0 := by
  induction rows with
  | nil => rfl
  | cons r rows ih =>
    rw [List.map_cons, List.nodup_cons] at h
    rw [List.map_cons, List.flatMap_cons, List.flatMap_cons, List.length_append, List.length_append, ih h.2]
    by_cases hr : r.node = u
    · subst hr
      rw [linkRow, if_pos rfl, if_neg h.1, if_pos (List.mem_map_of_mem List.mem_cons_self), List.length_append,
        List.length_singleton]
      omega
    · have hmem : u ∈ (r :: rows).map (·.node) ↔ u ∈ rows.map (·.node) := by simp [Ne.symm hr]
      simp only [linkRow, if_neg hr, hmem, Nat.add_assoc]

theorem edgesOf_link (h : g.nodes.Nodup) (hu : u ∈ g.nodes) (v : Node) (side : Side) :
    (g.link u v).edgesOf side = g.edgesOf side + if u.side = side then 1 else 0 := by
  have hrows : (g.link u v).rowsOf side = (g.rowsOf side).map (linkRow u v) := by
    unfold rowsOf link
    rw [List.filter_map]
    simp only [Function.comp_def, linkRow_node]
  rw [edgesOf, edgesOf, hrows, length_flatMap_linkRow, map_node_rowsOf]
  · simp [hu]
  · rw [map_node_rowsOf]
    exact h.filter _

theorem WellFormed.edgesOf_addTaking (h : g.WellFormed) (thread key : Text) (flavour : Option Flavour) (nested : Bool)
    (side : Side) : (g.addTaking thread key flavour nested).edgesOf side =
      g.edgesOf side + (if nested = true ∧ side = .process then 1 else 0) + if side = .resource then 1 else 0 := by
  have hi := (h.intern .process thread none).intern .resource key flavour
  have hprocess : g.listed .process thread ∈ ((g.intern .process thread).intern .resource key flavour).nodes := by
    simp [mem_nodes_intern]
  have hresource : g.listed .resource key ∈ ((g.intern .process thread).intern .resource key flavour).nodes := by
    simp [mem_nodes_intern]
  have hside (a b : Side) (name : Text) : (g.listed a name).side = b ↔ b = a := eq_comm
  unfold Graph.addTaking
  cases nested with
  | false =>
    simp only [Bool.false_eq_true, if_false, false_and, listed_intern, edgesOf_link hi.nodup hresource, edgesOf_intern,
      hside, Nat.add_zero]
  | true =>
    have hlinked := hi.link hresource (u := g.listed .process thread) (by simp [listed])
    simp only [if_true, true_and, listed_intern, edgesOf_link hlinked.nodup ((nodes_link _ _ _).symm ▸ hresource),
      edgesOf_link hi.nodup hprocess, edgesOf_intern, hside]

theorem WellFormed.edgesOf_addPark (h : g.WellFormed) (thread : Text) (side : Side) :
    (g.addPark thread).edgesOf side = g.edgesOf side + if side = .process then 1 else 0 := by
  have hi := (h.intern .process thread none).intern .resource (permitKey thread) (some .permit)
  unfold Graph.addPark
  rw [edgesOf_link hi.nodup (by simp [mem_nodes_intern]), edgesOf_intern, edgesOf_intern]
  simp only [listed, eq_comm]

end Graph

/-! ## The edges of a history -/

namespace Step

/-- The thread takes a lock that it does not hold. -/
def isNew (x : Step) : Bool :=
  x.newKey?.isSome

def isFirst (x : Step) : Bool :=
  x.isNew && x.held.isEmpty

def isPark (x : Step) : Bool :=
  x.event.action = .park

/-- Whether the step adds an edge that leaves a vertex of the given side. -/
def addsEdge (x : Step) : Side → Bool
  | .process => x.isNew && !x.held.isEmpty || x.isPark
  | .resource => x.isNew

variable {x : Step}

theorem isPark_eq_false_of_isNew (h : x.isNew = true) : x.isPark = false := by
  obtain ⟨key, hkey⟩ := Option.isSome_iff_exists.mp h
  simp [isPark, action_ne_park_of_newKey? hkey]

theorem addsEdge_of_newKey?_eq_none (h : x.newKey? = none) (hp : x.event.action ≠ .park) (side : Side) :
    x.addsEdge side = false := by
  cases side <;> simp [addsEdge, isNew, isPark, h, hp]

/-- To start adds no edge. -/
theorem action_ne_start_of_addsEdge {side : Side} (h : x.addsEdge side = true) : x.event.action ≠ .start := by
  intro ha
  rw [addsEdge_of_newKey?_eq_none (newKey?_of_start ha) (by simp [ha])] at h
  cases h

/-- A thread waits for each lock that it takes anew, but for the first one, and for its permit. -/
theorem countP_addsEdge_process (steps : List Step) :
    steps.countP (·.addsEdge .process) + steps.countP isFirst = steps.countP isNew + steps.countP isPark := by
  induction steps with
  | nil => rfl
  | cons x steps ih =>
    have hone : (if x.addsEdge .process = true then 1 else 0) + (if x.isFirst = true then 1 else 0) =
        (if x.isNew = true then 1 else 0) + if x.isPark = true then 1 else 0 := by
      unfold addsEdge isFirst
      cases hnew : x.isNew with
      | false => simp
      | true => cases x.held.isEmpty <;> simp [isPark_eq_false_of_isNew hnew]
    rw [List.countP_cons, List.countP_cons, List.countP_cons, List.countP_cons]
    omega

end Step

namespace Session

section Edges
variable {s : Session} {e : Event} {g : Graph}

theorem Recorded.edgesOf (h : s.Recorded e g) (hs : s.graph.WellFormed) (side : Side) :
    g.edgesOf side = s.graph.edgesOf side + if (s.step e).addsEdge side then 1 else 0 := by
  cases h with
  | started ha =>
    have hnone : (s.step e).addsEdge side = false :=
      Step.addsEdge_of_newKey?_eq_none (Step.newKey?_of_start ha) (by simp [ha]) side
    rw [Graph.edgesOf_intern, hnone]
    rfl
  | taken key hk hh =>
    have hnew : (s.step e).isNew = true := by
      rw [Step.isNew, Step.newKey?_eq_some_iff.mpr ⟨hk, hh⟩, Option.isSome_some]
    have hpark := Step.isPark_eq_false_of_isNew hnew
    rw [hs.edgesOf_addTaking]
    cases side <;> simp [Step.addsEdge, hnew, hpark]
  | parked ha =>
    have hnew : (s.step e).isNew = false := by rw [Step.isNew, Step.newKey?_of_park ha, Option.isSome_none]
    rw [hs.edgesOf_addPark]
    cases side <;> simp [Step.addsEdge, Step.isPark, hnew, ha]
  | kept hp hk =>
    rw [Step.addsEdge_of_newKey?_eq_none (Step.newKey?_eq_none_iff.mpr hk) hp]
    rfl

/-- The edges of a session are those that the steps of its history have added. -/
theorem edgesOf_feed (hs : s.graph.WellFormed) (events : List Event) (side : Side) :
    (s.feed events).graph.edgesOf side = s.graph.edgesOf side + (s.steps events).countP (·.addsEdge side) := by
  induction events generalizing s with
  | nil => rfl
  | cons e events ih =>
    have hr := apply_recorded s e
    have hrest : ((s.apply e).feed events).graph.edgesOf side = _ := ih (hr.wellFormed hs)
    rw [feed_cons, hrest, hr.edgesOf hs, steps, List.countP_cons]
    omega

end Edges

end Session

/-! ## The vertices of a history -/

/-- The vertices of one side are as many as the names that are listed there. -/
theorem Graph.WellFormed.length_rowsOf {g : Graph} (h : g.WellFormed) {side : Side} {names : List Text}
    (hnames : ∀ name, g.listed side name ∈ g.nodes ↔ name ∈ names) :
    (g.rowsOf side).length = names.dedup.length := by
  have hnodup : ((g.nodes.filter (·.side = side)).map (·.name)).Nodup := by
    refine List.Nodup.map_on ?_ (h.nodup.filter _)
    intro u hu v hv hname
    simp only [List.mem_filter, decide_eq_true_eq] at hu hv
    by_contra hne
    exact h.name_ne hu.1 hv.1 (hu.2.trans hv.2.symm) hne hname
  have hperm : ((g.nodes.filter (·.side = side)).map (·.name)).Perm names.dedup := by
    rw [List.perm_ext_iff_of_nodup hnodup names.nodup_dedup]
    intro name
    rw [List.mem_dedup, ← hnames, List.mem_map]
    constructor
    · rintro ⟨n, hn, rfl⟩
      simp only [List.mem_filter, decide_eq_true_eq] at hn
      rw [← hn.2, ← h.eq_listed hn.1]
      exact hn.1
    · intro hmem
      exact ⟨g.listed side name, List.mem_filter.mpr ⟨hmem, decide_eq_true rfl⟩, rfl⟩
  rw [← hperm.length_eq, List.length_map, ← map_node_rowsOf, List.length_map]

/-- The key of the lock that an event is about to take, or that it parks on. -/
def Event.resource? (e : Event) : Option Text :=
  if e.action = .park then some (permitKey e.thread) else e.key?

namespace Event

variable {e : Event}

theorem resource?_of_key? {key : Text} (h : e.key? = some key) : e.resource? = some key := by
  have hpark : e.action ≠ .park := by
    intro hp
    rw [Session.key?_of_park hp] at h
    cases h
  rw [resource?, if_neg hpark, h]

theorem key?_of_lockName? {name : Text} (h : e.lockName? = some name) (hr : e.action ≠ .release) :
    e.key? = some (lockKey name e.flavour) := by
  unfold lockName? at h
  split at h
  · next htakes =>
    simp only [hr, or_false] at htakes
    rw [key?, if_pos htakes, h, Option.map_some]
  · cases h

end Event

theorem Holdings.mem_keys {h : Holdings} {key : Text} : key ∈ h.keys ↔ ∃ x ∈ h.entries, x.key = key := by
  rw [keys, List.mem_reverse, List.mem_map]

namespace Session

/-- The locks that are held are in the table. -/
def Rooted (s : Session) : Prop :=
  ∀ t, ∀ key ∈ s.heldBy t, s.graph.listed .resource key ∈ s.graph.nodes

section Vertices
variable {s : Session} {e : Event} {g : Graph}

theorem Recorded.mem_nodes_lock (h : s.Recorded e g) (hs : s.Rooted) (key : Text) :
    s.graph.listed .resource key ∈ g.nodes ↔
      s.graph.listed .resource key ∈ s.graph.nodes ∨ e.resource? = some key := by
  cases h with
  | started ha =>
    have hnone : e.resource? = none := by simp [Event.resource?, Event.key?, ha]
    simp [Graph.mem_nodes_intern, (Graph.listed_process_ne_resource _ _ _).symm, hnone]
  | taken k hk hh =>
    rw [Graph.mem_nodes_addTaking, Event.resource?_of_key? hk]
    simp [Graph.listed_inj, (Graph.listed_process_ne_resource _ _ _).symm, eq_comm]
  | parked ha =>
    rw [Graph.mem_nodes_addPark, Event.resource?, if_pos ha]
    simp [Graph.listed_inj, (Graph.listed_process_ne_resource _ _ _).symm, eq_comm]
  | kept hp hk =>
    rw [Event.resource?, if_neg hp]
    exact (or_iff_left_of_imp fun hkey => hs _ _ (hk key hkey)).symm

theorem Rooted.apply (hs : s.Rooted) (e : Event) : (s.apply e).Rooted := by
  have hr := apply_recorded s e
  intro t key hkey
  obtain ⟨x, hx, rfl⟩ := Holdings.mem_keys.mp hkey
  rw [Graph.listed, hr.epoch]
  refine (hr.mem_nodes_lock hs x.key).mpr ?_
  rcases mem_entries_apply hx with hold | ⟨hne, name, hname, rfl⟩
  · exact Or.inl (hs t x.key (Holdings.mem_keys.mpr ⟨x, hold, rfl⟩))
  · exact Or.inr (Event.resource?_of_key? (Event.key?_of_lockName? hname hne))

/-- The locks of a session are those that have been taken or parked on. -/
theorem mem_nodes_lock_feed (hs : s.Rooted) (events : List Event) (key : Text) :
    s.graph.listed .resource key ∈ (s.feed events).graph.nodes ↔
      s.graph.listed .resource key ∈ s.graph.nodes ∨ key ∈ events.filterMap Event.resource? := by
  induction events generalizing s with
  | nil => simp [feed]
  | cons e events ih =>
    have hr := apply_recorded s e
    have hlisted : (s.apply e).graph.listed .resource key = s.graph.listed .resource key := by
      rw [Graph.listed, hr.epoch, Graph.listed]
    have hrest := ih (hs.apply e)
    rw [hlisted, hr.mem_nodes_lock hs, or_assoc] at hrest
    rw [feed_cons, hrest, List.mem_filterMap, List.mem_filterMap, List.exists_mem_cons_iff]

/-- A thread that has started is in the table. -/
theorem hasThread_feed_of_start (s : Session) {events : List Event} (he : e ∈ events) (ha : e.action = .start) :
    (s.feed events).graph.hasThread e.thread = true := by
  obtain ⟨before, after, rfl⟩ := List.append_of_mem he
  rw [feed_append, feed_cons]
  generalize s.feed before = s'
  have hstarted : s'.graph.listed .process e.thread ∈ (s'.apply e).graph.nodes := by
    rw [apply, ha]
    exact (Graph.mem_nodes_intern ..).mpr (Or.inr rfl)
  refine decide_eq_true ?_
  rw [Graph.listed, feed_epoch, (apply_recorded s' e).epoch]
  exact (nodes_prefix_feed (s'.apply e) after).subset hstarted

/-- The threads of a trace are those that it lists. -/
theorem hasThread_load (hs : s.graph.rows = []) {t : Trace} (ht : t.Owned) (name : Text) :
    (s.load t).graph.hasThread name = true ↔ name ∈ t.threads.map (·.thread) := by
  constructor
  · intro h
    by_contra hnot
    have hne : ∀ e ∈ t.script, e.thread ≠ name := by
      intro e he
      obtain ⟨entry, hentry, he⟩ := List.mem_flatMap.mp he
      rw [ht entry hentry e he]
      exact fun heq => hnot (List.mem_map.mpr ⟨entry, hentry, heq⟩)
    have hview : (s.load t).graph.hasThread name = s.graph.hasThread name :=
      congrArg (·.present) (view_feed_of_forall_ne s hne)
    rw [hview, Graph.hasThread, Graph.nodes, hs] at h
    cases h
  · intro h
    obtain ⟨entry, hentry, rfl⟩ := List.mem_map.mp h
    have hstart : { action := .start, thread := entry.thread } ∈ t.script :=
      List.mem_flatMap.mpr ⟨entry, hentry, List.mem_cons_self⟩
    exact s.hasThread_feed_of_start hstart rfl

end Vertices

end Session

/-! ## The events of a trace -/

namespace Region

mutual

theorem length_script (thread : Text) : (r : Region) → (r.script thread).length = r.size
  | event e => rfl
  | block lock flavour body => by
    rw [script, size, List.length_cons, List.length_append, length_scripts thread body, List.length_singleton]
    omega

theorem length_scripts (thread : Text) : (rs : List Region) → (scripts thread rs).length = sizes rs
  | [] => rfl
  | r :: rest => by
    rw [scripts, sizes, List.length_append, length_script thread r, length_scripts thread rest]

end

end Region

theorem ThreadTrace.countP_script {t : ThreadTrace}
    (h : ∀ e ∈ t.events ++ Region.scripts t.thread t.regions, e.action ≠ .start) :
    t.script.countP (·.action ≠ .start) = t.eventCount := by
  rw [script, List.countP_cons_of_neg (by simp), List.countP_eq_length.mpr fun e he => decide_eq_true (h e he),
    List.length_append, Region.length_scripts, eventCount]

/-- The operations of a trace are its events, but for the starts of threads. -/
theorem Trace.countP_script {t : Trace} (h : ∀ entry ∈ t.threads,
    ∀ e ∈ entry.events ++ Region.scripts entry.thread entry.regions, e.action ≠ .start) :
    t.script.countP (·.action ≠ .start) = t.eventCount := by
  unfold eventCount script
  generalize t.threads = threads at h ⊢
  induction threads with
  | nil => rfl
  | cons entry threads ih =>
    rw [List.forall_mem_cons] at h
    rw [List.flatMap_cons, List.countP_append, List.foldr_cons, ThreadTrace.countP_script h.1, ih h.2]

/-! ## The sizes of a trace -/

structure Metrics.Measures (m : Metrics) (t : Trace) : Prop where
  events : m.events = t.eventCount
  operations : m.events = t.script.countP (·.action ≠ .start)
  processes : m.processes = (t.threads.map (·.thread)).dedup.length
  resources : m.resources = (t.script.filterMap Event.resource?).dedup.length
  /-- A thread holds each lock that it takes anew. -/
  holdEdges : m.holdEdges = (Session.steps {} t.script).countP Step.isNew
  /-- It waits for it, unless it holds none; and if it parks, it waits for its permit. -/
  waitEdges : m.waitEdges + (Session.steps {} t.script).countP Step.isFirst =
    m.holdEdges + t.script.countP (·.action = .park)
  edges : m.edges = m.waitEdges + m.holdEdges
  edges_le : m.edges ≤ 2 * m.events

namespace Session

/-- A step adds at most one edge on either side, and none if it is the start of a thread. -/
theorem countP_addsEdge_le (s : Session) (events : List Event) (side : Side) :
    (s.steps events).countP (·.addsEdge side) ≤ events.countP (·.action ≠ .start) := by
  have hle : (s.steps events).countP (·.addsEdge side) ≤ (s.steps events).countP (·.event.action ≠ .start) :=
    List.countP_mono_left fun x _ hx => decide_eq_true (Step.action_ne_start_of_addsEdge hx)
  refine hle.trans_eq ?_
  conv_rhs => rw [← s.map_event_steps events, List.countP_map]
  rfl

/-- The sizes of the graph of a session that has seen nothing but a trace. -/
theorem measures_load {s : Session} (hrows : s.graph.rows = []) (hrecorder : s.recorder = {}) {t : Trace}
    (howned : t.Owned) (hevents : t.script.countP (·.action ≠ .start) = t.eventCount) :
    ((s.load t).graph.metrics t.eventCount).Measures t := by
  have hempty : s.graph.Orderly := .of_rows_eq_nil hrows
  have hloaded : (s.load t).graph.WellFormed := (orderly_feed hempty t.script).toWellFormed
  have hlisted (side : Side) (name : Text) : (s.load t).graph.listed side name = s.graph.listed side name := by
    rw [Graph.listed, load, feed_epoch, Graph.listed]
  have hsteps : s.steps t.script = Session.steps {} t.script := steps_congr hrecorder t.script
  have hedges (side : Side) : (s.load t).graph.edgesOf side = (Session.steps {} t.script).countP (·.addsEdge side) := by
    rw [load, edgesOf_feed hempty.toWellFormed, hsteps, Graph.edgesOf, Graph.rowsOf, hrows]
    exact Nat.zero_add _
  have hle (side : Side) : (s.load t).graph.edgesOf side ≤ t.eventCount := by
    rw [hedges, ← hevents]
    exact countP_addsEdge_le {} t.script side
  refine ⟨rfl, hevents.symm, ?_, ?_, hedges .resource, ?_, rfl, ?_⟩
  · refine hloaded.length_rowsOf fun name => ?_
    rw [← hasThread_load hrows howned name, Graph.hasThread, decide_eq_true_iff]
  · have hnone : s.graph.nodes = [] := by rw [Graph.nodes, hrows, List.map_nil]
    have hrooted : s.Rooted := by
      intro t key hkey
      rw [heldBy, holdings, hrecorder] at hkey
      cases hkey
    refine hloaded.length_rowsOf fun key => ?_
    rw [hlisted, load, mem_nodes_lock_feed hrooted, hnone]
    simp
  · have hparks : (Session.steps {} t.script).countP Step.isPark = t.script.countP (·.action = .park) := by
      conv_rhs => rw [← map_event_steps {} t.script, List.countP_map]
      rfl
    have hholds : (s.load t).graph.edgesOf .resource = (Session.steps {} t.script).countP Step.isNew := hedges .resource
    have hcount := Step.countP_addsEdge_process (Session.steps {} t.script)
    rw [hparks, ← hedges .process, ← hholds] at hcount
    exact hcount
  · have hprocess := hle .process
    have hresource := hle .resource
    show (s.load t).graph.edgesOf .process + (s.load t).graph.edgesOf .resource ≤ 2 * t.eventCount
    omega

end Session

/-- After the analysis of a trace that was read, the sizes that are reported are those of the trace, and the edges are
those of the graph. -/
theorem Analyzer.metrics_analyze {j : Json} {t : Trace} (h : Trace.ofJson? j = some t) (a : Analyzer)
    (source : String) (base : Finding) :
    let after := a.analyze { t with source := source } base
    ∃ m : Metrics, after.2.metrics = m.toList ∧ m.Measures t ∧ m.edges = after.1.session.graph.edgeCount := by
  have hevents : t.script.countP (·.action ≠ .start) = t.eventCount :=
    Trace.countP_script fun entry hentry e he => (events_of_ofJson? h entry hentry e he).2
  refine ⟨_, rfl, ?_, (Graph.edgeCount_eq_edgesOf _).symm⟩
  exact Session.measures_load rfl rfl (owned_of_ofJson? h) hevents

/-- A thread takes a lock twice, gives it back twice and takes it anew, tries another one and parks; a second thread
takes both in regions; and the first thread is listed again. -/
def mixedJson : Json :=
  .arr [
    .obj [("id", .str "T"),
      ("events", .arr [.obj [("op", .str "acquire"), ("resource", .str "A")],
        .obj [("op", .str "acquire"), ("resource", .str "A")],
        .obj [("op", .str "release"), ("resource", .str "A")],
        .obj [("op", .str "release"), ("resource", .str "A")],
        .obj [("op", .str "acquire"), ("resource", .str "A")],
        .obj [("op", .str "try_acquire"), ("resource", .str "B"), ("timed", .bool true)],
        .obj [("op", .str "park")]])],
    .str "U",
    .obj [("id", .str "U"),
      ("regions", .arr [.obj [("resource", .str "B"), ("body", .arr [.obj [("resource", .str "A")]])]])],
    .obj [("id", .str "T"), ("events", .arr [.obj [("op", .str "unpark")], .obj [("op", .str "park")]])]]

theorem Analyzer.metrics_analyze_mixed :
    ∃ t, Trace.ofJson? mixedJson = some t ∧
      let after := Analyzer.analyze {} { t with source := "mixed.json" } {}
      after.2.metrics = Metrics.toList ⟨13, 2, 3, 4, 5, 2⟩ ∧
        ∃ m : Metrics, after.2.metrics = m.toList ∧ m.Measures t ∧ m.edges = after.1.session.graph.edgeCount := by
  have hread : (Trace.ofJson? mixedJson).map
      (fun t => (Analyzer.analyze {} { t with source := "mixed.json" } {}).2.metrics) =
        some (Metrics.toList ⟨13, 2, 3, 4, 5, 2⟩) := by decide +kernel
  obtain ⟨t, ht, hmetrics⟩ := Option.map_eq_some_iff.mp hread
  exact ⟨t, ht, hmetrics, Analyzer.metrics_analyze ht {} "mixed.json" {}⟩

end Gridlock
