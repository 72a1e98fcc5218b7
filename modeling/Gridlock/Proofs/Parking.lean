import Gridlock.Proofs.Account
import Gridlock.Proofs.Consistency
import Gridlock.Proofs.Nesting
import Gridlock.Proofs.Sinks

/-!
# Events that do not block

A thread that parks gets an edge to its permit, and nobody takes the permit: it has no edges of its own. Trying a
lock without waiting and unparking a thread leave no edge at all. So a session that is not told of such events
has the same graph, the permits apart, and the same deadlocks.

* `Trace.busy` : a trace without its idle events; `Trace.script_busy`
* `noPermit` : all vertices but the permits of some threads
* `Session.Unparked` : a session, and the same without those permits; `Unparked.apply`, `Unparked.apply_idle`
* `Unparked.feed`, `Unparked.feed_scripts` : events, and the events of threads that are started first
* `detect_load_busy` : idle events do not matter to the deadlocks of a trace
-/

namespace Gridlock

/-! ## Traces without idle events -/

namespace Region

mutual

/-- A region without the idle events in it. Of an idle event nothing is left. -/
def busy : Region → List Region
  | event e => if e.Idle then [] else [event e]
  | block lock flavour body => [block lock flavour (busies body)]

def busies : List Region → List Region
  | [] => []
  | r :: rest => r.busy ++ busies rest

end

mutual

theorem scripts_busy (thread : Text) : ∀ r : Region,
    scripts thread r.busy = (r.script thread).filter fun e => ¬ e.Idle
  | event e => by
    rw [busy, script, List.filter_singleton]
    by_cases he : e.Idle
    · rw [if_pos he]
      simp [he, scripts]
    · rw [if_neg he, scripts_singleton]
      simp [he, script]
  | block lock flavour body => by
    rw [busy, scripts_singleton, script, script, scripts_busies thread body, List.filter_cons_of_pos,
      List.filter_append, List.filter_cons_of_pos, List.filter_nil]
    · simp [Event.Idle]
    · simp [Event.Idle]

theorem scripts_busies (thread : Text) : ∀ rs : List Region,
    scripts thread (busies rs) = (scripts thread rs).filter fun e => ¬ e.Idle
  | [] => rfl
  | r :: rest => by
    rw [busies, scripts_append, scripts_busy thread r, scripts_busies thread rest, scripts, List.filter_append]

end

end Region

def ThreadTrace.busy (t : ThreadTrace) : ThreadTrace :=
  { t with events := t.events.filter fun e => ¬ e.Idle, regions := Region.busies t.regions }

def Trace.busy (t : Trace) : Trace :=
  { t with threads := t.threads.map (·.busy) }

theorem ThreadTrace.script_busy (t : ThreadTrace) : t.busy.script = t.script.filter fun e => ¬ e.Idle := by
  unfold script busy
  rw [List.filter_cons_of_pos (by simp [Event.Idle]), List.filter_append, Region.scripts_busies]

theorem Trace.script_busy (t : Trace) : t.busy.script = t.script.filter fun e => ¬ e.Idle := by
  unfold script busy
  rw [List.flatMap_map, List.filter_flatMap]
  simp only [ThreadTrace.script_busy]

/-! ## Permits -/

/-- All vertices but the permits of some threads. -/
def noPermit (threads : List Text) (n : Node) : Bool :=
  !(n.side = .resource ∧ n.name ∈ threads.map permitKey)

section Permit
variable {threads : List Text} {n : Node} {thread key : Text} {g g' : Graph}

theorem noPermit_eq_false : noPermit threads n = false ↔
    n.side = .resource ∧ n.name ∈ threads.map permitKey := by
  simp [noPermit]

theorem noPermit_thread : noPermit threads (g.listed .process thread) = true := by
  simp [noPermit, Graph.listed]

theorem noPermit_lock (h : key ∉ threads.map permitKey) :
    noPermit threads (g.listed .resource key) = true := by
  simp only [noPermit, Graph.listed]
  simpa using h

theorem noPermit_permit (h : thread ∈ threads) :
    noPermit threads (g.listed .resource (permitKey thread)) = false :=
  noPermit_eq_false.mpr ⟨rfl, List.mem_map_of_mem h⟩

namespace Graph

/-- A thread that is in the table already leaves no trace there when it comes up. -/
theorem rows_internThread (h : g.listed .process thread ∈ g.nodes) :
    (g.intern .process thread).rows = g.rows := by
  unfold intern
  dsimp only
  rw [if_pos (isSome_row?.mpr h)]
  refine (List.map_congr_left ?_).trans (List.map_id g.rows)
  intro r _
  split
  · simp
  · rfl

theorem Restricted.addTaking (h : Restricted (noPermit threads) g g') (hkey : key ∉ threads.map permitKey)
    (flavour : Option Flavour) (nested : Bool) : Restricted (noPermit threads)
      (g.addTaking thread key flavour nested) (g'.addTaking thread key flavour nested) := by
  have hi := (h.intern .process thread none noPermit_thread).intern .resource key flavour (noPermit_lock hkey)
  unfold Graph.addTaking
  dsimp only
  rw [hi.listed, hi.listed]
  cases nested with
  | false => exact hi.link noPermit_thread
  | true => exact (hi.link (noPermit_lock hkey)).link noPermit_thread

/-- When a thread of the table parks, only its permit and the edge to it come up. -/
theorem Restricted.addPark (h : Restricted (noPermit threads) g g') (hthread : thread ∈ threads)
    (hnode : g.listed .process thread ∈ g.nodes) : Restricted (noPermit threads) (g.addPark thread) g' := by
  have hi : Restricted (noPermit threads) (g.intern .process thread) g' := by
    refine ⟨by rw [epoch_intern, h.epoch], ?_⟩
    rw [rows_internThread hnode, h.rows]
  exact (hi.intern_of_not .resource _ (some .permit) (noPermit_permit hthread)).link_of_not (noPermit_permit hthread)

end Graph

end Permit

/-! ## Sessions without permits -/

namespace Session

/-- The second session is the first one without the permits of some threads, which have no edges. -/
structure Unparked (threads : List Text) (s s' : Session) : Prop where
  graph : s.graph.Restricted (noPermit threads) s'.graph
  permits : ∀ n, noPermit threads n = false → s.graph.targetsOf n = []
  recorder : s'.recorder = s.recorder

/-- The event takes none of the permits. -/
def SparesPermits (threads : List Text) (e : Event) : Prop :=
  ∀ key, e.key? = some key → key ∉ threads.map permitKey

variable {threads : List Text} {s s' : Session} {e : Event}

/-- A permit that nobody takes has no edges. -/
theorem permits_apply (h : ∀ n, noPermit threads n = false → s.graph.targetsOf n = [])
    (he : SparesPermits threads e) :
    ∀ n, noPermit threads n = false → (s.apply e).graph.targetsOf n = [] := by
  intro n hn
  obtain ⟨hside, hname⟩ := noPermit_eq_false.mp hn
  rw [List.eq_nil_iff_forall_not_mem]
  intro w hw
  rcases ((apply_recorded s e).mem_targetsOf n w).mp hw with hw | hadds
  · rw [h n hn] at hw
    cases hw
  · rcases hadds with ⟨key, hkey, -, ⟨-, rfl, -⟩ | ⟨rfl, -⟩⟩ | ⟨-, rfl, -⟩
    · cases hside
    · exact he key hkey hname
    · cases hside

namespace Unparked

theorem acquire (h : Unparked threads s s') (thread : Text) {lock : Option Text}
    {flavour : Option Flavour} (hlock : ∀ l ∈ named? lock, lockKey l flavour ∉ threads.map permitKey) :
    (s.acquire thread lock flavour).graph.Restricted (noPermit threads)
        (s'.acquire thread lock flavour).graph ∧
      (s'.acquire thread lock flavour).recorder = (s.acquire thread lock flavour).recorder := by
  have hholdings : s'.holdings thread = s.holdings thread := congrArg (Recorder.holdings · thread) h.recorder
  unfold Session.acquire Session.taking Holdings.taking
  rw [hholdings, h.recorder]
  cases hl : named? lock with
  | none => exact ⟨h.graph, h.recorder⟩
  | some l =>
    dsimp only
    split
    · next htaking => split at htaking <;> cases htaking
    · exact ⟨h.graph, rfl⟩
    · next l' key nested htaking =>
      split at htaking
      · cases htaking
      · cases htaking
        exact ⟨h.graph.addTaking (hlock l hl) flavour _, rfl⟩

theorem release (h : Unparked threads s s') (thread : Text) (lock : Option Text)
    (flavour : Option Flavour) :
    (s'.release thread lock flavour).recorder = (s.release thread lock flavour).recorder := by
  have hholdings : s'.holdings thread = s.holdings thread := congrArg (Recorder.holdings · thread) h.recorder
  unfold Session.release Session.releasing?
  rw [hholdings, h.recorder]
  cases named? lock with
  | none => exact h.recorder
  | some l =>
    dsimp only
    split
    · exact h.recorder
    · rfl

/-- An event that is not idle does the same to both sessions. -/
theorem apply (h : Unparked threads s s') (hidle : ¬ e.Idle) (he : SparesPermits threads e) :
    Unparked threads (s.apply e) (s'.apply e) := by
  have hpermits := permits_apply h.permits he
  have hlock (ht : e.action = .acquire ∨ e.action = .tryAcquire ∧ e.timed = true) :
      ∀ l ∈ named? e.lock, lockKey l e.flavour ∉ threads.map permitKey := by
    intro l hl
    refine he _ ?_
    rw [Event.key?, if_pos ht, hl, Option.map_some]
  unfold Event.Idle at hidle
  unfold Session.apply at hpermits ⊢
  cases ha : e.action with
  | start =>
    simp only [ha] at hpermits ⊢
    refine ⟨h.graph.intern .process e.thread none noPermit_thread, hpermits, ?_⟩
    show s'.recorder.setHoldings _ _ = s.recorder.setHoldings _ _
    rw [h.recorder]
  | acquire =>
    simp only [ha] at hpermits ⊢
    obtain ⟨hgraph, hrecorder⟩ := h.acquire e.thread (hlock (Or.inl ha))
    exact ⟨hgraph, hpermits, hrecorder⟩
  | tryAcquire =>
    have ht : e.timed = true := by simpa [ha] using hidle
    simp only [ha, tryAcquire, ht, if_true] at hpermits ⊢
    obtain ⟨hgraph, hrecorder⟩ := h.acquire e.thread (hlock (Or.inr ⟨ha, ht⟩))
    exact ⟨hgraph, hpermits, hrecorder⟩
  | release =>
    simp only [ha] at hpermits ⊢
    refine ⟨?_, hpermits, h.release _ _ _⟩
    rw [release_graph, release_graph]
    exact h.graph
  | park => exact absurd (Or.inl ha) hidle
  | unpark => exact absurd (Or.inr (Or.inl ha)) hidle

/-- An idle event of a thread of the table does nothing that shows without the permits. -/
theorem apply_idle (h : Unparked threads s s') (hidle : e.Idle) (he : SparesPermits threads e)
    (hpark : e.action = .park → e.thread ∈ threads ∧ s.graph.hasThread e.thread = true) :
    Unparked threads (s.apply e) s' := by
  have hpermits := permits_apply h.permits he
  have hrecorder : s'.recorder = (s.apply e).recorder := h.recorder.trans (recorder_apply_of_idle hidle).symm
  refine ⟨?_, hpermits, hrecorder⟩
  unfold Session.apply
  rcases hidle with ha | ha | ⟨ha, ht⟩
  · obtain ⟨hthread, hnode⟩ := hpark ha
    rw [ha]
    exact h.graph.addPark hthread (of_decide_eq_true hnode)
  · rw [ha]
    exact h.graph
  · rw [ha]
    simp only [tryAcquire, ht, Bool.false_eq_true, if_false]
    exact h.graph

end Unparked

theorem hasThread_apply {t : Text} (h : s.graph.hasThread t = true) (e : Event) :
    (s.apply e).graph.hasThread t = true := by
  have hr := apply_recorded s e
  refine decide_eq_true ?_
  rw [Graph.listed, hr.epoch]
  exact hr.nodes_prefix.subset (of_decide_eq_true h)

namespace Unparked

/-- Events of which those that park are of threads in the table. -/
theorem feed {events : List Event} (he : ∀ e ∈ events, SparesPermits threads e)
    (hpark : ∀ e ∈ events, e.action = .park → e.thread ∈ threads ∧ s.graph.hasThread e.thread = true)
    (h : Unparked threads s s') :
    Unparked threads (s.feed events) (s'.feed (events.filter fun e => ¬ e.Idle)) := by
  induction events generalizing s s' with
  | nil => exact h
  | cons e events ih =>
    rw [List.forall_mem_cons] at he hpark
    have hrest : ∀ e' ∈ events, e'.action = .park →
        e'.thread ∈ threads ∧ (s.apply e).graph.hasThread e'.thread = true := by
      intro e' he' ha
      obtain ⟨hthread, hnode⟩ := hpark.2 e' he' ha
      exact ⟨hthread, hasThread_apply hnode e⟩
    rw [feed_cons]
    by_cases hidle : e.Idle
    · rw [List.filter_cons_of_neg (by simpa using hidle)]
      exact ih he.2 hrest (h.apply_idle hidle he.1 hpark.1)
    · rw [List.filter_cons_of_pos (by simpa using hidle), feed_cons]
      exact ih he.2 hrest (h.apply hidle he.1)

/-- A thread that is started has its own events next, so it is in the table when it parks. -/
theorem feed_script {t : ThreadTrace} (ht : ∀ e ∈ t.script, e.thread = t.thread)
    (he : ∀ e ∈ t.script, SparesPermits threads e)
    (hpark : ∀ e ∈ t.script, e.action = .park → e.thread ∈ threads) (h : Unparked threads s s') :
    Unparked threads (s.feed t.script) (s'.feed (t.script.filter fun e => ¬ e.Idle)) := by
  unfold ThreadTrace.script at ht he hpark ⊢
  rw [List.forall_mem_cons] at ht he hpark
  have hstart : ¬ Event.Idle { action := .start, thread := t.thread } := by simp [Event.Idle]
  rw [List.filter_cons_of_pos (by simpa using hstart), feed_cons, feed_cons]
  refine feed he.2 ?_ (h.apply hstart he.1)
  intro e hmem ha
  refine ⟨hpark.2 e hmem ha, ?_⟩
  rw [ht.2 e hmem]
  exact (Graph.hasThread_intern ..).trans (by simp)

theorem feed_scripts {ts : List ThreadTrace} (ht : ∀ t ∈ ts, ∀ e ∈ t.script, e.thread = t.thread)
    (he : ∀ t ∈ ts, ∀ e ∈ t.script, SparesPermits threads e)
    (hpark : ∀ t ∈ ts, ∀ e ∈ t.script, e.action = .park → e.thread ∈ threads) (h : Unparked threads s s') :
    Unparked threads (s.feed (ts.flatMap (·.script)))
      (s'.feed ((ts.flatMap (·.script)).filter fun e => ¬ e.Idle)) := by
  induction ts generalizing s s' with
  | nil => exact h
  | cons t ts ih =>
    rw [List.forall_mem_cons] at ht he hpark
    rw [List.flatMap_cons, List.filter_append, feed_append, feed_append]
    exact ih ht.2 he.2 hpark.2 (h.feed_script ht.1 he.1 hpark.1)

theorem of_rows_eq_nil (threads : List Text) (h : s.graph.rows = []) : Unparked threads s s where
  graph := ⟨rfl, by rw [h]; rfl⟩
  permits n _ := Graph.targetsOf_of_notMem (by simp [Graph.nodes, h])
  recorder := rfl

end Unparked

end Session

/-- If nobody takes the permit of a thread that parks, the deadlocks of a trace are the same, and found in the same
order, without the events that park or unpark a thread or try a lock without waiting. -/
theorem detect_load_busy {j : Json} {t : Trace} (h : Trace.ofJson? j = some t)
    (hpermits : ∀ e ∈ t.script, ∀ thread, Parked t.script thread → e.key? ≠ some (permitKey thread))
    {s : Session} (hs : s.graph.rows = []) :
    (s.load t.busy).graph.detect = (s.load t).graph.detect := by
  let threads := (t.script.filter (·.action = .park)).map (·.thread)
  have hmem {thread : Text} : thread ∈ threads ↔ Parked t.script thread := by
    simp [threads, Parked, and_assoc]
  have hscript : ∀ entry ∈ t.threads, ∀ e ∈ entry.script, e ∈ t.script := fun entry hentry e he =>
    List.mem_flatMap_of_mem hentry he
  have hspares : ∀ entry ∈ t.threads, ∀ e ∈ entry.script, Session.SparesPermits threads e := by
    intro entry hentry e he key hkey hpermit
    obtain ⟨thread, hthread, rfl⟩ := List.mem_map.mp hpermit
    exact hpermits e (hscript entry hentry e he) thread (hmem.mp hthread) hkey
  have hparks : ∀ entry ∈ t.threads, ∀ e ∈ entry.script, e.action = .park → e.thread ∈ threads :=
    fun entry hentry e he ha => hmem.mpr ⟨e, hscript entry hentry e he, ha, rfl⟩
  have hun := (Session.Unparked.of_rows_eq_nil threads hs).feed_scripts (owned_of_ofJson? h) hspares hparks
  unfold Session.load
  rw [Trace.script_busy]
  exact hun.graph.detect hun.permits

/-- Two threads that take two locks in opposite order. Both park, one unparks the other, and one tries a third lock
without waiting. -/
def parkingJson : Json :=
  .obj [("threads", .arr [
    .obj [("id", .str "A"), ("regions", .arr [.obj [("resource", .str "L"), ("body", .arr [
      .obj [("op", .str "park")], .obj [("resource", .str "M"), ("body", .arr [
        .obj [("op", .str "try_lock"), ("resource", .str "N")]])]])]])],
    .obj [("id", .str "B"), ("events", .arr [.obj [("op", .str "acquire"), ("resource", .str "M")],
      .obj [("op", .str "park")], .obj [("op", .str "acquire"), ("resource", .str "L")],
      .obj [("op", .str "unpark"), ("target", .str "A")]])]])]

def parkingKeys : List (Option Text) :=
  [none, some "L", none, some "M", none, none, none, none, some "M", none, some "L", none]

theorem detect_load_busy_opposite :
    ∃ t, Trace.ofJson? parkingJson = some t ∧ Parked t.script "A" ∧ Parked t.script "B" ∧
      (∀ e ∈ t.script, ∀ thread, Parked t.script thread → e.key? ≠ some (permitKey thread)) ∧
      (Session.load {} t.busy).graph.detect = (Session.load {} t).graph.detect := by
  have hread : (Trace.ofJson? parkingJson).map (fun t => (t.script.map (·.key?), (t.script.filter fun e =>
      e.action = .park).map (·.thread))) = some (parkingKeys, (["A", "B"] : List Text)) := by decide +kernel
  obtain ⟨t, ht, hscript⟩ := Option.map_eq_some_iff.mp hread
  obtain ⟨hkeys, hthreads⟩ := Prod.mk.inj hscript
  have hparked (thread : Text) : Parked t.script thread ↔ thread ∈ (["A", "B"] : List Text) := by
    rw [← hthreads]
    simp [Parked, and_assoc]
  have hpermits : ∀ e ∈ t.script, ∀ thread, Parked t.script thread → e.key? ≠ some (permitKey thread) := by
    intro e he thread hthread
    have hkey : e.key? ∈ t.script.map (·.key?) := List.mem_map_of_mem he
    rw [hkeys] at hkey
    exact (by decide : ∀ key ∈ parkingKeys, ∀ thread ∈ (["A", "B"] : List Text), key ≠ some (permitKey thread)) _ hkey _
      ((hparked thread).mp hthread)
  exact ⟨t, ht, (hparked "A").mpr (by decide), (hparked "B").mpr (by decide), hpermits,
    detect_load_busy ht hpermits rfl⟩

end Gridlock
