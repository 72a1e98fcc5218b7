import Gridlock.Proofs.History

/-!
# Threads one by one

All threads share one table and its locks, but what a session knows about a thread comes from the events of
this thread alone: the session, seen from one thread, is a machine that only this thread drives.

* `Graph.waits`, `Graph.takers` : the edges of a thread and of a lock, by name
* `targetsOf_addTaking`, `targetsOf_addPark` : the edges that an event appends
* `ThreadView`, `Session.view` : a session seen from one thread
* `view_apply_self`, `view_apply_of_ne` : one event; `view_feed` : a list of events
* `Session.feed_induction` : what every event keeps holds after all of them
* `Holdings.taking_congr`, `Session.graph_apply_congr` : what an event adds depends on the keys that its thread holds
-/

namespace Gridlock

namespace Graph

variable (g : Graph) (thread key : Text) (flavour : Option Flavour) (nested : Bool)

/-- The keys of the locks that a thread waits for, in order. -/
def waits : List Text :=
  (g.targetsOf (g.listed .process thread)).map (·.name)

/-- The names of the threads that take a lock, in order. -/
def takers : List Text :=
  (g.targetsOf (g.listed .resource key)).map (·.name)

theorem listed_process_ne_resource : g.listed .process thread ≠ g.listed .resource key := by
  simp [listed]

theorem listed_inj {side : Side} {name name' : Text} :
    g.listed side name = g.listed side name' ↔ name = name' := by
  simp [listed]

theorem targetsOf_addTaking (n : Node) : (g.addTaking thread key flavour nested).targetsOf n =
    (g.targetsOf n ++
      if nested = true ∧ n = g.listed .process thread then [g.listed .resource key] else []) ++
      if n = g.listed .resource key then [g.listed .process thread] else [] := by
  unfold addTaking
  cases nested with
  | false =>
    simp only [Bool.false_eq_true, if_false, false_and, List.append_nil, targetsOf_link,
      mem_nodes_intern, targetsOf_intern, listed_intern, or_true, and_true]
    split <;> simp
  | true =>
    simp only [if_true, true_and, targetsOf_link, nodes_link, mem_nodes_intern, targetsOf_intern,
      listed_intern, or_true, true_or, and_true]
    split <;> split <;> simp

theorem targetsOf_addPark (n : Node) : (g.addPark thread).targetsOf n =
    g.targetsOf n ++
      if n = g.listed .process thread then [g.listed .resource (permitKey thread)] else [] := by
  unfold addPark
  simp only [targetsOf_link, mem_nodes_intern, targetsOf_intern, listed_intern, or_true, true_or, and_true]
  split <;> simp

@[simp] theorem waits_intern (side : Side) (name : Text) :
    (g.intern side name flavour).waits thread = g.waits thread := by
  rw [waits, listed_intern, targetsOf_intern, waits]

@[simp] theorem takers_intern (side : Side) (name : Text) :
    (g.intern side name flavour).takers key = g.takers key := by
  rw [takers, listed_intern, targetsOf_intern, takers]

theorem listed_addTaking (side : Side) (name : Text) :
    (g.addTaking thread key flavour nested).listed side name = g.listed side name := by
  rw [listed, epoch_addTaking, listed]

theorem listed_addPark (side : Side) (name : Text) :
    (g.addPark thread).listed side name = g.listed side name := by
  rw [listed, epoch_addPark, listed]

theorem waits_addTaking (t : Text) : (g.addTaking thread key flavour nested).waits t =
    g.waits t ++ if nested = true ∧ t = thread then [key] else [] := by
  rw [waits, listed_addTaking, targetsOf_addTaking, if_neg (g.listed_process_ne_resource t key),
    List.append_nil, List.map_append, waits]
  simp only [listed_inj]
  split <;> rfl

theorem takers_addTaking (k : Text) : (g.addTaking thread key flavour nested).takers k =
    g.takers k ++ if k = key then [thread] else [] := by
  have hne : ¬ (nested = true ∧ g.listed .resource k = g.listed .process thread) := fun h =>
    g.listed_process_ne_resource thread k h.2.symm
  rw [takers, listed_addTaking, targetsOf_addTaking, if_neg hne, List.append_nil, List.map_append, takers]
  simp only [listed_inj]
  split <;> rfl

theorem waits_addPark (t : Text) : (g.addPark thread).waits t =
    g.waits t ++ if t = thread then [permitKey thread] else [] := by
  rw [waits, listed_addPark, targetsOf_addPark, List.map_append, waits]
  simp only [listed_inj]
  split <;> rfl

theorem takers_addPark (k : Text) : (g.addPark thread).takers k = g.takers k := by
  rw [takers, listed_addPark, targetsOf_addPark,
    if_neg (Ne.symm (g.listed_process_ne_resource thread k)), List.append_nil, takers]

theorem mem_nodes_addTaking {n : Node} : n ∈ (g.addTaking thread key flavour nested).nodes ↔
    (n ∈ g.nodes ∨ n = g.listed .process thread) ∨ n = g.listed .resource key := by
  unfold addTaking
  cases nested <;> simp [mem_nodes_intern]

theorem mem_nodes_addPark {n : Node} : n ∈ (g.addPark thread).nodes ↔
    (n ∈ g.nodes ∨ n = g.listed .process thread) ∨ n = g.listed .resource (permitKey thread) := by
  unfold addPark
  simp [mem_nodes_intern]

def hasThread : Bool :=
  decide (g.listed .process thread ∈ g.nodes)

theorem hasThread_intern (t : Text) :
    (g.intern .process thread flavour).hasThread t = (g.hasThread t || decide (t = thread)) := by
  rw [hasThread, listed_intern, hasThread, Bool.eq_iff_iff]
  simp [mem_nodes_intern, listed_inj]

theorem hasThread_addTaking (t : Text) : (g.addTaking thread key flavour nested).hasThread t =
    (g.hasThread t || decide (t = thread)) := by
  rw [hasThread, listed_addTaking, hasThread, Bool.eq_iff_iff]
  simp [mem_nodes_addTaking, listed_inj, listed_process_ne_resource]

theorem hasThread_addPark (t : Text) : (g.addPark thread).hasThread t =
    (g.hasThread t || decide (t = thread)) := by
  rw [hasThread, listed_addPark, hasThread, Bool.eq_iff_iff]
  simp [mem_nodes_addPark, listed_inj, listed_process_ne_resource]

end Graph

/-! ## A session seen from one thread -/

/-- What a session knows about a thread: the locks it holds, whether it is in the table, the locks it waits
for, in order, and how often it has taken each lock anew. -/
@[ext]
structure ThreadView where
  holdings : Holdings := .empty
  present : Bool := false
  waits : List Text := []
  takes : Text → Nat := fun _ => 0

namespace ThreadView

def acquire (v : ThreadView) (lock : Option Text) (flavour : Option Flavour) : ThreadView :=
  match v.holdings.taking lock flavour with
  | .unnamed => v
  | .again l key => { v with holdings := v.holdings.push key (some l) }
  | .fresh l key nested =>
    { holdings := v.holdings.push key (some l)
      present := true
      waits := v.waits ++ if nested then [key] else []
      takes := fun k => v.takes k + if k = key then 1 else 0 }

def release (v : ThreadView) (lock : Option Text) (flavour : Option Flavour) : ThreadView :=
  match named? lock with
  | none => v
  | some l =>
    match v.holdings.release? (lockKey l flavour) (if flavour.isNone then some l else none) with
    | none => v
    | some h => { v with holdings := h }

def apply (v : ThreadView) (e : Event) : ThreadView :=
  match e.action with
  | .start => { v with holdings := .empty, present := true }
  | .acquire => v.acquire e.lock e.flavour
  | .tryAcquire => if e.timed then v.acquire e.lock e.flavour else v
  | .release => v.release e.lock e.flavour
  | .park => { v with present := true, waits := v.waits ++ [permitKey e.thread] }
  | .unpark => v

def feed (v : ThreadView) (events : List Event) : ThreadView :=
  events.foldl apply v

variable (v : ThreadView) {lock : Text} {flavour : Option Flavour}

theorem acquire_of_not_holds (hl : lock ≠ "") (hf : lockKey lock flavour = lock)
    (hh : v.holdings.holds lock = false) : v.acquire (some lock) flavour =
      { holdings := v.holdings.push lock (some lock)
        present := true
        waits := v.waits ++ if v.holdings.isEmpty then [] else [lock]
        takes := fun k => v.takes k + if k = lock then 1 else 0 } := by
  have htaking : v.holdings.taking (some lock) flavour = .fresh lock lock (!v.holdings.isEmpty) := by
    have hnamed : named? (some lock) = some lock := by simp [named?, hl]
    unfold Holdings.taking
    simp [hnamed, hf, hh]
  rw [acquire, htaking]
  cases v.holdings.isEmpty <;> rfl

theorem release_waits (lock : Option Text) (flavour : Option Flavour) :
    (v.release lock flavour).waits = v.waits := by
  unfold release
  split
  · rfl
  · split <;> rfl

theorem release_takes (lock : Option Text) (flavour : Option Flavour) :
    (v.release lock flavour).takes = v.takes := by
  unfold release
  split
  · rfl
  · split <;> rfl

end ThreadView

namespace Recorder

theorem holdings_setHoldings_self (r : Recorder) (thread : Text) (h : Holdings) :
    (r.setHoldings thread h).holdings thread = h := by
  rw [holdings, setHoldings, Assoc.lookup_put_self, Option.getD_some]

theorem holdings_setHoldings_of_ne (r : Recorder) {thread t : Text} (hne : t ≠ thread) (h : Holdings) :
    (r.setHoldings thread h).holdings t = r.holdings t := by
  rw [holdings, setHoldings, Assoc.lookup_put_of_ne hne, holdings]

end Recorder

namespace Session

/-- The session as far as one thread is concerned. -/
def view (s : Session) (t : Text) : ThreadView where
  holdings := s.holdings t
  present := s.graph.hasThread t
  waits := s.graph.waits t
  takes := fun key => (s.graph.takers key).count t

theorem view_empty (t : Text) : view {} t = {} :=
  rfl

variable (s : Session) {thread t : Text} (lock : Option Text) (flavour : Option Flavour)

theorem view_acquire_self : (s.acquire t lock flavour).view t = (s.view t).acquire lock flavour := by
  unfold acquire ThreadView.acquire
  change _ = match s.taking t lock flavour with
    | .unnamed => _
    | .again l key => _
    | .fresh l key nested => _
  cases s.taking t lock flavour with
  | unnamed => rfl
  | again l key =>
    ext1
    · exact Recorder.holdings_setHoldings_self _ _ _
    all_goals rfl
  | fresh l key nested =>
    ext1
    · exact Recorder.holdings_setHoldings_self _ _ _
    · exact (Graph.hasThread_addTaking ..).trans (by simp)
    · exact (Graph.waits_addTaking ..).trans (by simp [view])
    · funext k
      refine (congrArg (List.count t) (Graph.takers_addTaking ..)).trans ?_
      rw [List.count_append]
      split <;> simp [view, *]

theorem view_acquire_of_ne (h : t ≠ thread) : (s.acquire thread lock flavour).view t = s.view t := by
  unfold acquire
  cases s.taking thread lock flavour with
  | unnamed => rfl
  | again l key =>
    ext1
    · exact Recorder.holdings_setHoldings_of_ne _ h _
    all_goals rfl
  | fresh l key nested =>
    ext1
    · exact Recorder.holdings_setHoldings_of_ne _ h _
    · exact (Graph.hasThread_addTaking ..).trans (by simp [h, view])
    · exact (Graph.waits_addTaking ..).trans (by simp [h, view])
    · funext k
      refine (congrArg (List.count t) (Graph.takers_addTaking ..)).trans ?_
      rw [List.count_append]
      split <;> simp [view, Ne.symm h]

theorem view_release_self : (s.release t lock flavour).view t = (s.view t).release lock flavour := by
  unfold release ThreadView.release
  cases named? lock with
  | none => rfl
  | some l =>
    dsimp only
    change _ = match s.releasing? t l flavour with
      | none => _
      | some h => _
    cases s.releasing? t l flavour with
    | none => rfl
    | some h =>
      ext1
      · exact Recorder.holdings_setHoldings_self _ _ _
      all_goals rfl

theorem view_release_of_ne (h : t ≠ thread) : (s.release thread lock flavour).view t = s.view t := by
  unfold release
  cases named? lock with
  | none => rfl
  | some l =>
    dsimp only
    cases s.releasing? thread l flavour with
    | none => rfl
    | some h' =>
      ext1
      · exact Recorder.holdings_setHoldings_of_ne _ h _
      all_goals rfl

/-- An event acts on what is known of its own thread. -/
theorem view_apply_self (e : Event) : (s.apply e).view e.thread = (s.view e.thread).apply e := by
  unfold apply ThreadView.apply
  cases e.action with
  | start =>
    ext1
    · exact Recorder.holdings_setHoldings_self _ _ _
    · exact (Graph.hasThread_intern ..).trans (by simp)
    · exact Graph.waits_intern ..
    · funext k
      exact congrArg (List.count e.thread) (Graph.takers_intern ..)
  | acquire => exact view_acquire_self s e.lock e.flavour
  | tryAcquire =>
    dsimp only
    unfold tryAcquire
    split
    · exact view_acquire_self s e.lock e.flavour
    · rfl
  | release => exact view_release_self s e.lock e.flavour
  | park =>
    ext1
    · rfl
    · exact (Graph.hasThread_addPark ..).trans (by simp)
    · exact (Graph.waits_addPark ..).trans (by simp [view])
    · funext k
      exact congrArg (List.count e.thread) (Graph.takers_addPark ..)
  | unpark => rfl

/-- An event changes nothing of what is known of other threads. -/
theorem view_apply_of_ne {e : Event} (h : t ≠ e.thread) : (s.apply e).view t = s.view t := by
  unfold apply
  cases e.action with
  | start =>
    ext1
    · exact Recorder.holdings_setHoldings_of_ne _ h _
    · exact (Graph.hasThread_intern ..).trans (by simp [h, view])
    · exact Graph.waits_intern ..
    · funext k
      exact congrArg (List.count t) (Graph.takers_intern ..)
  | acquire => exact view_acquire_of_ne s e.lock e.flavour h
  | tryAcquire =>
    dsimp only
    unfold tryAcquire
    split
    · exact view_acquire_of_ne s e.lock e.flavour h
    · rfl
  | release => exact view_release_of_ne s e.lock e.flavour h
  | park =>
    ext1
    · rfl
    · exact (Graph.hasThread_addPark ..).trans (by simp [h, view])
    · exact (Graph.waits_addPark ..).trans (by simp [h, view])
    · funext k
      exact congrArg (List.count t) (Graph.takers_addPark ..)
  | unpark => rfl

/-- What a session knows about a thread is what the events of this thread make of it. -/
theorem view_feed (s : Session) (events : List Event) (t : Text) :
    (s.feed events).view t = (s.view t).feed (events.filter (·.thread = t)) := by
  induction events generalizing s with
  | nil => rfl
  | cons e events ih =>
    have hstep : (s.feed (e :: events)).view t = ((s.apply e).feed events).view t := rfl
    rw [hstep, ih]
    by_cases h : t = e.thread
    · subst h
      rw [view_apply_self, List.filter_cons_of_pos (by simp)]
      rfl
    · rw [view_apply_of_ne s h, List.filter_cons_of_neg (by simpa using Ne.symm h)]

theorem view_feed_of_forall_ne {events : List Event} (h : ∀ e ∈ events, e.thread ≠ t) :
    (s.feed events).view t = s.view t := by
  have hnone : events.filter (·.thread = t) = [] := by
    rw [List.filter_eq_nil_iff]
    intro e he
    simpa using h e he
  rw [view_feed, hnone]
  rfl

/-- What every event keeps holds after all of them. -/
theorem feed_induction {P : Graph → Prop} (hstep : ∀ (s : Session) (e : Event) (g : Graph),
    s.Recorded e g → P s.graph → P g) (s : Session) (events : List Event) (h : P s.graph) :
    P (s.feed events).graph := by
  induction events generalizing s with
  | nil => exact h
  | cons e events ih => exact ih (s.apply e) (hstep s e _ (apply_recorded s e) h)

end Session

/-! ## What an event looks at -/

namespace Holdings

variable {h h' : Holdings}

theorem isEmpty_congr (hh : ∀ key, h.holds key = h'.holds key) : h.isEmpty = h'.isEmpty := by
  have hkeys (key : Text) : key ∈ h.keys ↔ key ∈ h'.keys := by
    rw [← holds_iff, ← holds_iff, hh]
  rw [Bool.eq_iff_iff, isEmpty_iff, isEmpty_iff, List.eq_nil_iff_forall_not_mem, List.eq_nil_iff_forall_not_mem]
  simp only [hkeys]

/-- What taking a lock amounts to depends on the keys that are held, and not on how often or in which order they were
taken. -/
theorem taking_congr (hh : ∀ key, h.holds key = h'.holds key) (lock : Option Text) (flavour : Option Flavour) :
    h.taking lock flavour = h'.taking lock flavour := by
  unfold taking
  simp only [hh, isEmpty_congr hh]

end Holdings

namespace Session

variable {s s' : Session} (hg : s.graph = s'.graph)
include hg

theorem graph_acquire_congr {t : Text} (hh : ∀ key, (s.holdings t).holds key = (s'.holdings t).holds key)
    (lock : Option Text) (flavour : Option Flavour) :
    (s.acquire t lock flavour).graph = (s'.acquire t lock flavour).graph := by
  unfold acquire taking
  rw [Holdings.taking_congr hh]
  cases (s'.holdings t).taking lock flavour with
  | unnamed => exact hg
  | again l key => exact hg
  | fresh l key nested => exact congrArg (·.addTaking t key flavour nested) hg

/-- What an event adds to the graph depends on the graph and on the keys that its thread holds. -/
theorem graph_apply_congr {e : Event}
    (hh : ∀ key, (s.holdings e.thread).holds key = (s'.holdings e.thread).holds key) :
    (s.apply e).graph = (s'.apply e).graph := by
  unfold apply
  cases e.action with
  | start => exact congrArg (·.intern .process e.thread) hg
  | acquire => exact graph_acquire_congr hg hh e.lock e.flavour
  | tryAcquire =>
    dsimp only
    unfold tryAcquire
    split
    · exact graph_acquire_congr hg hh e.lock e.flavour
    · exact hg
  | release =>
    dsimp only
    rw [release_graph, release_graph]
    exact hg
  | park => exact congrArg (·.addPark e.thread) hg
  | unpark => exact hg

end Session

end Gridlock
