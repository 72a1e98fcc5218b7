import Mathlib.Data.List.Induction
import Gridlock.Proofs.Edges
import Gridlock.Session

/-!
# What the edges of a session say about its events

* `Event.key?` : the lock that an event takes
* `Session.Recorded` : what an event can do to the graph; `apply_recorded`
* `Session.AddsEdge`, `mem_targetsOf_feed` : the edges that an event adds, and those of a session
* `wellFormed_feed` : the graph of a session is well formed
* `Occurs` : something happens in a history; `Took`, `TookOver`, `Parked`
* `waits_iff`, `takes_iff` : the edges of a session are what happened in its history
-/

namespace Gridlock

/-- The key of the lock that an event takes: an attempt counts if it waits for a while. -/
def Event.key? (e : Event) : Option Text :=
  if e.action = .acquire ∨ e.action = .tryAcquire ∧ e.timed = true then
    (named? e.lock).map fun l => lockKey l e.flavour
  else none

/-! ## Holdings -/

namespace Holdings

theorem holds_iff {h : Holdings} {key : Text} : h.holds key = true ↔ key ∈ h.keys := by
  simp [holds, keys]

theorem isEmpty_iff {h : Holdings} : h.isEmpty = true ↔ h.keys = [] := by
  simp [isEmpty, keys]

end Holdings

/-! ## The edges of one event -/

namespace Graph

variable {g : Graph} {thread key : Text} {flavour : Option Flavour} {nested : Bool} {n w : Node}

@[simp] theorem epoch_addTaking : (g.addTaking thread key flavour nested).epoch = g.epoch := by
  unfold addTaking
  cases nested <;> simp

@[simp] theorem epoch_addPark : (g.addPark thread).epoch = g.epoch := by
  simp [addPark]

theorem mem_targetsOf_addTaking : w ∈ (g.addTaking thread key flavour nested).targetsOf n ↔
    w ∈ g.targetsOf n ∨
      (nested = true ∧ n = g.listed .process thread ∧ w = g.listed .resource key) ∨
      n = g.listed .resource key ∧ w = g.listed .process thread := by
  unfold addTaking
  cases nested <;> simp [mem_targetsOf_link, mem_nodes_intern, or_assoc]

theorem mem_targetsOf_addPark : w ∈ (g.addPark thread).targetsOf n ↔
    w ∈ g.targetsOf n ∨
      n = g.listed .process thread ∧ w = g.listed .resource (permitKey thread) := by
  simp [addPark, mem_targetsOf_link, mem_nodes_intern]

theorem WellFormed.addTaking (h : g.WellFormed) : (g.addTaking thread key flavour nested).WellFormed := by
  have hi := (h.intern .process thread none).intern .resource key flavour
  unfold Graph.addTaking
  cases nested
  · refine hi.link ?_ (by simp [listed])
    simp [mem_nodes_intern]
  · refine (hi.link ?_ (by simp [listed])).link ?_ (by simp [listed])
    · simp [mem_nodes_intern]
    · simp [mem_nodes_intern]

theorem WellFormed.addPark (h : g.WellFormed) : (g.addPark thread).WellFormed := by
  refine ((h.intern .process thread none).intern .resource (permitKey thread) (some .permit)).link ?_
    (by simp [listed])
  simp [mem_nodes_intern]

end Graph

namespace Session

variable {s : Session} {e : Event}

inductive Recorded (s : Session) (e : Event) : Graph → Prop
  /-- A thread starts. -/
  | started (ha : e.action = .start) : Recorded s e (s.graph.intern .process e.thread)
  /-- A thread takes a lock that it does not hold. -/
  | taken (key : Text) (hk : e.key? = some key) (hh : key ∉ s.heldBy e.thread) :
    Recorded s e
      (s.graph.addTaking e.thread key e.flavour (decide (s.heldBy e.thread ≠ [])))
  /-- A thread parks. -/
  | parked (ha : e.action = .park) : Recorded s e (s.graph.addPark e.thread)
  /-- Nothing that the graph records. -/
  | kept (hp : e.action ≠ .park) (hk : ∀ key, e.key? = some key → key ∈ s.heldBy e.thread) :
    Recorded s e s.graph

theorem isEmpty_holdings (s : Session) (thread : Text) :
    (s.holdings thread).isEmpty = decide (s.heldBy thread = []) := by
  rw [Bool.eq_iff_iff, Holdings.isEmpty_iff, decide_eq_true_eq, heldBy]

theorem acquire_recorded (s : Session) (e : Event)
    (ha : e.action = .acquire ∨ e.action = .tryAcquire ∧ e.timed = true) :
    s.Recorded e (s.acquire e.thread e.lock e.flavour).graph := by
  have hpark : e.action ≠ .park := by
    rcases ha with h | ⟨h, -⟩ <;> simp [h]
  have hkey : e.key? = (named? e.lock).map fun l => lockKey l e.flavour := by
    rw [Event.key?, if_pos ha]
  cases hl : named? e.lock with
  | none =>
    have ht : s.taking e.thread e.lock e.flavour = .unnamed := by rw [taking, Holdings.taking, hl]
    rw [acquire, ht]
    refine .kept hpark ?_
    intro key hk
    rw [hkey, hl] at hk
    cases hk
  | some l =>
    rw [hl, Option.map_some] at hkey
    by_cases hold : (s.holdings e.thread).holds (lockKey l e.flavour) = true
    · have ht : s.taking e.thread e.lock e.flavour = .again l (lockKey l e.flavour) := by
        rw [taking, Holdings.taking, hl]
        exact if_pos hold
      rw [acquire, ht]
      refine .kept hpark ?_
      intro key hk
      rw [hkey, Option.some.injEq] at hk
      rw [← hk]
      exact Holdings.holds_iff.mp hold
    · have ht : s.taking e.thread e.lock e.flavour =
          .fresh l (lockKey l e.flavour) (decide (s.heldBy e.thread ≠ [])) := by
        rw [taking, Holdings.taking, hl, decide_not, ← isEmpty_holdings]
        exact if_neg hold
      rw [acquire, ht]
      refine .taken _ hkey ?_
      rw [heldBy, ← Holdings.holds_iff]
      exact hold

theorem release_graph (s : Session) (thread : Text) (lock : Option Text)
    (flavour : Option Flavour) : (s.release thread lock flavour).graph = s.graph := by
  unfold release
  split
  · rfl
  · split <;> rfl

theorem apply_recorded (s : Session) (e : Event) : s.Recorded e (s.apply e).graph := by
  have hnone (ha : ¬ (e.action = .acquire ∨ e.action = .tryAcquire ∧ e.timed = true)) :
      ∀ key, e.key? = some key → key ∈ s.heldBy e.thread := by
    intro key hk
    rw [Event.key?, if_neg ha] at hk
    cases hk
  unfold apply
  cases ha : e.action with
  | start => exact .started ha
  | acquire => exact acquire_recorded s e (Or.inl ha)
  | tryAcquire =>
    dsimp only
    unfold tryAcquire
    split
    · next ht => exact acquire_recorded s e (Or.inr ⟨ha, ht⟩)
    · next ht => exact .kept (by simp [ha]) (hnone (by simp [ha, ht]))
  | release =>
    dsimp only
    rw [release_graph]
    exact .kept (by simp [ha]) (hnone (by simp [ha]))
  | park => exact .parked ha
  | unpark => exact .kept (by simp [ha]) (hnone (by simp [ha]))

theorem Recorded.epoch {g : Graph} (h : s.Recorded e g) : g.epoch = s.graph.epoch := by
  cases h <;> simp

theorem Recorded.wellFormed {g : Graph} (h : s.Recorded e g) (hs : s.graph.WellFormed) : g.WellFormed := by
  cases h with
  | started ha => exact hs.intern .process e.thread none
  | taken key hk hh => exact hs.addTaking
  | parked ha => exact hs.addPark
  | kept hp hk => exact hs

/-- The edges that an event adds: from the thread to the lock if the thread holds another one, from the
lock to the thread, and from a thread that parks to its permit. -/
def AddsEdge (s : Session) (e : Event) (n w : Node) : Prop :=
  (∃ key, e.key? = some key ∧ key ∉ s.heldBy e.thread ∧
    ((s.heldBy e.thread ≠ [] ∧ n = s.graph.listed .process e.thread ∧
        w = s.graph.listed .resource key) ∨
      n = s.graph.listed .resource key ∧ w = s.graph.listed .process e.thread)) ∨
  (e.action = .park ∧ n = s.graph.listed .process e.thread ∧
    w = s.graph.listed .resource (permitKey e.thread))

theorem key?_of_park (ha : e.action = .park) : e.key? = none := by
  rw [Event.key?, if_neg]
  simp [ha]

theorem Recorded.mem_targetsOf {g : Graph} (h : s.Recorded e g) (n w : Node) :
    w ∈ g.targetsOf n ↔ w ∈ s.graph.targetsOf n ∨ s.AddsEdge e n w := by
  unfold AddsEdge
  cases h with
  | started ha =>
    have hk : e.key? = none := by
      rw [Event.key?, if_neg]
      simp [ha]
    simp [hk, ha]
  | taken key hk hh =>
    have hp : e.action ≠ .park := by
      intro hp
      rw [key?_of_park hp] at hk
      cases hk
    simp [Graph.mem_targetsOf_addTaking, hk, hh, hp]
  | parked ha => simp [Graph.mem_targetsOf_addPark, key?_of_park ha, ha]
  | kept hp hk =>
    refine ⟨Or.inl, ?_⟩
    rintro (h | ⟨key, hkey, hh, -⟩ | ⟨ha, -⟩)
    · exact h
    · exact absurd (hk key hkey) hh
    · exact absurd ha hp

theorem feed_concat (s : Session) (events : List Event) (e : Event) :
    s.feed (events ++ [e]) = (s.feed events).apply e := by
  rw [feed, List.foldl_concat, ← feed]

theorem feed_epoch (s : Session) (events : List Event) : (s.feed events).graph.epoch = s.graph.epoch := by
  induction events using List.reverseRecOn with
  | nil => rfl
  | append_singleton events e ih => rw [feed_concat, (apply_recorded _ e).epoch, ih]

theorem wellFormed_feed (events : List Event) : (feed {} events).graph.WellFormed := by
  induction events using List.reverseRecOn with
  | nil => exact .empty
  | append_singleton events e ih =>
    rw [feed_concat]
    exact (apply_recorded _ e).wellFormed ih

end Session

/-! ## Histories -/

/-- In a history, `P` holds of some event and the session that has seen the events before it. -/
def Occurs (P : Session → Event → Prop) (events : List Event) : Prop :=
  ∃ before e after, events = before ++ e :: after ∧ P (Session.feed {} before) e

variable {P Q : Session → Event → Prop} {events : List Event}

/-- An event and those before it can be told by a number. -/
theorem exists_take_of_append {before after : List Event} {e : Event}
    (h : events = before ++ e :: after) :
    ∃ i : Fin events.length, before = events.take i ∧ e = events.get i := by
  subst h
  exact ⟨⟨before.length, by simp⟩, by simp, by simp⟩

theorem not_occurs_nil : ¬ Occurs P [] := by
  rintro ⟨before, e, after, h, -⟩
  cases before <;> cases h

theorem occurs_concat {e : Event} :
    Occurs P (events ++ [e]) ↔ Occurs P events ∨ P (Session.feed {} events) e := by
  constructor
  · rintro ⟨before, e', after, h, hP⟩
    rcases List.eq_nil_or_concat' after with rfl | ⟨after, a, rfl⟩
    · obtain ⟨rfl, he⟩ := List.append_inj' h rfl
      cases he
      exact Or.inr hP
    · rw [← List.cons_append, ← List.append_assoc] at h
      obtain ⟨h, -⟩ := List.append_inj' h rfl
      exact Or.inl ⟨before, e', after, h, hP⟩
  · rintro (⟨before, e', after, rfl, hP⟩ | hP)
    · exact ⟨before, e', after ++ [e], by simp, hP⟩
    · exact ⟨events, e, [], rfl, hP⟩

theorem occurs_congr (h : ∀ before e, P (Session.feed {} before) e ↔ Q (Session.feed {} before) e) :
    Occurs P events ↔ Occurs Q events := by
  simp only [Occurs, h]

theorem occurs_or : Occurs (fun s e => P s e ∨ Q s e) events ↔ Occurs P events ∨ Occurs Q events := by
  simp only [Occurs, and_or_left, exists_or]

theorem occurs_exists {β : Type} {R : β → Session → Event → Prop} :
    Occurs (fun s e => ∃ x, R x s e) events ↔ ∃ x, Occurs (R x) events := by
  constructor
  · rintro ⟨before, e, after, he, x, h⟩
    exact ⟨x, before, e, after, he, h⟩
  · rintro ⟨x, before, e, after, he, h⟩
    exact ⟨before, e, after, he, x, h⟩

theorem occurs_event {p : Event → Prop} : Occurs (fun _ e => p e) events ↔ ∃ e ∈ events, p e := by
  constructor
  · rintro ⟨before, e, after, rfl, h⟩
    exact ⟨e, by simp, h⟩
  · rintro ⟨e, he, h⟩
    obtain ⟨before, after, rfl⟩ := List.append_of_mem he
    exact ⟨before, e, after, rfl, h⟩

theorem mem_targetsOf_feed (events : List Event) (n w : Node) :
    w ∈ (Session.feed {} events).graph.targetsOf n ↔ Occurs (fun s e => s.AddsEdge e n w) events := by
  induction events using List.reverseRecOn with
  | nil =>
    refine ⟨fun h => ?_, fun h => absurd h not_occurs_nil⟩
    cases h
  | append_singleton events e ih =>
    rw [Session.feed_concat, (Session.apply_recorded _ e).mem_targetsOf, occurs_concat, ih]

/-- In the history a thread takes a lock that it does not hold at that moment. -/
def Took (events : List Event) (thread key : Text) : Prop :=
  Occurs (fun s e => e.thread = thread ∧ e.key? = some key ∧ key ∉ s.heldBy thread) events

/-- In the history a thread takes a lock that it does not hold, while it holds `under`. -/
def TookOver (events : List Event) (thread under key : Text) : Prop :=
  Occurs (fun s e => e.thread = thread ∧ e.key? = some key ∧ key ∉ s.heldBy thread ∧
    under ∈ s.heldBy thread) events

def Parked (events : List Event) (thread : Text) : Prop :=
  ∃ e ∈ events, e.action = .park ∧ e.thread = thread

/-- The vertex of a thread, in a graph that has not been emptied. -/
def threadNode (name : Text) : Node :=
  { side := .process, name := name }

def lockNode (key : Text) : Node :=
  { side := .resource, name := key }

theorem listed_feed (events : List Event) (side : Side) (name : Text) :
    (Session.feed {} events).graph.listed side name = { side := side, name := name } := by
  rw [Graph.listed, Session.feed_epoch]

/-- A thread has an edge to a lock if it took the lock while it held another, or if it parked and the
lock is its permit. -/
theorem waits_iff {thread key : Text} :
    lockNode key ∈ (Session.feed {} events).graph.targetsOf (threadNode thread) ↔
      (∃ under, TookOver events thread under key) ∨
        Parked events thread ∧ key = permitKey thread := by
  calc lockNode key ∈ (Session.feed {} events).graph.targetsOf (threadNode thread)
    _ ↔ Occurs (fun s e => (∃ under, e.thread = thread ∧ e.key? = some key ∧
            key ∉ s.heldBy thread ∧ under ∈ s.heldBy thread) ∨
          (e.action = .park ∧ e.thread = thread) ∧ key = permitKey thread) events := by
      rw [mem_targetsOf_feed]
      refine occurs_congr ?_
      intro before e
      simp only [Session.AddsEdge, listed_feed, threadNode, lockNode, Node.mk.injEq, reduceCtorEq,
        false_and, and_false, or_false, true_and, and_true]
      constructor
      · rintro (⟨_, hk, hh, hne, rfl, rfl⟩ | ⟨ha, rfl, hk⟩)
        · obtain ⟨under, hu⟩ := List.exists_mem_of_ne_nil _ hne
          exact Or.inl ⟨under, rfl, hk, hh, hu⟩
        · exact Or.inr ⟨⟨ha, rfl⟩, hk⟩
      · rintro (⟨under, rfl, hk, hh, hu⟩ | ⟨⟨ha, rfl⟩, hk⟩)
        · exact Or.inl ⟨key, hk, hh, List.ne_nil_of_mem hu, rfl, rfl⟩
        · exact Or.inr ⟨ha, rfl, hk⟩
    _ ↔ (∃ under, TookOver events thread under key) ∨
          Parked events thread ∧ key = permitKey thread := by
      rw [occurs_or, occurs_exists, occurs_event, Parked]
      simp only [TookOver, exists_and_right, ← and_assoc]

theorem takes_iff {thread key : Text} :
    threadNode thread ∈ (Session.feed {} events).graph.targetsOf (lockNode key) ↔
      Took events thread key := by
  rw [mem_targetsOf_feed]
  refine occurs_congr ?_
  intro before e
  simp only [Session.AddsEdge, listed_feed, threadNode, lockNode, Node.mk.injEq, reduceCtorEq,
    false_and, and_false, false_or, or_false, true_and, and_true]
  constructor
  · rintro ⟨_, hk, hh, rfl, rfl⟩
    exact ⟨rfl, hk, hh⟩
  · rintro ⟨rfl, hk, hh⟩
    exact ⟨key, hk, hh, rfl, rfl⟩

theorem edge_of_mem_targetsOf {u v : Node} (h : v ∈ (Session.feed {} events).graph.targetsOf u) :
    u = threadNode u.name ∧ v = lockNode v.name ∨ u = lockNode u.name ∧ v = threadNode v.name := by
  have hw := Session.wellFormed_feed events
  have hu := hw.eq_listed (Graph.mem_nodes_of_mem_targetsOf h)
  have hv := hw.eq_listed (hw.target_mem u v h)
  have hs := hw.target_side u v h
  rw [listed_feed] at hu hv
  cases hus : u.side with
  | process =>
    rw [hus] at hs hu
    rw [Side.eq_resource_of_ne hs] at hv
    exact Or.inl ⟨hu, hv⟩
  | resource =>
    rw [hus] at hs hu
    rw [Side.eq_process_of_ne hs] at hv
    exact Or.inr ⟨hu, hv⟩

theorem waits_of_mem_targetsOf {u v : Node} (h : v ∈ (Session.feed {} events).graph.targetsOf u)
    (hu : u.side = .process) : (∃ under, TookOver events u.name under v.name) ∨
      Parked events u.name ∧ v.name = permitKey u.name := by
  rcases edge_of_mem_targetsOf h with ⟨hu', hv'⟩ | ⟨hu', -⟩
  · rw [hu', hv'] at h
    exact waits_iff.mp h
  · rw [hu', lockNode] at hu
    cases hu

theorem took_of_mem_targetsOf {u v : Node} (h : v ∈ (Session.feed {} events).graph.targetsOf u)
    (hu : u.side = .resource) : Took events v.name u.name := by
  rcases edge_of_mem_targetsOf h with ⟨hu', -⟩ | ⟨hu', hv'⟩
  · rw [hu', threadNode] at hu
    cases hu
  · rw [hu', hv'] at h
    exact takes_iff.mp h

end Gridlock
