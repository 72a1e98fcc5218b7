import Mathlib.Data.List.Nodup
import Gridlock.Proofs.Threads
import Gridlock.Trace.Basic

/-!
# What holds of a graph that sessions share

Several sessions can work on one graph, and each can empty the graph or forget its threads at any time. A
session that goes on after the graph was emptied under it still holds locks, but the vertices and edges it
adds from then on are of the new epoch, so nothing of an old epoch comes back.

* `Graph.Unflavoured`, `Graph.Balanced`, `Graph.Anchored` : invariants beside `Graph.WellFormed`, gathered in
  `Graph.Orderly`; `Recorded.orderly` : events keep them
* `Session.Call`, `Session.call` : all that can be asked of a session; `Call.script?` : the events it brings;
  `call_cases` : what it does to the graph
* `Pool.run` : any calls, to any sessions, in any order; `orderly_run`
* `Graph.Consistent`, `Pool.consistent_run` : what this says of the table, row by row
-/

namespace Gridlock

namespace Graph

variable {g : Graph} {thread key : Text} {flavour : Option Flavour} {nested : Bool}

/-! ## Rows and vertices -/

theorem node_of_row? {n : Node} {r : Row} (h : g.row? n = some r) : r ∈ g.rows ∧ r.node = n :=
  ⟨List.mem_of_find?_eq_some h, by simpa using List.find?_some h⟩

theorem row?_of_mem (h : g.nodes.Nodup) {r : Row} (hr : r ∈ g.rows) : g.row? r.node = some r := by
  obtain ⟨r', hr'⟩ := Option.isSome_iff_exists.mp (isSome_row?.mpr (List.mem_map_of_mem hr))
  obtain ⟨hm, hn⟩ := node_of_row? hr'
  rw [hr', List.inj_on_of_nodup_map h hm hr hn]

theorem targetsOf_of_mem (h : g.nodes.Nodup) {r : Row} (hr : r ∈ g.rows) :
    g.targetsOf r.node = r.targets := by
  rw [targetsOf, row?_of_mem h hr, Option.map_some, Option.getD_some]

/-! ## Threads have no flavour -/

def Unflavoured (g : Graph) : Prop :=
  ∀ r ∈ g.rows, r.node.side = .process → r.flavour = none

theorem Unflavoured.intern (h : g.Unflavoured) (side : Side) (name : Text) (flavour : Option Flavour) :
    (g.intern side name flavour).Unflavoured := by
  intro r hr hs
  unfold Graph.intern at hr
  dsimp only at hr
  split at hr
  · obtain ⟨x, hx, rfl⟩ := List.mem_map.mp hr
    split at hs
    · next hn =>
      have hside : side = .process := by rw [hn] at hs; exact hs
      rw [if_pos hn, hside, if_neg (by decide), Option.or_none]
      exact h x hx (by rw [hn]; exact hside)
    · next hn =>
      rw [if_neg hn]
      exact h x hx hs
  · rcases List.mem_append.mp hr with hr | hr
    · exact h r hr hs
    · rw [List.mem_singleton] at hr
      subst hr
      have hside : side = .process := hs
      rw [hside]
      rfl

theorem Unflavoured.link (h : g.Unflavoured) (u v : Node) : (g.link u v).Unflavoured := by
  intro r hr hs
  obtain ⟨x, hx, rfl⟩ := List.mem_map.mp hr
  rw [linkRow_node] at hs
  unfold linkRow
  split
  · exact h x hx hs
  · exact h x hx hs

/-! ## What a thread waits for, it takes -/

/-- A thread waits for a lock, its own permit apart, no more often than it takes it. -/
def Balanced (g : Graph) : Prop :=
  ∀ p l : Node, p.side = .process → l.side = .resource → l.name ≠ permitKey p.name →
    (g.targetsOf p).count l ≤ (g.targetsOf l).count p

theorem Balanced.addTaking (h : g.Balanced) : (g.addTaking thread key flavour nested).Balanced := by
  intro p l hp hl hne
  have hpr : p ≠ g.listed .resource key := by rintro rfl; cases hp
  have hlp : ¬ (nested = true ∧ l = g.listed .process thread) := by rintro ⟨-, rfl⟩; cases hl
  rw [targetsOf_addTaking, targetsOf_addTaking, if_neg hpr, if_neg hlp, List.append_nil,
    List.append_nil, List.count_append, List.count_append]
  refine Nat.add_le_add (h p l hp hl hne) ?_
  by_cases hl' : l = g.listed .resource key
  · by_cases hp' : p = g.listed .process thread
    · rw [if_pos hl', hp', hl', List.count_singleton_self]
      split
      · exact List.count_le_length
      · exact Nat.zero_le 1
    · rw [if_neg fun hc => hp' hc.2]
      exact Nat.zero_le _
  · split
    · rw [List.count_singleton, if_neg (by simpa using Ne.symm hl')]
      exact Nat.zero_le _
    · exact Nat.zero_le _

theorem Balanced.addPark (h : g.Balanced) : (g.addPark thread).Balanced := by
  intro p l hp hl hne
  have hlp : l ≠ g.listed .process thread := by rintro rfl; cases hl
  rw [targetsOf_addPark, targetsOf_addPark, if_neg hlp, List.append_nil, List.count_append]
  have hnone : (if p = g.listed .process thread then [g.listed .resource (permitKey thread)]
      else []).count l = 0 := by
    split
    · next hp' =>
      apply List.count_eq_zero_of_not_mem
      intro hm
      rw [List.mem_singleton] at hm
      apply hne
      rw [hm, hp']
      rfl
    · rfl
  rw [hnone, Nat.add_zero]
  exact h p l hp hl hne

/-! ## A lock comes up with a thread -/

/-- Every lock of the table has an edge to or from a thread that the table lists before it. -/
def Anchored (g : Graph) : Prop :=
  ∀ l ∈ g.nodes, l.side = .resource → ∃ p, [p, l].Sublist g.nodes ∧ p.side = .process ∧
    (l ∈ g.targetsOf p ∨ p ∈ g.targetsOf l)

theorem nodes_prefix_intern (g : Graph) (side : Side) (name : Text) (flavour : Option Flavour) :
    g.nodes <+: (g.intern side name flavour).nodes := by
  rw [nodes_intern]
  split
  · exact List.prefix_rfl
  · exact List.prefix_append _ _

theorem nodes_addTaking : (g.addTaking thread key flavour nested).nodes =
    ((g.intern .process thread).intern .resource key flavour).nodes := by
  unfold Graph.addTaking
  cases nested <;> simp

theorem nodes_addPark : (g.addPark thread).nodes =
    ((g.intern .process thread).intern .resource (permitKey thread) (some .permit)).nodes := by
  unfold Graph.addPark
  simp

/-- A lock that is interned after a thread comes after it. -/
theorem pair_sublist_intern (g : Graph) (flavour : Option Flavour) {p : Node} (hp : p ∈ g.nodes)
    (hl : g.listed .resource key ∉ g.nodes) :
    [p, g.listed .resource key].Sublist (g.intern .resource key flavour).nodes := by
  rw [nodes_intern, if_neg hl]
  exact (List.singleton_sublist.mpr hp).append (.refl [g.listed .resource key])

/-- A graph stays anchored if its table grows by a thread and a lock, and an edge between them is added. -/
theorem Anchored.grow {g' : Graph} (h : g.Anchored) (thread key : Text) (flavour : Option Flavour)
    (hnodes : g'.nodes = ((g.intern .process thread).intern .resource key flavour).nodes)
    (htargets : ∀ n, ∀ w ∈ g.targetsOf n, w ∈ g'.targetsOf n)
    (hedge : g.listed .resource key ∈ g'.targetsOf (g.listed .process thread) ∨
      g.listed .process thread ∈ g'.targetsOf (g.listed .resource key)) : g'.Anchored := by
  have hsub : g.nodes.Sublist g'.nodes := by
    rw [hnodes]
    exact ((nodes_prefix_intern g _ _ _).trans (nodes_prefix_intern _ _ _ _)).sublist
  intro l hl hs
  by_cases hold : l ∈ g.nodes
  · obtain ⟨p, hpl, hps, he⟩ := h l hold hs
    exact ⟨p, hpl.trans hsub, hps, he.imp (htargets p l) (htargets l p)⟩
  · rw [hnodes, mem_nodes_intern, listed_intern, mem_nodes_intern, or_assoc] at hl
    rcases hl with hl | rfl | rfl
    · exact absurd hl hold
    · cases hs
    · refine ⟨g.listed .process thread, ?_, rfl, hedge⟩
      have hp : g.listed .process thread ∈ (g.intern .process thread).nodes := by
        rw [mem_nodes_intern]
        exact Or.inr rfl
      have hl : (g.intern .process thread).listed .resource key ∉ (g.intern .process thread).nodes := by
        rw [listed_intern, mem_nodes_intern, not_or]
        exact ⟨hold, Ne.symm (g.listed_process_ne_resource thread key)⟩
      rw [hnodes]
      have hpair := pair_sublist_intern (g.intern .process thread) flavour hp hl
      rwa [listed_intern] at hpair

theorem Anchored.addTaking (h : g.Anchored) : (g.addTaking thread key flavour nested).Anchored := by
  refine h.grow thread key flavour nodes_addTaking ?_ ?_
  · intro n w hw
    exact mem_targetsOf_addTaking.mpr (Or.inl hw)
  · exact Or.inr (mem_targetsOf_addTaking.mpr (Or.inr (Or.inr ⟨rfl, rfl⟩)))

theorem Anchored.addPark (h : g.Anchored) : (g.addPark thread).Anchored := by
  refine h.grow thread (permitKey thread) (some .permit) nodes_addPark ?_ ?_
  · intro n w hw
    exact mem_targetsOf_addPark.mpr (Or.inl hw)
  · exact Or.inl (mem_targetsOf_addPark.mpr (Or.inr ⟨rfl, rfl⟩))

theorem Anchored.internThread (h : g.Anchored) : (g.intern .process thread).Anchored := by
  intro l hl hs
  rcases (mem_nodes_intern ..).mp hl with hl | rfl
  · obtain ⟨p, hpl, hps, he⟩ := h l hl hs
    refine ⟨p, hpl.trans (nodes_prefix_intern ..).sublist, hps, ?_⟩
    rw [targetsOf_intern, targetsOf_intern]
    exact he
  · cases hs

/-! ## All of it -/

/-- What holds of every graph that comes from events. -/
structure Orderly (g : Graph) : Prop extends g.WellFormed where
  unflavoured : g.Unflavoured
  balanced : g.Balanced
  anchored : g.Anchored

namespace Orderly

theorem of_rows_eq_nil (h : g.rows = []) : g.Orderly := by
  have hnodes : g.nodes = [] := by rw [nodes, h, List.map_nil]
  have htargets (n : Node) : g.targetsOf n = [] := targetsOf_of_notMem (by simp [hnodes])
  refine ⟨⟨?_, ?_, ?_, ?_⟩, ?_, ?_, ?_⟩
  · rw [hnodes]
    exact .nil
  · simp [hnodes]
  · simp [htargets]
  · simp [htargets]
  · simp [Unflavoured, h]
  · simp [Balanced, htargets]
  · simp [Anchored, hnodes]

theorem internThread (h : g.Orderly) : (g.intern .process thread).Orderly where
  toWellFormed := h.toWellFormed.intern .process thread none
  unflavoured := h.unflavoured.intern .process thread none
  balanced := by
    intro p l hp hl hne
    rw [targetsOf_intern, targetsOf_intern]
    exact h.balanced p l hp hl hne
  anchored := h.anchored.internThread

theorem addTaking (h : g.Orderly) : (g.addTaking thread key flavour nested).Orderly where
  toWellFormed := h.toWellFormed.addTaking
  unflavoured := by
    have hi := (h.unflavoured.intern .process thread none).intern .resource key flavour
    unfold Graph.addTaking
    cases nested
    · exact hi.link _ _
    · exact (hi.link _ _).link _ _
  balanced := h.balanced.addTaking
  anchored := h.anchored.addTaking

theorem addPark (h : g.Orderly) : (g.addPark thread).Orderly where
  toWellFormed := h.toWellFormed.addPark
  unflavoured := ((h.unflavoured.intern .process thread none).intern .resource _ _).link _ _
  balanced := h.balanced.addPark
  anchored := h.anchored.addPark

end Orderly

end Graph

namespace Session

theorem Recorded.orderly {s : Session} {e : Event} {g : Graph} (h : s.Recorded e g)
    (hs : s.graph.Orderly) : g.Orderly := by
  cases h with
  | started ha => exact hs.internThread
  | taken key hk hh => exact hs.addTaking
  | parked ha => exact hs.addPark
  | kept hp hk => exact hs

/-- Events append to the table. -/
theorem Recorded.nodes_prefix {s : Session} {e : Event} {g : Graph} (h : s.Recorded e g) :
    s.graph.nodes <+: g.nodes := by
  have htwo (key : Text) (flavour : Option Flavour) : s.graph.nodes <+:
      ((s.graph.intern .process e.thread).intern .resource key flavour).nodes :=
    (Graph.nodes_prefix_intern ..).trans (Graph.nodes_prefix_intern ..)
  cases h with
  | started ha => exact Graph.nodes_prefix_intern ..
  | taken key hk hh =>
    rw [Graph.nodes_addTaking]
    exact htwo key e.flavour
  | parked ha =>
    rw [Graph.nodes_addPark]
    exact htwo (permitKey e.thread) (some .permit)
  | kept hp hk => exact List.prefix_rfl

theorem nodes_prefix_feed (s : Session) (events : List Event) :
    s.graph.nodes <+: (s.feed events).graph.nodes :=
  feed_induction (P := fun g => s.graph.nodes <+: g.nodes) (fun _ _ _ hr hs => hs.trans hr.nodes_prefix)
    s events List.prefix_rfl

theorem orderly_feed {s : Session} (h : s.graph.Orderly) (events : List Event) :
    (s.feed events).graph.Orderly :=
  feed_induction (fun _ _ _ hr => hr.orderly) s events h

/-! ## Sessions that share a graph -/

inductive Call
  | start (thread : Text)
  | acquire (thread : Text) (lock : Option Text) (flavour : Option Flavour)
  | tryAcquire (thread : Text) (lock : Option Text) (flavour : Option Flavour) (timed : Bool)
  | release (thread : Text) (lock : Option Text) (flavour : Option Flavour)
  | park (thread : Text)
  | unpark (thread : Text) (target : Option Text)
  | feed (events : List Event)
  | walk (thread : Text) (region : Region)
  | load (trace : Trace)
  | freshThreadName (owner : Option Text) (offset : Int)
  | resetRecorder
  | resetGraph
  | reset

def call (s : Session) : Call → Session
  | .start thread => s.start thread
  | .acquire thread lock flavour => s.acquire thread lock flavour
  | .tryAcquire thread lock flavour timed => s.tryAcquire thread lock flavour timed
  | .release thread lock flavour => s.release thread lock flavour
  | .park thread => s.park thread
  | .unpark thread target => s.apply { action := .unpark, thread := thread, target := target }
  | .feed events => s.feed events
  | .walk thread region => s.walk thread region
  | .load trace => s.load trace
  | .freshThreadName owner offset => (s.freshThreadName owner offset).2
  | .resetRecorder => s.resetRecorder
  | .resetGraph => s.resetGraph
  | .reset => s.reset

/-- The events that a call brings to the session, unless it is a call of another kind. -/
def Call.script? : Call → Option (List Event)
  | .start thread => some [{ action := .start, thread := thread }]
  | .acquire thread lock flavour => some [⟨.acquire, thread, lock, flavour, false, none⟩]
  | .tryAcquire thread lock flavour timed => some [⟨.tryAcquire, thread, lock, flavour, timed, none⟩]
  | .release thread lock flavour => some [⟨.release, thread, lock, flavour, false, none⟩]
  | .park thread => some [{ action := .park, thread := thread }]
  | .unpark thread target => some [{ action := .unpark, thread := thread, target := target }]
  | .feed events => some events
  | .walk thread region => some (region.script thread)
  | .load trace => some trace.script
  | .freshThreadName _ _ => none
  | .resetRecorder => none
  | .resetGraph => none
  | .reset => none

theorem call_of_script? {c : Call} {events : List Event} (h : c.script? = some events) (s : Session) :
    s.call c = s.feed events := by
  cases c <;> cases h <;> rfl

/-- A call feeds the session with events, leaves the graph alone, or empties it. -/
theorem call_cases (s : Session) (c : Call) : (∃ events, s.call c = s.feed events) ∨
    (s.call c).graph = s.graph ∨ (s.call c).graph = s.graph.reset := by
  cases hc : c.script? with
  | some events => exact Or.inl ⟨events, call_of_script? hc s⟩
  | none =>
    right
    cases c with
    | freshThreadName owner offset => exact Or.inl rfl
    | resetRecorder => exact Or.inl rfl
    | resetGraph => exact Or.inr rfl
    | reset => exact Or.inr rfl
    | _ => cases hc

theorem orderly_call {s : Session} (h : s.graph.Orderly) (c : Call) : (s.call c).graph.Orderly := by
  rcases s.call_cases c with ⟨events, hc⟩ | hc | hc
  · rw [hc]
    exact orderly_feed h events
  · rw [hc]
    exact h
  · rw [hc]
    exact .of_rows_eq_nil rfl

end Session

namespace Pool

def call (p : Pool) (c : Nat × Session.Call) : Pool :=
  p.update c.1 ((p.session c.1).call c.2)

def run (p : Pool) (calls : List (Nat × Session.Call)) : Pool :=
  calls.foldl call p

theorem orderly_run (p : Pool) (h : p.graph.Orderly) (calls : List (Nat × Session.Call)) :
    (p.run calls).graph.Orderly := by
  induction calls generalizing p with
  | nil => exact h
  | cons c calls ih => exact ih (p.call c) (Session.orderly_call (s := p.session c.1) h c.2)

end Pool

/-! ## The table, row by row -/

/-- A row is found under its side and name and under no other; edges change sides and lead to what the table
has under the name they give; threads have no flavour; and a thread has no more edges to a lock, its own
permit apart, than the lock has to the thread. -/
structure Graph.Consistent (g : Graph) : Prop where
  keyed : ∀ side name r,
    g.row? (g.listed side name) = some r ↔ r ∈ g.rows ∧ r.node.side = side ∧ r.node.name = name
  sides : ∀ r ∈ g.rows, ∀ v ∈ r.targets, v.side ≠ r.node.side
  closed : ∀ r ∈ g.rows, ∀ v ∈ r.targets, ∃ r', g.row? (g.listed v.side v.name) = some r' ∧ r'.node = v
  unflavoured : ∀ r ∈ g.rows, r.node.side = .process → r.flavour = none
  balanced : ∀ p ∈ g.rows, ∀ l ∈ g.rows, p.node.side = .process → l.node.side = .resource →
    l.node.name ≠ permitKey p.node.name → p.targets.count l.node ≤ l.targets.count p.node

theorem Graph.Orderly.consistent {g : Graph} (h : g.Orderly) : g.Consistent where
  keyed side name r := by
    constructor
    · intro hr
      obtain ⟨hm, hn⟩ := node_of_row? hr
      rw [hn]
      exact ⟨hm, rfl, rfl⟩
    · rintro ⟨hm, rfl, rfl⟩
      rw [← h.eq_listed (List.mem_map_of_mem hm)]
      exact row?_of_mem h.nodup hm
  sides r hr v hv := by
    rw [← targetsOf_of_mem h.nodup hr] at hv
    exact (h.target_side r.node v hv).symm
  closed r hr v hv := by
    rw [← targetsOf_of_mem h.nodup hr] at hv
    have hmem := h.target_mem r.node v hv
    obtain ⟨r', hr', rfl⟩ := List.mem_map.mp hmem
    refine ⟨r', ?_, rfl⟩
    rw [← h.eq_listed hmem]
    exact row?_of_mem h.nodup hr'
  unflavoured := h.unflavoured
  balanced p hp l hl hps hls hne := by
    rw [← targetsOf_of_mem h.nodup hp, ← targetsOf_of_mem h.nodup hl]
    exact h.balanced p.node l.node hps hls hne

/-- Whatever is asked of sessions that share a graph, in whatever order, the graph is consistent. -/
theorem Pool.consistent_run (n : Nat) (calls : List (Nat × Session.Call)) :
    ((Pool.ofSize n).run calls).graph.Consistent :=
  (Pool.orderly_run (Pool.ofSize n) (.of_rows_eq_nil rfl) calls).consistent

end Gridlock
