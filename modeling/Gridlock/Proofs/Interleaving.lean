import Mathlib.Data.List.Count
import Mathlib.Data.List.Perm.Basic
import Mathlib.Logic.Function.Basic
import Gridlock.Proofs.Consistency

/-!
# Threads do not interfere

The threads of a session can run in any order. The order decides in which order the table lists its vertices
and in which order the threads that take a lock are listed at the lock, and nothing else.

* `Interleaving` : a list that is made of several streams; `filter_eq`, `of_filter_eq` : the streams are
  those that can be read off it
* `WellFormed.targetsOf_thread`, `WellFormed.targetsOf_lock`, `Orderly.mem_nodes_lock` : the table and its
  edges from what is known of the threads
* `nodes_perm_of_view`, `targetsOf_perm_of_view`, `edgeCount_of_view` : sessions that know the same of every
  thread
* `threads_independent` : sessions that are fed with the same streams
-/

namespace Gridlock

/-! ## Interleavings -/

/-- The list takes its elements from the streams, from each in order, until nothing is left. -/
inductive Interleaving {ι α : Type} [DecidableEq ι] : (ι → List α) → List α → Prop
  | done {streams : ι → List α} (h : ∀ i, streams i = []) : Interleaving streams []
  | next {streams : ι → List α} {a : α} {after rest : List α} (i : ι) (h : streams i = a :: after)
    (tail : Interleaving (Function.update streams i after) rest) : Interleaving streams (a :: rest)

namespace Interleaving

variable {ι α : Type} [DecidableEq ι] {streams : ι → List α} {l : List α}

theorem forall_mem_update {P : ι → α → Prop} {i : ι} {a : α} {after : List α}
    (h : ∀ j, ∀ x ∈ streams j, P j x) (hi : streams i = a :: after) :
    ∀ j, ∀ x ∈ Function.update streams i after j, P j x := by
  intro j x hx
  by_cases hj : j = i
  · subst hj
    rw [Function.update_self] at hx
    exact h j x (hi ▸ List.mem_cons_of_mem a hx)
  · rw [Function.update_of_ne hj] at hx
    exact h j x hx

theorem forall_mem {P : α → Prop} (h : Interleaving streams l) (hP : ∀ i, ∀ x ∈ streams i, P x) :
    ∀ x ∈ l, P x := by
  induction h with
  | done => simp
  | @next streams a after rest i hi tail ih =>
    intro x hx
    rcases List.mem_cons.mp hx with rfl | hx
    · exact hP i x (hi ▸ List.mem_cons_self)
    · exact ih (forall_mem_update hP hi) x hx

/-- If every element tells its stream, the stream is what is left of the list without the others. -/
theorem filter_eq {κ : Type} [DecidableEq κ] (h : Interleaving streams l) {tag : α → κ} {name : ι → κ}
    (hname : Function.Injective name) (htag : ∀ i, ∀ x ∈ streams i, tag x = name i) (j : ι) :
    l.filter (tag · = name j) = streams j := by
  induction h with
  | done h => simp [h]
  | @next streams a after rest i hi tail ih =>
    have ha : tag a = name i := htag i a (hi ▸ List.mem_cons_self)
    have hrest := ih (forall_mem_update htag hi)
    by_cases hj : j = i
    · subst hj
      rw [List.filter_cons_of_pos (by simpa using ha), hrest, Function.update_self, hi]
    · have hne : tag a ≠ name j := fun he => hj (hname (he.symm.trans ha))
      rw [List.filter_cons_of_neg (by simpa using hne), hrest, Function.update_of_ne hj]

/-- A list is an interleaving of the streams that can be read off it. -/
theorem of_filter_eq {κ : Type} [DecidableEq κ] (tag : α → κ) {name : ι → κ} (hname : Function.Injective name)
    (hmem : ∀ x ∈ l, ∃ i, tag x = name i) (hfilter : ∀ j, l.filter (tag · = name j) = streams j) :
    Interleaving streams l := by
  induction l generalizing streams with
  | nil => exact .done fun j => (hfilter j).symm
  | cons a rest ih =>
    obtain ⟨i, ha⟩ := hmem a List.mem_cons_self
    refine .next i ((hfilter i).symm.trans (List.filter_cons_of_pos (by simpa using ha))) ?_
    refine ih (fun x hx => hmem x (List.mem_cons_of_mem a hx)) ?_
    intro j
    by_cases hj : j = i
    · subst hj
      rw [Function.update_self]
    · have hne : tag a ≠ name j := fun he => hj (hname (he.symm.trans ha))
      rw [Function.update_of_ne hj, ← hfilter, List.filter_cons_of_neg (by simpa using hne)]

end Interleaving

/-! ## The graph from its threads -/

namespace Graph

variable {g : Graph} {t key : Text}

theorem WellFormed.eq_listed_process (h : g.WellFormed) {p : Node} (hp : p ∈ g.nodes)
    (hs : p.side = .process) : p = g.listed .process p.name := by
  have hkey := h.eq_listed hp
  rwa [hs] at hkey

theorem WellFormed.eq_listed_resource (h : g.WellFormed) {l : Node} (hl : l ∈ g.nodes)
    (hs : l.side = .resource) : l = g.listed .resource l.name := by
  have hkey := h.eq_listed hl
  rwa [hs] at hkey

theorem WellFormed.targetsOf_thread (h : g.WellFormed) (t : Text) :
    g.targetsOf (g.listed .process t) = (g.waits t).map (g.listed .resource) := by
  rw [waits, List.map_map]
  refine (List.map_id _).symm.trans (List.map_congr_left ?_)
  intro v hv
  exact h.eq_listed_resource (h.target_mem _ v hv) (Side.eq_resource_of_ne (h.target_side _ v hv))

theorem WellFormed.targetsOf_lock (h : g.WellFormed) (key : Text) :
    g.targetsOf (g.listed .resource key) = (g.takers key).map (g.listed .process) := by
  rw [takers, List.map_map]
  refine (List.map_id _).symm.trans (List.map_congr_left ?_)
  intro v hv
  exact h.eq_listed_process (h.target_mem _ v hv) (Side.eq_process_of_ne (h.target_side _ v hv))

theorem listed_injective (g : Graph) (side : Side) : Function.Injective (g.listed side) :=
  fun _ _ h => g.listed_inj.mp h

theorem WellFormed.mem_waits (h : g.WellFormed) :
    key ∈ g.waits t ↔ g.listed .resource key ∈ g.targetsOf (g.listed .process t) := by
  rw [h.targetsOf_thread, List.mem_map_of_injective (g.listed_injective .resource)]

theorem WellFormed.mem_takers (h : g.WellFormed) :
    t ∈ g.takers key ↔ g.listed .process t ∈ g.targetsOf (g.listed .resource key) := by
  rw [h.targetsOf_lock, List.mem_map_of_injective (g.listed_injective .process)]

/-- A lock is in the table if some thread waits for it or takes it. -/
theorem Orderly.mem_nodes_lock (h : g.Orderly) :
    g.listed .resource key ∈ g.nodes ↔ ∃ t, key ∈ g.waits t ∨ t ∈ g.takers key := by
  constructor
  · intro hl
    obtain ⟨p, hpl, hps, he⟩ := h.anchored _ hl rfl
    rw [h.eq_listed_process (hpl.subset List.mem_cons_self) hps, ← h.mem_waits, ← h.mem_takers] at he
    exact ⟨p.name, he⟩
  · rintro ⟨t, hw | ht⟩
    · exact h.target_mem _ _ (h.mem_waits.mp hw)
    · exact mem_nodes_of_mem_targetsOf (h.mem_takers.mp ht)

theorem edgeCount_eq (h : g.nodes.Nodup) : g.edgeCount = (g.nodes.flatMap g.targetsOf).length := by
  have hrows : g.rows.flatMap (·.targets) = g.nodes.flatMap g.targetsOf := by
    rw [nodes, List.flatMap_map]
    refine List.flatMap_congr ?_
    intro r hr
    exact (targetsOf_of_mem h hr).symm
  rw [edgeCount, hrows]

end Graph

/-! ## Sessions that know the same of every thread -/

namespace Session

variable {s s' : Session}

theorem waits_eq_of_view (h : ∀ t, s.view t = s'.view t) (t : Text) : s.graph.waits t = s'.graph.waits t :=
  congrArg ThreadView.waits (h t)

theorem takers_perm_of_view (h : ∀ t, s.view t = s'.view t) (key : Text) :
    (s.graph.takers key).Perm (s'.graph.takers key) := by
  rw [List.perm_iff_count]
  intro t
  exact congrFun (congrArg ThreadView.takes (h t)) key

variable (hs : s.graph.Orderly) (hs' : s'.graph.Orderly) (he : s.graph.epoch = s'.graph.epoch)
include he hs hs'

theorem mem_nodes_of_view (h : ∀ t, s.view t = s'.view t) {n : Node} (hn : n ∈ s.graph.nodes) :
    n ∈ s'.graph.nodes := by
  have hlisted (side : Side) (name : Text) : s.graph.listed side name = s'.graph.listed side name := by
    rw [Graph.listed, he, Graph.listed]
  have hkey := hs.eq_listed hn
  cases hside : n.side with
  | process =>
    rw [hside] at hkey
    have hp : s'.graph.hasThread n.name = true := by
      refine (congrArg ThreadView.present (h n.name)).symm.trans ?_
      show decide _ = true
      rw [decide_eq_true_eq, ← hkey]
      exact hn
    rw [hkey, hlisted]
    exact of_decide_eq_true hp
  | resource =>
    rw [hside] at hkey
    rw [hkey] at hn ⊢
    obtain ⟨t, ht⟩ := hs.mem_nodes_lock.mp hn
    rw [hlisted, hs'.mem_nodes_lock]
    refine ⟨t, ?_⟩
    rwa [waits_eq_of_view h, (takers_perm_of_view h n.name).mem_iff] at ht

theorem nodes_perm_of_view (h : ∀ t, s.view t = s'.view t) : s.graph.nodes.Perm s'.graph.nodes := by
  rw [List.perm_ext_iff_of_nodup hs.nodup hs'.nodup]
  intro n
  exact ⟨mem_nodes_of_view hs hs' he h, mem_nodes_of_view hs' hs he.symm fun t => (h t).symm⟩

theorem targetsOf_perm_of_view (h : ∀ t, s.view t = s'.view t) {n : Node} (hn : n ∈ s.graph.nodes) :
    (s.graph.targetsOf n).Perm (s'.graph.targetsOf n) := by
  have hlisted (side : Side) : s.graph.listed side = s'.graph.listed side := by
    funext name
    rw [Graph.listed, he, Graph.listed]
  have hkey := hs.eq_listed hn
  cases hside : n.side with
  | process =>
    rw [hside] at hkey
    rw [hkey, hs.targetsOf_thread, hlisted, hlisted, hs'.targetsOf_thread, waits_eq_of_view h]
  | resource =>
    rw [hside] at hkey
    rw [hkey, hs.targetsOf_lock, hlisted, hlisted, hs'.targetsOf_lock]
    exact (takers_perm_of_view h n.name).map _

theorem edgeCount_of_view (h : ∀ t, s.view t = s'.view t) : s.graph.edgeCount = s'.graph.edgeCount := by
  rw [Graph.edgeCount_eq hs.nodup, Graph.edgeCount_eq hs'.nodup]
  exact ((nodes_perm_of_view hs hs' he h).flatMap fun n hn =>
    targetsOf_perm_of_view hs hs' he h hn).length_eq

end Session

/-! ## Sessions fed with the same streams -/

theorem orderly_feed_empty (events : List Event) : (Session.feed {} events).graph.Orderly :=
  Session.orderly_feed (.of_rows_eq_nil rfl) events

theorem targetsOf_threadNode (events : List Event) (t : Text) :
    (Session.feed {} events).graph.targetsOf (threadNode t) =
      ((Session.feed {} events).graph.waits t).map lockNode := by
  have h := (orderly_feed_empty events).targetsOf_thread t
  rw [listed_feed] at h
  rw [threadNode, h]
  refine List.map_congr_left ?_
  intro key _
  rw [listed_feed, lockNode]

theorem targetsOf_lockNode (events : List Event) (key : Text) :
    (Session.feed {} events).graph.targetsOf (lockNode key) =
      ((Session.feed {} events).graph.takers key).map threadNode := by
  have h := (orderly_feed_empty events).targetsOf_lock key
  rw [listed_feed] at h
  rw [lockNode, h]
  refine List.map_congr_left ?_
  intro t _
  rw [listed_feed, threadNode]

theorem threadNode_injective : Function.Injective threadNode := by
  intro t t' h
  exact congrArg Node.name h

theorem lockNode_injective : Function.Injective lockNode := by
  intro key key' h
  exact congrArg Node.name h

theorem count_threadNode (events : List Event) (key t : Text) :
    ((Session.feed {} events).graph.targetsOf (lockNode key)).count (threadNode t) =
      ((Session.feed {} events).view t).takes key := by
  rw [targetsOf_lockNode, List.count_map_of_injective _ _ threadNode_injective]
  rfl

theorem threadNode_mem_nodes (events : List Event) (t : Text) :
    threadNode t ∈ (Session.feed {} events).graph.nodes ↔
      ((Session.feed {} events).view t).present = true := by
  have h : ((Session.feed {} events).view t).present = decide
      ((Session.feed {} events).graph.listed .process t ∈ (Session.feed {} events).graph.nodes) := rfl
  rw [h, decide_eq_true_eq, listed_feed, threadNode]

/-- Of a thread the session knows what the events of this thread alone would have told it: the locks it
holds, whether it is in the table, its edges in order, and the number of edges to it from each lock. So
sessions that are fed with the same streams, one stream for each thread, have the same vertices, the same
edges of each thread, the same edges of each lock up to their order, and as many edges. -/
theorem threads_independent (events : List Event) :
    (∀ t : Text,
      (Session.feed {} events).heldBy t =
        (Session.feed {} (events.filter (·.thread = t))).heldBy t ∧
      (threadNode t ∈ (Session.feed {} events).graph.nodes ↔
        threadNode t ∈ (Session.feed {} (events.filter (·.thread = t))).graph.nodes) ∧
      (Session.feed {} events).graph.targetsOf (threadNode t) =
        (Session.feed {} (events.filter (·.thread = t))).graph.targetsOf (threadNode t) ∧
      ∀ key, ((Session.feed {} events).graph.targetsOf (lockNode key)).count (threadNode t) =
        ((Session.feed {} (events.filter (·.thread = t))).graph.targetsOf (lockNode key)).count
          (threadNode t)) ∧
    ∀ (streams : Text → List Event) (events' : List Event),
      (∀ t, ∀ e ∈ streams t, e.thread = t) → Interleaving streams events → Interleaving streams events' →
        (Session.feed {} events).graph.nodes.Perm (Session.feed {} events').graph.nodes ∧
        (∀ t, (Session.feed {} events).graph.targetsOf (threadNode t) =
          (Session.feed {} events').graph.targetsOf (threadNode t)) ∧
        (∀ key, ((Session.feed {} events).graph.targetsOf (lockNode key)).Perm
          ((Session.feed {} events').graph.targetsOf (lockNode key))) ∧
        (Session.feed {} events).graph.edgeCount = (Session.feed {} events').graph.edgeCount := by
  constructor
  · intro t
    have hview : (Session.feed {} events).view t =
        (Session.feed {} (events.filter (·.thread = t))).view t := by
      rw [Session.view_feed, Session.view_feed, List.filter_filter]
      simp
    refine ⟨?_, ?_, ?_, ?_⟩
    · exact congrArg (fun v => v.holdings.keys) hview
    · rw [threadNode_mem_nodes, threadNode_mem_nodes, hview]
    · rw [targetsOf_threadNode, targetsOf_threadNode]
      exact congrArg (fun v => v.waits.map lockNode) hview
    · intro key
      rw [count_threadNode, count_threadNode, hview]
  · intro streams events' hown h h'
    have hview (t : Text) : (Session.feed {} events).view t = (Session.feed {} events').view t := by
      have hstream := h.filter_eq Function.injective_id hown t
      have hstream' := h'.filter_eq Function.injective_id hown t
      rw [id] at hstream hstream'
      rw [Session.view_feed, Session.view_feed, hstream, hstream']
    have ho := orderly_feed_empty events
    have ho' := orderly_feed_empty events'
    have hepoch : (Session.feed {} events).graph.epoch = (Session.feed {} events').graph.epoch := by
      rw [Session.feed_epoch, Session.feed_epoch]
    refine ⟨Session.nodes_perm_of_view ho ho' hepoch hview, ?_, ?_, Session.edgeCount_of_view ho ho' hepoch hview⟩
    · intro t
      rw [targetsOf_threadNode, targetsOf_threadNode, Session.waits_eq_of_view hview]
    · intro key
      rw [targetsOf_lockNode, targetsOf_lockNode]
      exact (Session.takers_perm_of_view hview key).map threadNode

/-- Two threads that take two locks in opposite order, step by step in turn. -/
def inTurn : List Event :=
  [{ action := .acquire, thread := "A", lock := some "L" },
   { action := .acquire, thread := "B", lock := some "M" },
   { action := .acquire, thread := "A", lock := some "M" },
   { action := .acquire, thread := "B", lock := some "L" }]

def inSequence : List Event :=
  [{ action := .acquire, thread := "B", lock := some "M" },
   { action := .acquire, thread := "B", lock := some "L" },
   { action := .acquire, thread := "A", lock := some "L" },
   { action := .acquire, thread := "A", lock := some "M" }]

theorem threads_independent_inTurn :
    (∀ t, ∀ e ∈ inTurn.filter (·.thread = t), e.thread = t) ∧
      Interleaving (fun t => inTurn.filter (·.thread = t)) inTurn ∧
      Interleaving (fun t => inTurn.filter (·.thread = t)) inSequence ∧
      (Session.feed {} inTurn).graph.nodes.Perm (Session.feed {} inSequence).graph.nodes ∧
      (Session.feed {} inTurn).graph.targetsOf (threadNode "A") =
        (Session.feed {} inSequence).graph.targetsOf (threadNode "A") ∧
      ((Session.feed {} inTurn).graph.targetsOf (lockNode "L")).Perm
        ((Session.feed {} inSequence).graph.targetsOf (lockNode "L")) ∧
      (Session.feed {} inTurn).graph.edgeCount = (Session.feed {} inSequence).graph.edgeCount := by
  have hown : ∀ t, ∀ e ∈ inTurn.filter (·.thread = t), e.thread = t := by simp
  have hturn : Interleaving (fun t => inTurn.filter (·.thread = t)) inTurn :=
    .of_filter_eq Event.thread Function.injective_id (fun e _ => ⟨e.thread, rfl⟩) fun t => rfl
  have hsequence : Interleaving (fun t => inTurn.filter (·.thread = t)) inSequence := by
    refine .of_filter_eq Event.thread Function.injective_id (fun e _ => ⟨e.thread, rfl⟩) ?_
    intro t
    by_cases hA : "A" = t
    · subst hA
      rfl
    · by_cases hB : "B" = t
      · subst hB
        rfl
      · simp [inTurn, inSequence, hA, hB]
  obtain ⟨hnodes, hwaits, htakers, hcount⟩ :=
    (threads_independent inTurn).2 _ inSequence hown hturn hsequence
  exact ⟨hown, hturn, hsequence, hnodes, hwaits "A", htakers "L", hcount⟩

end Gridlock
