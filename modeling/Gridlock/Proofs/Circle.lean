import Mathlib.Data.List.FinRange
import Gridlock.Proofs.Entrance
import Gridlock.Proofs.Examination
import Gridlock.Proofs.Interleaving
import Gridlock.Proofs.Ring

/-!
# Threads in a circle

Each thread takes a lock of its own and, over it, the lock of the next thread. However these threads are
scheduled, the deadlock is reported, once, and from the thread on that started first.

* `Graph.Circuit` : the graph of such threads
* `Circuit.closedPath_eq` : from each thread there is one way round
* `Circuit.detect_cycles` : what is reported of a circuit
* `Circle` : threads and locks in a circle, with the events of each thread
* `Circle.circuit` : the graph of every schedule is a circuit
* `Circle.detect_interleaving` : what is reported of every schedule
-/

namespace Gridlock

/-! ## Places in a circle -/

section Places

variable {n : Nat} [NeZero n]

theorem ofNat_succ (j : Nat) : Fin.ofNat n (j + 1) = Fin.ofNat n j + 1 := by
  apply Fin.ext
  simp [Fin.val_add]

theorem ofNat_eq_zero_iff (j : Nat) : Fin.ofNat n j = 0 ↔ n ∣ j := by
  rw [Fin.ext_iff, Fin.val_ofNat, Fin.val_zero, Nat.dvd_iff_mod_eq_zero]

theorem add_one_ne (h : 2 ≤ n) (i : Fin n) : i + 1 ≠ i := by
  intro he
  have hone : (1 : Fin n).val = 0 := by rw [add_eq_left.mp he, Fin.val_zero]
  rw [Fin.val_one', Nat.mod_eq_of_lt h] at hone
  omega

/-- Whoever goes on place by place comes to every place. -/
theorem forall_of_step {P : Fin n → Prop} {k : Fin n} (hk : P k) (hstep : ∀ i, P i → P (i + 1))
    (i : Fin n) : P i := by
  have hall (j : Nat) : P (k + Fin.ofNat n j) := by
    induction j with
    | zero => simpa using hk
    | succ j ih =>
      rw [ofNat_succ, ← add_assoc]
      exact hstep _ ih
  have hi := hall (i - k).val
  rwa [Fin.ofNat_val_eq_self, add_sub_cancel] at hi

theorem map_range_two_mul {α : Type} (f : Nat → α) (m : Nat) :
    (List.range (2 * m)).map f = (List.range m).flatMap fun j => [f (2 * j), f (2 * j + 1)] := by
  induction m with
  | zero => rfl
  | succ m ih =>
    rw [show 2 * (m + 1) = 2 * m + 1 + 1 by omega, List.range_succ, List.range_succ, List.range_succ]
    simp [ih]

theorem flatMap_range_eq_finRange {α : Type} (f : Fin n → List α) :
    (List.range n).flatMap (fun j => f (Fin.ofNat n j)) = (List.finRange n).flatMap f := by
  rw [← List.map_coe_finRange_eq_range, List.flatMap_map]
  simp

end Places

namespace Graph

/-- Two or more threads in a circle. Each waits for one lock, which nobody takes but itself and the next
thread, and no other thread waits. -/
structure Circuit (g : Graph) (n : Nat) [NeZero n] where
  thread : Fin n → Node
  lock : Fin n → Node
  two_le : 2 ≤ n
  thread_injective : Function.Injective thread
  lock_injective : Function.Injective lock
  waits : ∀ i, g.targetsOf (thread i) = [lock i]
  takers : ∀ i x, x ∈ g.targetsOf (lock i) ↔ x = thread i ∨ x = thread (i + 1)
  once : ∀ i, (g.targetsOf (lock i)).count (thread (i + 1)) = 1
  only : ∀ p l, p.side = .process → l ∈ g.targetsOf p → ∃ i, p = thread i

namespace Circuit

variable {g : Graph} {n : Nat} [NeZero n] (w : g.Circuit n) {path : List Node} {k i : Fin n}

def way (k : Fin n) : List Node :=
  (List.finRange n).flatMap (fun j => [w.thread (k + j), w.lock (k + j)]) ++ [w.thread k]

section Round
variable (R : g.digraph.Round path)

theorem vertex_lock {j : Nat} (hj : R.vertex j = w.thread i) : R.vertex (j + 1) = w.lock i := by
  have hl := R.linked j
  rw [hj, digraph_next, w.waits, List.mem_singleton] at hl
  exact hl

theorem vertex_thread (hp : ¬ R.period ∣ 2) {j : Nat} (hj : R.vertex j = w.thread i) :
    R.vertex (j + 2) = w.thread (i + 1) := by
  have hl := R.linked (j + 1)
  rw [w.vertex_lock R hj, digraph_next, w.takers] at hl
  refine hl.resolve_left ?_
  intro hback
  rw [← hj, R.eq_iff] at hback
  have hdvd := (Nat.modEq_iff_dvd' (by omega)).mp (Nat.ModEq.symm hback)
  rw [show j + 1 + 1 - j = 2 by omega] at hdvd
  exact hp hdvd

theorem vertex_two_mul (hp : ¬ R.period ∣ 2) (h0 : R.vertex 0 = w.thread k) (j : Nat) :
    R.vertex (2 * j) = w.thread (k + Fin.ofNat n j) := by
  induction j with
  | zero => simpa using h0
  | succ j ih =>
    rw [ofNat_succ, ← add_assoc]
    exact w.vertex_thread R hp ih

end Round

theorem closedPath_eq (h : g.WellFormed) (hc : g.digraph.ClosedPath path) (hlen : path.length ≠ 3)
    (hk : path.head? = some (w.thread k)) : path = w.way k := by
  obtain ⟨R, hpath⟩ := hc.exists_round_eq
  obtain ⟨m, hm⟩ := exists_period_eq R h
  have hp : ¬ R.period ∣ 2 := by
    intro hdvd
    have hle := Nat.le_of_dvd (by omega) hdvd
    have hpos := R.period_pos
    have hl := R.length_eq
    omega
  have h0 : R.vertex 0 = w.thread k := by
    have hhead := R.head_eq
    rw [hk, Option.some.injEq] at hhead
    exact hhead.symm
  have hthread := w.vertex_two_mul R hp h0
  have hback (j : Nat) : R.vertex (2 * j) = R.vertex 0 ↔ n ∣ j := by
    rw [hthread, h0, w.thread_injective.eq_iff, add_eq_left, ofNat_eq_zero_iff]
  have hround (j : Nat) : R.vertex (2 * j) = R.vertex 0 ↔ m ∣ j := by
    rw [R.eq_iff, Nat.zero_mod, ← Nat.dvd_iff_mod_eq_zero, hm, Nat.mul_dvd_mul_iff_left (by omega)]
  have hmn : m = n := by
    apply Nat.dvd_antisymm
    · exact (hround _).mp ((hback _).mpr (Nat.dvd_refl _))
    · exact (hback _).mp ((hround _).mpr (Nat.dvd_refl _))
  rw [hpath, hm, hmn, map_range_two_mul, h0, way, ← flatMap_range_eq_finRange]
  congr 1
  refine List.flatMap_congr ?_
  intro j _
  rw [hthread, w.vertex_lock R (hthread j)]

/-- A ring goes through all threads of the circuit. -/
theorem ring_has_thread {m : Nat} (r : g.Ring m) (i : Fin n) : r.Has (w.thread i) := by
  obtain ⟨k, hk⟩ := w.only _ _ (r.thread_side 0) (r.waits 0)
  have hall : ∃ a, w.thread i = r.thread a := by
    refine forall_of_step (P := fun i => ∃ a, w.thread i = r.thread a) ⟨0, hk.symm⟩ ?_ i
    rintro i ⟨a, ha⟩
    have hlock := r.waits a
    rw [← ha, w.waits, List.mem_singleton] at hlock
    have hnext := r.taken a
    rw [hlock, w.takers, ha, r.thread_injective.eq_iff] at hnext
    exact ⟨a + 1, (hnext.resolve_left (add_one_ne (by omega) a)).symm⟩
  exact Or.inl hall

/-- If the search enters a thread first, it comes back to it from the lock of the thread before. -/
theorem exists_closes (hfirst : g.digraph.EntersFirst (w.thread (i + 1)) fun _ => True) :
    ∃ m, g.digraph.Closes m (w.lock i) (w.thread (i + 1)) := by
  have hwaits (j : Fin n) : w.lock j ∈ g.digraph.next (w.thread j) := by
    rw [digraph_next, w.waits]
    exact List.mem_singleton_self _
  have htaken (j : Fin n) : w.thread (j + 1) ∈ g.digraph.next (w.lock j) := by
    rw [digraph_next, w.takers]
    exact Or.inr rfl
  have hwalk : Relation.ReflTransGen (fun x y => y ∈ g.digraph.next x ∧ True) (w.thread (i + 1))
      (w.thread i) := by
    refine forall_of_step (P := fun j => Relation.ReflTransGen _ (w.thread (i + 1)) (w.thread j)) .refl ?_ i
    intro j hj
    exact (hj.tail ⟨hwaits j, trivial⟩).tail ⟨htaken j, trivial⟩
  exact Digraph.closes_of_entersFirst hfirst (hwalk.tail ⟨hwaits i, trivial⟩) (htaken i)

section Detection
variable (h : g.WellFormed) {rest : List Node} (hv : g.nodes = w.thread k :: rest)
include h hv

theorem eq_way_of_mem_detect (hc : path ∈ g.detect.cycles) : path = w.way k := by
  rw [← digraph_vertices] at hv
  obtain ⟨hp, hw⟩ := mem_detect.mp hc
  obtain ⟨m, u, v, hcl, rfl⟩ := (Digraph.mem_closedPaths _ _).mp hp
  have hlen := (isWitness_iff_of_closedPath h hcl.closedPath).mp hw
  obtain ⟨_, r, -, hfirst⟩ := exists_ring_of_closes h hcl hlen
  obtain rfl := hfirst.eq_of_vertices hv (w.ring_has_thread r k)
  exact w.closedPath_eq h hcl.closedPath hlen rfl

/-- The way round is reported once, since the edge that closes it is there once. -/
theorem count_way : g.detect.cycles.count (w.way k) = 1 := by
  rw [← digraph_vertices] at hv
  obtain ⟨i, rfl⟩ : ∃ i, k = i + 1 := ⟨k - 1, (sub_add_cancel k 1).symm⟩
  obtain ⟨m, hcl⟩ := w.exists_closes (Digraph.entersFirst_of_vertices hv _)
  have hfrom : ¬ g.digraph.EntersFrom (w.thread (i + 1)) (w.lock i) := by
    intro hfrom
    have hl := hfrom.mem_next
    rw [digraph_next, w.waits, List.mem_singleton, w.lock_injective.eq_iff] at hl
    exact add_one_ne w.two_le i hl.symm
  have hlen := (h.loop_length_ne_three_iff hcl).mpr hfrom
  have hwit := (isWitness_iff_of_closedPath h hcl.closedPath).mpr hlen
  rw [← w.closedPath_eq h hcl.closedPath hlen rfl, detect, List.count_filter hwit, hcl.count_closedPaths,
    digraph_next, w.once]

/-- If the table begins with a thread of the circuit, the way round from this thread is reported, and nothing
else. -/
theorem detect_cycles : g.detect.cycles = [w.way k] := by
  have hall : ∀ path ∈ g.detect.cycles, w.way k = path := fun path hc =>
    (w.eq_way_of_mem_detect h hv hc).symm
  have hlength : g.detect.cycles.length = 1 := by
    rw [← List.count_eq_length.mpr hall, w.count_way h hv]
  obtain ⟨path, hpath⟩ := List.length_eq_one_iff.mp hlength
  rw [hpath, hall path (by rw [hpath]; exact List.mem_cons_self)]

end Detection

end Circuit

end Graph

/-! ## The events of the threads -/

/-- Two or more threads in a circle, the lock of each one's own, and the flavours under which it takes and
gives back its own lock and that of the next thread; none of them changes the key of a lock. -/
structure Circle (n : Nat) where
  two_le : 2 ≤ n
  thread : Fin n → Text
  lock : Fin n → Text
  flavour : Fin n → Fin 4 → Option Flavour
  thread_injective : Function.Injective thread
  lock_injective : Function.Injective lock
  lock_ne : ∀ i, lock i ≠ ""
  flavour_mem : ∀ i j, flavour i j ∈ [none, some .monitor, some .reentrant]

theorem lockKey_of_mem {flavour : Option Flavour} (h : flavour ∈ [none, some .monitor, some .reentrant])
    (lock : Text) : lockKey lock flavour = lock := by
  simp only [List.mem_cons, List.not_mem_nil, or_false] at h
  rcases h with rfl | rfl | rfl <;> rfl

namespace Circle

variable {n : Nat} [NeZero n] (r : Circle n) {events : List Event} {i : Fin n}

/-- What a thread does: it takes its own lock and then that of the next thread, and gives both back. -/
def script (i : Fin n) : List Event :=
  [{ action := .start, thread := r.thread i },
   { action := .acquire, thread := r.thread i, lock := some (r.lock i), flavour := r.flavour i 0 },
   { action := .acquire, thread := r.thread i, lock := some (r.lock (i + 1)), flavour := r.flavour i 1 },
   { action := .release, thread := r.thread i, lock := some (r.lock (i + 1)), flavour := r.flavour i 2 },
   { action := .release, thread := r.thread i, lock := some (r.lock i), flavour := r.flavour i 3 }]

def cycle (k : Fin n) : List Node :=
  (List.finRange n).flatMap (fun j => [threadNode (r.thread (k + j)), lockNode (r.lock (k + j + 1))]) ++
    [threadNode (r.thread k)]

theorem thread_of_mem_script : ∀ e ∈ r.script i, e.thread = r.thread i := by
  simp [script]

theorem feed_script : (ThreadView.feed {} (r.script i)).waits = [r.lock (i + 1)] ∧
    (ThreadView.feed {} (r.script i)).takes = fun key =>
      (if key = r.lock i then 1 else 0) + if key = r.lock (i + 1) then 1 else 0 := by
  have hfeed : ThreadView.feed {} (r.script i) =
      (((ThreadView.acquire { present := true } (r.lock i) (r.flavour i 0)).acquire
        (r.lock (i + 1)) (r.flavour i 1)).release (r.lock (i + 1)) (r.flavour i 2)).release (r.lock i)
          (r.flavour i 3) := rfl
  have hne : r.lock i ≠ r.lock (i + 1) := r.lock_injective.ne (add_one_ne r.two_le i).symm
  have hown := lockKey_of_mem (r.flavour_mem i 0) (r.lock i)
  have hnext := lockKey_of_mem (r.flavour_mem i 1) (r.lock (i + 1))
  simp only [hfeed, ThreadView.release_waits, ThreadView.release_takes]
  rw [ThreadView.acquire_of_not_holds _ (r.lock_ne i) hown rfl,
    ThreadView.acquire_of_not_holds _ (r.lock_ne (i + 1)) hnext]
  · simp [Holdings.push, Holdings.isEmpty, Holdings.empty]
  · simp [Holdings.push, Holdings.holds, Holdings.empty, hne]

section Schedule
variable (h : Interleaving r.script events)
include h

theorem view_thread (i : Fin n) :
    (Session.feed {} events).view (r.thread i) = ThreadView.feed {} (r.script i) := by
  have hown := h.filter_eq r.thread_injective (fun i => r.thread_of_mem_script) i
  rw [Session.view_feed, hown, Session.view_empty]

theorem view_of_forall_ne {t : Text} (ht : ∀ i, t ≠ r.thread i) :
    (Session.feed {} events).view t = {} := by
  have hall := h.forall_mem (P := fun e => e.thread ≠ t) fun i e he =>
    r.thread_of_mem_script e he ▸ (ht i).symm
  rw [Session.view_feed_of_forall_ne _ hall, Session.view_empty]

theorem waits_eq (i : Fin n) :
    (Session.feed {} events).graph.waits (r.thread i) = [r.lock (i + 1)] := by
  rw [← r.feed_script.1, ← r.view_thread h]
  rfl

theorem count_takers (i : Fin n) (key : Text) :
    ((Session.feed {} events).graph.takers key).count (r.thread i) =
      (if key = r.lock i then 1 else 0) + if key = r.lock (i + 1) then 1 else 0 := by
  refine Eq.trans ?_ (congrFun r.feed_script.2 key)
  rw [← r.view_thread h]
  rfl

theorem mem_takers (i : Fin n) (t : Text) :
    t ∈ (Session.feed {} events).graph.takers (r.lock (i + 1)) ↔ t = r.thread i ∨ t = r.thread (i + 1) := by
  rw [← List.count_pos_iff]
  by_cases ht : ∃ j, t = r.thread j
  · obtain ⟨j, rfl⟩ := ht
    simp only [r.count_takers h, r.lock_injective.eq_iff, r.thread_injective.eq_iff, add_left_inj]
    rw [eq_comm (a := j), eq_comm (a := j)]
    split <;> split <;> simp [*]
  · rw [not_exists] at ht
    have hcount : ((Session.feed {} events).graph.takers (r.lock (i + 1))).count t = 0 :=
      congrFun (congrArg ThreadView.takes (r.view_of_forall_ne h ht)) _
    simp [hcount, ht]

end Schedule

/-- Whatever the schedule, the graph is a circuit. -/
def circuit (h : Interleaving r.script events) : (Session.feed {} events).graph.Circuit n where
  thread i := threadNode (r.thread i)
  lock i := lockNode (r.lock (i + 1))
  two_le := r.two_le
  thread_injective := threadNode_injective.comp r.thread_injective
  lock_injective := (lockNode_injective.comp r.lock_injective).comp (add_left_injective 1)
  waits i := by
    rw [targetsOf_threadNode, r.waits_eq h, List.map_singleton]
  takers i x := by
    rw [targetsOf_lockNode, List.mem_map]
    simp only [r.mem_takers h]
    constructor
    · rintro ⟨t, rfl | rfl, rfl⟩
      · exact Or.inl rfl
      · exact Or.inr rfl
    · rintro (rfl | rfl)
      · exact ⟨_, Or.inl rfl, rfl⟩
      · exact ⟨_, Or.inr rfl, rfl⟩
  once i := by
    have hne : r.lock (i + 1) ≠ r.lock (i + 1 + 1) := r.lock_injective.ne (add_one_ne r.two_le (i + 1)).symm
    rw [targetsOf_lockNode, List.count_map_of_injective _ _ threadNode_injective, r.count_takers h, if_pos rfl,
      if_neg hne]
  only p l hp hl := by
    by_contra hne
    rw [not_exists] at hne
    have hkey := (Session.wellFormed_feed events).eq_listed_process (Graph.mem_nodes_of_mem_targetsOf hl) hp
    rw [listed_feed] at hkey
    change p = threadNode p.name at hkey
    have hwaits : (Session.feed {} events).graph.waits p.name = [] := by
      refine congrArg ThreadView.waits (r.view_of_forall_ne h ?_)
      intro i hi
      rw [hi] at hkey
      exact hne i hkey
    rw [hkey, targetsOf_threadNode, hwaits] at hl
    cases hl

/-- However the threads of a circle are scheduled, one deadlock is reported: the way round from the thread
that started first. -/
theorem detect_interleaving (h : Interleaving r.script events) :
    ∃ k, events.find? (·.action = .start) = some { action := .start, thread := r.thread k } ∧
      (Session.feed {} events).graph.detect.cycles = [r.cycle k] := by
  cases id h with
  | done hnone =>
    have h0 := hnone 0
    simp [script] at h0
  | @next _ e after rest k hk tail =>
    obtain ⟨rfl, -⟩ := List.cons.inj hk
    refine ⟨k, rfl, ?_⟩
    obtain ⟨_, hnodes⟩ := Session.nodes_prefix_feed
      (Session.apply {} { action := .start, thread := r.thread k }) rest
    exact (r.circuit h).detect_cycles (Session.wellFormed_feed _) hnodes.symm

def triangle : Circle 3 where
  two_le := by decide
  thread := !["A", "B", "C"]
  lock := !["x", "y", "z"]
  flavour _ := ![none, some .monitor, some .reentrant, none]
  thread_injective := by decide
  lock_injective := by decide
  lock_ne := by decide
  flavour_mem := by decide

/-- The second thread is interrupted by the first one, and both by the third. -/
def interrupted : List Event :=
  (triangle.script 1).take 2 ++ (triangle.script 0).take 3 ++ triangle.script 2 ++
    (triangle.script 1).drop 2 ++ (triangle.script 0).drop 3

theorem detect_interleaving_triangle : Interleaving triangle.script interrupted ∧
    (Session.feed {} interrupted).graph.detect.cycles =
      [[threadNode "B", lockNode "z", threadNode "C", lockNode "x", threadNode "A", lockNode "y",
        threadNode "B"]] := by
  have h : Interleaving triangle.script interrupted :=
    .of_filter_eq Event.thread triangle.thread_injective (by decide) (by decide)
  obtain ⟨k, hstart, hcycles⟩ := triangle.detect_interleaving h
  have hk : (1 : Fin 3) = k := triangle.thread_injective (congrArg Event.thread (Option.some.inj hstart))
  subst hk
  exact ⟨h, hcycles⟩

end Circle

end Gridlock
