import Mathlib.Algebra.Group.Fin.Basic
import Mathlib.Data.Fin.VecNotation
import Mathlib.Data.Fintype.Basic
import Mathlib.Data.Nat.ModEq
import Gridlock.Proofs.Detection
import Gridlock.Proofs.FirstEntry
import Gridlock.Proofs.History

/-!
# Which rings of threads and locks are reported

A ring is a deadlock that several threads can run into. The search walks the graph once, so it closes
each ring at one edge: the one that comes back to the vertex of the ring that it entered first. What it
notes is then a deadlock, unless the two ends of that edge are all that lies on the path between them.

* `isWitness_iff_of_closedPath` : in a well-formed graph only closed paths of two vertices are no
  witnesses
* `hasDeadlock_iff_closes` : a deadlock is reported if an edge closes a path between two vertices of
  which the one was not entered from the other
* `Graph.Ring` : threads and locks in a ring; `Ring.ClosedAt` : the edge that closes it
* `ClosedAt.exists_closes`, `exists_ring_of_closes` : the search closes a path at this edge, and the
  closed paths of more than two vertices come from rings
* `hasDeadlock_iff_ring` : which rings of a session are reported
-/

namespace Gridlock

namespace Graph

variable {g : Graph} {c : List Node} {u v : Node}

/-! ## Closed paths of well-formed graphs -/

theorem WellFormed.alternates (h : g.WellFormed) (hc : g.digraph.ClosedPath c) :
    c.IsChain fun u v => u.side ≠ v.side := by
  refine hc.linked.imp ?_
  intro u v huv
  rw [digraph_next] at huv
  exact h.target_side u v huv

theorem WellFormed.name_ne (h : g.WellFormed) (hu : u ∈ g.nodes) (hv : v ∈ g.nodes) (hs : u.side = v.side)
    (hne : u ≠ v) : u.name ≠ v.name := by
  intro hn
  apply hne
  rw [h.eq_listed hu, h.eq_listed hv, hs, hn]

/-- In a well-formed graph the closed paths of two vertices are the only ones that are no witnesses. -/
theorem isWitness_iff_of_closedPath (h : g.WellFormed) (hc : g.digraph.ClosedPath c) :
    isWitness c = true ↔ c.length ≠ 3 := by
  have halt := h.alternates hc
  have hmem : ∀ n ∈ c, n ∈ g.nodes := fun n hn => mem_nodes_of_closedPath hc hn
  rw [isWitness_iff]
  constructor
  · rintro ⟨hlen, -⟩ h3
    omega
  · intro h3
    have hlen := hc.length
    have hclosed := hc.closed
    have hsimple := hc.simple
    match c, hlen with
    | [x, y], _ =>
      rw [List.head?_cons, List.getLast?_cons_cons, List.getLast?_singleton,
        Option.some.injEq] at hclosed
      rw [List.isChain_pair, hclosed] at halt
      exact absurd rfl halt
    | [x, y, z], _ => exact absurd rfl h3
    | [x, y, z, w], _ =>
      rw [List.head?_cons, List.getLast?_cons_cons, List.getLast?_cons_cons, List.getLast?_cons_cons,
        List.getLast?_singleton, Option.some.injEq] at hclosed
      rw [List.isChain_cons_cons, List.isChain_cons_cons, List.isChain_pair, ← hclosed] at halt
      obtain ⟨hxy, hyz, hzx⟩ := halt
      exact absurd (Side.eq_of_ne_of_ne hxy hyz).symm hzx
    | x :: y :: z :: w :: p :: rest, _ =>
      refine ⟨by simp, halt, ?_⟩
      simp only [List.isChain_cons_cons] at halt
      obtain ⟨hxy, hyz, hzw, -⟩ := halt
      simp only [List.dropLast_cons_cons, List.nodup_cons, List.mem_cons, not_or] at hsimple
      cases hx : x.side with
      | process =>
        have hxz := Side.eq_of_ne_of_ne hxy hyz
        exact ⟨x, by simp, z, by simp, hx, hxz ▸ hx,
          h.name_ne (hmem x (by simp)) (hmem z (by simp)) hxz hsimple.1.2.1⟩
      | resource =>
        have hyw := Side.eq_of_ne_of_ne hyz hzw
        have hy := Side.eq_process_of_ne (hx ▸ hxy)
        exact ⟨y, by simp, w, by simp, hy, hyw ▸ hy,
          h.name_ne (hmem y (by simp)) (hmem w (by simp)) hyw hsimple.2.1.2.1⟩

theorem WellFormed.loop_length_ne_three_iff {m : Nat} (h : g.WellFormed)
    (hc : g.digraph.Closes m u v) :
    (g.digraph.loopAt m v).length ≠ 3 ↔ ¬ g.digraph.EntersFrom v u := by
  have hne : u ≠ v := by
    rintro rfl
    have hs := hc.mem_next
    rw [digraph_next] at hs
    exact h.target_side u u hs rfl
  exact not_congr (hc.loop_length_eq_three_iff hne)

/-- A deadlock is reported if an edge closes a path at a vertex from which the search did not enter the
vertex that the edge leaves. -/
theorem hasDeadlock_iff_closes (h : g.WellFormed) : g.detect.hasDeadlock = true ↔
    ∃ n u v, g.digraph.Closes n u v ∧ ¬ g.digraph.EntersFrom v u := by
  have hwit {n : Nat} {u v : Node} (hc : g.digraph.Closes n u v) :
      isWitness (g.digraph.loopAt n v) = true ↔ ¬ g.digraph.EntersFrom v u := by
    rw [isWitness_iff_of_closedPath h hc.closedPath, h.loop_length_ne_three_iff hc]
  rw [hasDeadlock_iff]
  constructor
  · intro hne
    obtain ⟨c, hc⟩ := List.exists_mem_of_ne_nil _ hne
    obtain ⟨hp, hw⟩ := mem_detect.mp hc
    obtain ⟨n, u, v, hcl, rfl⟩ := (Digraph.mem_closedPaths _ c).mp hp
    exact ⟨n, u, v, hcl, (hwit hcl).mp hw⟩
  · rintro ⟨n, u, v, hcl, hfrom⟩
    have hp := (Digraph.mem_closedPaths _ _).mpr ⟨n, u, v, hcl, rfl⟩
    exact List.ne_nil_of_mem (mem_detect.mpr ⟨hp, (hwit hcl).mpr hfrom⟩)

/-! ## Rings -/

/-- Two or more threads and as many locks in a ring: each thread waits for its lock, which the next
thread takes. -/
structure Ring (g : Graph) (n : Nat) where
  thread : Fin (n + 2) → Node
  lock : Fin (n + 2) → Node
  thread_side : ∀ i, (thread i).side = .process
  lock_side : ∀ i, (lock i).side = .resource
  thread_injective : Function.Injective thread
  lock_injective : Function.Injective lock
  waits : ∀ i, lock i ∈ g.targetsOf (thread i)
  taken : ∀ i, thread (i + 1) ∈ g.targetsOf (lock i)

namespace Ring

variable {n : Nat}

def Has (r : g.Ring n) (x : Node) : Prop :=
  (∃ i, x = r.thread i) ∨ ∃ i, x = r.lock i

/-- In the ring `v` comes right after `u`. -/
def Arc (r : g.Ring n) (u v : Node) : Prop :=
  (∃ i, u = r.thread i ∧ v = r.lock i) ∨ ∃ i, u = r.lock i ∧ v = r.thread (i + 1)

def Step (r : g.Ring n) (x y : Node) : Prop :=
  y ∈ g.digraph.next x ∧ r.Has y

theorem step_lock (r : g.Ring n) (i : Fin (n + 2)) : r.Step (r.thread i) (r.lock i) :=
  ⟨by rw [digraph_next]; exact r.waits i, Or.inr ⟨i, rfl⟩⟩

theorem step_thread (r : g.Ring n) (i : Fin (n + 2)) : r.Step (r.lock i) (r.thread (i + 1)) :=
  ⟨by rw [digraph_next]; exact r.taken i, Or.inl ⟨i + 1, rfl⟩⟩

theorem walk_from_first (r : g.Ring n) (i : Fin (n + 2)) :
    Relation.ReflTransGen r.Step (r.thread 0) (r.thread i) := by
  induction i using Fin.induction with
  | zero => exact .refl
  | succ i ih =>
    have hstep := r.step_thread i.castSucc
    rw [Fin.coeSucc_eq_succ] at hstep
    exact (ih.tail (r.step_lock i.castSucc)).tail hstep

theorem walk_to_first (r : g.Ring n) (i : Fin (n + 2)) :
    Relation.ReflTransGen r.Step (r.thread i) (r.thread 0) := by
  induction i using Fin.reverseInduction with
  | last =>
    have hstep := r.step_thread (Fin.last (n + 1))
    rw [Fin.last_add_one] at hstep
    exact .tail (.single (r.step_lock (Fin.last (n + 1)))) hstep
  | cast i ih =>
    have hstep := r.step_thread i.castSucc
    rw [Fin.coeSucc_eq_succ] at hstep
    exact .head (r.step_lock i.castSucc) (.head hstep ih)

theorem walk_of_arc (r : g.Ring n) (h : r.Arc u v) : Relation.ReflTransGen r.Step v u := by
  rcases h with ⟨i, rfl, rfl⟩ | ⟨i, rfl, rfl⟩
  · exact .head (r.step_thread i) ((r.walk_to_first (i + 1)).trans (r.walk_from_first i))
  · exact .tail ((r.walk_to_first (i + 1)).trans (r.walk_from_first i)) (r.step_lock i)

theorem mem_next_of_arc (r : g.Ring n) (h : r.Arc u v) : v ∈ g.digraph.next u := by
  rcases h with ⟨i, rfl, rfl⟩ | ⟨i, rfl, rfl⟩
  · exact (r.step_lock i).1
  · exact (r.step_thread i).1

/-- The edge from `u` to `v` closes the ring: `v` is the vertex of the ring that the search enters
first. -/
def ClosedAt (r : g.Ring n) (u v : Node) : Prop :=
  r.Arc u v ∧ g.digraph.EntersFirst v r.Has

theorem exists_closedAt (r : g.Ring n) : ∃ u v, r.ClosedAt u v := by
  have hmem : r.thread 0 ∈ g.digraph.explore.visited := by
    refine Digraph.mem_explore_visited ?_
    rw [digraph_vertices]
    exact mem_nodes_of_mem_targetsOf (r.waits 0)
  obtain ⟨v, hv, hfirst⟩ : ∃ v, r.Has v ∧ g.digraph.EntersFirst v r.Has :=
    Digraph.exists_entersFirst hmem (Or.inl ⟨0, rfl⟩)
  rcases hv with ⟨i, rfl⟩ | ⟨i, rfl⟩
  · exact ⟨r.lock (i - 1), r.thread i, Or.inr ⟨i - 1, rfl, by rw [sub_add_cancel]⟩, hfirst⟩
  · exact ⟨r.thread i, r.lock i, Or.inl ⟨i, rfl, rfl⟩, hfirst⟩

theorem ClosedAt.exists_closes {r : g.Ring n} (h : r.ClosedAt u v) : ∃ m, g.digraph.Closes m u v :=
  Digraph.closes_of_entersFirst h.2 (r.walk_of_arc h.1) (r.mem_next_of_arc h.1)

end Ring

/-! ## The ring of a closed path -/

section Round
variable (R : g.digraph.Round c)

theorem vertex_two_mul_injective {m : Nat} (hm : R.period = 2 * m) (o : Nat) :
    Function.Injective fun i : Fin m => R.vertex (2 * i + o) := by
  intro i j hij
  have hmod : 2 * i.val + o ≡ 2 * j.val + o [MOD 2 * m] := hm ▸ (R.eq_iff _ _).mp hij
  have hij' := Nat.ModEq.mul_left_cancel' (by decide) (hmod.add_right_cancel' o)
  exact Fin.ext (hij'.eq_of_lt_of_lt i.isLt j.isLt)

theorem vertex_two_mul_add_one {m : Nat} (hm : R.period = 2 * (m + 2)) (o : Nat) (i : Fin (m + 2)) :
    R.vertex (2 * (i + 1).val + o) = R.vertex (2 * i + o + 1 + 1) := by
  have hval : (i + 1).val ≡ i.val + 1 [MOD m + 2] := by
    rw [Fin.val_add]
    exact Nat.mod_modEq _ _
  have hmod : 2 * (i + 1).val + o ≡ 2 * (i.val + 1) + o [MOD 2 * (m + 2)] :=
    (hval.mul_left' 2).add_right o
  rw [show 2 * i.val + o + 1 + 1 = 2 * (i.val + 1) + o by omega]
  exact (R.eq_iff _ _).mpr (hm ▸ hmod)

variable (h : g.WellFormed)
include h

theorem side_succ_ne (k : Nat) : (R.vertex k).side ≠ (R.vertex (k + 1)).side := by
  have hl := R.linked k
  rw [digraph_next] at hl
  exact h.target_side _ _ hl

theorem side_add_two_mul (j k : Nat) : (R.vertex (j + 2 * k)).side = (R.vertex j).side := by
  induction k with
  | zero => rfl
  | succ k ih =>
    rw [← ih]
    exact (Side.eq_of_ne_of_ne (side_succ_ne R h (j + 2 * k))
      (side_succ_ne R h (j + 2 * k + 1))).symm

/-- Threads and locks alternate, so one comes round after an even number of steps. -/
theorem exists_period_eq : ∃ m, R.period = 2 * m := by
  refine ⟨R.period / 2, ?_⟩
  rcases Nat.mod_two_eq_zero_or_one R.period with heven | hodd
  · omega
  · have hp : 2 * (R.period / 2) + 1 = R.period := by omega
    have hback : R.vertex (2 * (R.period / 2) + 1) = R.vertex 0 := by
      rw [R.eq_iff, hp, Nat.mod_self, Nat.zero_mod]
    have hside := side_add_two_mul R h 0 (R.period / 2)
    rw [Nat.zero_add] at hside
    have hne := side_succ_ne R h (2 * (R.period / 2))
    rw [hback, hside] at hne
    exact absurd rfl hne

/-- The ring that starts at the vertex number `o`, which is a thread. -/
def ringOfRound {m : Nat} (hm : R.period = 2 * (m + 2)) (o : Nat)
    (ho : (R.vertex o).side = .process) : g.Ring m where
  thread i := R.vertex (2 * i + o)
  lock i := R.vertex (2 * i + (o + 1))
  thread_side i := by
    rw [Nat.add_comm, side_add_two_mul R h, ho]
  lock_side i := by
    have hne := side_succ_ne R h o
    rw [ho] at hne
    rw [Nat.add_comm, side_add_two_mul R h]
    exact Side.eq_resource_of_ne hne
  thread_injective := vertex_two_mul_injective R hm o
  lock_injective := vertex_two_mul_injective R hm (o + 1)
  waits i := by
    rw [← digraph_next]
    exact R.linked (2 * i + o)
  taken i := by
    rw [vertex_two_mul_add_one R hm, ← digraph_next]
    exact R.linked (2 * i + (o + 1))

/-- A closed path of more than two vertices is a ring, which comes round from its last vertex to its
first. -/
theorem exists_ring_of_round (hlen : c.length ≠ 3) : ∃ n, ∃ r : g.Ring n,
    r.Arc (R.vertex (R.period - 1)) (R.vertex 0) ∧ ∀ x, r.Has x → x ∈ c := by
  obtain ⟨m, hm⟩ := exists_period_eq R h
  have hpos : 2 ≤ m := by
    have hc := R.length_eq
    have hpos := R.period_pos
    omega
  obtain ⟨n, rfl⟩ := Nat.exists_eq_add_of_le' hpos
  have hmem (o : Nat) (ho : (R.vertex o).side = .process) :
      ∀ x, (ringOfRound R h hm o ho).Has x → x ∈ c := by
    rintro x (⟨i, rfl⟩ | ⟨i, rfl⟩) <;> exact R.mem _
  have hlast : R.period - 1 = 2 * (n + 1) + 1 := by omega
  cases hs : (R.vertex 0).side with
  | process =>
    refine ⟨n, ringOfRound R h hm 0 hs, Or.inr ⟨Fin.last (n + 1), ?_, ?_⟩, hmem 0 hs⟩
    · rw [hlast]
      rfl
    · rw [Fin.last_add_one]
      rfl
  | resource =>
    have ho : (R.vertex 1).side = .process := by
      have hne := side_succ_ne R h 0
      rw [hs] at hne
      exact Side.eq_process_of_ne hne
    refine ⟨n, ringOfRound R h hm 1 ho, Or.inl ⟨Fin.last (n + 1), ?_, ?_⟩, hmem 1 ho⟩
    · rw [hlast]
      rfl
    · change R.vertex 0 = R.vertex (2 * (n + 1) + 2)
      rw [R.eq_iff, hm, show 2 * (n + 1) + 2 = 2 * (n + 2) by omega, Nat.mod_self, Nat.zero_mod]

end Round

/-- A closed path of more than two vertices is a ring that is closed by its last edge. -/
theorem exists_ring_of_closes {m : Nat} (h : g.WellFormed) (hc : g.digraph.Closes m u v)
    (hlen : (g.digraph.loopAt m v).length ≠ 3) : ∃ n, ∃ r : g.Ring n, r.ClosedAt u v := by
  obtain ⟨R⟩ := hc.closedPath.exists_round
  have hv : v = R.vertex 0 := Option.some.inj R.head_eq
  have hu : u = R.vertex (R.period - 1) := by
    have hlast := R.last_eq
    rw [hc.getLast?_dropLast] at hlast
    exact Option.some.inj hlast
  obtain ⟨n, r, harc, hmem⟩ := exists_ring_of_round R h hlen
  rw [← hu, ← hv] at harc
  exact ⟨n, r, harc, hc.entersFirst.mono hmem⟩

/-- A deadlock is reported if there is a ring that is closed by an edge from a vertex which was not
entered from the vertex the edge leads to. -/
theorem hasDeadlock_iff_closedAt (h : g.WellFormed) : g.detect.hasDeadlock = true ↔
    ∃ n, ∃ r : g.Ring n, ∃ u v, r.ClosedAt u v ∧ ¬ g.digraph.EntersFrom v u := by
  rw [hasDeadlock_iff_closes h]
  constructor
  · rintro ⟨m, u, v, hc, hfrom⟩
    obtain ⟨n, r, hr⟩ := exists_ring_of_closes h hc ((h.loop_length_ne_three_iff hc).mpr hfrom)
    exact ⟨n, r, u, v, hr, hfrom⟩
  · rintro ⟨n, r, u, v, hr, hfrom⟩
    obtain ⟨m, hc⟩ := hr.exists_closes
    exact ⟨m, u, v, hc, hfrom⟩

end Graph

/-! ## The rings of a session -/

/-- Every ring of threads and locks in the graph of a session is closed by one of its edges, at the
vertex that the search enters first. A deadlock is reported exactly if some ring is closed by an edge
that does not merely go back to where its source was entered from. -/
theorem hasDeadlock_iff_ring (events : List Event) :
    (∀ n, ∀ r : (Session.feed {} events).graph.Ring n, ∃ u v, r.ClosedAt u v) ∧
      ((Session.feed {} events).graph.detect.hasDeadlock = true ↔
        ∃ n, ∃ r : (Session.feed {} events).graph.Ring n, ∃ u v, r.ClosedAt u v ∧
          ¬ (Session.feed {} events).graph.digraph.EntersFrom v u) :=
  ⟨fun _ r => r.exists_closedAt, Graph.hasDeadlock_iff_closedAt (Session.wellFormed_feed events)⟩

/-- Two threads take two locks in opposite order, and the first takes a third one before. -/
def overtaken : List Event :=
  [{ action := .acquire, thread := "A", lock := some "L" },
   { action := .acquire, thread := "A", lock := some "N" },
   { action := .acquire, thread := "A", lock := some "M" },
   { action := .acquire, thread := "B", lock := some "M" },
   { action := .acquire, thread := "B", lock := some "N" }]

/-- The search enters the ring of `overtaken` at a thread and comes to its last lock from there, so the
ring is not reported. -/
theorem ring_not_reported : Nonempty ((Session.feed {} overtaken).graph.Ring 0) ∧
    (Session.feed {} overtaken).graph.detect.hasDeadlock = false := by
  constructor
  · exact ⟨{
      thread := ![threadNode "A", threadNode "B"]
      lock := ![lockNode "M", lockNode "N"]
      thread_side := by decide
      lock_side := by decide
      thread_injective := by decide
      lock_injective := by decide
      waits := by decide +kernel
      taken := by decide +kernel }⟩
  · have hnone : (Session.feed {} overtaken).graph.detect.cycles = [] := by
      rw [Graph.detect, Digraph.closedPaths,
        Digraph.explore_eq_of_tour _ (n := 20) (by decide +kernel) (by decide +kernel)]
      decide +kernel
    rw [← Bool.not_eq_true, Graph.hasDeadlock_iff, hnone]
    exact fun h => h rfl

end Gridlock
