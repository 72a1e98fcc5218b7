import Mathlib.Data.List.Rotate
import Gridlock.Proofs.Detection
import Gridlock.Proofs.Examination

/-!
# How often a deadlock is reported

The vertex at the ends of a closed path is the one that the search entered first, so a cycle is never reported from
two of its vertices. It is reported more than once only if the edge that closes it is there more than once.

* `Digraph.eq_of_isRotated` : closed paths that go round the same way are the same
* `Search.credit`, `Move.credit_le` : each path noted is paid for by an edge; `length_closedPaths_le`
* `Graph.count_cycles` : how often a deadlock is reported, and how many deadlocks there are
-/

namespace Gridlock

theorem eq_of_isRotated_of_head?_eq {α : Type} {l l' : List α} (h : l ~r l') (hl : l.Nodup)
    (hhead : l.head? = l'.head?) : l = l' := by
  obtain ⟨k, hk, rfl⟩ := List.isRotated_iff_mod.mp h
  rcases Nat.lt_or_eq_of_le hk with hk | rfl
  · rw [List.head?_rotate hk, List.head?_eq_getElem?] at hhead
    have hzero : 0 = k := (List.getElem?_inj (Nat.zero_lt_of_lt hk) hl).mp hhead
    rw [← hzero, List.rotate_zero]
  · rw [List.rotate_length]

namespace Digraph

variable {α : Type} [DecidableEq α] {g : Digraph α} {c d : List α} {n : Nat} {u v : α}

/-! ## Rotations -/

theorem dropLast_loopAt (g : Digraph α) (n : Nat) (v : α) :
    (g.loopAt n v).dropLast = v :: ((g.tour n).search.path.takeWhile (· ≠ v)).reverse :=
  List.dropLast_concat

/-- The search notes each cycle from one of its vertices only. -/
theorem eq_of_isRotated (hc : c ∈ g.closedPaths) (hd : d ∈ g.closedPaths) (h : c.dropLast ~r d.dropLast) :
    c = d := by
  have hsimple := (closedPath_of_mem hc).simple
  obtain ⟨m, u, v, hcv, rfl⟩ := (g.mem_closedPaths c).mp hc
  obtain ⟨n, x, y, hdy, rfl⟩ := (g.mem_closedPaths d).mp hd
  have hmem (w : α) : w ∈ g.loopAt m v ↔ w ∈ g.loopAt n y := by
    rw [← hcv.closedPath.mem_dropLast, ← hdy.closedPath.mem_dropLast, h.mem_iff]
  -- both begin at the vertex that was entered first
  have hv : g.EntersFirst v (· ∈ g.loopAt n y) := hcv.entersFirst.mono fun w => (hmem w).mpr
  obtain rfl : v = y :=
    hv.eq_of_entersFirst hdy.entersFirst ((hmem v).mp List.mem_cons_self) List.mem_cons_self
  have hfront : (g.loopAt m v).dropLast = (g.loopAt n v).dropLast := by
    refine eq_of_isRotated_of_head?_eq h hsimple ?_
    rw [dropLast_loopAt, dropLast_loopAt, List.head?_cons, List.head?_cons]
  rw [dropLast_loopAt, dropLast_loopAt] at hfront
  rw [loopAt, loopAt, Search.loop, Search.loop, hfront]

theorem Closes.exists_front (h : g.Closes n u v) : ∃ front, g.loopAt n v = front ++ [u, v] := by
  obtain ⟨front, hfront⟩ := List.getLast?_eq_some_iff.mp h.getLast?_dropLast
  refine ⟨front, ?_⟩
  rw [List.append_cons, ← hfront, dropLast_loopAt]
  rfl

/-- A closed path that ends with the edge from `u` to `v` is noted as often as this edge is there. -/
theorem count_closedPaths {front : List α} (h : front ++ [u, v] ∈ g.closedPaths) :
    g.closedPaths.count (front ++ [u, v]) = (g.next u).count v := by
  obtain ⟨n, x, y, hcloses, hc⟩ := (g.mem_closedPaths _).mp h
  obtain ⟨front', hfront⟩ := hcloses.exists_front
  obtain ⟨-, hpair⟩ := List.append_inj' (hc.trans hfront) rfl
  obtain ⟨rfl, rfl⟩ : u = x ∧ v = y := by simpa using hpair
  rw [hc]
  exact hcloses.count_closedPaths

end Digraph

/-! ## How many paths are noted -/

namespace Search

variable {α : Type} [DecidableEq α] {g : Digraph α} {s s' : Search α}

/-- The paths noted, and the edges still to be examined, each counted twice. -/
def credit (g : Digraph α) (s : Search α) : Nat :=
  2 * s.noted.length + 2 * (s.frames.flatMap Prod.snd).length + unseen s.visited g.rows

theorem credit_enter_le {v : α} (hv : v ∉ s.visited) : (s.enter g v).credit g ≤ s.credit g := by
  have hpaid : unseen (v :: s.visited) g.rows + 2 * (g.next v).length ≤ unseen s.visited g.rows :=
    unseen_enter_le hv g.rows
  simp only [credit, enter, List.flatMap_cons, List.length_append]
  omega

theorem credit_examine (g : Digraph α) {u v : α} {vs : List α} {fs : List (α × List α)}
    (hf : s.frames = (u, v :: vs) :: fs) (noted : List (List α)) :
    credit g { s with frames := (u, vs) :: fs, noted := s.noted ++ noted } + 2 =
      s.credit g + 2 * noted.length := by
  simp only [credit, hf, List.flatMap_cons, List.length_append, List.length_cons]
  omega

/-- An edge that is examined pays for the path that it closes. -/
theorem Move.credit_le (m : s.Move g s') : s'.credit g ≤ s.credit g := by
  cases m with
  | stay hf => exact Nat.le_refl _
  | root r hf hr => exact credit_enter_le hr
  | leave u fs hf =>
    unfold credit
    rw [hf, List.flatMap_cons, List.nil_append]
  | descend u v vs fs hf hv =>
    have hexamine := credit_examine g hf []
    have henter := credit_enter_le (g := g) (s := { s with frames := (u, vs) :: fs }) hv
    rw [List.append_nil, List.length_nil] at hexamine
    omega
  | close u v vs fs hf hv ha =>
    have hexamine := credit_examine g hf (close? s.path v).toList
    have hone : (close? s.path v).toList.length ≤ 1 := by
      cases close? s.path v <;> simp
    omega
  | pass u v vs fs hf hv ha =>
    have hexamine := credit_examine g hf []
    rw [List.append_nil, List.length_nil] at hexamine
    omega

theorem unseen_nil (rows : List (α × List α)) : unseen [] rows = 2 * (rows.flatMap Prod.snd).length := by
  induction rows with
  | nil => rfl
  | cons r rows ih =>
    rw [unseen, if_neg List.not_mem_nil, ih, List.flatMap_cons, List.length_append]
    omega

end Search

theorem Digraph.length_closedPaths_le {α : Type} [DecidableEq α] (g : Digraph α) :
    g.closedPaths.length ≤ (g.rows.flatMap Prod.snd).length := by
  have hcredit (n : Nat) : (g.tour n).search.credit g ≤ 2 * (g.rows.flatMap Prod.snd).length := by
    induction n with
    | zero => exact Nat.le_of_eq ((Nat.zero_add _).trans (Search.unseen_nil g.rows))
    | succ n ih => exact Nat.le_trans (g.tour_move n).credit_le ih
  obtain ⟨N, hN⟩ := g.exists_tour_eq_explore
  have hdone : g.explore.credit g ≤ 2 * (g.rows.flatMap Prod.snd).length := by
    have hmoment := hcredit N
    rwa [hN] at hmoment
  unfold Search.credit at hdone
  unfold closedPaths
  omega

/-! ## What is reported -/

namespace Graph

variable {g : Graph}

theorem nodup_targetsOf (h : ∀ r ∈ g.rows, r.targets.Nodup) (n : Node) : (g.targetsOf n).Nodup := by
  unfold targetsOf
  cases hr : g.row? n with
  | none => exact .nil
  | some r => exact h r (List.mem_of_find?_eq_some hr)

/-- A deadlock that ends with the edge from `u` to `v` is reported as often as this edge is there. -/
theorem count_detect {front : List Node} {u v : Node} (h : front ++ [u, v] ∈ g.detect.cycles) :
    g.detect.cycles.count (front ++ [u, v]) = (g.targetsOf u).count v := by
  obtain ⟨hpath, hwitness⟩ := mem_detect.mp h
  rw [detect, List.count_filter hwitness, Digraph.count_closedPaths hpath, digraph_next]

theorem nodup_detect (h : ∀ r ∈ g.rows, r.targets.Nodup) : g.detect.cycles.Nodup := by
  rw [List.nodup_iff_count_le_one]
  intro c
  by_cases hc : c ∈ g.detect.cycles
  · obtain ⟨n, u, v, hcloses, rfl⟩ := (Digraph.mem_closedPaths _ c).mp (mem_detect.mp hc).1
    obtain ⟨front, hfront⟩ := hcloses.exists_front
    rw [hfront] at hc ⊢
    rw [count_detect hc]
    exact List.nodup_iff_count_le_one.mp (nodup_targetsOf h u) v
  · rw [List.count_eq_zero_of_not_mem hc]
    exact Nat.zero_le 1

theorem length_detect_le (g : Graph) : g.detect.cycles.length ≤ g.edgeCount :=
  calc g.detect.cycles.length ≤ g.digraph.closedPaths.length := List.length_filter_le _ _
    _ ≤ (g.digraph.rows.flatMap Prod.snd).length := g.digraph.length_closedPaths_le
    _ = g.edgeCount := g.length_digraph_edges

/-- A deadlock is reported as often as the edge that closes it is there, and always from the same vertex. So without
repeated edges no deadlock is reported twice, in whatever rotation; and there are never more reports than edges. -/
theorem count_cycles (g : Graph) :
    (∀ front u v, front ++ [u, v] ∈ g.detect.cycles →
      g.detect.cycles.count (front ++ [u, v]) = (g.targetsOf u).count v) ∧
    (∀ c ∈ g.detect.cycles, ∀ d ∈ g.detect.cycles, c.dropLast ~r d.dropLast → c = d) ∧
    ((∀ r ∈ g.rows, r.targets.Nodup) → g.detect.cycles.Pairwise fun c d => ¬ c.dropLast ~r d.dropLast) ∧
    g.detect.cycles.length ≤ g.edgeCount := by
  have hrotated : ∀ c ∈ g.detect.cycles, ∀ d ∈ g.detect.cycles, c.dropLast ~r d.dropLast → c = d := by
    intro c hc d hd
    exact Digraph.eq_of_isRotated (mem_detect.mp hc).1 (mem_detect.mp hd).1
  refine ⟨fun front u v h => count_detect h, hrotated, ?_, g.length_detect_le⟩
  intro h
  refine (nodup_detect h).imp_of_mem ?_
  intro c d hc hd hne hcd
  exact hne (hrotated c hc d hd hcd)

/-- Two threads that wait for each other, where one lock has `n` edges to the thread that takes it. -/
def parallel (n : Nat) : Graph where
  rows :=
    [{ node := ⟨.process, "A", .listed 0⟩, targets := [⟨.resource, "L", .listed 0⟩] },
     { node := ⟨.resource, "L", .listed 0⟩, targets := [⟨.process, "B", .listed 0⟩] },
     { node := ⟨.process, "B", .listed 0⟩, targets := [⟨.resource, "M", .listed 0⟩] },
     { node := ⟨.resource, "M", .listed 0⟩, targets := List.replicate n ⟨.process, "A", .listed 0⟩ }]

/-- The way from the first thread round to the lock with several edges. -/
def parallelFront : List Node :=
  [⟨.process, "A", .listed 0⟩, ⟨.resource, "L", .listed 0⟩, ⟨.process, "B", .listed 0⟩]

theorem count_cycles_parallel :
    (parallel 2).detect.cycles.count
      (parallelFront ++ [⟨.resource, "M", .listed 0⟩, ⟨.process, "A", .listed 0⟩]) = 2 ∧
    (∀ r ∈ (parallel 1).rows, r.targets.Nodup) ∧
    (parallel 1).detect.cycles.Pairwise fun c d => ¬ c.dropLast ~r d.dropLast := by
  have hmem : parallelFront ++ [⟨.resource, "M", .listed 0⟩, ⟨.process, "A", .listed 0⟩] ∈
      (parallel 2).detect.cycles := by
    rw [mem_detect, Digraph.closedPaths,
      Digraph.explore_eq_of_tour (parallel 2).digraph (n := 16) (by decide) (by decide)]
    decide
  have hnodup : ∀ r ∈ (parallel 1).rows, r.targets.Nodup := by decide
  refine ⟨?_, hnodup, (count_cycles (parallel 1)).2.2.1 hnodup⟩
  rw [(count_cycles (parallel 2)).1 _ _ _ hmem]
  decide

end Graph

end Gridlock
