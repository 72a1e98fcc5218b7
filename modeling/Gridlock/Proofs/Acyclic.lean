import Gridlock.Proofs.Ring

/-!
# The search notes something on every cycle

On its way round a cycle the search comes back to the vertex that it entered first while this vertex is still on
the path. So it notes a closed path for every cycle, though not always the cycle itself, and it notes nothing only
if there is no cycle.

* `Digraph.ClosedWalk` : a walk along edges back to its start; it may meet vertices more than once
* `Digraph.Notes` : at some moment the path that an edge closes is noted; `ClosedWalk.exists_closes`,
  `Closes.notes` : it is for the edge of a closed walk to the vertex entered first
* `Digraph.Acyclic`, `closedPaths_eq_nil_iff` : when nothing is noted
* `Graph.notes_every_cycle` : what this says of deadlocks
-/

namespace Gridlock

namespace Digraph

variable {α : Type} [DecidableEq α] {g : Digraph α} {c : List α} {n : Nat} {u v : α}

theorem mem_vertices_of_mem_next (h : v ∈ g.next u) : u ∈ g.vertices := by
  by_contra hu
  have hnone : g.rows.lookup u = none := by
    rw [List.lookup_eq_none_iff]
    intro r hr
    have hne : u ≠ r.1 := fun he => hu (he ▸ List.mem_map_of_mem hr)
    simpa using hne
  rw [next, hnone] at h
  cases h

/-! ## Closed walks -/

/-- A walk along one or more edges that comes back to its start. -/
structure ClosedWalk (g : Digraph α) (c : List α) : Prop where
  length : 2 ≤ c.length
  closed : c.head? = c.getLast?
  linked : c.IsChain fun u v => v ∈ g.next u

theorem ClosedPath.closedWalk (h : g.ClosedPath c) : g.ClosedWalk c :=
  ⟨h.length, h.closed, h.linked⟩

namespace ClosedWalk

variable (h : g.ClosedWalk c)
include h

theorem exists_cons : ∃ x y l, c = x :: y :: l ∧ (y :: l).getLast (List.cons_ne_nil y l) = x := by
  obtain ⟨x, y, l, rfl⟩ : ∃ x y l, c = x :: y :: l := by
    match c, h.length with
    | x :: y :: l, _ => exact ⟨x, y, l, rfl⟩
  refine ⟨x, y, l, rfl, ?_⟩
  have hclosed := h.closed
  rw [List.head?_cons, List.getLast?_cons_cons, List.getLast?_eq_some_getLast (List.cons_ne_nil y l),
    Option.some.injEq] at hclosed
  exact hclosed.symm

/-- Every vertex of a closed walk comes after another one: the first is the last one again. -/
theorem exists_pred (hv : v ∈ c) : ∃ u, [u, v] <:+: c := by
  obtain ⟨x, y, l, rfl, hlast⟩ := h.exists_cons
  have hmem : v ∈ y :: l := by
    rcases List.mem_cons.mp hv with rfl | hv
    · exact hlast ▸ List.getLast_mem (List.cons_ne_nil y l)
    · exact hv
  obtain ⟨pre, post, hsplit⟩ := List.append_of_mem hmem
  have hfront := List.dropLast_append_getLast (List.cons_ne_nil x pre)
  refine ⟨(x :: pre).getLast (List.cons_ne_nil x pre), (x :: pre).dropLast, post, ?_⟩
  rw [List.append_cons, hfront, List.append_assoc, List.singleton_append, List.cons_append, hsplit]

/-- From the end of an edge of a closed walk the walk goes on to the start of the edge. -/
theorem walk (huv : [u, v] <:+: c) :
    Relation.ReflTransGen (fun x y => y ∈ g.next x ∧ y ∈ c) v u := by
  have hlinked : c.IsChain fun x y => y ∈ g.next x ∧ y ∈ c :=
    h.linked.imp_of_mem_imp fun x y _ hy hxy => ⟨hxy, hy⟩
  obtain ⟨pre, post, hsplit⟩ := huv
  have hc : c = (pre ++ [u]) ++ v :: post := by
    rw [← hsplit, List.append_assoc, List.append_assoc]
    rfl
  subst hc
  have hne : pre ++ [u] ≠ [] := List.append_ne_nil_of_right_ne_nil pre (List.cons_ne_nil u [])
  have hne' : v :: post ≠ [] := List.cons_ne_nil v post
  -- the walk goes on to its end, which is its start, and then to `u`
  have hends : (v :: post).getLast hne' = (pre ++ [u]).head hne := by
    have hclosed := h.closed
    rw [List.head?_append_of_ne_nil _ hne, List.getLast?_append_of_ne_nil _ hne',
      List.head?_eq_some_head hne, List.getLast?_eq_some_getLast hne', Option.some.injEq] at hclosed
    exact hclosed.symm
  have hback := List.relationReflTransGen_of_exists_isChain _ hlinked.right_of_append hne'
  have hfront := List.relationReflTransGen_of_exists_isChain _ hlinked.left_of_append hne
  rw [List.getLast_append_singleton] at hfront
  rw [hends] at hback
  exact hback.trans hfront

theorem exists_unique_entersFirst : ∃! v, v ∈ c ∧ g.EntersFirst v (· ∈ c) := by
  obtain ⟨x, y, l, hc, -⟩ := h.exists_cons
  have hlinked := h.linked
  rw [hc, List.isChain_cons_cons] at hlinked
  have hvisited : x ∈ g.explore.visited := mem_explore_visited (mem_vertices_of_mem_next hlinked.1)
  obtain ⟨v, hv, hfirst⟩ : ∃ v, v ∈ c ∧ g.EntersFirst v (· ∈ c) :=
    exists_entersFirst hvisited (hc ▸ List.mem_cons_self)
  refine ⟨v, ⟨hv, hfirst⟩, ?_⟩
  rintro w ⟨hw, hfirst'⟩
  exact hfirst'.eq_of_entersFirst hfirst hw hv

/-- The edge of a closed walk to the vertex that the search enters first closes a path. -/
theorem exists_closes (huv : [u, v] <:+: c) (hv : g.EntersFirst v (· ∈ c)) : ∃ n, g.Closes n u v := by
  have hedge : [u, v].IsChain fun x y => y ∈ g.next x := List.IsChain.infix h.linked huv
  exact closes_of_entersFirst hv (h.walk huv) (List.isChain_pair.mp hedge)

end ClosedWalk

/-- At moment `n` the innermost vertex is `u`, `v` is on the path, and the path from `v` to `u` and back to `v` is
noted. -/
structure Notes (g : Digraph α) (n : Nat) (u v : α) : Prop where
  innermost : (g.tour n).search.path.head? = some u
  on_path : v ∈ (g.tour n).search.path
  noted : (g.tour (n + 1)).search.noted = (g.tour n).search.noted ++ [g.loopAt n v]

theorem Closes.notes (h : g.Closes n u v) : g.Notes n u v := by
  obtain ⟨⟨vs, fs, hf⟩, hv⟩ := h
  have hs := g.tour_sound n
  have hne : (g.tour n).search.frames ≠ [] := by
    rw [hf]
    exact List.cons_ne_nil _ _
  have hactive : v ∈ (g.tour n).search.active := by
    rw [hs.active_eq]
    exact hv
  refine ⟨by rw [hs.path_of_frames hf, List.head?_cons], hv, ?_⟩
  rw [tour_succ, Tour.advance_of_frames_ne_nil g hne, Search.step_close hf (hs.path_subset hv) hactive,
    Search.close?_of_mem hv]
  rfl

/-! ## Graphs without cycles -/

/-- No vertex can be reached from itself along edges. -/
def Acyclic (g : Digraph α) : Prop :=
  ∀ v, ¬ Relation.TransGen (fun x y => y ∈ g.next x) v v

theorem exists_closedWalk_of_transGen (h : Relation.TransGen (fun x y => y ∈ g.next x) v v) :
    ∃ c, g.ClosedWalk c := by
  obtain ⟨w, hvw, hwv⟩ := Relation.TransGen.head'_iff.mp h
  obtain ⟨l, hlinked, hlast⟩ := List.exists_isChain_cons_of_relationReflTransGen hwv
  refine ⟨v :: w :: l, by simp, ?_, List.isChain_cons_cons.mpr ⟨hvw, hlinked⟩⟩
  rw [List.getLast?_cons_cons, List.getLast?_eq_some_getLast (List.cons_ne_nil w l), hlast]
  rfl

theorem ClosedWalk.not_acyclic (h : g.ClosedWalk c) : ¬ g.Acyclic := by
  obtain ⟨x, y, l, rfl, hlast⟩ := h.exists_cons
  obtain ⟨hxy, hlinked⟩ := List.isChain_cons_cons.mp h.linked
  intro hacyclic
  apply hacyclic x
  have hback := List.relationReflTransGen_of_exists_isChain_cons l hlinked hlast
  exact Relation.TransGen.head' hxy hback

/-- The search notes nothing exactly if there is no cycle. -/
theorem closedPaths_eq_nil_iff (g : Digraph α) : g.closedPaths = [] ↔ g.Acyclic := by
  constructor
  · intro hnil v hv
    obtain ⟨c, hc⟩ := exists_closedWalk_of_transGen hv
    obtain ⟨w, ⟨hw, hfirst⟩, -⟩ := hc.exists_unique_entersFirst
    obtain ⟨u, hu⟩ := hc.exists_pred hw
    obtain ⟨n, hcloses⟩ := hc.exists_closes hu hfirst
    have hmem := (g.mem_closedPaths _).mpr ⟨n, u, w, hcloses, rfl⟩
    rw [hnil] at hmem
    cases hmem
  · intro hacyclic
    rw [List.eq_nil_iff_forall_not_mem]
    intro c hc
    exact (closedPath_of_mem hc).closedWalk.not_acyclic hacyclic

end Digraph

namespace Graph

/-- For every closed walk the search notes a path at the edge to the vertex of the walk that it enters first, when this
vertex is on the path and the edge leaves the innermost vertex. So it notes nothing exactly if there is no cycle; and
if all cycles are deadlocks, a deadlock is reported exactly if there is a cycle. -/
theorem notes_every_cycle (g : Graph) :
    (∀ c, g.digraph.ClosedWalk c → (∃! v, v ∈ c ∧ g.digraph.EntersFirst v (· ∈ c)) ∧
      ∀ u v, [u, v] <:+: c → g.digraph.EntersFirst v (· ∈ c) →
        ∃ n, g.digraph.Notes n u v ∧ g.digraph.loopAt n v ∈ g.digraph.closedPaths) ∧
    (g.digraph.closedPaths = [] ↔ g.digraph.Acyclic) ∧
    ((∀ c, g.digraph.ClosedPath c → isWitness c = true) →
      (g.detect.hasDeadlock = true ↔ ¬ g.digraph.Acyclic)) := by
  refine ⟨?_, g.digraph.closedPaths_eq_nil_iff, ?_⟩
  · intro c hc
    refine ⟨hc.exists_unique_entersFirst, ?_⟩
    intro u v huv hv
    obtain ⟨n, hcloses⟩ := hc.exists_closes huv hv
    exact ⟨n, hcloses.notes, (Digraph.mem_closedPaths _ _).mpr ⟨n, u, v, hcloses, rfl⟩⟩
  · intro hall
    have hcycles : g.detect.cycles = g.digraph.closedPaths :=
      List.filter_eq_self.mpr fun c hc => hall c (Digraph.closedPath_of_mem hc)
    rw [hasDeadlock_iff, hcycles, Ne, g.digraph.closedPaths_eq_nil_iff]

/-- Two threads that wait for each other, with no other edges. -/
def square : Graph where
  rows :=
    [{ node := ⟨.process, "A", .listed 0⟩, targets := [⟨.resource, "L", .listed 0⟩] },
     { node := ⟨.resource, "L", .listed 0⟩, targets := [⟨.process, "B", .listed 0⟩] },
     { node := ⟨.process, "B", .listed 0⟩, targets := [⟨.resource, "M", .listed 0⟩] },
     { node := ⟨.resource, "M", .listed 0⟩, targets := [⟨.process, "A", .listed 0⟩] }]

theorem square_wellFormed : square.WellFormed where
  nodup := by decide
  current := by decide
  target_mem u v h :=
    (by decide : ∀ u ∈ square.nodes, ∀ v ∈ square.targetsOf u, v ∈ square.nodes) u
      (mem_nodes_of_mem_targetsOf h) v h
  target_side u v h :=
    (by decide : ∀ u ∈ square.nodes, ∀ v ∈ square.targetsOf u, u.side ≠ v.side) u
      (mem_nodes_of_mem_targetsOf h) v h

theorem isWitness_of_square {c : List Node} (hc : square.digraph.ClosedPath c) : isWitness c = true := by
  rw [isWitness_iff_of_closedPath square_wellFormed hc]
  intro h3
  obtain ⟨x, y, l, rfl, hlast⟩ := hc.closedWalk.exists_cons
  obtain ⟨z, rfl⟩ := List.length_eq_one_iff.mp (by simpa using h3 : l.length = 1)
  obtain rfl : z = x := hlast
  have hlinked := hc.linked
  rw [List.isChain_cons_cons, List.isChain_pair, digraph_next, digraph_next] at hlinked
  have hback : ∀ u ∈ square.nodes, ∀ v ∈ square.targetsOf u, u ∉ square.targetsOf v := by decide
  exact hback z (mem_nodes_of_mem_targetsOf hlinked.1) y hlinked.1 hlinked.2

def squareRing : List Node :=
  [⟨.process, "A", .listed 0⟩, ⟨.resource, "L", .listed 0⟩, ⟨.process, "B", .listed 0⟩,
    ⟨.resource, "M", .listed 0⟩, ⟨.process, "A", .listed 0⟩]

theorem notes_every_cycle_square : square.digraph.ClosedWalk squareRing ∧
    (∃ n, square.digraph.Notes n ⟨.resource, "M", .listed 0⟩ ⟨.process, "A", .listed 0⟩) ∧
    (∀ c, square.digraph.ClosedPath c → isWitness c = true) ∧ square.detect.hasDeadlock = true := by
  have hwalk : square.digraph.ClosedWalk squareRing := ⟨by decide, by decide, by decide⟩
  have hfirst : square.digraph.EntersFirst ⟨.process, "A", .listed 0⟩ (· ∈ squareRing) := by
    refine ⟨[⟨.resource, "M", .listed 0⟩, ⟨.process, "B", .listed 0⟩, ⟨.resource, "L", .listed 0⟩], [], ?_, by simp⟩
    rw [Digraph.explore_eq_of_tour square.digraph (n := 16) (by decide) (by decide)]
    decide
  obtain ⟨hnotes, -, hdeadlock⟩ := notes_every_cycle square
  obtain ⟨n, hn, -⟩ := (hnotes squareRing hwalk).2 _ _ ⟨squareRing.take 3, [], rfl⟩ hfirst
  refine ⟨hwalk, ⟨n, hn⟩, fun c hc => isWitness_of_square hc, ?_⟩
  exact (hdeadlock fun c hc => isWitness_of_square hc).mpr hwalk.not_acyclic

end Graph

end Gridlock
