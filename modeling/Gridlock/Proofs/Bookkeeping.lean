import Gridlock.Proofs.Entrance
import Gridlock.Proofs.Multiplicity

/-!
# The books of the search

The search keeps its path in three places: the frames, each with the neighbours still to be examined, the path itself,
and the vertices of the path as a set. A fourth book has the vertices entered so far, over all searches. The books
agree at every moment of every search. So a vertex that closes a path is always found on the path, the searches come to
an end, and in the end each edge has been examined once and nothing but the vertices of the graph and the targets of
its edges has been entered.

* `Tour.Between`, `Tour.Within` : the moments between the searches, and those of a search; `exists_tour_iff` : the tour
  goes through these and no others
* `Search.Coherent` : the books agree; `Sound.coherent`, `Between.idle`
* `Tour.work`, `exists_tour_done` : how many moments there are at most
* `Digraph.Examines`, `existsUnique_examines` : each edge is examined at one moment
* `Graph.mem_explore_visited_iff` : the vertices that are entered
* `Graph.search_coherent` : all this for the graph of threads and locks
-/

namespace Gridlock

variable {α : Type} [DecidableEq α]

/-! ## The moments of the searches -/

def Digraph.searched (g : Digraph α) (roots : List α) : Search α :=
  roots.foldl (Search.visit g) {}

namespace Tour

/-- A moment between two searches: it is the turn of the roots that are pending. -/
def Between (g : Digraph α) (t : Tour α) : Prop :=
  ∃ tried, g.vertices = tried ++ t.pending ∧ t.search = g.searched tried

/-- A moment of the search from a root that had not been entered. -/
def Within (g : Digraph α) (t : Tour α) : Prop :=
  ∃ tried root steps, g.vertices = tried ++ root :: t.pending ∧ root ∉ (g.searched tried).visited ∧
    t.search = (Search.step g)^[steps] ((g.searched tried).enter g root)

end Tour

theorem Digraph.searched_concat (g : Digraph α) (tried : List α) (root : α) :
    g.searched (tried ++ [root]) = (g.searched tried).visit g root := by
  rw [searched, List.foldl_append]
  rfl

theorem Search.run_iterate_step (g : Digraph α) (s : Search α) (n : Nat) : ((step g)^[n] s).run g = s.run g := by
  induction n with
  | zero => rfl
  | succ n ih => rw [Function.iterate_succ_apply', run_step, ih]

namespace Tour

variable {g : Digraph α} {t : Tour α}

theorem Between.frames (h : t.Between g) : t.search.frames = [] := by
  obtain ⟨tried, -, hsearch⟩ := h
  rw [hsearch]
  exact foldl_visit_frames g tried rfl

/-- A search that is done leads to the moment before the next root. -/
theorem Within.between (h : t.Within g) (hf : t.search.frames = []) : t.Between g := by
  obtain ⟨tried, root, steps, hvert, hroot, hsearch⟩ := h
  refine ⟨tried ++ [root], by rw [hvert, List.append_assoc, List.singleton_append], ?_⟩
  rw [g.searched_concat, Search.visit, if_neg hroot, ← Search.run_iterate_step g _ steps, ← hsearch,
    Search.run_of_frames_nil hf]

theorem Between.advance (h : t.Between g) : (t.advance g).Between g ∨ (t.advance g).Within g := by
  have hf := h.frames
  obtain ⟨tried, hvert, hsearch⟩ := id h
  obtain ⟨pending, s⟩ := t
  cases pending with
  | nil =>
    rw [advance_done g hf]
    exact Or.inl h
  | cons root pending =>
    subst hsearch
    rw [advance_root g hf]
    by_cases hroot : root ∈ (g.searched tried).visited
    · refine Or.inl ⟨tried ++ [root], by rw [hvert, List.append_assoc, List.singleton_append], ?_⟩
      rw [g.searched_concat, Search.visit, if_pos hroot, if_pos hroot]
    · exact Or.inr ⟨tried, root, 0, hvert, hroot, if_neg hroot⟩

theorem Within.advance (h : t.Within g) : (t.advance g).Between g ∨ (t.advance g).Within g := by
  by_cases hf : t.search.frames = []
  · exact (h.between hf).advance
  · obtain ⟨tried, root, steps, hvert, hroot, hsearch⟩ := h
    rw [advance_of_frames_ne_nil g hf]
    refine Or.inr ⟨tried, root, steps + 1, hvert, hroot, ?_⟩
    rw [Function.iterate_succ_apply', ← hsearch]

theorem exists_iterate_steps (g : Digraph α) (pending : List α) (s : Search α) (steps : Nat) :
    ∃ n, (advance g)^[n] ⟨pending, s⟩ = ⟨pending, (Search.step g)^[steps] s⟩ := by
  induction steps generalizing s with
  | zero => exact ⟨0, rfl⟩
  | succ steps ih =>
    obtain ⟨n, hn⟩ := ih (s.step g)
    rw [Function.iterate_succ_apply]
    by_cases hf : s.frames = []
    · rw [Search.step_of_frames_nil hf] at hn ⊢
      exact ⟨n, hn⟩
    · refine ⟨n + 1, ?_⟩
      rw [Function.iterate_succ_apply, advance_of_frames_ne_nil g hf]
      exact hn

end Tour

namespace Digraph

/-- The tour goes through the moments between the searches and those of each search, and through no others. -/
theorem exists_tour_iff (g : Digraph α) (t : Tour α) : (∃ n, g.tour n = t) ↔ t.Between g ∨ t.Within g := by
  constructor
  · rintro ⟨n, rfl⟩
    induction n with
    | zero => exact Or.inl ⟨[], rfl, rfl⟩
    | succ n ih =>
      rw [tour_succ]
      rcases ih with h | h
      · exact h.advance
      · exact h.advance
  · obtain ⟨pending, s⟩ := t
    rintro (⟨tried, hvert, rfl⟩ | ⟨tried, root, steps, hvert, hroot, rfl⟩)
    · exact exists_tour_eq_foldl hvert
    · obtain ⟨n, hn⟩ := exists_tour_eq_foldl hvert
      obtain ⟨m, hm⟩ := Tour.exists_iterate_steps g pending ((g.searched tried).enter g root) steps
      have hf : (g.searched tried).frames = [] := Tour.foldl_visit_frames g tried rfl
      have henter : g.tour (n + 1) = ⟨pending, (g.searched tried).enter g root⟩ := by
        rw [tour_succ, hn]
        exact (Tour.advance_root g hf root pending).trans (by rw [if_neg hroot])
      refine ⟨m + (n + 1), ?_⟩
      rw [← hm, ← henter]
      exact Function.iterate_add_apply _ m (n + 1) _

end Digraph

/-! ## The books agree -/

/-- The books of a search agree, and the path follows edges. What is left to examine of the neighbours of a vertex is
the end of the list, and a neighbour that is on the path closes a path, which is noted. -/
structure Search.Coherent (g : Digraph α) (s : Search α) : Prop where
  path_eq : s.path = s.frames.map Prod.fst
  path_nodup : s.path.Nodup
  mem_active : ∀ v, v ∈ s.active ↔ v ∈ s.path
  path_visited : ∀ v ∈ s.path, v ∈ s.visited
  active_visited : ∀ v ∈ s.active, v ∈ s.visited
  path_linked : s.path.IsChain fun v u => v ∈ g.next u
  rest_suffix : ∀ f ∈ s.frames, f.2 <:+ g.next f.1
  closes : ∀ u v vs fs, s.frames = (u, v :: vs) :: fs → v ∈ s.visited → v ∈ s.active →
    ∃ c, close? s.path v = some c ∧ (s.step g).noted = s.noted ++ [c]

theorem Search.Sound.coherent {g : Digraph α} {s : Search α} (h : s.Sound g) : s.Coherent g where
  path_eq := h.path_eq
  path_nodup := h.path_nodup
  mem_active v := by rw [h.active_eq]
  path_visited v hv := h.path_subset hv
  active_visited v hv := h.path_subset (h.active_eq ▸ hv)
  path_linked := h.path_linked
  rest_suffix := h.frames_suffix
  closes u v vs fs hf hv ha := by
    have hclose := close?_of_mem (h.active_eq ▸ ha)
    refine ⟨_, hclose, ?_⟩
    rw [step_close hf hv ha, hclose, Option.toList_some]

/-- Nothing is on the path between two searches. -/
theorem Tour.Between.idle {g : Digraph α} {t : Tour α} (h : t.Between g) :
    t.search.path = [] ∧ t.search.active = [] := by
  obtain ⟨n, rfl⟩ := (g.exists_tour_iff t).mpr (Or.inl h)
  have hs := g.tour_sound n
  have hpath : (g.tour n).search.path = [] := by rw [hs.path_eq, h.frames, List.map_nil]
  exact ⟨hpath, hs.active_eq.trans hpath⟩

/-! ## The searches come to an end -/

theorem Search.work_enter_le {g : Digraph α} {s : Search α} {v : α} (hv : v ∉ s.visited) :
    (s.enter g v).work g ≤ s.work g + 1 := by
  have hpaid : unseen (v :: s.visited) g.rows + 2 * (g.next v).length ≤ unseen s.visited g.rows :=
    unseen_enter_le hv g.rows
  simp only [work, enter, List.foldr_cons]
  omega

namespace Tour

/-- A bound on the moments that remain. -/
def work (g : Digraph α) (t : Tour α) : Nat :=
  2 * t.pending.length + t.search.work g

theorem work_advance_lt (g : Digraph α) {t : Tour α} (h : ¬ (t.pending = [] ∧ t.search.frames = [])) :
    (t.advance g).work g < t.work g := by
  by_cases hf : t.search.frames = []
  · obtain ⟨pending, s⟩ := t
    cases pending with
    | nil => exact absurd ⟨rfl, hf⟩ h
    | cons root pending =>
      rw [advance_root g hf]
      simp only [work, List.length_cons]
      split_ifs with hroot
      · omega
      · have henter := Search.work_enter_le (g := g) hroot
        omega
  · rw [advance_of_frames_ne_nil g hf]
    exact Nat.add_lt_add_left (Search.work_step_lt g hf) _

theorem exists_iterate_done (g : Digraph α) (t : Tour α) :
    ∃ n ≤ t.work g, ((advance g)^[n] t).pending = [] ∧ ((advance g)^[n] t).search.frames = [] := by
  induction hw : t.work g using Nat.strong_induction_on generalizing t with
  | _ k ih =>
    by_cases hdone : t.pending = [] ∧ t.search.frames = []
    · exact ⟨0, Nat.zero_le k, hdone⟩
    · have hlt := work_advance_lt g hdone
      obtain ⟨n, hn, hend⟩ := ih _ (hw ▸ hlt) (t.advance g) rfl
      refine ⟨n + 1, by omega, ?_⟩
      rwa [Function.iterate_succ_apply]

end Tour

namespace Digraph

variable {g : Digraph α} {m n : Nat} {u v : α}

/-- There are at most two moments for each vertex and two for each edge. -/
theorem exists_tour_done (g : Digraph α) : ∃ N ≤ 2 * (g.vertices.length + (g.rows.flatMap Prod.snd).length),
    ∀ n, N ≤ n → g.tour n = ⟨[], g.explore⟩ := by
  obtain ⟨N, hN, hp, hf⟩ := Tour.exists_iterate_done g ⟨g.vertices, {}⟩
  have hwork : Tour.work g ⟨g.vertices, {}⟩ = 2 * g.vertices.length + (0 + Search.unseen [] g.rows) := rfl
  rw [hwork, Search.unseen_nil] at hN
  have hexplore : g.tour N = ⟨[], g.explore⟩ := by rw [g.explore_eq_of_tour hp hf, ← hp]; rfl
  exact ⟨N, by omega, fun n hn => g.tour_of_done hexplore g.explore_frames hn⟩

/-! ## Each edge is examined once -/

/-- At moment `n` the search examines the neighbour `v` of `u` that comes before the neighbours `after`. -/
def Examines (g : Digraph α) (n : Nat) (u v : α) (after : List α) : Prop :=
  ∃ fs, (g.tour n).search.frames = (u, v :: after) :: fs

section Examines
variable {before after : List α}

theorem Examines.rest (h : g.Examines n u v after) :
    (g.tour n).search.rest g u = v :: after ∧ (g.tour (n + 1)).search.rest g u = after := by
  obtain ⟨fs, hf⟩ := h
  refine ⟨Search.rest_of_frames (g.tour_sound n) hf, ?_⟩
  rcases (g.tour_move n).rest_cases (g.tour_sound n) with ⟨-, -, hnone⟩ | ⟨w, x, vs, fs', hf', hw, -, -, -⟩
  · rw [hf] at hnone
    cases hnone (u, v :: after) rfl
  · rw [hf] at hf'
    cases hf'
    exact hw

/-- What is left of the neighbours of a vertex only gets shorter. -/
theorem tour_rest_suffix (g : Digraph α) (u : α) (h : m ≤ n) :
    (g.tour n).search.rest g u <:+ (g.tour m).search.rest g u := by
  induction n, h using Nat.le_induction with
  | base => exact List.suffix_refl _
  | succ n _ ih =>
    refine List.IsSuffix.trans ?_ ih
    rcases (g.tour_move n).rest_eq_or_examines (g.tour_sound n) u with hrest | ⟨x, fs, -, hrest, -⟩
    · exact hrest ▸ List.suffix_refl _
    · rw [hrest]
      exact List.suffix_cons x _

/-- A neighbour that has been examined is not examined again. -/
theorem Examines.not_lt (hm : g.Examines m u v after) (hn : g.Examines n u v after) : ¬ m < n := by
  intro hmn
  have hsuffix := g.tour_rest_suffix u hmn
  rw [hn.rest.1, hm.rest.2] at hsuffix
  exact absurd hsuffix.length_le (by simp)

/-- A neighbour that is left at one moment and no longer at the next one is examined. -/
theorem examines_of_suffix (h : v :: after <:+ (g.tour n).search.rest g u)
    (h' : ¬ v :: after <:+ (g.tour (n + 1)).search.rest g u) : g.Examines n u v after := by
  rcases (g.tour_move n).rest_eq_or_examines (g.tour_sound n) u with hrest | ⟨x, fs, hf, hrest, -⟩
  · rw [hrest] at h'
    exact absurd h h'
  · rw [hrest] at h
    rcases List.suffix_cons_iff.mp h with he | hlater
    · exact ⟨fs, he ▸ hf⟩
    · exact absurd hlater h'

theorem exists_examines (hu : u ∈ g.explore.visited) (h : g.next u = before ++ v :: after) :
    ∃ n, g.Examines n u v after := by
  by_contra hnever
  have hleft (n : Nat) : v :: after <:+ (g.tour n).search.rest g u := by
    induction n with
    | zero => exact ⟨before, h.symm⟩
    | succ n ih =>
      by_contra hgone
      exact hnever ⟨n, examines_of_suffix ih hgone⟩
  obtain ⟨N, hN⟩ := g.exists_tour_eq_explore
  have hend := hleft N
  rw [hN, Search.rest_of_frames_nil g.explore_frames hu] at hend
  exact List.cons_ne_nil v after (List.suffix_nil.mp hend)

/-- Each neighbour of a vertex that is entered is examined at one moment and no other, also where a neighbour is listed
twice. -/
theorem existsUnique_examines (hu : u ∈ g.explore.visited) (h : g.next u = before ++ v :: after) :
    ∃! n, g.Examines n u v after := by
  obtain ⟨n, hn⟩ := exists_examines hu h
  refine ⟨n, hn, fun m hm => ?_⟩
  exact Nat.le_antisymm (Nat.le_of_not_lt (hn.not_lt hm)) (Nat.le_of_not_lt (hm.not_lt hn))

end Examines

/-! ## The vertices that are entered -/

theorem next_subset_explore_visited (hu : u ∈ g.explore.visited) (hv : v ∈ g.next u) : v ∈ g.explore.visited := by
  obtain ⟨N, hN⟩ := g.exists_tour_eq_explore
  obtain ⟨examined, hnext, hvisited⟩ := g.exists_examined N u
  rw [hN] at hnext hvisited
  rw [hnext, Search.rest_of_frames_nil g.explore_frames hu, List.append_nil] at hv
  exact hvisited v hv

theorem mem_vertices_or_next (hv : v ∈ g.explore.visited) : v ∈ g.vertices ∨ ∃ u, v ∈ g.next u := by
  obtain ⟨N, hN⟩ := g.exists_tour_eq_explore
  have hentered : v ∈ (g.tour N).search.visited := by
    rw [hN]
    exact hv
  rcases g.entersFrom_or_root N hentered with ⟨u, hu⟩ | ⟨m, before, after, hvert, -, -⟩
  · exact Or.inr ⟨u, hu.mem_next⟩
  · rw [hvert]
    exact Or.inl (List.mem_append_right before List.mem_cons_self)

end Digraph

namespace Graph

theorem mem_explore_visited_iff (g : Graph) (v : Node) :
    v ∈ g.digraph.explore.visited ↔ v ∈ g.nodes ∨ ∃ u ∈ g.nodes, v ∈ g.targetsOf u := by
  rw [← digraph_vertices]
  constructor
  · intro hv
    refine (Digraph.mem_vertices_or_next hv).imp_right ?_
    rintro ⟨u, hu⟩
    rw [digraph_next] at hu
    rw [digraph_vertices]
    exact ⟨u, mem_nodes_of_mem_targetsOf hu, hu⟩
  · rintro (hv | ⟨u, hu, hv⟩)
    · exact Digraph.mem_explore_visited hv
    · rw [← digraph_next] at hv
      exact Digraph.next_subset_explore_visited (Digraph.mem_explore_visited hu) hv

/-- The tour of the graph goes through the moments between the searches and the moments of each search. At all of them
the books of the search agree: the path has the vertices of the frames, each once, and follows edges, its vertices are
the active ones and have been entered, and a vertex that closes a path is found on it; between the searches the path
is empty. The tour comes to its end, after at most two moments for each vertex of the table and two for each edge. By
then every edge of every vertex of the table has been examined, and at one moment only; and the vertices entered are
those of the table and the targets of their edges. -/
theorem search_coherent (g : Graph) :
    (∀ t : Tour Node, (∃ n, g.digraph.tour n = t) ↔ t.Between g.digraph ∨ t.Within g.digraph) ∧
    (∀ n, (g.digraph.tour n).search.Coherent g.digraph) ∧
    (∀ t : Tour Node, t.Between g.digraph → t.search.path = [] ∧ t.search.active = []) ∧
    (∃ N ≤ 2 * (g.nodes.length + g.edgeCount), ∀ n, N ≤ n → g.digraph.tour n = ⟨[], g.digraph.explore⟩) ∧
    (∀ u ∈ g.nodes, ∀ before v after, g.targetsOf u = before ++ v :: after →
      ∃! n, g.digraph.Examines n u v after) ∧
    ∀ v, v ∈ g.digraph.explore.visited ↔ v ∈ g.nodes ∨ ∃ u ∈ g.nodes, v ∈ g.targetsOf u := by
  refine ⟨g.digraph.exists_tour_iff, fun n => (g.digraph.tour_sound n).coherent, fun t ht => ht.idle, ?_, ?_,
    g.mem_explore_visited_iff⟩
  · have hdone := g.digraph.exists_tour_done
    rwa [length_digraph_edges, digraph_vertices] at hdone
  · intro u hu before v after hnext
    rw [← digraph_vertices] at hu
    rw [← digraph_next] at hnext
    exact Digraph.existsUnique_examines (Digraph.mem_explore_visited hu) hnext

/-- A thread that waits twice for a lock, and once for a lock of the same name that is outside the table. -/
def repeated : Graph where
  rows :=
    [{ node := ⟨.process, "A", .listed 0⟩,
       targets := [⟨.resource, "L", .listed 0⟩, ⟨.resource, "L", .listed 0⟩, ⟨.resource, "L", .loose 0⟩] },
     { node := ⟨.resource, "L", .listed 0⟩, targets := [⟨.process, "A", .listed 0⟩] }]
  spares := [{ node := ⟨.resource, "L", .loose 0⟩, targets := [⟨.process, "A", .listed 0⟩] }]

theorem search_coherent_repeated :
    repeated.digraph.Examines 1 ⟨.process, "A", .listed 0⟩ ⟨.resource, "L", .listed 0⟩
      [⟨.resource, "L", .listed 0⟩, ⟨.resource, "L", .loose 0⟩] ∧
    (∃! n, repeated.digraph.Examines n ⟨.process, "A", .listed 0⟩ ⟨.resource, "L", .listed 0⟩
      [⟨.resource, "L", .listed 0⟩, ⟨.resource, "L", .loose 0⟩]) ∧
    (∃! n, repeated.digraph.Examines n ⟨.process, "A", .listed 0⟩ ⟨.resource, "L", .listed 0⟩
      [⟨.resource, "L", .loose 0⟩]) ∧
    (repeated.digraph.tour 2).search.path = [⟨.resource, "L", .listed 0⟩, ⟨.process, "A", .listed 0⟩] ∧
    (repeated.digraph.tour 2).search.Coherent repeated.digraph ∧
    ⟨.resource, "L", .loose 0⟩ ∈ repeated.digraph.explore.visited := by
  obtain ⟨-, hcoherent, -, -, honce, hvisited⟩ := search_coherent repeated
  refine ⟨⟨[], by decide⟩, ?_, ?_, by decide, hcoherent 2, ?_⟩
  · exact honce ⟨.process, "A", .listed 0⟩ (by decide) [] _ _ rfl
  · exact honce ⟨.process, "A", .listed 0⟩ (by decide) [⟨.resource, "L", .listed 0⟩] _ _ rfl
  · exact (hvisited _).mpr (Or.inr ⟨⟨.process, "A", .listed 0⟩, by decide, by decide⟩)

end Graph

end Gridlock
