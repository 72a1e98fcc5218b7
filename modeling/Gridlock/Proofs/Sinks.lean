import Gridlock.Proofs.Edges
import Gridlock.Proofs.Tour

/-!
# Vertices without edges do not matter to the search

The search enters a vertex without edges and leaves it again at once, so such a vertex is never on a closed
path and hides no other vertex. If some of these vertices are taken out, with the edges to them, the search
goes through the rest as before: it takes the same steps, only without those to and from the vertices that
are gone.

* `Digraph.restrict`, `Search.restrict` : a graph without some of its vertices, and the search on it
* `Digraph.Sinks` : the vertices that are taken out have no edges
* `Search.step_restrict` : a step is the same step on what is left, or nothing there; `run_restrict`
* `Digraph.closedPaths_restrict` : the search finds the same closed paths
* `Graph.Restricted`, `Restricted.detect` : tables that differ in such rows have the same deadlocks
* `Graph.Sink`, `Graph.withoutSinks`, `detect_withoutSinks` : the edges to all such vertices are taken out
-/

namespace Gridlock

variable {α : Type} [DecidableEq α]

/-- The vertices that are kept, with the edges between them. -/
def Digraph.restrict (keep : α → Bool) (g : Digraph α) : Digraph α :=
  ⟨(g.rows.filter fun r => keep r.1).map fun r => (r.1, r.2.filter keep)⟩

/-- The vertices that are not kept have no edges. -/
def Digraph.Sinks (keep : α → Bool) (g : Digraph α) : Prop :=
  ∀ v, keep v = false → g.next v = []

/-- The search as far as it concerns the vertices that are kept. -/
def Search.restrict (keep : α → Bool) (s : Search α) : Search α where
  frames := (s.frames.filter fun f => keep f.1).map fun f => (f.1, f.2.filter keep)
  path := s.path.filter keep
  active := s.active.filter keep
  visited := s.visited.filter keep
  noted := s.noted

variable {keep : α → Bool} {g : Digraph α} {s : Search α}

theorem Digraph.next_restrict {v : α} (hv : keep v = true) :
    (g.restrict keep).next v = (g.next v).filter keep := by
  have h (rows : List (α × List α)) :
      ((rows.filter fun r => keep r.1).map fun r => (r.1, r.2.filter keep)).lookup v =
        (rows.lookup v).map (List.filter keep) := by
    induction rows with
    | nil => rfl
    | cons r rows ih =>
      obtain ⟨w, ws⟩ := r
      by_cases hw : v = w
      · subst hw
        simp [hv]
      · have hw' : (v == w) = false := beq_eq_false_iff_ne.mpr hw
        by_cases hk : keep w = true
        · simp [hk, List.lookup_cons, hw', ih]
        · simp [hk, List.lookup_cons, hw', ih]
  unfold next restrict
  rw [h]
  cases g.rows.lookup v <;> rfl

omit [DecidableEq α] in
theorem Digraph.vertices_restrict : (g.restrict keep).vertices = g.vertices.filter keep := by
  simp [restrict, vertices, List.filter_map, Function.comp_def]

namespace Search

/-! ## Single steps -/

theorem enter_restrict {v : α} (hv : keep v = true) :
    (s.enter g v).restrict keep = (s.restrict keep).enter (g.restrict keep) v := by
  simp [enter, restrict, hv, Digraph.next_restrict hv]

theorem enter_restrict_of_not {v : α} (hv : keep v = false) :
    (s.enter g v).restrict keep = s.restrict keep := by
  simp [enter, restrict, hv]

/-- On a path every vertex but the innermost has an edge. -/
theorem Sound.next_ne_nil (h : s.Sound g) {u : α} {path : List α} (hp : s.path = u :: path) :
    ∀ w ∈ path, g.next w ≠ [] := by
  have hlinked := h.path_linked
  rw [hp] at hlinked
  clear hp
  induction path generalizing u with
  | nil => simp
  | cons x path ih =>
    rw [List.isChain_cons_cons] at hlinked
    intro w hw
    rcases List.mem_cons.mp hw with rfl | hw
    · exact List.ne_nil_of_mem hlinked.1
    · exact ih hlinked.2 w hw

/-- While a neighbour is examined, no vertex of the path is one of those that are taken out. -/
theorem Sound.keep_of_examining (h : s.Sound g) (hk : g.Sinks keep) {u v : α} {vs : List α}
    {fs : List (α × List α)} (hf : s.frames = (u, v :: vs) :: fs) : ∀ w ∈ s.path, keep w = true := by
  intro w hw
  rw [← Bool.not_eq_false]
  intro hkeep
  rw [h.path_of_frames hf] at hw
  rcases List.mem_cons.mp hw with rfl | hw
  · exact List.ne_nil_of_mem (h.frames_next hf) (hk w hkeep)
  · exact h.next_ne_nil (h.path_of_frames hf) w hw (hk w hkeep)

theorem leave_restrict (h : s.Sound g) {u : α} {fs : List (α × List α)} (hf : s.frames = (u, []) :: fs)
    (hu : keep u = true) : (s.step g).restrict keep = (s.restrict keep).step (g.restrict keep) := by
  have hp := h.path_of_frames hf
  have hframes : (s.restrict keep).frames =
      (u, []) :: (fs.filter fun f => keep f.1).map fun f => (f.1, f.2.filter keep) := by
    simp [restrict, hf, hu]
  unfold step
  rw [hf, hframes]
  simp [restrict, h.active_eq, hp, hu]

theorem leave_restrict_of_not (h : s.Sound g) {u : α} {fs : List (α × List α)}
    (hf : s.frames = (u, []) :: fs) (hu : keep u = false) :
    (s.step g).restrict keep = s.restrict keep := by
  have hp := h.path_of_frames hf
  unfold step
  rw [hf]
  simp [restrict, hf, h.active_eq, hp, hu]

/-- A neighbour that is kept is examined in the same way. -/
theorem examine_restrict (h : s.Sound g) (hk : g.Sinks keep) {u v : α} {vs : List α}
    {fs : List (α × List α)} (hf : s.frames = (u, v :: vs) :: fs) (hv : keep v = true) :
    (s.step g).restrict keep = (s.restrict keep).step (g.restrict keep) := by
  have hpath := h.keep_of_examining hk hf
  have hu : keep u = true := hpath u (by simp [h.path_of_frames hf])
  have hkept : s.path.filter keep = s.path := List.filter_eq_self.mpr hpath
  have hframes : (s.restrict keep).frames =
      (u, v :: vs.filter keep) :: (fs.filter fun f => keep f.1).map fun f => (f.1, f.2.filter keep) := by
    simp [restrict, hf, hu, hv]
  have hvisited : v ∈ (s.restrict keep).visited ↔ v ∈ s.visited := by
    simp [restrict, hv]
  have hactive : v ∈ (s.restrict keep).active ↔ v ∈ s.active := by
    simp [restrict, hv]
  unfold step
  rw [hf, hframes]
  simp only [hvisited, hactive]
  split_ifs with hnew hopen
  · simp [restrict, hu, hkept]
  · simp [restrict, hu]
  · rw [enter_restrict hv]
    simp [restrict, hu]

/-- A neighbour that is not kept changes nothing of what is left. -/
theorem examine_restrict_of_not (h : s.Sound g) (hk : g.Sinks keep) {u v : α} {vs : List α}
    {fs : List (α × List α)} (hf : s.frames = (u, v :: vs) :: fs) (hv : keep v = false) :
    (s.step g).restrict keep = s.restrict keep := by
  have hpath := h.keep_of_examining hk hf
  have hu : keep u = true := hpath u (by simp [h.path_of_frames hf])
  have hclosed : v ∉ s.active := by
    intro hmem
    rw [h.active_eq] at hmem
    rw [hpath v hmem] at hv
    cases hv
  unfold step
  rw [hf]
  dsimp only
  rw [if_neg hclosed]
  split_ifs
  · simp [restrict, hf, hu, hv]
  · rw [enter_restrict_of_not hv]
    simp [restrict, hf, hu, hv]

/-- A step is the same step on what is left, or nothing there. -/
theorem step_restrict (h : s.Sound g) (hk : g.Sinks keep) :
    (s.step g).restrict keep = s.restrict keep ∨
      (s.step g).restrict keep = (s.restrict keep).step (g.restrict keep) := by
  match hf : s.frames with
  | [] =>
    left
    unfold step
    rw [hf]
  | (u, []) :: fs =>
    cases hu : keep u with
    | true => exact Or.inr (leave_restrict h hf hu)
    | false => exact Or.inl (leave_restrict_of_not h hf hu)
  | (u, v :: vs) :: fs =>
    cases hv : keep v with
    | true => exact Or.inr (examine_restrict h hk hf hv)
    | false => exact Or.inl (examine_restrict_of_not h hk hf hv)

/-! ## Whole searches -/

theorem run_restrict (h : s.Sound g) (hk : g.Sinks keep) :
    (s.run g).restrict keep = (s.restrict keep).run (g.restrict keep) := by
  induction s using Search.run.induct g with
  | case1 s hf =>
    have hframes : (s.restrict keep).frames = [] := by simp [restrict, hf]
    rw [run_of_frames_nil hf, run_of_frames_nil hframes]
  | case2 s hf ih =>
    rw [← run_step, ih h.step]
    rcases step_restrict h hk with hstep | hstep
    · rw [hstep]
    · rw [hstep, run_step]

theorem visit_restrict (h : s.Sound g) (hf : s.frames = []) (hk : g.Sinks keep) (root : α) :
    (s.visit g root).restrict keep =
      if keep root then (s.restrict keep).visit (g.restrict keep) root else s.restrict keep := by
  have hvisited (hr : keep root = true) : root ∈ (s.restrict keep).visited ↔ root ∈ s.visited := by
    simp [restrict, hr]
  have hrun (hr : root ∉ s.visited) : ((s.enter g root).run g).restrict keep =
      ((s.enter g root).restrict keep).run (g.restrict keep) := by
    refine run_restrict (h.enter hr ?_) hk
    rw [h.path_eq, hf]
    simp
  have hframes : (s.restrict keep).frames = [] := by simp [restrict, hf]
  unfold visit
  cases hr : keep root with
  | true =>
    simp only [hvisited hr, if_true]
    split_ifs with hv
    · rfl
    · rw [hrun hv, enter_restrict hr]
  | false =>
    rw [if_neg Bool.false_ne_true]
    split_ifs with hv
    · rfl
    · rw [hrun hv, enter_restrict_of_not hr, run_of_frames_nil hframes]

theorem foldl_visit_restrict (hk : g.Sinks keep) (roots : List α) (h : s.Sound g) (hf : s.frames = []) :
    (roots.foldl (visit g) s).restrict keep =
      (roots.filter keep).foldl (visit (g.restrict keep)) (s.restrict keep) := by
  induction roots generalizing s with
  | nil => rfl
  | cons root roots ih =>
    rw [List.foldl_cons, ih (h.visit hf root) (visit_frames hf root), visit_restrict h hf hk]
    cases hr : keep root with
    | true => rw [if_pos rfl, List.filter_cons_of_pos hr, List.foldl_cons]
    | false => rw [if_neg Bool.false_ne_true, List.filter_cons_of_neg (by simp [hr])]

end Search

/-- The search finds the same closed paths if vertices without edges are taken out. -/
theorem Digraph.closedPaths_restrict (hk : g.Sinks keep) : (g.restrict keep).closedPaths = g.closedPaths := by
  have hexplore := Search.foldl_visit_restrict hk g.vertices (.empty g) rfl
  rw [← vertices_restrict] at hexplore
  exact (congrArg Search.noted hexplore).symm

/-! ## Tables -/

namespace Graph

def restrictRow (keep : Node → Bool) (r : Row) : Row :=
  { r with targets := r.targets.filter keep }

/-- The second table is the first one without the vertices that are not kept. What is outside the tables does
not matter. -/
structure Restricted (keep : Node → Bool) (g g' : Graph) : Prop where
  epoch : g'.epoch = g.epoch
  rows : g'.rows = (g.rows.filter fun r => keep r.node).map (restrictRow keep)

namespace Restricted

variable {keep : Node → Bool} {g g' : Graph} (h : Restricted keep g g')
include h

theorem listed (side : Side) (name : Text) : g'.listed side name = g.listed side name := by
  rw [Graph.listed, Graph.listed, h.epoch]

/-- The tables have the same deadlocks if the vertices that are not kept have no edges. -/
theorem detect (hk : ∀ n, keep n = false → g.targetsOf n = []) : g'.detect = g.detect := by
  have hdigraph : g'.digraph = g.digraph.restrict keep := by
    simp [Graph.digraph, Digraph.restrict, h.rows, List.filter_map, Function.comp_def, restrictRow]
  have hsinks : g.digraph.Sinks keep := by
    intro n hn
    rw [digraph_next]
    exact hk n hn
  unfold Graph.detect
  rw [hdigraph, Digraph.closedPaths_restrict hsinks]

theorem isSome_row? {n : Node} (hn : keep n = true) : (g'.row? n).isSome = (g.row? n).isSome := by
  rw [Bool.eq_iff_iff, Graph.isSome_row?, Graph.isSome_row?, nodes, nodes, h.rows]
  simp only [List.map_map, List.mem_map, List.mem_filter, Function.comp_apply, restrictRow]
  constructor
  · rintro ⟨r, ⟨hr, -⟩, rfl⟩
    exact ⟨r, hr, rfl⟩
  · rintro ⟨r, hr, rfl⟩
    exact ⟨r, ⟨hr, hn⟩, rfl⟩

omit h in
theorem node_ite_flavour (n : Node) (given : Option Flavour) (r : Row) :
    (if r.node = n then { r with flavour := r.flavour.or given } else r).node = r.node := by
  split <;> rfl

theorem intern (side : Side) (name : Text) (flavour : Option Flavour)
    (hn : keep (g.listed side name) = true) :
    Restricted keep (g.intern side name flavour) (g'.intern side name flavour) where
  epoch := by rw [epoch_intern, epoch_intern, h.epoch]
  rows := by
    unfold Graph.intern
    dsimp only
    rw [h.listed, h.isSome_row? hn]
    split
    · show g'.rows.map _ = ((g.rows.map _).filter _).map _
      rw [h.rows, List.filter_map, List.map_map, List.map_map]
      simp only [Function.comp_def, node_ite_flavour]
      apply List.map_congr_left
      intro r _
      by_cases hr : r.node = g.listed side name <;> simp [restrictRow, hr]
    · show g'.rows ++ _ = (List.filter _ (g.rows ++ _)).map _
      rw [h.rows, List.filter_append, List.map_append]
      simp [restrictRow, hn]

/-- A vertex that is not kept can come up in the first table alone. -/
theorem intern_of_not (side : Side) (name : Text) (flavour : Option Flavour)
    (hn : keep (g.listed side name) = false) : Restricted keep (g.intern side name flavour) g' where
  epoch := by rw [epoch_intern, h.epoch]
  rows := by
    unfold Graph.intern
    dsimp only
    split
    · rw [h.rows, List.filter_map, List.map_map]
      simp only [Function.comp_def, node_ite_flavour]
      apply List.map_congr_left
      intro r hr
      rw [if_neg]
      rintro hrn
      rw [List.mem_filter, hrn, hn] at hr
      exact Bool.false_ne_true hr.2
    · rw [h.rows, List.filter_append, List.filter_cons_of_neg (by simp [hn]), List.filter_nil,
        List.append_nil]

theorem link {u v : Node} (hu : keep v = true) : Restricted keep (g.link u v) (g'.link u v) where
  epoch := h.epoch
  rows := by
    show g'.rows.map _ = ((g.rows.map _).filter _).map _
    rw [h.rows, List.filter_map, List.map_map, List.map_map]
    simp only [Function.comp_def, linkRow_node]
    apply List.map_congr_left
    intro r _
    by_cases hr : r.node = u <;> simp [restrictRow, linkRow, hr, hu]

theorem link_of_not {u v : Node} (hv : keep v = false) : Restricted keep (g.link u v) g' where
  epoch := h.epoch
  rows := by
    show g'.rows = ((g.rows.map _).filter _).map _
    rw [h.rows, List.filter_map, List.map_map]
    simp only [Function.comp_def, linkRow_node]
    apply List.map_congr_left
    intro r _
    by_cases hr : r.node = u <;> simp [restrictRow, linkRow, hr, hv]

end Restricted

/-! ## Edges to vertices without edges -/

variable {keep : Node → Bool} {g : Graph} {n : Node}

/-- The graph without the edges to vertices that are not kept. The vertices stay. -/
def restrictTargets (keep : Node → Bool) (g : Graph) : Graph :=
  { g with rows := g.rows.map (restrictRow keep), spares := g.spares.map (restrictRow keep) }

theorem targetsOf_restrictTargets (keep : Node → Bool) (g : Graph) (n : Node) :
    (g.restrictTargets keep).targetsOf n = (g.targetsOf n).filter keep := by
  have hrow : (g.restrictTargets keep).row? n = (g.row? n).map (restrictRow keep) := by
    simp only [row?, restrictTargets, List.find?_map]
    rfl
  rw [targetsOf, hrow, targetsOf]
  cases g.row? n <;> rfl

/-- Edges to vertices without edges can be taken out: without these vertices, the same table is left of both
graphs. -/
theorem detect_restrictTargets (hk : ∀ n, keep n = false → g.targetsOf n = []) :
    (g.restrictTargets keep).detect = g.detect := by
  let rest : Graph := { g with rows := (g.rows.filter fun r => keep r.node).map (restrictRow keep) }
  have hg : Restricted keep g rest := ⟨rfl, rfl⟩
  have hg' : Restricted keep (g.restrictTargets keep) rest := by
    refine ⟨rfl, ?_⟩
    simp [rest, restrictTargets, restrictRow, List.filter_map, Function.comp_def]
  have hk' : ∀ n, keep n = false → (g.restrictTargets keep).targetsOf n = [] := by
    intro n hn
    rw [targetsOf_restrictTargets, hk n hn, List.filter_nil]
  rw [← hg.detect hk, ← hg'.detect hk']

/-- No edge of the table leaves the vertex: its row has no targets, or it is outside the table. The edges of a
vertex outside the table do not count. -/
def Sink (g : Graph) (n : Node) : Prop :=
  ∀ r ∈ g.rows, r.node = n → r.targets = []

instance (g : Graph) (n : Node) : Decidable (g.Sink n) :=
  inferInstanceAs (Decidable (∀ r ∈ g.rows, r.node = n → r.targets = []))

theorem Sink.targetsOf (h : g.Sink n) : g.targetsOf n = [] := by
  unfold Graph.targetsOf
  cases hr : g.row? n with
  | none => rfl
  | some r => exact h r (List.mem_of_find?_eq_some hr) (by simpa using List.find?_some hr)

/-- The graph without the edges to vertices that have no edges in the table. -/
def withoutSinks (g : Graph) : Graph :=
  g.restrictTargets fun n => ¬ g.Sink n

/-- Edges to vertices that have no edges in the table do not matter to the search: without them it reports the same
deadlocks, in the same order. -/
theorem detect_withoutSinks (g : Graph) : g.withoutSinks.detect.cycles = g.detect.cycles := by
  have hk : ∀ n, decide (¬ g.Sink n) = false → g.targetsOf n = [] := by
    intro n hn
    exact Sink.targetsOf (by simpa using hn)
  rw [withoutSinks, detect_restrictTargets hk]

/-- A thread with edges to a lock that leads back to it, to its permit, and to locks of the same name outside the
table, one of which has an edge as well. -/
def frayed : Graph where
  epoch := 1
  rows :=
    [{ node := ⟨.process, "A", .listed 1⟩,
       targets := [⟨.resource, "L", .listed 0⟩, ⟨.resource, "L", .listed 1⟩, ⟨.resource, "LockSupport_A", .listed 1⟩,
         ⟨.resource, "L", .loose 1⟩] },
     { node := ⟨.resource, "L", .listed 1⟩, targets := [⟨.process, "A", .listed 1⟩] },
     { node := ⟨.resource, "LockSupport_A", .listed 1⟩ }]
  spares :=
    [{ node := ⟨.resource, "L", .listed 0⟩, targets := [⟨.process, "A", .listed 1⟩] },
     { node := ⟨.resource, "L", .loose 1⟩ }]

example : frayed.withoutSinks.rows.map (·.targets) =
    [[⟨.resource, "L", .listed 1⟩], [⟨.process, "A", .listed 1⟩], []] := by decide

end Graph

end Gridlock
