import Mathlib.Data.List.Nodup
import Gridlock.Deadlock

/-!
# What the operations on a graph do to its vertices and edges

* `digraph_vertices`, `digraph_next` : the search sees the table and its edges
* `nodes_intern`, `targetsOf_intern` : interning adds a vertex and no edge
* `nodes_link`, `targetsOf_link` : linking adds an edge and no vertex
* `Graph.WellFormed` : the vertices of the table are of the current epoch, and edges stay in the table
  and change sides; `WellFormed.intern`, `WellFormed.link`
-/

namespace Gridlock

theorem Side.eq_of_ne_of_ne {a b c : Side} (h : a ≠ b) (h' : b ≠ c) : a = c := by
  cases a <;> cases b <;> cases c <;> simp_all

theorem Side.eq_resource_of_ne {a : Side} (h : .process ≠ a) : a = .resource := by
  cases a with
  | process => exact absurd rfl h
  | resource => rfl

theorem Side.eq_process_of_ne {a : Side} (h : .resource ≠ a) : a = .process := by
  cases a with
  | process => rfl
  | resource => exact absurd rfl h

namespace Graph

variable {g : Graph} {u v n : Node}

/-! ## Views of a graph -/

theorem isSome_row? : (g.row? n).isSome ↔ n ∈ g.nodes := by
  simp [row?, nodes]

theorem digraph_vertices (g : Graph) : g.digraph.vertices = g.nodes := by
  simp [digraph, Digraph.vertices, nodes]

theorem digraph_next (g : Graph) (n : Node) : g.digraph.next n = g.targetsOf n := by
  have h (rows : List Row) : (rows.map fun r => (r.node, r.targets)).lookup n =
      (rows.find? fun r => r.node = n).map (·.targets) := by
    induction rows with
    | nil => rfl
    | cons r rows ih =>
      by_cases hr : r.node = n
      · simp [hr]
      · have hr' : (n == r.node) = false := beq_eq_false_iff_ne.mpr (Ne.symm hr)
        simp [List.lookup_cons, hr, hr', ih]
  rw [Digraph.next, digraph, h, targetsOf, row?]

theorem length_digraph_edges (g : Graph) : (g.digraph.rows.flatMap Prod.snd).length = g.edgeCount := by
  rw [digraph, List.flatMap_map, edgeCount]

theorem targetsOf_of_notMem (h : n ∉ g.nodes) : g.targetsOf n = [] := by
  rw [← isSome_row?, Bool.not_eq_true, Option.isSome_eq_false_iff, Option.isNone_iff_eq_none] at h
  rw [targetsOf, h]
  rfl

theorem mem_nodes_of_mem_targetsOf (h : v ∈ g.targetsOf u) : u ∈ g.nodes := by
  by_contra hu
  rw [targetsOf_of_notMem hu] at h
  cases h

/-! ## Interning -/

section Intern
variable (g) (side : Side) (name : Text) (flavour : Option Flavour)

@[simp] theorem epoch_intern : (g.intern side name flavour).epoch = g.epoch := by
  unfold intern
  dsimp only
  split <;> rfl

@[simp] theorem listed_intern (side' : Side) (name' : Text) :
    (g.intern side name flavour).listed side' name' = g.listed side' name' := by
  rw [listed, epoch_intern, listed]

theorem nodes_intern : (g.intern side name flavour).nodes =
    if g.listed side name ∈ g.nodes then g.nodes else g.nodes ++ [g.listed side name] := by
  unfold intern
  dsimp only
  simp only [isSome_row?]
  split
  · simp only [nodes, List.map_map]
    apply List.map_congr_left
    intro r _
    simp only [Function.comp_apply]
    split <;> rfl
  · simp [nodes]

theorem mem_nodes_intern : n ∈ (g.intern side name flavour).nodes ↔
    n ∈ g.nodes ∨ n = g.listed side name := by
  rw [nodes_intern]
  split
  · next h =>
    refine ⟨Or.inl, ?_⟩
    rintro (hn | rfl)
    · exact hn
    · exact h
  · rw [List.mem_append, List.mem_singleton]

theorem nodup_nodes_intern (h : g.nodes.Nodup) : (g.intern side name flavour).nodes.Nodup := by
  rw [nodes_intern]
  split
  · exact h
  · next hn =>
    rw [List.nodup_append]
    refine ⟨h, List.nodup_singleton _, ?_⟩
    rintro a ha b hb rfl
    exact hn (List.mem_singleton.mp hb ▸ ha)

/-- A vertex that is interned is of the current epoch. -/
theorem current_intern (h : ∀ n ∈ g.nodes, n.mark = .listed g.epoch) :
    ∀ n ∈ (g.intern side name flavour).nodes, n.mark = .listed (g.intern side name flavour).epoch := by
  intro n hn
  rw [epoch_intern]
  rcases (g.mem_nodes_intern side name flavour).mp hn with hn | rfl
  · exact h n hn
  · rfl

/-- A vertex that is interned has no edges yet, and all others keep theirs. -/
@[simp] theorem targetsOf_intern (n : Node) :
    (g.intern side name flavour).targetsOf n = g.targetsOf n := by
  unfold intern
  dsimp only
  split
  · simp only [targetsOf, row?, List.find?_map]
    have hnode (r : Row) : (if r.node = g.listed side name then
        { r with flavour := r.flavour.or (if side = .resource then flavour else none) } else r).node
          = r.node := by
      split <;> rfl
    simp only [Function.comp_def, hnode, Option.map_map]
    congr 2
    funext r
    split <;> rfl
  · next h =>
    rw [isSome_row?] at h
    simp only [targetsOf, row?, List.find?_append]
    cases hr : g.rows.find? fun r => decide (r.node = n) with
    | some r => rfl
    | none =>
      rw [Option.none_or]
      by_cases hn : g.listed side name = n <;> simp [hn]

end Intern

/-! ## Linking -/

@[simp] theorem epoch_link (g : Graph) (u v : Node) : (g.link u v).epoch = g.epoch := rfl

@[simp] theorem linkRow_node (u v : Node) (r : Row) : (linkRow u v r).node = r.node := by
  unfold linkRow
  split <;> rfl

@[simp] theorem nodes_link (g : Graph) (u v : Node) : (g.link u v).nodes = g.nodes := by
  simp [nodes, link]

theorem targetsOf_link (g : Graph) (u v n : Node) : (g.link u v).targetsOf n =
    if n = u ∧ u ∈ g.nodes then g.targetsOf n ++ [v] else g.targetsOf n := by
  have hrow : (g.link u v).row? n = (g.row? n).map (linkRow u v) := by
    simp only [row?, link, List.find?_map, Function.comp_def, linkRow_node]
  rw [targetsOf, hrow, targetsOf]
  by_cases hn : n ∈ g.nodes
  · obtain ⟨r, hr⟩ := Option.isSome_iff_exists.mp (isSome_row?.mpr hn)
    have hrn : r.node = n := by simpa using List.find?_some hr
    rw [hr]
    by_cases h : n = u
    · subst h
      simp [linkRow, hrn, hn]
    · simp [linkRow, hrn, h]
  · rw [← isSome_row?, Bool.not_eq_true, Option.isSome_eq_false_iff, Option.isNone_iff_eq_none] at hn
    rw [hn, if_neg]
    · rfl
    · rintro ⟨rfl, hu⟩
      rw [← isSome_row?, hn] at hu
      cases hu

theorem mem_targetsOf_link {w : Node} : w ∈ (g.link u v).targetsOf n ↔
    w ∈ g.targetsOf n ∨ n = u ∧ w = v ∧ u ∈ g.nodes := by
  rw [targetsOf_link]
  split
  · next h => simp [h.1, h.2]
  · next h =>
    refine ⟨Or.inl, ?_⟩
    rintro (hw | ⟨hn, -, hu⟩)
    · exact hw
    · exact absurd ⟨hn, hu⟩ h

/-! ## Well-formed graphs -/

/-- The table lists vertices of the current epoch, each once, and an edge leads from a vertex of the
table to one of the other side that is in the table too. -/
structure WellFormed (g : Graph) : Prop where
  nodup : g.nodes.Nodup
  current : ∀ n ∈ g.nodes, n.mark = .listed g.epoch
  target_mem : ∀ u, ∀ v ∈ g.targetsOf u, v ∈ g.nodes
  target_side : ∀ u, ∀ v ∈ g.targetsOf u, u.side ≠ v.side

namespace WellFormed

theorem empty : WellFormed {} :=
  ⟨.nil, by simp [nodes], by simp [targetsOf, row?], by simp [targetsOf, row?]⟩

theorem eq_listed (h : g.WellFormed) (hn : n ∈ g.nodes) : n = g.listed n.side n.name := by
  rw [listed, ← h.current n hn]

theorem intern (h : g.WellFormed) (side : Side) (name : Text) (flavour : Option Flavour) :
    (g.intern side name flavour).WellFormed where
  nodup := g.nodup_nodes_intern side name flavour h.nodup
  current := g.current_intern side name flavour h.current
  target_mem := by
    intro u v hv
    rw [targetsOf_intern] at hv
    exact (g.mem_nodes_intern side name flavour).mpr (Or.inl (h.target_mem u v hv))
  target_side := by
    intro u v hv
    rw [targetsOf_intern] at hv
    exact h.target_side u v hv

theorem link (h : g.WellFormed) (hv : v ∈ g.nodes) (hs : u.side ≠ v.side) : (g.link u v).WellFormed where
  nodup := by
    rw [nodes_link]
    exact h.nodup
  current := by
    intro n hn
    rw [nodes_link] at hn
    exact h.current n hn
  target_mem := by
    intro n w hw
    rw [nodes_link]
    rcases mem_targetsOf_link.mp hw with hw | ⟨-, rfl, -⟩
    · exact h.target_mem n w hw
    · exact hv
  target_side := by
    intro n w hw
    rcases mem_targetsOf_link.mp hw with hw | ⟨rfl, rfl, -⟩
    · exact h.target_side n w hw
    · exact hs

end WellFormed

end Graph

end Gridlock
