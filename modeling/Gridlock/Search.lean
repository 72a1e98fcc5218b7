/-!
# Depth-first search for closed paths

The search walks a finite directed graph from each vertex in turn. It keeps the vertices of the
current path, each with the neighbours it has not examined yet, and notes a closed path whenever it
examines a neighbour that is on the current path. A vertex is expanded once.

* `Digraph` : vertices in order, each with its neighbours in order
* `Search` : the state of the search
* `Search.step` : examines one neighbour, or leaves a vertex whose neighbours are all examined
* `Search.run` : steps until the path is empty; `Search.work` is what remains to be done
* `Digraph.explore`, `Digraph.closedPaths` : the search from every vertex, and what it noted
-/

namespace Gridlock

/-- A finite directed graph: its vertices in order, each with the vertices its edges lead to. -/
structure Digraph (α : Type) where
  rows : List (α × List α)

namespace Digraph

variable {α : Type} [DecidableEq α]

def vertices (g : Digraph α) : List α :=
  g.rows.map Prod.fst

/-- The neighbours of a vertex, in order; a vertex that is not listed has none. -/
def next (g : Digraph α) (v : α) : List α :=
  (g.rows.lookup v).getD []

end Digraph

/-- The state of a search. The innermost vertex comes first in `frames` and in `path`. -/
structure Search (α : Type) where
  /-- The vertices of the path, each with the neighbours still to be examined. -/
  frames : List (α × List α) := []
  /-- The vertices of the path. -/
  path : List α := []
  /-- The vertices of the path, as a set. -/
  active : List α := []
  /-- The vertices entered so far. -/
  visited : List α := []
  /-- The closed paths noted so far, each from the vertex that closes it back to that vertex. -/
  noted : List (List α) := []

namespace Search

variable {α : Type} [DecidableEq α]

def enter (g : Digraph α) (v : α) (s : Search α) : Search α :=
  { s with
    frames := (v, g.next v) :: s.frames
    path := v :: s.path
    active := v :: s.active
    visited := v :: s.visited }

/-- The closed path that an edge from the innermost vertex back to `v` makes, if `v` is on the
path. -/
def close? (path : List α) (v : α) : Option (List α) :=
  if v ∈ path then some (v :: (path.takeWhile (· ≠ v)).reverse ++ [v]) else none

/-- Examines the next neighbour of the innermost vertex, or leaves that vertex. -/
def step (g : Digraph α) (s : Search α) : Search α :=
  match s.frames with
  | [] => s
  | (u, []) :: frames =>
    { s with frames := frames, path := s.path.tail, active := s.active.erase u }
  | (u, v :: vs) :: frames =>
    let s' := { s with frames := (u, vs) :: frames }
    if v ∉ s.visited then s'.enter g v
    else if v ∈ s.active then { s' with noted := s.noted ++ (close? s.path v).toList }
    else s'

/-- The edges of the vertices that are not visited, each counted twice. -/
def unseen (visited : List α) : List (α × List α) → Nat
  | [] => 0
  | (v, vs) :: rows => (if v ∈ visited then 0 else 2 * vs.length) + unseen visited rows

/-- A bound on the steps that remain. -/
def work (g : Digraph α) (s : Search α) : Nat :=
  s.frames.foldr (fun f n => 1 + 2 * f.2.length + n) 0 + unseen s.visited g.rows

theorem unseen_cons_le (v : α) (visited : List α) (rows : List (α × List α)) :
    unseen (v :: visited) rows ≤ unseen visited rows := by
  induction rows with
  | nil => simp [unseen]
  | cons r rows ih =>
    obtain ⟨w, ws⟩ := r
    by_cases hw : w ∈ visited
    · simpa [unseen, hw] using ih
    · by_cases h : w = v <;> simp [unseen, hw, h] <;> omega

/-- Entering a vertex pays for the frame it adds. -/
theorem unseen_enter_le {v : α} {visited : List α} (hv : v ∉ visited)
    (rows : List (α × List α)) :
    unseen (v :: visited) rows + 2 * ((rows.lookup v).getD []).length ≤ unseen visited rows := by
  induction rows with
  | nil => simp [unseen]
  | cons r rows ih =>
    obtain ⟨w, ws⟩ := r
    have mono := unseen_cons_le v visited rows
    by_cases h : w = v
    · subst h
      simp [unseen, hv]
      omega
    · have h' : (v == w) = false := beq_eq_false_iff_ne.mpr fun e => h e.symm
      by_cases hw : w ∈ visited <;> simp [unseen, List.lookup_cons, h, h', hw] <;> omega

theorem work_step_lt (g : Digraph α) {s : Search α} (h : s.frames ≠ []) :
    (s.step g).work g < s.work g := by
  unfold step
  split
  · contradiction
  · next u frames hf =>
    simp [work, hf]
  · next u v vs frames hf =>
    dsimp only
    split
    · next hv =>
      have := unseen_enter_le hv g.rows
      simp only [work, enter, hf, Digraph.next, List.foldr_cons, List.length_cons]
      omega
    · split <;> simp [work, hf]

def run (g : Digraph α) (s : Search α) : Search α :=
  if _h : s.frames = [] then s else run g (s.step g)
termination_by s.work g
decreasing_by exact work_step_lt g _h

/-- Searches from a vertex, unless it has been entered already. -/
def visit (g : Digraph α) (s : Search α) (root : α) : Search α :=
  if root ∈ s.visited then s else run g (s.enter g root)

end Search

namespace Digraph

variable {α : Type} [DecidableEq α]

def explore (g : Digraph α) : Search α :=
  g.vertices.foldl (Search.visit g) {}

def closedPaths (g : Digraph α) : List (List α) :=
  g.explore.noted

end Digraph

end Gridlock
