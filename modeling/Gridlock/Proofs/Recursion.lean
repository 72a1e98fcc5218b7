import Gridlock.Proofs.ClosedPath
import Gridlock.Proofs.Edges

/-!
# The search as a recursion

The search keeps the path and the neighbours still to be examined by hand. Depth-first search is usually written as
a recursion that leaves both to its calls: a vertex is entered, and then its neighbours are gone through in order; one
that is new is entered in turn, and one that is on the path closes a cycle. Both come to the same.

* `Trail`, `Trail.mark`, `Trail.keep` : what the recursion passes on
* `Digraph.examine` : goes through neighbours; `Digraph.visit`, `Digraph.depthFirst` : enters a vertex, and all vertices
* `visit_eq_foldl` : a visit marks the vertex and looks at its neighbours one by one
* `Search.exists_run_examine` : the search does with the neighbours of its innermost vertex what the recursion does
* `Graph.detect_eq_depthFirst` : detection is the recursion
-/

namespace Gridlock

/-- The vertices entered, the newest first, and the cycles that were kept, in order. -/
structure Trail (α : Type) where
  visited : List α := []
  kept : List (List α) := []

variable {α : Type} [DecidableEq α]

namespace Trail

def mark (v : α) (t : Trail α) : Trail α :=
  { t with visited := v :: t.visited }

/-- The path from `v` on is closed at `v`, and kept if it is accepted. -/
def keep (accept : List α → Bool) (path : List α) (v : α) (t : Trail α) : Trail α :=
  let cycle := path.dropWhile (· ≠ v) ++ [v]
  if accept cycle then { t with kept := t.kept ++ [cycle] } else t

theorem visited_keep (accept : List α → Bool) (path : List α) (v : α) (t : Trail α) :
    (t.keep accept path v).visited = t.visited := by
  unfold keep
  dsimp only
  split <;> rfl

end Trail

namespace Digraph

open Search (unseen unseen_cons_le unseen_enter_le)

/-- Goes through neighbours of the last vertex of a path: a new one is entered, and one of the path closes a cycle.
Afterwards no more vertices are unseen than before. -/
def examine (g : Digraph α) (accept : List α → Bool) (path vs : List α) (t : Trail α) :
    { t' : Trail α // unseen t'.visited g.rows ≤ unseen t.visited g.rows } :=
  match vs with
  | [] => ⟨t, Nat.le_refl _⟩
  | v :: vs =>
    if _ : v ∉ t.visited then
      let ⟨inner, hinner⟩ := examine g accept (path ++ [v]) (g.next v) (t.mark v)
      let ⟨outer, houter⟩ := examine g accept path vs inner
      ⟨outer, Nat.le_trans (Nat.le_trans houter hinner) (unseen_cons_le v t.visited g.rows)⟩
    else if v ∈ path then
      let ⟨outer, houter⟩ := examine g accept path vs (t.keep accept path v)
      ⟨outer, t.visited_keep accept path v ▸ houter⟩
    else examine g accept path vs t
termination_by 2 * vs.length + unseen t.visited g.rows
decreasing_by
  · have hpaid : unseen (t.mark v).visited g.rows + 2 * (g.next v).length ≤ unseen t.visited g.rows :=
      unseen_enter_le ‹v ∉ t.visited› g.rows
    rw [List.length_cons]
    omega
  · have hle : unseen inner.visited g.rows ≤ unseen t.visited g.rows :=
      Nat.le_trans hinner (unseen_cons_le v t.visited g.rows)
    rw [List.length_cons]
    omega
  · rw [Trail.visited_keep, List.length_cons]
    omega
  · rw [List.length_cons]
    omega

/-- Enters a vertex that comes after `path`. -/
def visit (g : Digraph α) (accept : List α → Bool) (path : List α) (v : α) (t : Trail α) : Trail α :=
  g.examine accept (path ++ [v]) (g.next v) (t.mark v)

/-- Enters every vertex in turn, unless it has been entered already. -/
def depthFirst (g : Digraph α) (accept : List α → Bool) : Trail α :=
  g.vertices.foldl (fun t r => if r ∉ t.visited then g.visit accept [] r t else t) {}

/-- What becomes of one neighbour of the last vertex of a path. -/
def look (g : Digraph α) (accept : List α → Bool) (path : List α) (t : Trail α) (w : α) : Trail α :=
  if w ∉ t.visited then g.visit accept path w t
  else if w ∈ path then t.keep accept path w
  else t

variable (g : Digraph α) (accept : List α → Bool)

theorem examine_nil (path : List α) (t : Trail α) : (g.examine accept path [] t).1 = t := by
  rw [examine]

theorem examine_cons (path : List α) (v : α) (vs : List α) (t : Trail α) :
    (g.examine accept path (v :: vs) t).1 = g.examine accept path vs (g.look accept path t v) := by
  by_cases hv : v ∉ t.visited
  · rw [examine, dif_pos hv, look, if_pos hv]
    rfl
  · rw [examine, dif_neg hv, look, if_neg hv]
    by_cases hp : v ∈ path
    · rw [if_pos hp, if_pos hp]
    · rw [if_neg hp, if_neg hp]

theorem examine_eq_foldl (path vs : List α) (t : Trail α) :
    (g.examine accept path vs t).1 = vs.foldl (g.look accept path) t := by
  induction vs generalizing t with
  | nil => exact g.examine_nil accept path t
  | cons v vs ih => rw [examine_cons, ih, List.foldl_cons]

/-- A visit marks the vertex and looks at its neighbours one by one. -/
theorem visit_eq_foldl (path : List α) (v : α) (t : Trail α) :
    g.visit accept path v t = (g.next v).foldl (g.look accept (path ++ [v])) (t.mark v) :=
  g.examine_eq_foldl accept (path ++ [v]) (g.next v) (t.mark v)

end Digraph

/-! ## The search follows the recursion -/

namespace Search

variable {g : Digraph α} {s : Search α} (accept : List α → Bool)

/-- What the recursion would have at this point of the search. -/
def trail (s : Search α) : Trail α :=
  ⟨s.visited, s.noted.filter accept⟩

theorem loop_eq_dropWhile {path : List α} {v : α} (h : path.Nodup) (hv : v ∈ path) :
    loop path v = path.reverse.dropWhile (· ≠ v) ++ [v] := by
  obtain ⟨pre, post, rfl, hpre⟩ := List.eq_append_cons_of_mem hv
  have hpost : ∀ x ∈ post.reverse, decide (x ≠ v) = true := by
    intro x hx
    rw [decide_eq_true_eq]
    rintro rfl
    exact (List.nodup_cons.mp h.of_append_right).1 (List.mem_reverse.mp hx)
  rw [loop_append_cons hpre, List.reverse_append, List.reverse_cons, List.append_assoc,
    List.dropWhile_append_of_pos hpost, List.singleton_append, List.dropWhile_cons_of_neg (by simp)]

/-- A path that is noted is the one that the recursion keeps, if it is accepted. -/
theorem trail_close (hs : s.Sound g) {v : α} (hv : v ∈ s.path) (frames : List (α × List α)) :
    trail accept { s with frames := frames, noted := s.noted ++ (close? s.path v).toList } =
      (s.trail accept).keep accept s.path.reverse v := by
  rw [close?_of_mem hv, loop_eq_dropWhile hs.path_nodup hv]
  unfold trail Trail.keep
  dsimp only
  rw [Option.toList_some, List.filter_append, List.filter_singleton]
  cases accept (s.path.reverse.dropWhile (· ≠ v) ++ [v]) with
  | true => rfl
  | false => rw [Bool.cond_false, List.append_nil]; rfl

/-- When the search has gone through the neighbours of its innermost vertex, it has come to what the recursion makes of
them. -/
theorem exists_run_examine (path vs : List α) (t : Trail α) (s : Search α) (hs : s.Sound g) (u : α)
    (fs : List (α × List α)) (hf : s.frames = (u, vs) :: fs) (hp : s.path.reverse = path)
    (ht : s.trail accept = t) :
    ∃ s' : Search α, s'.run g = s.run g ∧ s'.Sound g ∧ s'.frames = (u, []) :: fs ∧
      s'.trail accept = g.examine accept path vs t := by
  -- along the recursion: one step for each neighbour, and one more to come back from a new one
  induction path, vs, t using Digraph.examine.induct g accept generalizing s u fs with
  | case1 path t => exact ⟨s, rfl, hs, hf, by rw [ht, Digraph.examine_nil]⟩
  | case2 path t v vs hv inner _ hinner _ _ _ ihinner ihouter =>
    subst hp ht
    have hdescend := step_descend (g := g) hf hv
    obtain ⟨s₂, hrun₂, hs₂, hf₂, ht₂⟩ := ihinner (s.step g) hs.step v ((u, vs) :: fs)
      (by rw [hdescend]; rfl) (by rw [hdescend]; exact List.reverse_cons) (by rw [hdescend]; rfl)
    have hleave := step_leave (g := g) hf₂
    have hs₃ := hs₂.step
    have hf₃ : (s₂.step g).frames = (u, vs) :: fs := by rw [hleave]
    have hp₃ : (s₂.step g).path = s.path := by rw [hs₃.path_of_frames hf₃, hs.path_of_frames hf]
    obtain ⟨s', hrun, hs', hf', ht'⟩ := ihouter (s₂.step g) hs₃ u fs hf₃ (by rw [hp₃])
      (by rw [hleave]; exact ht₂.trans (congrArg Subtype.val hinner))
    refine ⟨s', by rw [hrun, run_step, hrun₂, run_step], hs', hf', ?_⟩
    rw [ht', Digraph.examine_cons, Digraph.look, if_pos hv, Digraph.visit, hinner]
  | case3 path t v vs hv hmem _ _ _ ih =>
    subst hp ht
    have hpath : v ∈ s.path := List.mem_reverse.mp hmem
    have hclose := step_close (g := g) hf (not_not.mp hv) (hs.active_eq ▸ hpath)
    obtain ⟨s', hrun, hs', hf', ht'⟩ := ih (s.step g) hs.step u fs (by rw [hclose])
      (by rw [hclose]) (by rw [hclose, trail_close accept hs hpath])
    refine ⟨s', by rw [hrun, run_step], hs', hf', ?_⟩
    rw [ht', Digraph.examine_cons, Digraph.look, if_neg hv, if_pos hmem]
  | case4 path t v vs hv hmem ih =>
    subst hp ht
    have hactive : v ∉ s.active := by
      rw [hs.active_eq]
      exact fun hm => hmem (List.mem_reverse.mpr hm)
    have hpass := step_pass (g := g) hf (not_not.mp hv) hactive
    obtain ⟨s', hrun, hs', hf', ht'⟩ := ih (s.step g) hs.step u fs (by rw [hpass])
      (by rw [hpass]) (by rw [hpass]; rfl)
    refine ⟨s', by rw [hrun, run_step], hs', hf', ?_⟩
    rw [ht', Digraph.examine_cons, Digraph.look, if_neg hv, if_neg hmem]

/-- A whole search from a root. -/
theorem trail_visit (hs : s.Sound g) (hf : s.frames = []) (root : α) : (s.visit g root).trail accept =
    if root ∉ (s.trail accept).visited then g.visit accept [] root (s.trail accept) else s.trail accept := by
  have hpath : s.path = [] := by rw [hs.path_eq, hf, List.map_nil]
  by_cases hr : root ∈ s.visited
  · rw [Search.visit, if_pos hr]
    exact (if_neg (not_not.mpr hr)).symm
  · rw [Search.visit, if_neg hr]
    refine Eq.trans ?_ (if_pos hr).symm
    have hs₁ : (s.enter g root).Sound g := hs.move (.root root hf hr)
    have hf₁ : (s.enter g root).frames = (root, g.next root) :: [] := by rw [← hf]; rfl
    have hp₁ : (s.enter g root).path.reverse = [] ++ [root] := by
      show (root :: s.path).reverse = _
      rw [hpath]
      rfl
    obtain ⟨s', hrun, hs', hf', ht'⟩ :=
      exists_run_examine accept _ _ _ (s.enter g root) hs₁ root [] hf₁ hp₁ rfl
    have hleave := step_leave (g := g) hf'
    rw [← hrun, ← run_step, hleave, run_of_frames_nil rfl]
    exact ht'

theorem trail_foldl_visit (roots : List α) (hs : s.Sound g) (hf : s.frames = []) :
    (roots.foldl (Search.visit g) s).trail accept =
      roots.foldl (fun t r => if r ∉ t.visited then g.visit accept [] r t else t) (s.trail accept) := by
  induction roots generalizing s with
  | nil => rfl
  | cons root roots ih =>
    rw [List.foldl_cons, List.foldl_cons, ih (hs.visit hf root) (visit_frames hf root), trail_visit accept hs hf]

end Search

theorem Digraph.trail_explore (g : Digraph α) (accept : List α → Bool) :
    g.explore.trail accept = g.depthFirst accept :=
  Search.trail_foldl_visit accept g.vertices (.empty g) rfl

/-- Detection is the textbook recursion. It starts at the vertices of the table in order, unless they have been visited
already. A visit marks its vertex and goes through the neighbours in order: it visits one that is new, and keeps the
cycle that one of the path closes, if it is a deadlock. The search comes to its end, has then entered the vertices that
the recursion enters, in the same order, and reports the cycles that the recursion keeps, in the same order. -/
theorem Graph.detect_eq_depthFirst (g : Graph) :
    (g.digraph.depthFirst isWitness =
      g.nodes.foldl (fun t r => if r ∉ t.visited then g.digraph.visit isWitness [] r t else t) {}) ∧
    (∀ path v t, g.digraph.visit isWitness path v t =
      (g.targetsOf v).foldl (g.digraph.look isWitness (path ++ [v])) (t.mark v)) ∧
    (∃ n, g.digraph.tour n = ⟨[], g.digraph.explore⟩ ∧ g.digraph.explore.frames = []) ∧
    g.digraph.explore.visited = (g.digraph.depthFirst isWitness).visited ∧
    g.detect.cycles = (g.digraph.depthFirst isWitness).kept := by
  have htrail := g.digraph.trail_explore isWitness
  obtain ⟨n, hn⟩ := g.digraph.exists_tour_eq_explore
  refine ⟨?_, ?_, ⟨n, hn, g.digraph.explore_frames⟩, congrArg Trail.visited htrail, congrArg Trail.kept htrail⟩
  · rw [Digraph.depthFirst, digraph_vertices]
  · intro path v t
    rw [Digraph.visit_eq_foldl, digraph_next]

end Gridlock
