import Mathlib.Data.List.Chain
import Mathlib.Data.Nat.Init
import Gridlock.Search

/-!
# The search, moment by moment

`Digraph.explore` runs one search after another until each is done. Here the same work is cut into
moments that can be counted, so that one can say when something happens and what came before.

* `Tour`, `Tour.advance` : the roots still to be tried beside the search, and one moment of it
* `Digraph.tour` : the tour at each moment; `exists_tour_eq_explore`, `explore_eq_of_tour` : it ends
  in `Digraph.explore`
* `Search.Move` : what one moment can do to the search; `tour_move`
* `Search.Sound` : what holds at every moment; `tour_sound`, `Sound.run`, `Sound.visit`
-/

namespace Gridlock

variable {α : Type} [DecidableEq α]

/-- The roots that are still to be tried, and the search. -/
structure Tour (α : Type) where
  pending : List α
  search : Search α

namespace Tour

/-- One step of the search, or the next root if the path is empty. -/
def advance (g : Digraph α) (t : Tour α) : Tour α :=
  match t.search.frames with
  | _ :: _ => { t with search := t.search.step g }
  | [] =>
    match t.pending with
    | [] => t
    | r :: rs => ⟨rs, if r ∈ t.search.visited then t.search else t.search.enter g r⟩

theorem advance_of_frames_ne_nil (g : Digraph α) {t : Tour α} (h : t.search.frames ≠ []) :
    t.advance g = ⟨t.pending, t.search.step g⟩ := by
  unfold advance
  split
  · rfl
  · next hf => exact absurd hf h

theorem advance_root (g : Digraph α) {s : Search α} (h : s.frames = []) (r : α) (rs : List α) :
    advance g ⟨r :: rs, s⟩ = ⟨rs, if r ∈ s.visited then s else s.enter g r⟩ := by
  unfold advance
  rw [h]

theorem advance_done (g : Digraph α) {s : Search α} (h : s.frames = []) :
    advance g ⟨[], s⟩ = ⟨[], s⟩ := by
  unfold advance
  rw [h]

end Tour

def Digraph.tour (g : Digraph α) (n : Nat) : Tour α :=
  (Tour.advance g)^[n] ⟨g.vertices, {}⟩

theorem Digraph.tour_succ (g : Digraph α) (n : Nat) : g.tour (n + 1) = (g.tour n).advance g :=
  Function.iterate_succ_apply' _ n _

/-! ## The tour ends in the exploration -/

theorem Search.run_frames (g : Digraph α) (s : Search α) : (s.run g).frames = [] := by
  fun_induction Search.run g s with
  | case1 s h => exact h
  | case2 s h ih => exact ih

theorem Search.visit_frames {g : Digraph α} {s : Search α} (hf : s.frames = []) (root : α) :
    (s.visit g root).frames = [] := by
  unfold visit
  split
  · exact hf
  · exact run_frames g _

namespace Tour

theorem exists_iterate_run (g : Digraph α) (pending : List α) (s : Search α) :
    ∃ n, (advance g)^[n] ⟨pending, s⟩ = ⟨pending, s.run g⟩ := by
  fun_induction Search.run g s with
  | case1 s h => exact ⟨0, rfl⟩
  | case2 s h ih =>
    obtain ⟨n, hn⟩ := ih
    refine ⟨n + 1, ?_⟩
    rw [Function.iterate_succ_apply, advance_of_frames_ne_nil g h]
    exact hn

theorem exists_iterate_visits (g : Digraph α) (tried pending : List α) {s : Search α}
    (h : s.frames = []) :
    ∃ n, (advance g)^[n] ⟨tried ++ pending, s⟩ = ⟨pending, tried.foldl (Search.visit g) s⟩ := by
  induction tried generalizing s with
  | nil => exact ⟨0, rfl⟩
  | cons r rs ih =>
    rw [List.cons_append, List.foldl_cons]
    by_cases hr : r ∈ s.visited
    · obtain ⟨n, hn⟩ := ih h
      refine ⟨n + 1, ?_⟩
      rw [Function.iterate_succ_apply, advance_root g h, if_pos hr, hn, Search.visit, if_pos hr]
    · obtain ⟨m, hm⟩ := exists_iterate_run g (rs ++ pending) (s.enter g r)
      obtain ⟨n, hn⟩ := ih (Search.run_frames g (s.enter g r))
      refine ⟨n + m + 1, ?_⟩
      rw [Function.iterate_succ_apply, advance_root g h, if_neg hr, Function.iterate_add_apply, hm,
        hn, Search.visit, if_neg hr]

theorem foldl_visit_frames (g : Digraph α) (pending : List α) {s : Search α} (h : s.frames = []) :
    (pending.foldl (Search.visit g) s).frames = [] := by
  induction pending generalizing s with
  | nil => exact h
  | cons r rs ih => exact ih (Search.visit_frames h r)

end Tour

namespace Digraph

theorem explore_frames (g : Digraph α) : g.explore.frames = [] :=
  Tour.foldl_visit_frames g g.vertices rfl

theorem exists_tour_eq_foldl {g : Digraph α} {tried pending : List α} (h : g.vertices = tried ++ pending) :
    ∃ n, g.tour n = ⟨pending, tried.foldl (Search.visit g) {}⟩ := by
  unfold tour
  rw [h]
  exact Tour.exists_iterate_visits g tried pending rfl

theorem exists_tour_eq_explore (g : Digraph α) : ∃ n, g.tour n = ⟨[], g.explore⟩ :=
  exists_tour_eq_foldl (List.append_nil g.vertices).symm

theorem tour_of_done (g : Digraph α) {n : Nat} {s : Search α} (h : g.tour n = ⟨[], s⟩)
    (hs : s.frames = []) {m : Nat} (hm : n ≤ m) : g.tour m = ⟨[], s⟩ := by
  induction m, hm using Nat.le_induction with
  | base => exact h
  | succ m _ ih => rw [tour_succ, ih, Tour.advance_done g hs]

theorem explore_eq_of_tour (g : Digraph α) {n : Nat} (hp : (g.tour n).pending = [])
    (hf : (g.tour n).search.frames = []) : g.explore = (g.tour n).search := by
  obtain ⟨m, hm⟩ := g.exists_tour_eq_explore
  have hn : g.tour n = ⟨[], (g.tour n).search⟩ := by rw [← hp]
  have h₁ := g.tour_of_done hn hf (Nat.le_max_left n m)
  have h₂ := g.tour_of_done hm g.explore_frames (Nat.le_max_right n m)
  exact congrArg Tour.search (h₂.symm.trans h₁)

end Digraph

/-! ## What a moment can do -/

/-- What one moment can do to a search. -/
inductive Search.Move (g : Digraph α) (s : Search α) : Search α → Prop
  /-- Nothing: the root at hand has been entered already, or there is none. -/
  | stay (hf : s.frames = []) : Move g s s
  /-- A root is entered. -/
  | root (r : α) (hf : s.frames = []) (hr : r ∉ s.visited) : Move g s (s.enter g r)
  /-- The innermost vertex is left. -/
  | leave (u : α) (fs : List (α × List α)) (hf : s.frames = (u, []) :: fs) :
    Move g s { s with frames := fs, path := s.path.tail, active := s.active.erase u }
  /-- A neighbour of the innermost vertex is entered. -/
  | descend (u v : α) (vs : List α) (fs : List (α × List α)) (hf : s.frames = (u, v :: vs) :: fs)
    (hv : v ∉ s.visited) : Move g s (Search.enter g v { s with frames := (u, vs) :: fs })
  /-- A neighbour of the innermost vertex closes a path. -/
  | close (u v : α) (vs : List α) (fs : List (α × List α)) (hf : s.frames = (u, v :: vs) :: fs)
    (hv : v ∈ s.visited) (ha : v ∈ s.active) :
    Move g s { s with frames := (u, vs) :: fs, noted := s.noted ++ (close? s.path v).toList }
  /-- A neighbour of the innermost vertex has been left already. -/
  | pass (u v : α) (vs : List α) (fs : List (α × List α)) (hf : s.frames = (u, v :: vs) :: fs)
    (hv : v ∈ s.visited) (ha : v ∉ s.active) : Move g s { s with frames := (u, vs) :: fs }

section Step
variable {g : Digraph α} {s : Search α} {u v : α} {vs : List α} {fs : List (α × List α)}

theorem Search.step_of_frames_nil (hf : s.frames = []) : s.step g = s := by
  unfold step
  rw [hf]

theorem Search.step_leave (hf : s.frames = (u, []) :: fs) :
    s.step g = { s with frames := fs, path := s.path.tail, active := s.active.erase u } := by
  unfold step
  rw [hf]

theorem Search.step_descend (hf : s.frames = (u, v :: vs) :: fs) (hv : v ∉ s.visited) :
    s.step g = Search.enter g v { s with frames := (u, vs) :: fs } := by
  unfold step
  rw [hf]
  exact if_pos hv

theorem Search.step_close (hf : s.frames = (u, v :: vs) :: fs) (hv : v ∈ s.visited)
    (ha : v ∈ s.active) : s.step g =
      { s with frames := (u, vs) :: fs, noted := s.noted ++ (close? s.path v).toList } := by
  unfold step
  rw [hf]
  exact (if_neg (not_not.mpr hv)).trans (if_pos ha)

theorem Search.step_pass (hf : s.frames = (u, v :: vs) :: fs) (hv : v ∈ s.visited)
    (ha : v ∉ s.active) : s.step g = { s with frames := (u, vs) :: fs } := by
  unfold step
  rw [hf]
  exact (if_neg (not_not.mpr hv)).trans (if_neg ha)

end Step

theorem Search.step_move (g : Digraph α) (s : Search α) : s.Move g (s.step g) := by
  unfold step
  split
  · next hf => exact .stay hf
  · next u fs hf => exact .leave u fs hf
  · next u v vs fs hf =>
    dsimp only
    split_ifs with hv ha
    · exact .close u v vs fs hf hv ha
    · exact .pass u v vs fs hf hv ha
    · exact .descend u v vs fs hf hv

theorem Tour.advance_move (g : Digraph α) (t : Tour α) : t.search.Move g (t.advance g).search := by
  by_cases hf : t.search.frames = []
  · obtain ⟨pending, s⟩ := t
    cases pending with
    | nil =>
      rw [advance_done g hf]
      exact .stay hf
    | cons r rs =>
      rw [advance_root g hf]
      dsimp only
      split_ifs with hr
      · exact .stay hf
      · exact .root r hf hr
  · rw [advance_of_frames_ne_nil g hf]
    exact Search.step_move g t.search

theorem Digraph.tour_move (g : Digraph α) (n : Nat) :
    (g.tour n).search.Move g (g.tour (n + 1)).search := by
  rw [tour_succ]
  exact Tour.advance_move g _

/-! ## What holds at every moment -/

/-- The frames, the path, the active vertices and the visited vertices belong together, and the path
follows edges. -/
structure Search.Sound (g : Digraph α) (s : Search α) : Prop where
  path_eq : s.path = s.frames.map Prod.fst
  active_eq : s.active = s.path
  path_visited : s.path.Sublist s.visited
  visited_nodup : s.visited.Nodup
  path_linked : s.path.IsChain fun v u => v ∈ g.next u
  frames_suffix : ∀ f ∈ s.frames, f.2 <:+ g.next f.1

namespace Search

namespace Sound

variable {g : Digraph α} {s s' : Search α}

theorem empty (g : Digraph α) : Sound g ({} : Search α) :=
  ⟨rfl, rfl, .slnil, .nil, .nil, by simp⟩

theorem path_nodup (h : Sound g s) : s.path.Nodup :=
  h.path_visited.nodup h.visited_nodup

theorem path_subset (h : Sound g s) {v : α} (hv : v ∈ s.path) : v ∈ s.visited :=
  h.path_visited.subset hv

theorem enter (h : Sound g s) {v : α} (hv : v ∉ s.visited) (hl : ∀ u ∈ s.path.head?, v ∈ g.next u) :
    Sound g (s.enter g v) where
  path_eq := by simp only [Search.enter, h.path_eq, List.map_cons]
  active_eq := by simp only [Search.enter, h.active_eq]
  path_visited := h.path_visited.cons_cons v
  visited_nodup := List.nodup_cons.mpr ⟨hv, h.visited_nodup⟩
  path_linked := h.path_linked.cons hl
  frames_suffix := by
    intro f hf
    rcases List.mem_cons.mp hf with rfl | hf
    · exact List.suffix_refl _
    · exact h.frames_suffix f hf

theorem examine (h : Sound g s) {u v : α} {vs : List α} {fs : List (α × List α)}
    (hf : s.frames = (u, v :: vs) :: fs) (noted : List (List α)) :
    Sound g { s with frames := (u, vs) :: fs, noted := noted } where
  path_eq := by
    change s.path = ((u, vs) :: fs).map Prod.fst
    rw [h.path_eq, hf, List.map_cons, List.map_cons]
  active_eq := h.active_eq
  path_visited := h.path_visited
  visited_nodup := h.visited_nodup
  path_linked := h.path_linked
  frames_suffix := by
    intro f hm
    rcases List.mem_cons.mp hm with rfl | hm
    · exact (List.suffix_cons v vs).trans (h.frames_suffix (u, v :: vs) (by simp [hf]))
    · exact h.frames_suffix f (by simp [hf, hm])

theorem leave (h : Sound g s) {u : α} {fs : List (α × List α)} (hf : s.frames = (u, []) :: fs) :
    Sound g { s with frames := fs, path := s.path.tail, active := s.active.erase u } := by
  have hp : s.path = u :: fs.map Prod.fst := by rw [h.path_eq, hf, List.map_cons]
  constructor
  · simp only [hp, List.tail_cons]
  · simp only [h.active_eq, hp, List.erase_cons_head, List.tail_cons]
  · exact (List.tail_sublist _).trans h.path_visited
  · exact h.visited_nodup
  · exact h.path_linked.tail
  · intro f hm
    exact h.frames_suffix f (by simp [hf, hm])

theorem frames_next (h : Sound g s) {u v : α} {vs : List α} {fs : List (α × List α)}
    (hf : s.frames = (u, v :: vs) :: fs) : v ∈ g.next u :=
  (h.frames_suffix (u, v :: vs) (by simp [hf])).subset List.mem_cons_self

theorem path_of_frames (h : Sound g s) {u : α} {vs : List α} {fs : List (α × List α)}
    (hf : s.frames = (u, vs) :: fs) : s.path = u :: fs.map Prod.fst := by
  rw [h.path_eq, hf, List.map_cons]

theorem move (h : Sound g s) (m : s.Move g s') : Sound g s' := by
  cases m with
  | stay hf => exact h
  | root r hf hr =>
    refine h.enter hr ?_
    rw [h.path_eq, hf]
    simp
  | leave u fs hf => exact h.leave hf
  | descend u v vs fs hf hv =>
    refine (h.examine hf s.noted).enter hv ?_
    intro w hw
    rw [h.path_of_frames hf, List.head?_cons, Option.mem_some_iff] at hw
    rw [← hw]
    exact h.frames_next hf
  | close u v vs fs hf hv ha => exact h.examine hf _
  | pass u v vs fs hf hv ha => exact h.examine hf s.noted

end Sound

/-! ## Whole searches -/

section Whole
variable {g : Digraph α} {s : Search α}

theorem run_of_frames_nil (h : s.frames = []) : s.run g = s := by
  rw [run, dif_pos h]

theorem run_step (g : Digraph α) (s : Search α) : (s.step g).run g = s.run g := by
  by_cases h : s.frames = []
  · rw [step_of_frames_nil h]
  · rw [run.eq_def g s, dif_neg h]

theorem Sound.step (h : s.Sound g) : (s.step g).Sound g :=
  h.move (step_move g s)

theorem Sound.run (h : s.Sound g) : (s.run g).Sound g := by
  induction s using Search.run.induct g with
  | case1 s hf => rwa [run_of_frames_nil hf]
  | case2 s hf ih =>
    rw [← run_step]
    exact ih h.step

theorem Sound.visit (h : s.Sound g) (hf : s.frames = []) (root : α) : (s.visit g root).Sound g := by
  unfold Search.visit
  split
  · exact h
  · next hr => exact (h.move (.root root hf hr)).run

end Whole

end Search

theorem Digraph.tour_sound (g : Digraph α) (n : Nat) : (g.tour n).search.Sound g := by
  induction n with
  | zero => exact .empty g
  | succ n ih => exact ih.move (g.tour_move n)

end Gridlock
