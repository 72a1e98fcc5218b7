import Gridlock.Proofs.FirstEntry

/-!
# How the search comes to a vertex

A vertex is entered from another one that has an edge to it, or as a root. In the second case all vertices
that the graph lists before it have been entered.

* `EntersFrom.exists_descent` : the moment at which a vertex is entered from another one
* `entersFrom_or_root` : the two ways
* `EntersFirst.not_below`, `EntersFirst.from_or_root` : what they say of the vertex of a cycle that is entered
  first
* `entersFirst_of_vertices`, `EntersFirst.eq_of_vertices` : the first vertex of the graph is entered before
  all others
-/

namespace Gridlock.Digraph

variable {α : Type} [DecidableEq α] {g : Digraph α} {n : Nat} {u v : α}

theorem exists_descent_of_path (g : Digraph α) (n : Nat) (pre : List α) {rest : List α}
    (hp : (g.tour n).search.path = pre ++ v :: u :: rest) :
    ∃ m vs fs, (g.tour m).search.frames = (u, v :: vs) :: fs ∧ v ∉ (g.tour m).search.visited := by
  induction n generalizing pre with
  | zero => simp [tour] at hp
  | succ n ih =>
    have hs := g.tour_sound n
    generalize ht : (g.tour (n + 1)).search = s' at hp
    have hmove : (g.tour n).search.Move g s' := ht ▸ g.tour_move n
    cases hmove with
    | stay hf => exact ih pre hp
    | root r hf hr =>
      have hnil : (g.tour n).search.path = [] := by rw [hs.path_eq, hf, List.map_nil]
      have hlen := congrArg List.length hp
      simp only [Search.enter, hnil, List.length_append, List.length_cons, List.length_nil] at hlen
      omega
    | leave w fs hf =>
      have hw := hs.path_of_frames hf
      apply ih (w :: pre)
      rw [List.cons_append, ← hp, hw, List.tail_cons]
    | descend w x vs fs hf hx =>
      cases pre with
      | nil =>
        obtain ⟨rfl, hrest⟩ := List.cons.inj hp
        have hw := hs.path_of_frames hf
        rw [show (g.tour n).search.path = u :: rest from hrest] at hw
        obtain ⟨rfl, -⟩ := List.cons.inj hw
        exact ⟨n, vs, fs, hf, hx⟩
      | cons y pre => exact ih pre (List.cons.inj hp).2
    | close w x vs fs hf hx ha => exact ih pre hp
    | pass w x vs fs hf hx ha => exact ih pre hp

theorem EntersFrom.exists_descent (h : g.EntersFrom u v) :
    ∃ n vs fs, (g.tour n).search.frames = (u, v :: vs) :: fs ∧ v ∉ (g.tour n).search.visited := by
  obtain ⟨n, rest, hp⟩ := h
  exact exists_descent_of_path g n [] hp

/-- A vertex is entered from another one, or as a root, when all vertices listed before it have been
entered. -/
theorem entersFrom_or_root (g : Digraph α) (n : Nat) (hv : v ∈ (g.tour n).search.visited) :
    (∃ u, g.EntersFrom u v) ∨ ∃ m before after, g.vertices = before ++ v :: after ∧
      (∀ w ∈ before, w ∈ (g.tour m).search.visited) ∧
      (g.tour (m + 1)).search.visited = v :: (g.tour m).search.visited := by
  induction n with
  | zero => simp [tour] at hv
  | succ n ih =>
    by_cases hold : v ∈ (g.tour n).search.visited
    · exact ih hold
    · by_cases hf : (g.tour n).search.frames = []
      · obtain ⟨tried, hvert, htried⟩ := g.exists_tried n
        have hnext := g.tour_succ n
        generalize ht : g.tour n = t at *
        obtain ⟨pending, s⟩ := t
        cases pending with
        | nil =>
          rw [hnext, Tour.advance_done g hf] at hv
          exact absurd hv hold
        | cons r rs =>
          rw [Tour.advance_root g hf] at hnext
          rw [hnext] at hv
          dsimp only at hv
          split_ifs at hv with hr
          · exact absurd hv hold
          · obtain rfl : v = r := (List.mem_cons.mp hv).resolve_right hold
            refine Or.inr ⟨n, tried, rs, hvert, ?_, ?_⟩
            · rw [ht]
              exact htried
            · rw [hnext, ht, if_neg hr]
              rfl
      · generalize ht : (g.tour (n + 1)).search = s' at hv
        have hmove : (g.tour n).search.Move g s' := ht ▸ g.tour_move n
        cases hmove with
        | stay hf' => exact absurd hf' hf
        | root r hf' hr => exact absurd hf' hf
        | leave w fs hf' => exact absurd hv hold
        | descend w x vs fs hf' hx =>
          obtain rfl : v = x := (List.mem_cons.mp hv).resolve_right hold
          refine Or.inl ⟨w, n + 1, fs.map Prod.fst, ?_⟩
          rw [ht, ← (g.tour_sound n).path_of_frames hf']
          rfl
        | close w x vs fs hf' hx ha => exact absurd hv hold
        | pass w x vs fs hf' hx ha => exact absurd hv hold

/-! ## The first vertex of a cycle -/

namespace EntersFirst

variable {cycle : α → Prop}

theorem mem_visited (h : g.EntersFirst v cycle) : v ∈ g.explore.visited := by
  obtain ⟨newer, older, hvis, -⟩ := h
  rw [hvis]
  exact List.mem_append_right newer List.mem_cons_self

/-- Whatever the search has entered before it has entered before the whole cycle. -/
theorem not_of_sublist (h : g.EntersFirst v cycle) {l : List α} (hl : (v :: l).Sublist g.explore.visited)
    {w : α} (hw : w ∈ l) : ¬ cycle w := by
  obtain ⟨newer, older, hvis, hold⟩ := h
  have hnd := g.explore_visited_nodup
  rw [hvis] at hl hnd
  have hnewer : v ∉ newer := fun hm => (List.nodup_append.mp hnd).2.2 v hm v List.mem_cons_self rfl
  exact hold w ((sublist_of_cons_sublist_append hl hnewer).subset hw)

theorem not_below (h : g.EntersFirst v cycle) (pre : List α) {below : List α}
    (hp : (g.tour n).search.path = pre ++ v :: below) {w : α} (hw : w ∈ below) : ¬ cycle w := by
  refine h.not_of_sublist (l := below) ?_ hw
  have hpath : (v :: below).Sublist (g.tour n).search.path := hp ▸ List.sublist_append_right pre _
  exact (hpath.trans (g.tour_sound n).path_visited).trans (g.tour_visited_suffix_explore n).sublist

/-- The vertex of a cycle that is entered first is entered from outside the cycle, or as a root that is
listed before the rest of the cycle. -/
theorem from_or_root (h : g.EntersFirst v cycle) : (∃ u, g.EntersFrom u v ∧ ¬ cycle u) ∨
    ∃ before after, g.vertices = before ++ v :: after ∧ ∀ w ∈ before, ¬ cycle w := by
  obtain ⟨N, hN⟩ := g.exists_tour_eq_explore
  have hv : v ∈ (g.tour N).search.visited := by
    rw [hN]
    exact h.mem_visited
  rcases g.entersFrom_or_root N hv with ⟨u, n, rest, hp⟩ | ⟨m, before, after, hvert, hbefore, hnext⟩
  · exact Or.inl ⟨u, ⟨n, rest, hp⟩, h.not_below [] hp List.mem_cons_self⟩
  · refine Or.inr ⟨before, after, hvert, ?_⟩
    intro w hw
    refine h.not_of_sublist (l := (g.tour m).search.visited) ?_ (hbefore w hw)
    rw [← hnext]
    exact (g.tour_visited_suffix_explore (m + 1)).sublist

end EntersFirst

theorem exists_visited_of_vertices {rest : List α} (h : g.vertices = v :: rest) :
    ∃ newer, g.explore.visited = newer ++ [v] := by
  have hone : (g.tour 1).search.visited = [v] := by
    have hzero : g.tour 0 = ⟨v :: rest, {}⟩ := by rw [← h]; rfl
    rw [g.tour_succ, hzero, Tour.advance_root g rfl]
    rfl
  obtain ⟨newer, hnewer⟩ := g.tour_visited_suffix_explore 1
  rw [hone] at hnewer
  exact ⟨newer, hnewer.symm⟩

theorem entersFirst_of_vertices {rest : List α} (h : g.vertices = v :: rest) (cycle : α → Prop) :
    g.EntersFirst v cycle := by
  obtain ⟨newer, hvis⟩ := exists_visited_of_vertices h
  exact ⟨newer, [], hvis, by simp⟩

theorem EntersFirst.eq_of_vertices {x : α} {rest : List α} {cycle : α → Prop} (h : g.EntersFirst v cycle)
    (hvert : g.vertices = x :: rest) (hx : cycle x) : v = x := by
  obtain ⟨newer, hvis⟩ := exists_visited_of_vertices hvert
  by_contra hne
  have hv : v ∈ newer := by
    have hmem := h.mem_visited
    rw [hvis, List.mem_append, List.mem_singleton] at hmem
    exact hmem.resolve_right hne
  have hlater : [v, x].Sublist g.explore.visited := by
    rw [hvis]
    exact (List.singleton_sublist.mpr hv).append (.refl [x])
  exact h.not_of_sublist hlater List.mem_cons_self hx

end Gridlock.Digraph
