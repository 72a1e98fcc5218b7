import Mathlib.Logic.Relation
import Gridlock.Proofs.ClosedPath

/-!
# Where a cycle is closed

Of a cycle of the graph the search enters one vertex first. While that vertex is on the path the
search enters all others, so the edge that comes back to it closes a path. How long this path is
depends on the vertex from which the last vertex of the cycle was entered.

* `Search.Thorough` : every neighbour of a vertex that is left has been entered, and those on the path
  have been closed; `tour_thorough`
* `Digraph.Leaves`, `exists_leaves` : every vertex that is entered is left
* `Digraph.EntersFirst`, `closes_of_entersFirst`, `Closes.entersFirst` : the vertex of a cycle that is
  entered first is where the cycle is closed
* `below_unique` : what lies below a vertex on the path is settled when it is entered
* `Digraph.EntersFrom`, `Closes.loop_length_eq_three_iff` : from where a vertex is entered, and what
  this says of the closed path
-/

namespace Gridlock

variable {α : Type} [DecidableEq α]

/-! ## What has been examined -/

/-- Neighbours that have been examined have been entered, and the edges to those further out on the
path are in `K`. -/
structure Search.Thorough (g : Digraph α) (K : α → α → Prop) (s : Search α) : Prop where
  frames : ∀ newer x vs older, s.frames = newer ++ (x, vs) :: older → ∀ y ∈ g.next x, y ∉ vs →
    y ∈ s.visited ∧ (y ∈ x :: older.map Prod.fst → K x y)
  left : ∀ x ∈ s.visited, x ∉ s.path → ∀ y ∈ g.next x, y ∈ s.visited ∧ (y ∈ s.path → K x y)

namespace Search.Thorough

variable {g : Digraph α} {K K' : α → α → Prop} {s s' : Search α}

theorem empty (g : Digraph α) (K : α → α → Prop) : Thorough g K ({} : Search α) :=
  ⟨by simp, by simp⟩

/-- What is known of the frames when the innermost vertex has examined `v`. -/
theorem frames_examine (h : s.Thorough g K) (hs : s.Sound g) (hK : ∀ x y, K x y → K' x y) {u v : α}
    {vs : List α} {fs : List (α × List α)} (hf : s.frames = (u, v :: vs) :: fs) {visited : List α}
    (hvis : s.visited ⊆ visited) (hv : v ∈ visited) (hcl : v ∈ s.path → K' u v)
    (newer : List (α × List α)) (x : α) (ws : List α) (older : List (α × List α))
    (he : (u, vs) :: fs = newer ++ (x, ws) :: older) (y : α) (hy : y ∈ g.next x) (hyw : y ∉ ws) :
    y ∈ visited ∧ (y ∈ x :: older.map Prod.fst → K' x y) := by
  cases newer with
  | nil =>
    cases he
    by_cases hyv : y = v
    · subst hyv
      refine ⟨hv, fun hm => hcl ?_⟩
      rw [hs.path_of_frames hf]
      exact hm
    · have hyvs : y ∉ v :: vs := by simp [hyv, hyw]
      obtain ⟨h₁, h₂⟩ := h.frames [] u (v :: vs) fs hf y hy hyvs
      exact ⟨hvis h₁, fun hm => hK u y (h₂ hm)⟩
  | cons f newer =>
    rw [List.cons_append, List.cons.injEq] at he
    have hf' : s.frames = (u, v :: vs) :: newer ++ (x, ws) :: older := by
      rw [hf, he.2, List.cons_append]
    obtain ⟨h₁, h₂⟩ := h.frames _ x ws older hf' y hy hyw
    exact ⟨hvis h₁, fun hm => hK x y (h₂ hm)⟩

/-- The vertices that are left stay settled when a new vertex is entered: none of them has an edge to
it. -/
theorem left_enter (h : s.Thorough g K) (hK : ∀ x y, K x y → K' x y) {v : α} (hv : v ∉ s.visited)
    (x : α) (hx : x ∈ v :: s.visited) (hxp : x ∉ v :: s.path) (y : α) (hy : y ∈ g.next x) :
    y ∈ v :: s.visited ∧ (y ∈ v :: s.path → K' x y) := by
  rw [List.mem_cons, not_or] at hxp
  have hx' := (List.mem_cons.mp hx).resolve_left hxp.1
  obtain ⟨h₁, h₂⟩ := h.left x hx' hxp.2 y hy
  refine ⟨List.mem_cons_of_mem v h₁, fun hm => ?_⟩
  rcases List.mem_cons.mp hm with rfl | hm
  · exact absurd h₁ hv
  · exact hK x y (h₂ hm)

theorem mono (h : s.Thorough g K) (hK : ∀ x y, K x y → K' x y) : s.Thorough g K' where
  frames newer x vs older hf y hy hyv :=
    ⟨(h.frames newer x vs older hf y hy hyv).1,
      fun hm => hK x y ((h.frames newer x vs older hf y hy hyv).2 hm)⟩
  left x hx hxp y hy := ⟨(h.left x hx hxp y hy).1, fun hm => hK x y ((h.left x hx hxp y hy).2 hm)⟩

/-- A moment keeps a search thorough, if `K'` has the edge that it closes. -/
theorem move (h : s.Thorough g K) (hs : s.Sound g) (m : s.Move g s') (hK : ∀ x y, K x y → K' x y)
    (hcl : ∀ u v, s.Closes u v → K' u v) : s'.Thorough g K' := by
  cases m with
  | stay hf => exact h.mono hK
  | root r hf hr =>
    refine ⟨?_, h.left_enter hK hr⟩
    intro newer x vs older he y hy hyv
    cases newer with
    | nil =>
      cases he
      exact absurd hy hyv
    | cons f newer =>
      simp [Search.enter, hf] at he
  | leave u fs hf =>
    refine ⟨?_, ?_⟩
    · intro newer x vs older he
      have hf' : s.frames = ((u, []) :: newer) ++ (x, vs) :: older := by
        rw [hf, List.cons_append, ← he]
      exact (h.mono hK).frames _ x vs older hf'
    · intro x hx hxp y hy
      have hp := hs.path_of_frames hf
      by_cases hxu : x = u
      · subst hxu
        obtain ⟨h₁, h₂⟩ := (h.mono hK).frames [] x [] fs hf y hy (by simp)
        refine ⟨h₁, fun hm => h₂ (List.mem_cons_of_mem x ?_)⟩
        simpa only [hp, List.tail_cons] using hm
      · have hxp' : x ∉ s.path := by
          rw [hp, List.mem_cons, not_or]
          exact ⟨hxu, by simpa only [hp, List.tail_cons] using hxp⟩
        obtain ⟨h₁, h₂⟩ := (h.mono hK).left x hx hxp' y hy
        exact ⟨h₁, fun hm => h₂ (List.mem_of_mem_tail hm)⟩
  | descend u v vs fs hf hv =>
    have hvp : v ∉ s.path := fun hm => hv (hs.path_subset hm)
    refine ⟨?_, h.left_enter hK hv⟩
    intro newer x ws older he y hy hyw
    cases newer with
    | nil =>
      cases he
      exact absurd hy hyw
    | cons f newer =>
      rw [List.cons_append] at he
      exact h.frames_examine hs hK hf (List.subset_cons_self v s.visited) List.mem_cons_self
        (fun hm => absurd hm hvp) newer x ws older (List.cons.inj he).2 y hy hyw
  | close u v vs fs hf hv ha =>
    refine ⟨?_, (h.mono hK).left⟩
    exact h.frames_examine hs hK hf (List.Subset.refl _) hv fun hm => hcl u v ⟨⟨vs, fs, hf⟩, hm⟩
  | pass u v vs fs hf hv ha =>
    refine ⟨?_, (h.mono hK).left⟩
    exact h.frames_examine hs hK hf (List.Subset.refl _) hv fun hm => hcl u v ⟨⟨vs, fs, hf⟩, hm⟩

end Search.Thorough

namespace Digraph

/-- At every moment the edges to vertices of the path that have been examined have closed a path. -/
theorem tour_thorough (g : Digraph α) (n : Nat) :
    (g.tour n).search.Thorough g fun u v => ∃ m < n, g.Closes m u v := by
  induction n with
  | zero => exact .empty g _
  | succ n ih =>
    refine ih.move (g.tour_sound n) (g.tour_move n) ?_ ?_
    · rintro x y ⟨m, hm, h⟩
      exact ⟨m, Nat.lt_succ_of_lt hm, h⟩
    · intro u v h
      exact ⟨n, Nat.lt_succ_self n, h⟩

end Digraph

/-! ## The order of entries -/

theorem Search.Move.visited_suffix {g : Digraph α} {s s' : Search α} (m : s.Move g s') :
    s.visited <:+ s'.visited := by
  cases m with
  | root r hf hr => exact List.suffix_cons r s.visited
  | descend u v vs fs hf hv => exact List.suffix_cons v s.visited
  | _ => exact List.suffix_refl _

namespace Digraph

variable {g : Digraph α} {m n : Nat} {u v : α}

theorem tour_visited_suffix (g : Digraph α) (h : m ≤ n) :
    (g.tour m).search.visited <:+ (g.tour n).search.visited := by
  induction n, h using Nat.le_induction with
  | base => exact List.suffix_refl _
  | succ n _ ih => exact ih.trans (g.tour_move n).visited_suffix

theorem tour_visited_suffix_explore (g : Digraph α) (n : Nat) :
    (g.tour n).search.visited <:+ g.explore.visited := by
  obtain ⟨N, hN⟩ := g.exists_tour_eq_explore
  have hmax := g.tour_of_done hN g.explore_frames (Nat.le_max_right n N)
  have h := g.tour_visited_suffix (Nat.le_max_left n N)
  rw [hmax] at h
  exact h

theorem explore_visited_nodup (g : Digraph α) : g.explore.visited.Nodup := by
  obtain ⟨N, hN⟩ := g.exists_tour_eq_explore
  have h := (g.tour_sound N).visited_nodup
  rw [hN] at h
  exact h

/-- The roots that are no longer pending have been entered. -/
theorem exists_tried (g : Digraph α) (n : Nat) : ∃ tried, g.vertices = tried ++ (g.tour n).pending ∧
    ∀ w ∈ tried, w ∈ (g.tour n).search.visited := by
  induction n with
  | zero => exact ⟨[], rfl, by simp⟩
  | succ n ih =>
    obtain ⟨tried, hvert, htried⟩ := ih
    have hkeep := (g.tour_move n).visited_suffix.subset
    rw [tour_succ] at hkeep ⊢
    by_cases hf : (g.tour n).search.frames = []
    · generalize g.tour n = t at *
      obtain ⟨pending, s⟩ := t
      cases pending with
      | nil =>
        rw [Tour.advance_done g hf]
        exact ⟨tried, hvert, htried⟩
      | cons r rs =>
        rw [Tour.advance_root g hf] at hkeep ⊢
        refine ⟨tried ++ [r], by rw [hvert, List.append_assoc, List.singleton_append], ?_⟩
        intro w hw
        rcases List.mem_append.mp hw with hw | hw
        · exact hkeep (htried w hw)
        · rw [List.mem_singleton.mp hw]
          dsimp only
          split_ifs with hr
          · exact hr
          · exact List.mem_cons_self
    · rw [Tour.advance_of_frames_ne_nil g hf] at hkeep ⊢
      exact ⟨tried, hvert, fun w hw => hkeep (htried w hw)⟩

theorem mem_explore_visited (hv : v ∈ g.vertices) : v ∈ g.explore.visited := by
  obtain ⟨N, hN⟩ := g.exists_tour_eq_explore
  obtain ⟨tried, hvert, htried⟩ := g.exists_tried N
  rw [hN, List.append_nil] at hvert
  rw [hN] at htried
  exact htried v (hvert ▸ hv)

/-- At moment `n` the innermost vertex is `v`, and all its neighbours have been examined. -/
def Leaves (g : Digraph α) (n : Nat) (v : α) : Prop :=
  ∃ fs, (g.tour n).search.frames = (v, []) :: fs

theorem mem_path_or_left (g : Digraph α) (n : Nat) (hv : v ∈ (g.tour n).search.visited) :
    v ∈ (g.tour n).search.path ∨ ∃ m < n, g.Leaves m v := by
  induction n with
  | zero => simp [tour] at hv
  | succ n ih =>
    have hs := g.tour_sound n
    have hold (h : v ∈ (g.tour n).search.path ∨ ∃ m < n, g.Leaves m v) :
        v ∈ (g.tour n).search.path ∨ ∃ m < n + 1, g.Leaves m v := by
      refine h.imp_right ?_
      rintro ⟨m, hm, hl⟩
      exact ⟨m, Nat.lt_succ_of_lt hm, hl⟩
    generalize ht : (g.tour (n + 1)).search = s' at hv
    have hmove : (g.tour n).search.Move g s' := ht ▸ g.tour_move n
    cases hmove with
    | stay hf => exact hold (ih hv)
    | root r hf hr =>
      rcases List.mem_cons.mp hv with rfl | hv
      · exact Or.inl List.mem_cons_self
      · exact (hold (ih hv)).imp_left (List.mem_cons_of_mem r)
    | leave u fs hf =>
      rcases hold (ih hv) with hp | hl
      · rw [hs.path_of_frames hf] at hp ⊢
        rcases List.mem_cons.mp hp with rfl | hp
        · exact Or.inr ⟨n, Nat.lt_succ_self n, fs, hf⟩
        · exact Or.inl hp
      · exact Or.inr hl
    | descend u w vs fs hf hw =>
      rcases List.mem_cons.mp hv with rfl | hv
      · exact Or.inl List.mem_cons_self
      · exact (hold (ih hv)).imp_left (List.mem_cons_of_mem w)
    | close u w vs fs hf hw ha => exact hold (ih hv)
    | pass u w vs fs hf hw ha => exact hold (ih hv)

theorem exists_leaves (hv : v ∈ g.explore.visited) : ∃ n, g.Leaves n v := by
  obtain ⟨N, hN⟩ := g.exists_tour_eq_explore
  have hpath : (g.tour N).search.path = [] := by
    rw [(g.tour_sound N).path_eq, hN, g.explore_frames, List.map_nil]
  rcases g.mem_path_or_left N (v := v) (by rw [hN]; exact hv) with h | ⟨m, -, h⟩
  · rw [hpath] at h
    cases h
  · exact ⟨m, h⟩

/-! ## The first vertex of a cycle -/

/-- The search enters `v`, and it has entered no vertex of `cycle` before. -/
def EntersFirst (g : Digraph α) (v : α) (cycle : α → Prop) : Prop :=
  ∃ newer older, g.explore.visited = newer ++ v :: older ∧ ∀ w ∈ older, ¬ cycle w

theorem EntersFirst.mono {cycle cycle' : α → Prop} (h : g.EntersFirst v cycle)
    (hsub : ∀ w, cycle' w → cycle w) : g.EntersFirst v cycle' := by
  obtain ⟨newer, older, hvis, hold⟩ := h
  exact ⟨newer, older, hvis, fun w hw hc => hold w hw (hsub w hc)⟩

theorem exists_entersFirst {cycle : α → Prop} (hv : v ∈ g.explore.visited) (hc : cycle v) :
    ∃ w, cycle w ∧ g.EntersFirst w cycle := by
  unfold EntersFirst
  generalize g.explore.visited = entered at hv ⊢
  induction entered generalizing v with
  | nil => cases hv
  | cons x older ih =>
    by_cases hm : ∃ y ∈ older, cycle y
    · obtain ⟨y, hy, hcy⟩ := hm
      obtain ⟨w, hw, newer, older', he, hold⟩ := ih hcy hy
      exact ⟨w, hw, x :: newer, older', by rw [he, List.cons_append], hold⟩
    · push Not at hm
      rcases List.mem_cons.mp hv with rfl | hv
      · exact ⟨v, hc, [], older, rfl, hm⟩
      · exact absurd hc (hm v hv)

theorem EntersFirst.eq_of_entersFirst {w : α} {cycle : α → Prop} (hv : g.EntersFirst v cycle)
    (hw : g.EntersFirst w cycle) (hcv : cycle v) (hcw : cycle w) : v = w := by
  obtain ⟨newer, older, hvis, hold⟩ := hv
  obtain ⟨newer', older', hvis', hold'⟩ := hw
  rw [hvis] at hvis'
  -- the one of the two that stands further to the right was entered before the other
  rcases List.append_eq_append_iff.mp hvis' with ⟨between, -, he⟩ | ⟨between, -, he⟩
  · cases between with
    | nil => exact (List.cons.inj he).1
    | cons x between =>
      rw [List.cons_append, List.cons.injEq] at he
      exact absurd hcw (hold w (he.2 ▸ by simp))
  · cases between with
    | nil => exact (List.cons.inj he).1.symm
    | cons x between =>
      rw [List.cons_append, List.cons.injEq] at he
      exact absurd hcv (hold' v (he.2 ▸ by simp))

theorem sublist_of_cons_sublist_append {β : Type} {v : β} {l newer older : List β}
    (h : (v :: l).Sublist (newer ++ v :: older)) (hv : v ∉ newer) : l.Sublist older := by
  obtain ⟨l₁, l₂, he, h₁, h₂⟩ := List.sublist_append_iff.mp h
  cases l₁ with
  | nil =>
    rw [List.nil_append] at he
    rw [← he] at h₂
    exact List.cons_sublist_cons.mp h₂
  | cons x l₁ =>
    rw [List.cons_append, List.cons.injEq] at he
    exact absurd (h₁.subset (he.1 ▸ List.mem_cons_self)) hv

/-- When the vertex of a cycle that was entered first is left, no other vertex of the cycle is on the
path. -/
theorem Leaves.not_mem_path {cycle : α → Prop} (hl : g.Leaves n v) (hv : g.EntersFirst v cycle) {w : α}
    (hw : cycle w) (hne : w ≠ v) : w ∉ (g.tour n).search.path := by
  obtain ⟨fs, hf⟩ := hl
  obtain ⟨newer, older, hvis, hold⟩ := hv
  have hs := g.tour_sound n
  have hsub : (g.tour n).search.path.Sublist g.explore.visited :=
    hs.path_visited.trans (g.tour_visited_suffix_explore n).sublist
  have hnd := g.explore_visited_nodup
  rw [hvis] at hsub hnd
  rw [hs.path_of_frames hf] at hsub ⊢
  have hnewer : v ∉ newer := fun hm =>
    (List.nodup_append.mp hnd).2.2 v hm v List.mem_cons_self rfl
  have hbelow := sublist_of_cons_sublist_append hsub hnewer
  intro hm
  rcases List.mem_cons.mp hm with rfl | hm
  · exact hne rfl
  · exact hold w (hbelow.subset hm) hw

/-- The vertex of a cycle that the search enters first is where it closes the cycle. -/
theorem closes_of_entersFirst {cycle : α → Prop} (hv : g.EntersFirst v cycle)
    (walk : Relation.ReflTransGen (fun x y => y ∈ g.next x ∧ cycle y) v u) (hu : v ∈ g.next u) :
    ∃ n, g.Closes n u v := by
  have hmem : v ∈ g.explore.visited := by
    obtain ⟨newer, older, hvis, -⟩ := hv
    rw [hvis]
    exact List.mem_append_right newer List.mem_cons_self
  obtain ⟨n, hl⟩ := exists_leaves hmem
  obtain ⟨fs, hf⟩ := id hl
  have ht := g.tour_thorough n
  have hvp : v ∈ (g.tour n).search.path := by
    rw [(g.tour_sound n).path_of_frames hf]
    exact List.mem_cons_self
  -- at this moment all of the cycle up to `u` has been entered, and left again
  have hleft : u = v ∨ u ∈ (g.tour n).search.visited ∧ u ∉ (g.tour n).search.path := by
    clear hu
    induction walk with
    | refl => exact Or.inl rfl
    | @tail x y _ hxy ih =>
      obtain ⟨hxy, hy⟩ := hxy
      by_cases hyv : y = v
      · exact Or.inl hyv
      · refine Or.inr ⟨?_, hl.not_mem_path hv hy hyv⟩
        rcases ih with rfl | ⟨hx, hxp⟩
        · exact (ht.frames [] x [] fs hf y hxy (by simp)).1
        · exact (ht.left x hx hxp y hxy).1
  rcases hleft with rfl | ⟨hx, hxp⟩
  · obtain ⟨m, -, h⟩ := (ht.frames [] u [] fs hf u hu (by simp)).2 List.mem_cons_self
    exact ⟨m, h⟩
  · obtain ⟨m, -, h⟩ := (ht.left u hx hxp v hu).2 hvp
    exact ⟨m, h⟩

/-- Of the vertices of a closed path, the search has entered the one at its ends first. -/
theorem Closes.entersFirst (h : g.Closes n u v) : g.EntersFirst v (· ∈ g.loopAt n v) := by
  obtain ⟨pre, post, hp, hpre, -, hc⟩ := h.exists_split
  have hsub : (pre ++ v :: post).Sublist g.explore.visited := by
    rw [← hp]
    exact (g.tour_sound n).path_visited.trans (g.tour_visited_suffix_explore n).sublist
  obtain ⟨newer, older, hvis⟩ := List.append_of_mem (hsub.subset (by simp : v ∈ pre ++ v :: post))
  have hnd := g.explore_visited_nodup
  rw [hvis] at hsub hnd
  obtain ⟨-, hnd', hdisj⟩ := List.nodup_append.mp hnd
  have hold : v ∉ older := (List.nodup_cons.mp hnd').1
  have hrev : (v :: pre.reverse).Sublist (older.reverse ++ v :: newer.reverse) := by
    have h₁ : (pre ++ [v]).Sublist (newer ++ v :: older) := by
      refine List.Sublist.trans ?_ hsub
      rw [List.append_cons pre v post]
      exact List.sublist_append_left _ _
    simpa using List.reverse_sublist.mpr h₁
  have hnewer := sublist_of_cons_sublist_append hrev (by simpa using hold)
  refine ⟨newer, older, hvis, ?_⟩
  intro w hw hmem
  rw [hc, List.mem_append, List.mem_cons, List.mem_singleton] at hmem
  rcases hmem with (rfl | hw') | rfl
  · exact hold hw
  · have hwn : w ∈ newer := List.mem_reverse.mp (hnewer.subset hw')
    exact hdisj w hwn w (List.mem_cons_of_mem v hw) rfl
  · exact hold hw

end Digraph

/-! ## From where a vertex is entered -/

theorem Search.Move.exists_below {g : Digraph α} {s s' : Search α} (m : s.Move g s') (hs : s.Sound g)
    {u : α} (hu : u ∈ s.visited) {pre post : List α} (hp : s'.path = pre ++ u :: post) :
    ∃ pre', s.path = pre' ++ u :: post := by
  have henter {v : α} (hv : v ∉ s.visited) (hp : v :: s.path = pre ++ u :: post) :
      ∃ pre', s.path = pre' ++ u :: post := by
    cases pre with
    | nil => exact absurd ((List.cons.inj hp).1 ▸ hu) hv
    | cons x pre => exact ⟨pre, (List.cons.inj hp).2⟩
  cases m with
  | root r hf hr => exact henter hr hp
  | descend v w vs fs hf hw => exact henter hw hp
  | leave v fs hf =>
    have hv := hs.path_of_frames hf
    refine ⟨v :: pre, ?_⟩
    rw [hv, List.cons_append, ← hp, hv, List.tail_cons]
  | _ => exact ⟨pre, hp⟩

namespace Digraph

variable {g : Digraph α} {m n : Nat} {u v : α}

theorem exists_below_of_le (g : Digraph α) (h : m ≤ n) (hu : u ∈ (g.tour m).search.visited)
    {pre post : List α} (hp : (g.tour n).search.path = pre ++ u :: post) :
    ∃ pre', (g.tour m).search.path = pre' ++ u :: post := by
  induction n, h using Nat.le_induction generalizing pre with
  | base => exact ⟨pre, hp⟩
  | succ n hmn ih =>
    have hu' := (g.tour_visited_suffix hmn).subset hu
    obtain ⟨pre', hp'⟩ := (g.tour_move n).exists_below (g.tour_sound n) hu' hp
    exact ih hp'

/-- Whenever a vertex is on the path, the same vertices are below it. -/
theorem below_unique (g : Digraph α) (pre pre' : List α) {post post' : List α}
    (hm : (g.tour m).search.path = pre ++ u :: post)
    (hn : (g.tour n).search.path = pre' ++ u :: post') : post = post' := by
  have key {m n : Nat} {pre pre' post post' : List α} (h : m ≤ n)
      (hm : (g.tour m).search.path = pre ++ u :: post)
      (hn : (g.tour n).search.path = pre' ++ u :: post') : post = post' := by
    have hs := g.tour_sound m
    have hu : u ∈ (g.tour m).search.visited := hs.path_subset (by rw [hm]; simp)
    obtain ⟨pre'', hm'⟩ := g.exists_below_of_le h hu hn
    have hnd := hs.path_nodup
    rw [hm, List.nodup_append] at hnd
    have hpre : u ∉ pre := fun hx => hnd.2.2 u hx u List.mem_cons_self rfl
    have hpost : u ∉ post := (List.nodup_cons.mp hnd.2.1).1
    exact ((List.append_cons_inj_of_notMem hpre hpost).mp (hm.symm.trans hm')).2.2
  rcases Nat.le_total m n with h | h
  · exact key h hm hn
  · exact (key h hn hm).symm

def EntersFrom (g : Digraph α) (u v : α) : Prop :=
  ∃ n rest, (g.tour n).search.path = v :: u :: rest

theorem EntersFrom.mem_next (h : g.EntersFrom u v) : v ∈ g.next u := by
  obtain ⟨n, rest, hp⟩ := h
  have hl := (g.tour_sound n).path_linked
  rw [hp, List.isChain_cons_cons] at hl
  exact hl.1

/-- A closed path has no more than two vertices exactly if the search has entered the second from the
first. -/
theorem Closes.loop_length_eq_three_iff (h : g.Closes n u v) (hne : u ≠ v) :
    (g.loopAt n v).length = 3 ↔ g.EntersFrom v u := by
  obtain ⟨pre, post, hp, hpre, hu, hc⟩ := h.exists_split
  obtain ⟨mid, rfl⟩ : ∃ mid, pre = u :: mid := by
    cases pre with
    | nil =>
      rw [List.nil_append, List.head?_cons, Option.some.injEq] at hu
      exact absurd hu.symm hne
    | cons x mid =>
      rw [List.cons_append, List.head?_cons, Option.some.injEq] at hu
      exact ⟨mid, by rw [hu]⟩
  have hlen : (g.loopAt n v).length = mid.length + 3 := by
    rw [hc]
    simp
  rw [hlen]
  constructor
  · intro h3
    have hmid : mid = [] := List.eq_nil_of_length_eq_zero (by omega)
    rw [hmid] at hp
    exact ⟨n, post, hp⟩
  · rintro ⟨m, rest, hm⟩
    have hbelow : mid ++ v :: post = v :: rest := g.below_unique [] [] hp hm
    cases mid with
    | nil => rfl
    | cons x mid =>
      rw [List.cons_append, List.cons.injEq] at hbelow
      exact absurd (by simp [hbelow.1]) hpre

end Digraph

end Gridlock
