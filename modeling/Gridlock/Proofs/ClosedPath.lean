import Mathlib.Data.List.Nodup
import Gridlock.Proofs.Tour

/-!
# The closed paths that the search notes

The search notes a path each time the innermost vertex has an edge to a vertex of the current path,
and only then.

* `Search.Closes s u v` : in the state `s` the edge from `u` to `v` closes a path; `Digraph.Closes` :
  it does at a moment of the tour
* `Search.loop` : the closed path; `Closes.exists_split` : the part of the current path it takes
* `mem_closedPaths` : the closed paths noted are those of the closings
* `Digraph.ClosedPath` : a path without repetition along edges, back to its start;
  `closedPath_of_mem` : all paths noted are of this kind
* `Digraph.Round` : the vertices of a closed path, round and round; `ClosedPath.exists_round_eq` : they are
  those of the path, in order
-/

namespace Gridlock

variable {α : Type}

namespace Search

/-- The innermost vertex is `u`, and the neighbour it examines is the vertex `v` of the path. -/
def Closes (s : Search α) (u v : α) : Prop :=
  (∃ vs fs, s.frames = (u, v :: vs) :: fs) ∧ v ∈ s.path

theorem not_closes_of_frames_nil {s : Search α} (hf : s.frames = []) (u v : α) : ¬ s.Closes u v := by
  rintro ⟨⟨vs, fs, h⟩, -⟩
  rw [hf] at h
  cases h

theorem Closes.eq_of_frames {s : Search α} {u v x y : α} {vs : List α} {fs : List (α × List α)}
    (h : s.Closes x y) (hf : s.frames = (u, v :: vs) :: fs) : x = u ∧ y = v := by
  obtain ⟨⟨ws, gs, hf'⟩, -⟩ := h
  rw [hf] at hf'
  cases hf'
  exact ⟨rfl, rfl⟩

variable [DecidableEq α]

/-- The part of a path from `v` on, closed at `v`. -/
def loop (path : List α) (v : α) : List α :=
  v :: (path.takeWhile (· ≠ v)).reverse ++ [v]

theorem close?_of_mem {path : List α} {v : α} (h : v ∈ path) : close? path v = some (loop path v) := by
  rw [close?, if_pos h, loop]

theorem loop_append_cons {pre post : List α} {v : α} (h : v ∉ pre) :
    loop (pre ++ v :: post) v = v :: pre.reverse ++ [v] := by
  have hpre : ∀ x ∈ pre, decide (x ≠ v) = true := by
    intro x hx
    rw [decide_eq_true_eq]
    rintro rfl
    exact h hx
  have htake : (pre ++ v :: post).takeWhile (· ≠ v) = pre := by
    rw [List.takeWhile_append_of_pos hpre]
    simp
  rw [loop, htake]

/-- A closing notes its loop, and nothing else is ever noted. -/
theorem Move.mem_noted {g : Digraph α} {s s' : Search α} (hs : s.Sound g) (m : s.Move g s')
    (c : List α) :
    c ∈ s'.noted ↔ c ∈ s.noted ∨ ∃ u v, s.Closes u v ∧ c = loop s.path v := by
  have hstay (h : ∀ u v, ¬ s.Closes u v) :
      c ∈ s.noted ↔ c ∈ s.noted ∨ ∃ u v, s.Closes u v ∧ c = loop s.path v := by
    refine ⟨Or.inl, ?_⟩
    rintro (hc | ⟨u, v, hcl, -⟩)
    · exact hc
    · exact absurd hcl (h u v)
  cases m with
  | stay hf => exact hstay (not_closes_of_frames_nil hf)
  | root r hf hr => exact hstay (not_closes_of_frames_nil hf)
  | leave u fs hf =>
    refine hstay ?_
    rintro x y ⟨⟨vs, gs, h⟩, -⟩
    rw [hf] at h
    cases h
  | descend u v vs fs hf hv =>
    refine hstay ?_
    intro x y h
    obtain ⟨rfl, rfl⟩ := h.eq_of_frames hf
    exact hv (hs.path_subset h.2)
  | pass u v vs fs hf hv ha =>
    refine hstay ?_
    intro x y h
    obtain ⟨rfl, rfl⟩ := h.eq_of_frames hf
    rw [hs.active_eq] at ha
    exact ha h.2
  | close u v vs fs hf hv ha =>
    rw [hs.active_eq] at ha
    simp only [close?_of_mem ha, Option.toList_some, List.mem_append, List.mem_singleton]
    refine or_congr_right ⟨fun hc => ⟨u, v, ⟨⟨vs, fs, hf⟩, ha⟩, hc⟩, ?_⟩
    rintro ⟨x, y, h, hc⟩
    obtain ⟨rfl, rfl⟩ := h.eq_of_frames hf
    exact hc

end Search

namespace Digraph

variable [DecidableEq α] {g : Digraph α} {n : Nat} {u v : α}

/-- At moment `n` the edge from `u` to `v` closes a path. -/
def Closes (g : Digraph α) (n : Nat) (u v : α) : Prop :=
  (g.tour n).search.Closes u v

/-- The path that a closing at `v` notes at moment `n`. -/
def loopAt (g : Digraph α) (n : Nat) (v : α) : List α :=
  Search.loop (g.tour n).search.path v

theorem mem_noted (g : Digraph α) (n : Nat) (c : List α) :
    c ∈ (g.tour n).search.noted ↔ ∃ m < n, ∃ u v, g.Closes m u v ∧ c = g.loopAt m v := by
  induction n with
  | zero => simp [tour]
  | succ n ih =>
    rw [(g.tour_move n).mem_noted (g.tour_sound n), ih]
    constructor
    · rintro (⟨m, hm, h⟩ | h)
      · exact ⟨m, Nat.lt_succ_of_lt hm, h⟩
      · exact ⟨n, Nat.lt_succ_self n, h⟩
    · rintro ⟨m, hm, h⟩
      rcases Nat.lt_succ_iff_lt_or_eq.mp hm with hm | rfl
      · exact Or.inl ⟨m, hm, h⟩
      · exact Or.inr h

/-- The closed paths that the search notes are the loops of its closings. -/
theorem mem_closedPaths (g : Digraph α) (c : List α) :
    c ∈ g.closedPaths ↔ ∃ n u v, g.Closes n u v ∧ c = g.loopAt n v := by
  obtain ⟨N, hN⟩ := g.exists_tour_eq_explore
  have hnoted : g.closedPaths = (g.tour N).search.noted := by rw [hN, closedPaths]
  rw [hnoted, mem_noted]
  constructor
  · rintro ⟨n, -, h⟩
    exact ⟨n, h⟩
  · rintro ⟨n, u, v, h, hc⟩
    refine ⟨n, ?_, u, v, h, hc⟩
    by_contra hn
    have hd := g.tour_of_done hN g.explore_frames (Nat.le_of_not_lt hn)
    refine Search.not_closes_of_frames_nil ?_ u v h
    rw [hd]
    exact g.explore_frames

/-! ## What a closed path is -/

/-- The vertices of the path between the two ends of the edge that closes it. -/
theorem Closes.exists_split (h : g.Closes n u v) : ∃ pre post,
    (g.tour n).search.path = pre ++ v :: post ∧ v ∉ pre ∧ (pre ++ [v]).head? = some u ∧
      g.loopAt n v = v :: pre.reverse ++ [v] := by
  obtain ⟨⟨vs, fs, hf⟩, hv⟩ := h
  obtain ⟨pre, post, hp, hpre⟩ := List.eq_append_cons_of_mem hv
  have hu := (g.tour_sound n).path_of_frames hf
  refine ⟨pre, post, hp, hpre, ?_, ?_⟩
  · rw [hu] at hp
    cases pre with
    | nil => simpa using (List.cons.inj hp).1.symm
    | cons x xs => simpa using (List.cons.inj hp).1.symm
  · rw [loopAt, hp, Search.loop_append_cons hpre]

theorem Closes.mem_next (h : g.Closes n u v) : v ∈ g.next u := by
  obtain ⟨⟨vs, fs, hf⟩, -⟩ := h
  exact (g.tour_sound n).frames_next hf

/-- A path along edges that comes back to its start and meets no other vertex twice. -/
structure ClosedPath (g : Digraph α) (c : List α) : Prop where
  length : 2 ≤ c.length
  closed : c.head? = c.getLast?
  simple : c.dropLast.Nodup
  linked : c.IsChain fun u v => v ∈ g.next u

theorem Closes.closedPath (h : g.Closes n u v) : g.ClosedPath (g.loopAt n v) := by
  obtain ⟨pre, post, hp, hpre, hu, hc⟩ := h.exists_split
  have hs := g.tour_sound n
  have hnd := hs.path_nodup
  have hch := hs.path_linked
  rw [hp] at hnd hch
  have hpart : (pre ++ [v]).IsChain fun w x => w ∈ g.next x := by
    rw [List.append_cons] at hch
    exact hch.left_of_append
  rw [hc]
  constructor
  · simp
  · rw [List.getLast?_concat]
    rfl
  · rw [List.dropLast_concat, List.nodup_cons, List.mem_reverse, List.nodup_reverse]
    exact ⟨hpre, hnd.of_append_left⟩
  · rw [← List.reverse_concat]
    refine (List.isChain_reverse.mpr hpart).append (.singleton v) ?_
    intro x hx y hy
    rw [List.getLast?_reverse, hu, Option.mem_some_iff] at hx
    rw [List.head?_singleton, Option.mem_some_iff] at hy
    subst hx hy
    exact h.mem_next

theorem Closes.getLast?_dropLast (h : g.Closes n u v) : (g.loopAt n v).dropLast.getLast? = some u := by
  obtain ⟨pre, post, -, -, hu, hc⟩ := h.exists_split
  rw [hc, List.dropLast_concat, ← List.reverse_concat, List.getLast?_reverse, hu]

theorem closedPath_of_mem {c : List α} (h : c ∈ g.closedPaths) : g.ClosedPath c := by
  obtain ⟨n, u, v, hcl, rfl⟩ := (g.mem_closedPaths c).mp h
  exact hcl.closedPath

/-- The last vertex of a closed path is the first one again. -/
theorem ClosedPath.mem_dropLast {c : List α} {a : α} (h : g.ClosedPath c) : a ∈ c.dropLast ↔ a ∈ c := by
  refine ⟨fun ha => List.dropLast_subset c ha, ?_⟩
  obtain ⟨x, y, l, rfl⟩ : ∃ x y l, c = x :: y :: l := by
    match c, h.length with
    | x :: y :: l, _ => exact ⟨x, y, l, rfl⟩
  have hlast : x ∈ (x :: y :: l).getLast? := by rw [← h.closed, List.head?_cons, Option.mem_some_iff]
  intro ha
  rw [← List.dropLast_append_getLast? x hlast, List.mem_append, List.mem_singleton] at ha
  rcases ha with ha | rfl
  · exact ha
  · rw [List.dropLast_cons_cons]
    exact List.mem_cons_self

/-! ## Going round -/

/-- The vertices of a closed path, one after the other and round again. -/
structure Round (g : Digraph α) (c : List α) where
  period : Nat
  period_pos : 0 < period
  vertex : Nat → α
  length_eq : c.length = period + 1
  linked : ∀ k, vertex (k + 1) ∈ g.next (vertex k)
  eq_iff : ∀ j k, vertex j = vertex k ↔ j % period = k % period
  mem : ∀ k, vertex k ∈ c
  head_eq : c.head? = some (vertex 0)
  last_eq : c.dropLast.getLast? = some (vertex (period - 1))

theorem ClosedPath.exists_round_eq {path : List α} (h : g.ClosedPath path) :
    ∃ R : g.Round path, path = (List.range R.period).map R.vertex ++ [R.vertex 0] := by
  obtain ⟨N, hN⟩ : ∃ N, path.length = N + 2 := ⟨path.length - 2, by have := h.length; omega⟩
  have hmod (k : Nat) : k % (N + 1) < N + 1 := Nat.mod_lt k (Nat.succ_pos N)
  have hget (k : Nat) : ∃ x, path[k % (N + 1)]? = some x := by
    rw [← Option.isSome_iff_exists, isSome_getElem?, hN]
    exact Nat.lt_succ_of_lt (hmod k)
  choose x hx using hget
  have hdrop (k : Nat) : path.dropLast[k % (N + 1)]? = some (x k) := by
    rw [List.getElem?_dropLast, hN, Nat.add_sub_cancel (N + 1) 1, if_pos (hmod k), hx]
  refine ⟨⟨N + 1, Nat.succ_pos N, x, hN, ?_, ?_, ?_, ?_, ?_⟩, ?_⟩
  · intro k
    have hnext : path[k % (N + 1) + 1]? = some (x (k + 1)) := by
      rw [← hx (k + 1), ← Nat.mod_add_mod]
      by_cases hlast : k % (N + 1) + 1 = N + 1
      · have hc := h.closed
        rw [List.getLast?_eq_getElem?, hN, List.head?_eq_getElem?] at hc
        rw [hlast, Nat.mod_self]
        exact hc.symm
      · have hlt : k % (N + 1) + 1 < N + 1 := Nat.lt_of_le_of_ne (hmod k) hlast
        rw [Nat.mod_eq_of_lt hlt]
    obtain ⟨hi, hxk⟩ := List.getElem?_eq_some_iff.mp (hx k)
    obtain ⟨hj, hxk'⟩ := List.getElem?_eq_some_iff.mp hnext
    have hedge := List.isChain_iff_getElem.mp h.linked (k % (N + 1)) hj
    rw [hxk, hxk'] at hedge
    exact hedge
  · intro j k
    have hj : j % (N + 1) < path.dropLast.length := by
      rw [List.length_dropLast, hN]
      exact hmod j
    rw [← Option.some.injEq, ← hdrop, ← hdrop, List.getElem?_inj hj h.simple]
  · intro k
    exact List.mem_of_getElem? (hx k)
  · rw [List.head?_eq_getElem?, ← hx 0, Nat.zero_mod]
  · rw [List.getLast?_eq_getElem?, List.length_dropLast, hN, ← hdrop, Nat.add_sub_cancel,
      Nat.mod_eq_of_lt (Nat.lt_succ_self N)]
    rfl
  · have hne : path ≠ [] := List.ne_nil_of_length_eq_add_one hN
    have hlast : path.getLast hne = x 0 := by
      rw [← Option.some.injEq, ← List.getLast?_eq_some_getLast hne, ← h.closed, List.head?_eq_getElem?, ← hx 0,
        Nat.zero_mod]
    have hfront : path.dropLast = (List.range (N + 1)).map x := by
      refine List.ext_getElem? fun k => ?_
      by_cases hk : k < N + 1
      · have hget := hdrop k
        rw [Nat.mod_eq_of_lt hk] at hget
        rw [hget, List.getElem?_map, List.getElem?_range hk, Option.map_some]
      · rw [List.getElem?_eq_none (by simpa [hN] using hk), List.getElem?_eq_none (by simpa using hk)]
    calc path = path.dropLast ++ [path.getLast hne] := (List.dropLast_append_getLast hne).symm
      _ = (List.range (N + 1)).map x ++ [x 0] := by rw [hfront, hlast]

theorem ClosedPath.exists_round {path : List α} (h : g.ClosedPath path) : Nonempty (g.Round path) := by
  obtain ⟨R, -⟩ := h.exists_round_eq
  exact ⟨R⟩

end Digraph

end Gridlock
