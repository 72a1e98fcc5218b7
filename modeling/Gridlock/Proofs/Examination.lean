import Gridlock.Proofs.FirstEntry

/-!
# How often an edge is examined

The search examines the neighbours of a vertex one by one, each as often as it is listed. So an edge that
closes a path closes it as often as the edge is there.

* `Search.rest` : the neighbours of a vertex that are still to be examined
* `Search.Move.rest_cases` : a moment examines one neighbour of one vertex, or none; `rest_eq_or_examines` : what this
  is for a given vertex
* `exists_examined` : those examined come first in the list, and they have been entered
* `Closes.count_closedPaths` : how often a closed path is noted
-/

namespace Gridlock

variable {α : Type} [DecidableEq α]

namespace Search

variable {g : Digraph α} {s s' : Search α} {u v : α}

def rest (g : Digraph α) (s : Search α) (u : α) : List α :=
  if u ∈ s.visited then (s.frames.lookup u).getD [] else g.next u

theorem rest_of_frames_nil (hf : s.frames = []) (hu : u ∈ s.visited) : s.rest g u = [] := by
  rw [rest, if_pos hu, hf]
  rfl

theorem rest_of_frames (hs : s.Sound g) {vs : List α} {fs : List (α × List α)}
    (hf : s.frames = (u, vs) :: fs) : s.rest g u = vs := by
  have hu : u ∈ s.visited := hs.path_subset (by rw [hs.path_of_frames hf]; exact List.mem_cons_self)
  rw [rest, if_pos hu, hf, List.lookup_cons_self, Option.getD_some]

/-- A vertex that is entered has all its neighbours before it, as it had before. -/
theorem rest_enter (hv : v ∉ s.visited) (u : α) : (s.enter g v).rest g u = s.rest g u := by
  unfold rest enter
  by_cases h : u = v
  · subst h
    rw [if_pos List.mem_cons_self, if_neg hv, List.lookup_cons_self, Option.getD_some]
  · have hne : (u == v) = false := beq_eq_false_iff_ne.mpr h
    simp only [List.mem_cons, h, false_or, List.lookup_cons, hne]

theorem rest_of_frames_tail {w : α} {vs vs' : List α} {fs : List (α × List α)} {noted : List (List α)}
    (hf : s.frames = (w, vs) :: fs) (h : u ≠ w) :
    rest g { s with frames := (w, vs') :: fs, noted := noted } u = s.rest g u := by
  have hne : (u == w) = false := beq_eq_false_iff_ne.mpr h
  unfold rest
  simp only [hf, List.lookup_cons, hne]

theorem rest_leave (hs : s.Sound g) {w : α} {fs : List (α × List α)} (hf : s.frames = (w, []) :: fs)
    (u : α) :
    rest g { s with frames := fs, path := s.path.tail, active := s.active.erase w } u = s.rest g u := by
  by_cases h : u = w
  · subst h
    have hu : u ∈ s.visited := hs.path_subset (by rw [hs.path_of_frames hf]; exact List.mem_cons_self)
    have hnd := hs.path_nodup
    rw [hs.path_of_frames hf, List.nodup_cons] at hnd
    have hnone : fs.lookup u = none := by
      rw [List.lookup_eq_none_iff]
      intro f hm
      have hne : u ≠ f.1 := fun he => hnd.1 (he ▸ List.mem_map_of_mem hm)
      simpa using hne
    rw [rest_of_frames hs hf, rest, if_pos hu, hnone]
    rfl
  · have hne : (u == w) = false := beq_eq_false_iff_ne.mpr h
    unfold rest
    simp only [hf, List.lookup_cons, hne]

/-- A moment examines one neighbour of the innermost vertex, which has been entered afterwards and which
closes a path if it is on the path; or it examines and notes nothing, since there is none. -/
theorem Move.rest_cases (hs : s.Sound g) (m : s.Move g s') :
    ((∀ u, s'.rest g u = s.rest g u) ∧ s'.noted = s.noted ∧ ∀ f ∈ s.frames.head?, f.2 = []) ∨
      ∃ w x vs fs, s.frames = (w, x :: vs) :: fs ∧ s'.rest g w = vs ∧
        (∀ u, u ≠ w → s'.rest g u = s.rest g u) ∧ x ∈ s'.visited ∧
        s'.noted = s.noted ++ if x ∈ s.path then [loop s.path x] else [] := by
  cases m with
  | stay hf => exact Or.inl ⟨fun u => rfl, rfl, by simp [hf]⟩
  | root r hf hr => exact Or.inl ⟨rest_enter hr, rfl, by simp [hf]⟩
  | leave w fs hf => exact Or.inl ⟨rest_leave hs hf, rfl, by simp [hf]⟩
  | descend w x vs fs hf hx =>
    have hxp : x ∉ s.path := fun hm => hx (hs.path_subset hm)
    have hmid := hs.examine hf s.noted
    have henter := rest_enter (g := g) (s := { s with frames := (w, vs) :: fs }) hx
    refine Or.inr ⟨w, x, vs, fs, hf, ?_, ?_, List.mem_cons_self, ?_⟩
    · rw [henter, rest_of_frames hmid rfl]
    · intro u hu
      rw [henter]
      exact rest_of_frames_tail hf hu
    · rw [if_neg hxp, List.append_nil]
      rfl
  | close w x vs fs hf hx ha =>
    rw [hs.active_eq] at ha
    have hmid := hs.examine hf (s.noted ++ (close? s.path x).toList)
    refine Or.inr ⟨w, x, vs, fs, hf, rest_of_frames hmid rfl, ?_, hx, ?_⟩
    · intro u hu
      exact rest_of_frames_tail hf hu
    · rw [if_pos ha, close?_of_mem ha]
      rfl
  | pass w x vs fs hf hx ha =>
    rw [hs.active_eq] at ha
    have hmid := hs.examine hf s.noted
    refine Or.inr ⟨w, x, vs, fs, hf, rest_of_frames hmid rfl, ?_, hx, ?_⟩
    · intro u hu
      exact rest_of_frames_tail hf hu
    · rw [if_neg ha, List.append_nil]

/-- A moment examines the first of the neighbours of a vertex that are left, or leaves them as they are. -/
theorem Move.rest_eq_or_examines (hs : s.Sound g) (m : s.Move g s') (u : α) : s'.rest g u = s.rest g u ∨
    ∃ x fs, s.frames = (u, x :: s'.rest g u) :: fs ∧ s.rest g u = x :: s'.rest g u ∧ x ∈ s'.visited := by
  rcases m.rest_cases hs with ⟨hrest, -⟩ | ⟨w, x, vs, fs, hf, hw, hother, hx, -⟩
  · exact Or.inl (hrest u)
  · by_cases hu : u = w
    · subst hu
      rw [hw]
      exact Or.inr ⟨x, fs, hf, rest_of_frames hs hf, hx⟩
    · exact Or.inl (hother u hu)

end Search

namespace Digraph

variable {g : Digraph α} {m n : Nat} {u v : α}

/-- The neighbours of a vertex are those examined, which have been entered, and then the others. -/
theorem exists_examined (g : Digraph α) (n : Nat) (u : α) :
    ∃ examined, g.next u = examined ++ (g.tour n).search.rest g u ∧
      ∀ y ∈ examined, y ∈ (g.tour n).search.visited := by
  induction n with
  | zero => exact ⟨[], rfl, by simp⟩
  | succ n ih =>
    obtain ⟨examined, hnext, hvis⟩ := ih
    have hkeep := (g.tour_move n).visited_suffix.subset
    rcases (g.tour_move n).rest_eq_or_examines (g.tour_sound n) u with hrest | ⟨x, fs, -, hrest, hx⟩
    · exact ⟨examined, by rw [hrest, hnext], fun y hy => hkeep (hvis y hy)⟩
    · rw [hrest] at hnext
      refine ⟨examined ++ [x], by rw [hnext, List.append_assoc, List.singleton_append], ?_⟩
      intro y hy
      rcases List.mem_append.mp hy with hy | hy
      · exact hkeep (hvis y hy)
      · rw [List.mem_singleton.mp hy]
        exact hx

/-- Whenever a vertex is the innermost one, the path is the same. -/
theorem path_eq_of_frames {vs vs' : List α} {fs fs' : List (α × List α)}
    (hm : (g.tour m).search.frames = (u, vs) :: fs) (hn : (g.tour n).search.frames = (u, vs') :: fs') :
    (g.tour m).search.path = (g.tour n).search.path := by
  have hpm := (g.tour_sound m).path_of_frames hm
  have hpn := (g.tour_sound n).path_of_frames hn
  rw [hpm, hpn, g.below_unique [] [] hpm hpn]

/-- The ends of a closed path tell the edge that closed it. -/
theorem Closes.eq_of_loopAt_eq {x y : α} (h : g.Closes m u v) (h' : g.Closes n x y)
    (he : g.loopAt n y = g.loopAt m v) : x = u ∧ y = v := by
  have hx := h'.getLast?_dropLast
  rw [he, h.getLast?_dropLast] at hx
  exact ⟨(Option.some.inj hx).symm, (List.cons.inj he).1⟩

/-- As long as an edge that closes a path is still to be examined, its path is still to be noted. -/
theorem Closes.count_noted_add (h : g.Closes m u v) (n : Nat) :
    (g.tour n).search.noted.count (g.loopAt m v) + ((g.tour n).search.rest g u).count v =
      (g.next u).count v := by
  induction n with
  | zero => exact Nat.zero_add _
  | succ n ih =>
    obtain ⟨⟨vs₀, fs₀, hf₀⟩, hv⟩ := id h
    rcases (g.tour_move n).rest_cases (g.tour_sound n) with ⟨hrest, hnoted, -⟩ |
      ⟨w, x, vs, fs, hf, hw, hother, -, hnoted⟩
    · rw [hrest, hnoted, ih]
    · rw [hnoted, List.count_append]
      by_cases hedge : w = u ∧ x = v
      · obtain ⟨rfl, rfl⟩ := hedge
        have hpath := path_eq_of_frames hf₀ hf
        rw [Search.rest_of_frames (g.tour_sound n) hf, List.count_cons_self] at ih
        have hone : (if x ∈ (g.tour n).search.path then [Search.loop (g.tour n).search.path x]
            else []).count (g.loopAt m x) = 1 := by
          rw [if_pos (hpath ▸ hv), ← hpath]
          exact List.count_singleton_self
        rw [hw, hone]
        omega
      · have hzero : (if x ∈ (g.tour n).search.path then [Search.loop (g.tour n).search.path x]
            else []).count (g.loopAt m v) = 0 := by
          split
          · next hx =>
            apply List.count_eq_zero_of_not_mem
            intro hm
            have hcl : g.Closes n w x := ⟨⟨vs, fs, hf⟩, hx⟩
            exact hedge (h.eq_of_loopAt_eq hcl (List.mem_singleton.mp hm).symm)
          · rfl
        have hrest : ((g.tour (n + 1)).search.rest g u).count v =
            ((g.tour n).search.rest g u).count v := by
          by_cases hu : u = w
          · subst hu
            have hxv : x ≠ v := fun he => hedge ⟨rfl, he⟩
            rw [hw, Search.rest_of_frames (g.tour_sound n) hf, List.count_cons_of_ne hxv]
          · rw [hother u hu]
        omega

/-- A closed path is noted as often as the edge that closes it is there. -/
theorem Closes.count_closedPaths (h : g.Closes m u v) :
    g.closedPaths.count (g.loopAt m v) = (g.next u).count v := by
  obtain ⟨N, hN⟩ := g.exists_tour_eq_explore
  have hcount := h.count_noted_add N
  have hu : u ∈ (g.tour N).search.visited := by
    obtain ⟨⟨vs, fs, hf⟩, -⟩ := h
    have hum : u ∈ (g.tour m).search.visited := by
      apply (g.tour_sound m).path_subset
      rw [(g.tour_sound m).path_of_frames hf]
      exact List.mem_cons_self
    rw [hN]
    exact (g.tour_visited_suffix_explore m).subset hum
  have hf : (g.tour N).search.frames = [] := by
    rw [hN]
    exact g.explore_frames
  rw [Search.rest_of_frames_nil hf hu, List.count_nil, Nat.add_zero, hN] at hcount
  exact hcount

end Digraph

end Gridlock
