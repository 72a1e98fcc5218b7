import Gridlock.Proofs.Entrance
import Gridlock.Proofs.Examination
import Gridlock.Proofs.Interleaving
import Gridlock.Proofs.Ring

/-!
# Rings that cannot be missed

A ring is missed if the search enters it at a bad place. Where that is depends on the order of the table.
But if a group of threads has its rings to itself, the search enters the group at a thread; and if each of
these threads comes to the first lock of its ring before it comes to the last one, the ring is reported.

* `Graph.IsRing` : rings by the names of their threads and locks; `IsRing.exists_ring`, `Ring.isRing`
* `Ring.not_entersFrom` : the last lock of a ring is not entered from its first thread if the thread waits for
  the first lock before
* `Graph.Guard`, `Graph.Guarded` : a group of threads whose rings cannot be missed
* `exists_first_thread` : the search enters the group at a thread
* `hasDeadlock_of_guarded`, `hasDeadlock_eq_false_of_forall_not_isRing` : what is reported of a guarded group,
  and without rings
-/

namespace Gridlock

namespace Graph

variable {g : Graph} {n : Nat}

/-! ## Rings by name -/

/-- Threads and locks in a ring, by name: each thread waits for its lock, which the next thread takes. -/
structure IsRing (g : Graph) (threads locks : Fin (n + 2) → Text) : Prop where
  threads_injective : Function.Injective threads
  locks_injective : Function.Injective locks
  waits : ∀ i, locks i ∈ g.waits (threads i)
  taken : ∀ i, threads (i + 1) ∈ g.takers (locks i)

variable {threads locks : Fin (n + 2) → Text}

theorem IsRing.exists_ring (r : g.IsRing threads locks) (h : g.WellFormed) : ∃ R : g.Ring n,
    (∀ i, R.thread i = g.listed .process (threads i)) ∧ ∀ i, R.lock i = g.listed .resource (locks i) :=
  ⟨{ thread := fun i => g.listed .process (threads i)
     lock := fun i => g.listed .resource (locks i)
     thread_side := fun _ => rfl
     lock_side := fun _ => rfl
     thread_injective := (g.listed_injective .process).comp r.threads_injective
     lock_injective := (g.listed_injective .resource).comp r.locks_injective
     waits := fun i => h.mem_waits.mp (r.waits i)
     taken := fun i => h.mem_takers.mp (r.taken i) }, fun _ => rfl, fun _ => rfl⟩

theorem Ring.isRing (r : g.Ring n) (h : g.WellFormed) :
    g.IsRing (fun i => (r.thread i).name) fun i => (r.lock i).name := by
  have hthread (i : Fin (n + 2)) : r.thread i = g.listed .process (r.thread i).name :=
    h.eq_listed_process (mem_nodes_of_mem_targetsOf (r.waits i)) (r.thread_side i)
  have hlock (i : Fin (n + 2)) : r.lock i = g.listed .resource (r.lock i).name :=
    h.eq_listed_resource (mem_nodes_of_mem_targetsOf (r.taken i)) (r.lock_side i)
  refine ⟨?_, ?_, ?_, ?_⟩
  · intro i j hij
    apply r.thread_injective
    rw [hthread i, hthread j]
    exact congrArg _ hij
  · intro i j hij
    apply r.lock_injective
    rw [hlock i, hlock j]
    exact congrArg _ hij
  · intro i
    rw [h.mem_waits, ← hthread, ← hlock]
    exact r.waits i
  · intro i
    rw [h.mem_takers, ← hthread, ← hlock]
    exact r.taken i

theorem hasDeadlock_eq_false_of_forall_not_isRing (h : g.WellFormed)
    (hnone : ∀ n, ∀ threads locks : Fin (n + 2) → Text, ¬ g.IsRing threads locks) :
    g.detect.hasDeadlock = false := by
  rw [← Bool.not_eq_true, hasDeadlock_iff_closedAt h]
  rintro ⟨n, r, -⟩
  exact hnone n _ _ (r.isRing h)

/-! ## The last lock of a ring -/

/-- Suppose the search enters a ring at its first thread, which waits for the first lock before it waits for
the last one. Then it goes round the ring and does not enter the last lock from the first thread. -/
theorem Ring.not_entersFrom (r : g.Ring n) (hfirst : g.digraph.EntersFirst (r.thread 0) r.Has)
    (hahead : ∀ pre post, g.targetsOf (r.thread 0) = pre ++ r.lock (Fin.last (n + 1)) :: post →
      r.lock 0 ∈ pre) :
    ¬ g.digraph.EntersFrom (r.thread 0) (r.lock (Fin.last (n + 1))) := by
  intro hfrom
  obtain ⟨m, vs, fs, hf, hnot⟩ := hfrom.exists_descent
  have hs := g.digraph.tour_sound m
  have hleft := (g.digraph.tour_thorough m).left
  have hpath := hs.path_of_frames hf
  -- of the ring only the first thread is on the path
  have hoff (x : Node) (hx : r.Has x) (hne : x ≠ r.thread 0) : x ∉ (g.digraph.tour m).search.path := by
    rw [hpath, List.mem_cons, not_or]
    exact ⟨hne, fun hbelow => hfirst.not_below [] hpath hbelow hx⟩
  have hlock_off (i : Fin (n + 2)) : r.lock i ∉ (g.digraph.tour m).search.path := by
    apply hoff _ (Or.inr ⟨i, rfl⟩)
    intro he
    have hside := r.lock_side i
    rw [he, r.thread_side] at hside
    cases hside
  have hzero : r.lock 0 ∈ (g.digraph.tour m).search.visited := by
    obtain ⟨examined, hnext, hvis⟩ := g.digraph.exists_examined m (r.thread 0)
    rw [Search.rest_of_frames hs hf, digraph_next] at hnext
    exact hvis _ (hahead _ _ hnext)
  have hall (i : Fin (n + 2)) : r.lock i ∈ (g.digraph.tour m).search.visited := by
    induction i using Fin.induction with
    | zero => exact hzero
    | succ i ih =>
      have hthread := (hleft _ ih (hlock_off _) _ (r.step_thread i.castSucc).1).1
      rw [Fin.coeSucc_eq_succ] at hthread
      have hne : r.thread i.succ ≠ r.thread 0 := r.thread_injective.ne (Fin.succ_ne_zero i)
      exact (hleft _ hthread (hoff _ (Or.inl ⟨i.succ, rfl⟩) hne) _ (r.step_lock i.succ).1).1
  exact hnot (hall (Fin.last (n + 1)))

/-! ## Groups of threads -/

/-- Nobody outside the group waits for the lock or takes it. -/
def Within (g : Graph) (group : Text → Prop) (key : Text) : Prop :=
  ∀ t, key ∈ g.waits t ∨ t ∈ g.takers key → group t

/-- A ring of the thread `t` whose locks are for the group alone. The thread waits for the first lock of the
ring before it waits for the last one, if it ever does. -/
structure Guard (g : Graph) (group : Text → Prop) (t : Text) (threads locks : Fin (n + 2) → Text) :
    Prop extends g.IsRing threads locks where
  first : threads 0 = t
  within : ∀ i, g.Within group (locks i)
  ahead : ∀ pre post, g.waits t = pre ++ locks (Fin.last (n + 1)) :: post → locks 0 ∈ pre

/-- Each thread of the group has a ring that cannot be missed. -/
def Guarded (g : Graph) (group : Text → Prop) : Prop :=
  ∀ t, group t → ∃ n, ∃ threads locks : Fin (n + 2) → Text, g.Guard group t threads locks

def Inside (g : Graph) (group : Text → Prop) (x : Node) : Prop :=
  (x.side = .process → group x.name) ∧ (x.side = .resource → g.Within group x.name)

section Group
variable {group : Text → Prop} {t : Text}

theorem inside_thread (ht : group t) : g.Inside group (g.listed .process t) :=
  ⟨fun _ => ht, fun hs => (nomatch hs)⟩

theorem inside_lock {key : Text} (hkey : g.Within group key) : g.Inside group (g.listed .resource key) :=
  ⟨fun hs => (nomatch hs), fun _ => hkey⟩

/-- Whoever has an edge to or from a lock of the group belongs to the group. -/
theorem Inside.of_edge (h : g.WellFormed) {p l : Node} (hl : g.Inside group l) (hls : l.side = .resource)
    (hps : p.side = .process) (he : l ∈ g.targetsOf p ∨ p ∈ g.targetsOf l) : g.Inside group p := by
  have hpn : p ∈ g.nodes := he.elim mem_nodes_of_mem_targetsOf (h.target_mem l p)
  have hln : l ∈ g.nodes := he.elim (h.target_mem p l) mem_nodes_of_mem_targetsOf
  have hp := h.eq_listed_process hpn hps
  have hl' := h.eq_listed_resource hln hls
  rw [hp] at he ⊢
  rw [hl', ← h.mem_waits, ← h.mem_takers] at he
  exact inside_thread (hl.2 hls p.name he)

theorem mem_of_pair_sublist {α : Type} {l before after : List α} {p w : α} (hl : l = before ++ w :: after)
    (hnd : l.Nodup) (hpw : [p, w].Sublist l) : p ∈ before := by
  subst hl
  have hrev : [w, p].Sublist (after.reverse ++ w :: before.reverse) := by
    simpa using hpw.reverse
  have hw : w ∉ after.reverse := by
    rw [List.mem_reverse]
    exact (List.nodup_cons.mp (List.nodup_append.mp hnd).2.1).1
  have hp := Digraph.sublist_of_cons_sublist_append hrev hw
  simpa using hp

/-- The search enters the group at one of its threads. A lock could be entered first only from outside, or as
a root; but who has an edge to it is inside, and the table lists a thread of the group before it. -/
theorem exists_first_thread (h : g.Orderly) (ht : group t) (hwaits : g.waits t ≠ []) :
    ∃ t, group t ∧ g.digraph.EntersFirst (g.listed .process t) (g.Inside group) := by
  have hmem : g.listed .process t ∈ g.digraph.explore.visited := by
    obtain ⟨key, hkey⟩ := List.exists_mem_of_ne_nil _ hwaits
    apply Digraph.mem_explore_visited
    rw [digraph_vertices]
    exact mem_nodes_of_mem_targetsOf (h.mem_waits.mp hkey)
  obtain ⟨w, hin, hfirst⟩ := Digraph.exists_entersFirst hmem (inside_thread ht)
  have hthread (hw : w ∈ g.nodes) (hs : w.side = .process) :
      ∃ t, group t ∧ g.digraph.EntersFirst (g.listed .process t) (g.Inside group) := by
    rw [h.eq_listed_process hw hs] at hfirst
    exact ⟨w.name, hin.1 hs, hfirst⟩
  rcases hfirst.from_or_root with ⟨u, hfrom, hout⟩ | ⟨before, after, hvert, hbefore⟩
  · have hwu : w ∈ g.targetsOf u := by
      rw [← digraph_next]
      exact hfrom.mem_next
    cases hs : w.side with
    | process => exact hthread (h.target_mem u w hwu) hs
    | resource =>
      have hus := h.target_side u w hwu
      rw [hs] at hus
      exact absurd (hin.of_edge h.toWellFormed hs (Side.eq_process_of_ne hus.symm) (Or.inl hwu)) hout
  · rw [digraph_vertices] at hvert
    have hw : w ∈ g.nodes := by
      rw [hvert]
      exact List.mem_append_right before List.mem_cons_self
    cases hs : w.side with
    | process => exact hthread hw hs
    | resource =>
      obtain ⟨p, hpw, hps, he⟩ := h.anchored w hw hs
      have hp := mem_of_pair_sublist hvert h.nodup hpw
      exact absurd (hin.of_edge h.toWellFormed hs hps he) (hbefore p hp)

theorem hasDeadlock_of_guarded (h : g.Orderly) (hg : g.Guarded group) (ht : group t) :
    g.detect.hasDeadlock = true := by
  obtain ⟨t, ht, hfirst⟩ : ∃ t, group t ∧ g.digraph.EntersFirst (g.listed .process t) (g.Inside group) := by
    obtain ⟨n, threads, locks, r⟩ := hg t ht
    exact exists_first_thread h ht (List.ne_nil_of_mem (r.first ▸ r.waits 0))
  obtain ⟨n, threads, locks, r⟩ := hg t ht
  obtain ⟨R, hthread, hlock⟩ := r.exists_ring h.toWellFormed
  have hzero : R.thread 0 = g.listed .process t := by rw [hthread, r.first]
  have hfirst : g.digraph.EntersFirst (R.thread 0) R.Has := by
    rw [hzero]
    refine hfirst.mono ?_
    rintro x (⟨i, rfl⟩ | ⟨i, rfl⟩)
    · rw [hthread]
      exact inside_thread (r.within i _ (Or.inl (r.waits i)))
    · rw [hlock]
      exact inside_lock (r.within i)
  have hahead : ∀ pre post, g.targetsOf (R.thread 0) = pre ++ R.lock (Fin.last (n + 1)) :: post →
      R.lock 0 ∈ pre := by
    intro pre post he
    have hnames : g.waits t = pre.map (·.name) ++ locks (Fin.last (n + 1)) :: post.map (·.name) := by
      rw [waits, ← hzero, he, hlock, List.map_append, List.map_cons]
      rfl
    obtain ⟨x, hx, hname⟩ := List.mem_map.mp (r.ahead _ _ hnames)
    have hxt : x ∈ g.targetsOf (R.thread 0) := he ▸ List.mem_append_left _ hx
    have hxs : x.side = .resource := by
      have hside := h.target_side _ x hxt
      rw [R.thread_side] at hside
      exact Side.eq_resource_of_ne hside
    rw [h.eq_listed_resource (h.target_mem _ x hxt) hxs, hname, ← hlock] at hx
    exact hx
  rw [hasDeadlock_iff_closedAt h.toWellFormed]
  refine ⟨n, R, R.lock (Fin.last (n + 1)), R.thread 0, ⟨Or.inr ⟨Fin.last (n + 1), rfl, ?_⟩, hfirst⟩,
    R.not_entersFrom hfirst hahead⟩
  rw [Fin.last_add_one]

end Group

end Graph

end Gridlock
