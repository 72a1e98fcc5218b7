import Gridlock.Proofs.Detection
import Gridlock.Proofs.History

/-!
# Every cycle reported goes back to events

* `exists_tookOver_of_mem_cycle` : the threads of a cycle, when permits are not taken as locks
* `detect_grounded` : the events behind a cycle
-/

namespace Gridlock

variable {events : List Event} {c : List Node} {u v : Node}

theorem Took.exists_event {thread key : Text} (h : Took events thread key) :
    ∃ e ∈ events, e.key? = some key := by
  obtain ⟨before, e, after, rfl, -, hk, -⟩ := h
  exact ⟨e, by simp, hk⟩

/-- If nobody takes the permit of a thread that parks, every thread of a cycle took a lock over
another: the lock it waits for is taken by the next thread, so it is no permit. -/
theorem exists_tookOver_of_mem_cycle (h : c ∈ (Session.feed {} events).graph.detect.cycles)
    (hpermit : ∀ e ∈ events, ∀ thread, Parked events thread → e.key? ≠ some (permitKey thread))
    (hu : u ∈ c) (hus : u.side = .process) : ∃ under key, TookOver events u.name under key := by
  have hc := Graph.deadlockCycle_of_mem h
  obtain ⟨v, huv⟩ := Graph.exists_succ_of_mem_detect h hu
  rcases waits_of_mem_targetsOf (hc.linked (u, v) huv) hus with ⟨under, ht⟩ | ⟨hpark, hv⟩
  · exact ⟨under, v.name, ht⟩
  · have hvs : v.side = .resource := Side.eq_resource_of_ne (hus ▸ hc.alternating (u, v) huv)
    obtain ⟨w, hvw⟩ := Graph.exists_succ_of_mem_detect h (List.mem_of_mem_tail (List.of_mem_zip huv).2)
    obtain ⟨e, he, hk⟩ := (took_of_mem_targetsOf (hc.linked (v, w) hvw) hvs).exists_event
    rw [hv] at hk
    exact absurd hk (hpermit e he u.name hpark)

/-- Every cycle that a session reports goes back to its events: a thread that is followed by a lock
took this lock while it held another, or parked and the lock is its permit; and a lock that is followed
by a thread was taken by this thread. So, if nobody takes the permit of a thread that parks, at least
two threads took a lock while they held another. -/
theorem detect_grounded (events : List Event) :
    ∀ c ∈ (Session.feed {} events).graph.detect.cycles,
      (∀ u v, (u, v) ∈ c.zip c.tail → u.side = .process → v.side = .resource →
        (∃ under, TookOver events u.name under v.name) ∨
          Parked events u.name ∧ v.name = permitKey u.name) ∧
      (∀ u v, (u, v) ∈ c.zip c.tail → u.side = .resource → v.side = .process →
        Took events v.name u.name) ∧
      ((∀ e ∈ events, ∀ thread, Parked events thread → e.key? ≠ some (permitKey thread)) →
        ∃ thread thread', thread ≠ thread' ∧ (∃ under key, TookOver events thread under key) ∧
          ∃ under key, TookOver events thread' under key) := by
  intro c h
  have hc := Graph.deadlockCycle_of_mem h
  refine ⟨?_, ?_, ?_⟩
  · intro u v he hu _
    exact waits_of_mem_targetsOf (hc.linked (u, v) he) hu
  · intro u v he hu _
    exact took_of_mem_targetsOf (hc.linked (u, v) he) hu
  · intro hpermit
    obtain ⟨p, hp, q, hq, hps, hqs, hne⟩ := hc.shared
    exact ⟨p.name, q.name, hne, exists_tookOver_of_mem_cycle h hpermit hp hps,
      exists_tookOver_of_mem_cycle h hpermit hq hqs⟩

/-- Two threads take two locks in opposite order. One has taken its first lock twice and given it back once, so that it
still holds it. The other has taken its second lock before and given it back, so that it has to wait for it. -/
def crossed : List Event :=
  [{ action := .start, thread := "A" },
   { action := .acquire, thread := "A", lock := some "L" },
   { action := .acquire, thread := "A", lock := some "L" },
   { action := .release, thread := "A", lock := some "L" },
   { action := .park, thread := "A" },
   { action := .tryAcquire, thread := "A", lock := some "M", timed := true },
   { action := .release, thread := "B", lock := some "L" },
   { action := .acquire, thread := "B", lock := some "L" },
   { action := .release, thread := "B", lock := some "L" },
   { action := .acquire, thread := "B", lock := some "M" },
   { action := .acquire, thread := "B", lock := some "L" }]

def crossedRing : List Node :=
  [threadNode "A", lockNode "M", threadNode "B", lockNode "L", threadNode "A"]

theorem detect_grounded_crossed :
    crossedRing ∈ (Session.feed {} crossed).graph.detect.cycles ∧
      (∀ e ∈ crossed, ∀ thread, Parked crossed thread → e.key? ≠ some (permitKey thread)) ∧
      ((∃ under, TookOver crossed "A" under "M") ∨ Parked crossed "A" ∧ "M" = permitKey "A") ∧
      ((∃ under, TookOver crossed "B" under "L") ∨ Parked crossed "B" ∧ "L" = permitKey "B") ∧
      Took crossed "B" "M" ∧ Took crossed "A" "L" ∧
      ∃ thread thread', thread ≠ thread' ∧ (∃ under key, TookOver crossed thread under key) ∧
        ∃ under key, TookOver crossed thread' under key := by
  have h : crossedRing ∈ (Session.feed {} crossed).graph.detect.cycles := by
    rw [Graph.mem_detect, Digraph.closedPaths,
      Digraph.explore_eq_of_tour _ (n := 30) (by decide +kernel) (by decide +kernel)]
    decide +kernel
  have hp : ∀ e ∈ crossed, ∀ thread, Parked crossed thread → e.key? ≠ some (permitKey thread) := by
    rintro e he thread ⟨e', he', ha, rfl⟩
    have hall : ∀ e ∈ crossed, ∀ e' ∈ crossed, e'.action = .park →
        e.key? ≠ some (permitKey e'.thread) := by decide +kernel
    exact hall e he e' he' ha
  obtain ⟨hw, ht, htwo⟩ := detect_grounded crossed crossedRing h
  exact ⟨h, hp, hw (threadNode "A") (lockNode "M") (by decide +kernel) rfl rfl,
    hw (threadNode "B") (lockNode "L") (by decide +kernel) rfl rfl,
    ht (lockNode "M") (threadNode "B") (by decide +kernel) rfl rfl,
    ht (lockNode "L") (threadNode "A") (by decide +kernel) rfl rfl, htwo hp⟩

end Gridlock
