import Mathlib.Data.List.Lex
import Gridlock.Proofs.Ring

/-!
# Threads that take their locks in one order

If all threads take their locks in the same order, no thread can wait for another that waits for it. A
deadlock can be reported all the same, since an edge does not tell which lock was held when it was added.
What is reported then has a thread that takes three locks, the two upper ones of which it shares.

* `InOrder` : a history in which locks are taken in order
* `Text.Before` : the order of names by code points
* `Graph.Ring.tookOver`, `Graph.Ring.took` : what the edges of a ring say about the history
* `Graph.Ring.exists_descent` : in every ring there is a lock below the one before it
* `hasDeadlock_iff_of_inOrder` : what is reported of a history in which locks are taken in order
-/

namespace Gridlock

/-- In the history every lock that a thread takes is one that it holds, or comes after all that it
holds. -/
def InOrder (lt : Text → Text → Prop) (events : List Event) : Prop :=
  ∀ before e after, events = before ++ e :: after → ∀ key, e.key? = some key →
    key ∈ (Session.feed {} before).heldBy e.thread ∨
      ∀ held ∈ (Session.feed {} before).heldBy e.thread, lt held key

variable {lt : Text → Text → Prop} {events : List Event}

theorem inOrder_of_forall_get (h : ∀ i : Fin events.length, ∀ key ∈ (events.get i).key?,
    key ∈ (Session.feed {} (events.take i)).heldBy (events.get i).thread ∨
      ∀ held ∈ (Session.feed {} (events.take i)).heldBy (events.get i).thread, lt held key) :
    InOrder lt events := by
  intro before e after he key hk
  obtain ⟨i, rfl, rfl⟩ := exists_take_of_append he
  exact h i key hk

theorem InOrder.lt_of_tookOver (h : InOrder lt events) {thread under key : Text}
    (ht : TookOver events thread under key) : lt under key := by
  obtain ⟨before, e, after, he, rfl, hk, hh, hu⟩ := ht
  rcases h before e after he key hk with hheld | hlt
  · exact absurd hheld hh
  · exact hlt under hu

namespace Graph.Ring

variable {n : Nat}

theorem took (r : (Session.feed {} events).graph.Ring n) (i : Fin (n + 2)) :
    Took events (r.thread (i + 1)).name (r.lock i).name :=
  took_of_mem_targetsOf (r.taken i) (r.lock_side i)

theorem tookOver (r : (Session.feed {} events).graph.Ring n) (hpark : ∀ e ∈ events, e.action ≠ .park)
    (i : Fin (n + 2)) : ∃ under, TookOver events (r.thread i).name under (r.lock i).name := by
  rcases waits_of_mem_targetsOf (r.waits i) (r.thread_side i) with h | ⟨⟨e, he, ha, -⟩, -⟩
  · exact h
  · exact absurd ha (hpark e he)

theorem lock_name_injective {g : Graph} (h : g.WellFormed) (r : g.Ring n) :
    Function.Injective fun i => (r.lock i).name := by
  intro i j hij
  by_contra hne
  refine h.name_ne (mem_nodes_of_mem_targetsOf (r.taken i)) (mem_nodes_of_mem_targetsOf (r.taken j))
    ?_ (r.lock_injective.ne hne) hij
  rw [r.lock_side i, r.lock_side j]

/-- The locks of a ring cannot rise all the way round. -/
theorem exists_descent (lt : Text → Text → Prop) [IsStrictTotalOrder Text lt]
    {g : Graph} (h : g.WellFormed) (r : g.Ring n) : ∃ i, lt (r.lock (i + 1)).name (r.lock i).name := by
  by_contra hnone
  push Not at hnone
  have hrise (i : Fin (n + 2)) : lt (r.lock i).name (r.lock (i + 1)).name := by
    rcases trichotomous_of lt (r.lock i).name (r.lock (i + 1)).name with hlt | heq | hgt
    · exact hlt
    · have hi : i = i + 1 := r.lock_name_injective h heq
      simp at hi
    · exact absurd hgt (hnone i)
  have hfirst (i : Fin (n + 2)) : i = 0 ∨ lt (r.lock 0).name (r.lock i).name := by
    induction i using Fin.induction with
    | zero => exact Or.inl rfl
    | succ i ih =>
      have hi := hrise i.castSucc
      rw [Fin.coeSucc_eq_succ] at hi
      rcases ih with h0 | hlt
      · rw [h0] at hi
        exact Or.inr hi
      · exact Or.inr (trans_of lt hlt hi)
  have hlast := hrise (Fin.last (n + 1))
  rw [Fin.last_add_one] at hlast
  rcases hfirst (Fin.last (n + 1)) with h0 | hlt
  · rw [h0] at hlast
    exact irrefl _ hlast
  · exact irrefl _ (trans_of lt hlt hlast)

end Graph.Ring

/-- A thread takes a lock over a lower one, and it takes a higher one. -/
def TakesThree (lt : Text → Text → Prop) (events : List Event) (thread under low high : Text) :
    Prop :=
  lt under low ∧ lt low high ∧ TookOver events thread under low ∧ Took events thread high

theorem InOrder.exists_takesThree [IsStrictTotalOrder Text lt] (h : InOrder lt events)
    (hpark : ∀ e ∈ events, e.action ≠ .park) {n : Nat} (r : (Session.feed {} events).graph.Ring n) :
    ∃ i under, TakesThree lt events (r.thread (i + 1)).name under (r.lock (i + 1)).name (r.lock i).name := by
  obtain ⟨i, hi⟩ := r.exists_descent lt (Session.wellFormed_feed events)
  obtain ⟨under, hu⟩ := r.tookOver hpark (i + 1)
  exact ⟨i, under, h.lt_of_tookOver hu, hi, hu, r.took i⟩

/-- If all threads take their locks in one order and none parks, a deadlock is reported exactly if there
is a ring that the search reports, and in this ring some thread takes its lock over a lower one and the
lock before it, which is higher. So nothing is reported if no thread takes three locks in this way. -/
theorem hasDeadlock_iff_of_inOrder (lt : Text → Text → Prop) [IsStrictTotalOrder Text lt]
    (events : List Event) (hpark : ∀ e ∈ events, e.action ≠ .park) (hord : InOrder lt events) :
    ((Session.feed {} events).graph.detect.hasDeadlock = true ↔
      ∃ n, ∃ r : (Session.feed {} events).graph.Ring n,
        (∃ u v, r.ClosedAt u v ∧ ¬ (Session.feed {} events).graph.digraph.EntersFrom v u) ∧
          ∃ i under, TakesThree lt events (r.thread (i + 1)).name under (r.lock (i + 1)).name
            (r.lock i).name) ∧
      ((∀ thread under low high, ¬ TakesThree lt events thread under low high) →
        (Session.feed {} events).graph.detect.hasDeadlock = false) := by
  have hiff := Graph.hasDeadlock_iff_closedAt (Session.wellFormed_feed events)
  constructor
  · rw [hiff]
    constructor
    · rintro ⟨n, r, hclosed⟩
      exact ⟨n, r, hclosed, hord.exists_takesThree hpark r⟩
    · rintro ⟨n, r, hclosed, -⟩
      exact ⟨n, r, hclosed⟩
  · intro hnone
    rw [← Bool.not_eq_true, hiff]
    rintro ⟨n, r, -⟩
    obtain ⟨i, under, h⟩ := hord.exists_takesThree hpark r
    exact hnone _ _ _ _ h

/-! ## The order of names -/

def CodePoint.number : CodePoint → Nat
  | char c => c.toNat
  | half h => h.unit

theorem CodePoint.number_injective {p q : CodePoint} (h : p.number = q.number) : p = q := by
  have hrange (x : Char) (y : Half) : x.toNat ≠ y.unit := by
    have hx : x.toNat < 0xD800 ∨ 0xDFFF < x.toNat ∧ x.toNat < 0x110000 := x.valid
    have hy := y.isLt
    show x.toNat ≠ 0xD800 + y.val
    omega
  cases p with
  | char x =>
    cases q with
    | char y => rw [Char.toNat_inj.mp h]
    | half y => exact (hrange x y h).elim
  | half x =>
    cases q with
    | char y => exact (hrange y x h.symm).elim
    | half y => rw [Fin.ext (Nat.add_left_cancel h)]

namespace Text

def numbers (t : Text) : List Nat := t.points.map CodePoint.number

theorem numbers_injective {s t : Text} (h : s.numbers = t.numbers) : s = t :=
  points_injective (List.map_inj_right (fun _ _ => CodePoint.number_injective) |>.mp h)

/-- The order of names by the numbers of their code points. -/
def Before (s t : Text) : Prop := s.numbers < t.numbers

instance : DecidableRel Before := fun s t => inferInstanceAs (Decidable (s.numbers < t.numbers))

instance : IsStrictTotalOrder Text Before where
  trichotomous _ _ hst hts := numbers_injective (le_antisymm (not_lt.mp hts) (not_lt.mp hst))
  irrefl s := lt_irrefl s.numbers
  trans _ _ _ := lt_trans

end Text

/-- Three threads that take each two of three locks in order, one of them again, and one after it has
given back a lock. -/
def ladder : List Event :=
  [{ action := .acquire, thread := "A", lock := some "L" },
   { action := .acquire, thread := "A", lock := some "M" },
   { action := .acquire, thread := "A", lock := some "L" },
   { action := .acquire, thread := "B", lock := some "M" },
   { action := .tryAcquire, thread := "B", lock := some "N", timed := true },
   { action := .acquire, thread := "C", lock := some "N" },
   { action := .release, thread := "C", lock := some "N" },
   { action := .acquire, thread := "C", lock := some "L" },
   { action := .acquire, thread := "C", lock := some "N" }]

theorem hasDeadlock_iff_of_inOrder_ladder :
    (∀ e ∈ ladder, e.action ≠ .park) ∧ InOrder Text.Before ladder ∧
      (∀ thread under low high, ¬ TakesThree Text.Before ladder thread under low high) ∧
      (Session.feed {} ladder).graph.detect.hasDeadlock = false := by
  have hpark : ∀ e ∈ ladder, e.action ≠ .park := by decide
  have hord : InOrder Text.Before ladder := inOrder_of_forall_get (by decide +kernel)
  have hthree : ∀ thread under low high, ¬ TakesThree Text.Before ladder thread under low high := by
    rintro thread under low high ⟨-, hlt, ⟨before, e, after, h, rfl, hk, hh, hu⟩,
      before', e', after', h', ht, hk', -⟩
    obtain ⟨i, rfl, rfl⟩ := exists_take_of_append h
    obtain ⟨j, -, rfl⟩ := exists_take_of_append h'
    have hall : ∀ i j : Fin ladder.length, (ladder.get j).thread = (ladder.get i).thread →
        (Session.feed {} (ladder.take i)).heldBy (ladder.get i).thread ≠ [] →
        ∀ low ∈ (ladder.get i).key?,
          low ∉ (Session.feed {} (ladder.take i)).heldBy (ladder.get i).thread →
          ∀ high ∈ (ladder.get j).key?, ¬ low.Before high := by
      decide +kernel
    exact hall i j ht (List.ne_nil_of_mem hu) low hk hh high hk' hlt
  exact ⟨hpark, hord, hthree, (hasDeadlock_iff_of_inOrder Text.Before ladder hpark hord).2 hthree⟩

/-- Two threads take the same three locks in the same order. -/
def abreast : List Event :=
  [{ action := .acquire, thread := "A", lock := some "L" },
   { action := .acquire, thread := "A", lock := some "M" },
   { action := .acquire, thread := "A", lock := some "N" },
   { action := .acquire, thread := "B", lock := some "L" },
   { action := .acquire, thread := "B", lock := some "M" },
   { action := .acquire, thread := "B", lock := some "N" }]

/-- A deadlock is reported although all locks are taken in order. -/
theorem inOrder_hasDeadlock : (∀ e ∈ abreast, e.action ≠ .park) ∧ InOrder Text.Before abreast ∧
    (Session.feed {} abreast).graph.detect.hasDeadlock = true := by
  refine ⟨by decide, inOrder_of_forall_get (by decide +kernel), ?_⟩
  have hring : [threadNode "A", lockNode "M", threadNode "B", lockNode "N", threadNode "A"] ∈
      (Session.feed {} abreast).graph.detect.cycles := by
    rw [Graph.mem_detect, Digraph.closedPaths,
      Digraph.explore_eq_of_tour _ (n := 20) (by decide +kernel) (by decide +kernel)]
    decide +kernel
  exact Graph.hasDeadlock_iff.mpr (List.ne_nil_of_mem hring)

end Gridlock
