import Mathlib.Data.Finset.Card
import Mathlib.Data.Finset.Dedup
import Gridlock.Advice
import Gridlock.Proofs.Consistency
import Gridlock.Proofs.Ring

/-!
# What the deadlocks of sessions look like

In the graph of sessions an edge changes sides, and a vertex is known by its side and name. So threads and locks
alternate on a closed path, there are as many of the one as of the other, and their names differ. The rule for
witnesses rejects only what is too short, which is a thread and a lock with edges to each other.

* `namesOn` : the names of the threads, or of the locks, on a path
* `exists_length_eq`, `card_namesOn` : closed paths of a well-formed graph have as many threads as locks
* `nodup_lockOrder`, `toFinset_lockOrder` : the order of locks that is advised
* `exists_suggestions_eq` : the advice on one of several deadlocks
* `Graph.WellReported`, `Pool.wellReported_run` : all of it, for whatever is asked of sessions
-/

namespace Gridlock

/-! ## Names on a path -/

def namesOn (side : Side) (path : List Node) : Finset Text :=
  ((path.filter (·.side = side)).map (·.name)).toFinset

theorem mem_namesOn {side : Side} {path : List Node} {name : Text} :
    name ∈ namesOn side path ↔ ∃ n ∈ path, n.side = side ∧ n.name = name := by
  simp [namesOn, and_assoc]

theorem nodup_lockOrder (path : List Node) : (lockOrder path).Nodup :=
  nodup_eraseDups _

theorem toFinset_lockOrder (path : List Node) : (lockOrder path).toFinset = namesOn .resource path := by
  ext name
  simp [lockOrder, mem_namesOn, Node.isResource, and_assoc]

theorem length_lockOrder (path : List Node) : (lockOrder path).length = (namesOn .resource path).card := by
  rw [← toFinset_lockOrder, List.toFinset_card_of_nodup (nodup_lockOrder path)]

/-- Every other vertex of a path on which the sides alternate is of the one side. -/
theorem length_filter_side {path : List Node} (h : path.IsChain fun u v => u.side ≠ v.side) {m : Nat}
    (hlen : path.length = 2 * m) (side : Side) : (path.filter (·.side = side)).length = m := by
  induction m generalizing path with
  | zero =>
    rw [List.length_eq_zero_iff.mp hlen]
    rfl
  | succ m ih =>
    match path, hlen with
    | u :: v :: path, hlen =>
      obtain ⟨huv, hpath⟩ := List.isChain_cons_cons.mp h
      have hrest := ih hpath.of_cons (by simpa [Nat.mul_succ] using hlen)
      by_cases hu : u.side = side
      · have hv : v.side ≠ side := fun hv => huv (hu.trans hv.symm)
        simp [hu, hv, hrest]
      · have hv : v.side = side := Side.eq_of_ne_of_ne huv.symm hu
        simp [hu, hv, hrest]

/-! ## Closed paths -/

namespace Graph

variable {g : Graph} {c : List Node}

theorem WellFormed.exists_length_eq (h : g.WellFormed) (hc : g.digraph.ClosedPath c) :
    ∃ m, c.length = 2 * m + 1 := by
  obtain ⟨R⟩ := hc.exists_round
  obtain ⟨m, hm⟩ := exists_period_eq R h
  exact ⟨m, by rw [R.length_eq, hm]⟩

/-- There are as many threads as locks on a closed path, all of them of different names. -/
theorem WellFormed.card_namesOn (h : g.WellFormed) (hc : g.digraph.ClosedPath c) {m : Nat}
    (hlen : c.length = 2 * m + 1) (side : Side) : (namesOn side c).card = m := by
  have hfront : namesOn side c = namesOn side c.dropLast := by
    ext name
    simp only [mem_namesOn, hc.mem_dropLast]
  have hnodup : ((c.dropLast.filter (·.side = side)).map (·.name)).Nodup := by
    refine List.Nodup.map_on ?_ (hc.simple.filter _)
    intro u hu v hv hname
    rw [List.mem_filter, hc.mem_dropLast, decide_eq_true_eq] at hu hv
    by_contra hne
    exact h.name_ne (mem_nodes_of_closedPath hc hu.1) (mem_nodes_of_closedPath hc hv.1)
      (hu.2.trans hv.2.symm) hne hname
  rw [hfront, namesOn, List.toFinset_card_of_nodup hnodup, List.length_map]
  refine length_filter_side (h.alternates hc).dropLast ?_ side
  rw [List.length_dropLast, hlen, Nat.add_sub_cancel]

/-- What is reported is a closed path of four or more vertices. -/
theorem WellFormed.exists_length_of_mem_detect (h : g.WellFormed) (hc : c ∈ g.detect.cycles) :
    ∃ m, 2 ≤ m ∧ c.length = 2 * m + 1 := by
  obtain ⟨hpath, hwitness⟩ := mem_detect.mp hc
  have hclosed := Digraph.closedPath_of_mem hpath
  obtain ⟨m, hm⟩ := h.exists_length_eq hclosed
  have hne := (isWitness_iff_of_closedPath h hclosed).mp hwitness
  have htwo := hclosed.length
  exact ⟨m, by omega, hm⟩

end Graph

/-! ## Advice -/

/-- Two lines among others. -/
theorem unlines_append_cons_cons {before after : List Text} (h : before ≠ []) (h' : after ≠ [])
    (line line' : Text) : unlines (before ++ line :: line' :: after) =
      unlines before ++ unlines ["", line, line', ""] ++ unlines after := by
  unfold unlines
  rw [Text.intercalate_append_of_ne_nil h (List.cons_ne_nil _ _),
    Text.intercalate_cons_of_ne_nil (List.cons_ne_nil _ _), Text.intercalate_cons_of_ne_nil h']
  apply Text.points_injective
  simp [Text.intercalate, Text.points]

theorem numbered_append {α : Type} (line : String → α → List Text) (before after : List α) (a : α) :
    ∃ lines, numbered line (before ++ a :: after) =
      numbered line before ++ (line (Number.natText (before.length + 1)) a ++ lines) := by
  unfold numbered
  rw [List.zipIdx_append, List.zipIdx_cons, List.flatMap_append, List.flatMap_cons, Nat.add_comm 1]
  exact ⟨_, rfl⟩

/-- The line that puts the locks of a deadlock into an order. -/
def orderLine (cycle : List Node) : Text :=
  "   - Acquire these locks in one order: " ++ Text.intercalate arrow (lockOrder cycle)

theorem cycleAdvice_eq {c : List Node} (h : 2 ≤ (lockOrder c).length) (n : String) :
    ∃ line, cycleAdvice n c = (["", "Deadlock cycle " ++ n ++ ":", orderLine c, line] : List Text) := by
  unfold cycleAdvice
  dsimp only
  rw [if_pos h]
  exact ⟨_, rfl⟩

/-- If a deadlock has two locks, the advice on it has an order of its locks right after the heading. -/
theorem exists_suggestions_eq {c : List Node} (h : 2 ≤ (lockOrder c).length) (earlier later : List (List Node)) :
    ∃ before after, suggestions (earlier ++ c :: later) = before ++
      unlines ["", "Deadlock cycle " ++ Number.natText (earlier.length + 1) ++ ":", orderLine c, ""] ++ after := by
  obtain ⟨lines, hlines⟩ := numbered_append cycleAdvice earlier later c
  obtain ⟨last, hadvice⟩ := cycleAdvice_eq h (Number.natText (earlier.length + 1))
  have hsplit (front others : List Text) (heading : Text) :
      front ++ (others ++ ((["", heading, orderLine c, last] : List Text) ++ lines)) =
        (front ++ others ++ [("" : Text)]) ++ heading :: orderLine c :: last :: lines := by
    simp
  unfold suggestions
  dsimp only
  rw [if_neg (by simp), hlines, hadvice, hsplit, unlines_append_cons_cons (by simp) (by simp)]
  exact ⟨_, _, Text.append_assoc ..⟩

/-! ## What is reported -/

/-- What holds of the closed paths that the search notes and of those that are reported. -/
structure Graph.WellReported (g : Graph) : Prop where
  /-- What is rejected are the closed paths of two vertices. -/
  rejected : ∀ c ∈ g.digraph.closedPaths, isWitness c = false ↔ c.length = 3
  /-- There are two or more threads in a deadlock and as many locks, and they have different names. -/
  paired : ∀ c ∈ g.detect.cycles, ∃ m, 2 ≤ m ∧ c.length = 2 * m + 1 ∧ (namesOn .process c).card = m ∧
    (namesOn .resource c).card = m
  /-- The order of the locks that is advised has each lock of the deadlock once. -/
  ordered : ∀ c ∈ g.detect.cycles, (lockOrder c).Nodup ∧ (lockOrder c).toFinset = namesOn .resource c
  /-- The advice gives this order for every deadlock. -/
  advised : ∀ i c, g.detect.cycles[i]? = some c → ∃ before after, suggestions g.detect.cycles = before ++
    unlines ["", "Deadlock cycle " ++ Number.natText (i + 1) ++ ":", orderLine c, ""] ++ after

/-- Whatever is asked of sessions that share a graph, in whatever order, of all closed paths that the search notes only
those of two vertices are rejected; a deadlock has as many locks as threads, two or more, of different names; and the
advice on it has a line with all its locks in an order. -/
theorem Pool.wellReported_run (n : Nat) (calls : List (Nat × Session.Call)) :
    ((Pool.ofSize n).run calls).graph.WellReported := by
  have h : ((Pool.ofSize n).run calls).graph.WellFormed :=
    (Pool.orderly_run (Pool.ofSize n) (.of_rows_eq_nil rfl) calls).toWellFormed
  generalize ((Pool.ofSize n).run calls).graph = g at h
  have hclosed {c : List Node} (hc : c ∈ g.detect.cycles) : g.digraph.ClosedPath c :=
    Digraph.closedPath_of_mem (Graph.mem_detect.mp hc).1
  have hpaired : ∀ c ∈ g.detect.cycles, ∃ m, 2 ≤ m ∧ c.length = 2 * m + 1 ∧ (namesOn .process c).card = m ∧
      (namesOn .resource c).card = m := by
    intro c hc
    obtain ⟨m, htwo, hm⟩ := h.exists_length_of_mem_detect hc
    exact ⟨m, htwo, hm, h.card_namesOn (hclosed hc) hm .process, h.card_namesOn (hclosed hc) hm .resource⟩
  refine ⟨?_, hpaired, fun c _ => ⟨nodup_lockOrder c, toFinset_lockOrder c⟩, ?_⟩
  · intro c hc
    rw [← Bool.not_eq_true, Graph.isWitness_iff_of_closedPath h (Digraph.closedPath_of_mem hc), not_not]
  · intro i c hi
    obtain ⟨hlt, hget⟩ := List.getElem?_eq_some_iff.mp hi
    obtain ⟨m, htwo, -, -, hlocks⟩ := hpaired c (List.mem_of_getElem? hi)
    have horder : 2 ≤ (lockOrder c).length := by
      rw [length_lockOrder, hlocks]
      exact htwo
    have hsplit : g.detect.cycles = g.detect.cycles.take i ++ c :: g.detect.cycles.drop (i + 1) := by
      rw [← hget, List.getElem_cons_drop, List.take_append_drop]
    have hadvice := exists_suggestions_eq horder (g.detect.cycles.take i) (g.detect.cycles.drop (i + 1))
    rwa [← hsplit, List.length_take_of_le (Nat.le_of_lt hlt)] at hadvice

/-- Two sessions, one of which empties the graph when a thread of the other holds a lock. Then two threads take two
locks in opposite order, the one of them while it still holds the old lock. -/
def restarted : List (Nat × Session.Call) :=
  [(0, .acquire "A" (some "K") none), (1, .resetGraph), (0, .acquire "A" (some "L") none),
    (1, .walk "B" (.block "L" none [.block "M" none []])), (0, .acquire "A" (some "M") none)]

def restartedRing : List Node :=
  [⟨.process, "A", .listed 1⟩, ⟨.resource, "L", .listed 1⟩, ⟨.process, "B", .listed 1⟩,
    ⟨.resource, "M", .listed 1⟩, ⟨.process, "A", .listed 1⟩]

/-- A thread and a lock with edges to each other. -/
def restartedPair : List Node :=
  [⟨.process, "A", .listed 1⟩, ⟨.resource, "L", .listed 1⟩, ⟨.process, "A", .listed 1⟩]

theorem Pool.wellReported_run_restarted :
    restartedPair ∈ ((Pool.ofSize 2).run restarted).graph.digraph.closedPaths ∧ isWitness restartedPair = false ∧
    ((Pool.ofSize 2).run restarted).graph.detect.cycles = [restartedRing] ∧
    (∃ m, 2 ≤ m ∧ restartedRing.length = 2 * m + 1 ∧ (namesOn .process restartedRing).card = m ∧
      (namesOn .resource restartedRing).card = m) ∧
    (lockOrder restartedRing).toFinset = namesOn .resource restartedRing ∧
    ∃ before after, suggestions [restartedRing] = before ++
      unlines ["", "Deadlock cycle " ++ Number.natText 1 ++ ":", orderLine restartedRing, ""] ++ after := by
  have hpaths : ((Pool.ofSize 2).run restarted).graph.digraph.closedPaths = [restartedPair,
      [⟨.process, "B", .listed 1⟩, ⟨.resource, "M", .listed 1⟩, ⟨.process, "B", .listed 1⟩], restartedRing] := by
    rw [Digraph.closedPaths, Digraph.explore_eq_of_tour _ (n := 16) (by decide +kernel) (by decide +kernel)]
    decide +kernel
  have hcycles : ((Pool.ofSize 2).run restarted).graph.detect.cycles = [restartedRing] := by
    rw [Graph.detect, hpaths]
    decide
  have hreported := Pool.wellReported_run 2 restarted
  have hpair : restartedPair ∈ ((Pool.ofSize 2).run restarted).graph.digraph.closedPaths := by simp [hpaths]
  have hring : restartedRing ∈ ((Pool.ofSize 2).run restarted).graph.detect.cycles := by simp [hcycles]
  refine ⟨hpair, (hreported.rejected _ hpair).mpr rfl, hcycles, hreported.paired _ hring,
    (hreported.ordered _ hring).2, ?_⟩
  rw [← hcycles]
  exact hreported.advised 0 restartedRing (by rw [hcycles]; rfl)

end Gridlock
