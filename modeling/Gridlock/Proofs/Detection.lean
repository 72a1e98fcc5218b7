import Gridlock.Proofs.ClosedPath
import Gridlock.Proofs.Edges

/-!
# What a detection reports

* `alternates_iff`, `two_le_threadsOn_iff`, `isWitness_iff` : the rule for witnesses, said with
  neighbours on the path and with two threads
* `Graph.DeadlockCycle` : a deadlock in a graph, whatever search found it
* `Graph.detect_sound` : every cycle reported is one
-/

namespace Gridlock

/-! ## The rule for witnesses -/

theorem isChain_iff_zip_tail {α : Type} {R : α → α → Prop} {l : List α} :
    l.IsChain R ↔ ∀ p ∈ l.zip l.tail, R p.1 p.2 := by
  induction l with
  | nil => simp
  | cons a l ih =>
    cases l with
    | nil => simp
    | cons b l =>
      rw [List.isChain_cons_cons, ih, List.tail_cons, List.tail_cons, List.zip_cons_cons,
        List.forall_mem_cons]

theorem exists_zip_tail_of_mem_dropLast {α : Type} {l : List α} {a : α} (h : a ∈ l.dropLast) :
    ∃ b, (a, b) ∈ l.zip l.tail := by
  induction l with
  | nil => cases h
  | cons x l ih =>
    cases l with
    | nil => cases h
    | cons y l =>
      rw [List.dropLast_cons_cons] at h
      rcases List.mem_cons.mp h with rfl | h
      · exact ⟨y, List.mem_cons_self⟩
      · obtain ⟨b, hb⟩ := ih h
        exact ⟨b, List.mem_cons_of_mem _ hb⟩

/-- A vertex of a closed path is followed by another. -/
theorem Digraph.ClosedPath.exists_succ {α : Type} [DecidableEq α] {g : Digraph α} {c : List α}
    (h : g.ClosedPath c) {a : α} (ha : a ∈ c) : ∃ b, (a, b) ∈ c.zip c.tail :=
  exists_zip_tail_of_mem_dropLast (h.mem_dropLast.mpr ha)

theorem alternates_iff {path : List Node} :
    alternates path = true ↔ path.IsChain fun u v => u.side ≠ v.side := by
  simp [alternates, isChain_iff_zip_tail]

theorem nodup_eraseDups {α : Type} [BEq α] [LawfulBEq α] : ∀ l : List α, l.eraseDups.Nodup
  | [] => by simp
  | a :: l => by
    rw [List.eraseDups_cons, List.nodup_cons]
    refine ⟨?_, nodup_eraseDups _⟩
    simp [List.mem_eraseDups]
termination_by l => l.length
decreasing_by exact Nat.lt_succ_of_le (List.length_filter_le _ _)

theorem two_le_length_eraseDups {α : Type} [BEq α] [LawfulBEq α] {l : List α} :
    2 ≤ l.eraseDups.length ↔ ∃ a ∈ l, ∃ b ∈ l, a ≠ b := by
  cases l with
  | nil => simp
  | cons x xs =>
    rw [List.eraseDups_cons, List.length_cons, Nat.succ_le_succ_iff, Nat.succ_le_iff,
      List.length_pos_iff_exists_mem]
    simp only [List.mem_eraseDups, List.mem_filter, Bool.not_eq_true', beq_eq_false_iff_ne]
    constructor
    · rintro ⟨b, hb, hne⟩
      exact ⟨x, List.mem_cons_self, b, List.mem_cons_of_mem x hb, Ne.symm hne⟩
    · rintro ⟨a, ha, b, hb, hne⟩
      by_cases hax : a = x
      · subst hax
        exact ⟨b, (List.mem_cons.mp hb).resolve_left (Ne.symm hne), Ne.symm hne⟩
      · exact ⟨a, (List.mem_cons.mp ha).resolve_left hax, hax⟩

def TwoThreads (path : List Node) : Prop :=
  ∃ p ∈ path, ∃ q ∈ path, p.side = .process ∧ q.side = .process ∧ p.name ≠ q.name

theorem two_le_threadsOn_iff {path : List Node} :
    2 ≤ (threadsOn path).length ↔ TwoThreads path := by
  rw [threadsOn, two_le_length_eraseDups]
  simp only [List.mem_map, List.mem_filter, Node.isProcess, decide_eq_true_eq]
  constructor
  · rintro ⟨_, ⟨p, ⟨hp, hps⟩, rfl⟩, _, ⟨q, ⟨hq, hqs⟩, rfl⟩, hne⟩
    exact ⟨p, hp, q, hq, hps, hqs, hne⟩
  · rintro ⟨p, hp, q, hq, hps, hqs, hne⟩
    exact ⟨p.name, ⟨p, ⟨hp, hps⟩, rfl⟩, q.name, ⟨q, ⟨hq, hqs⟩, rfl⟩, hne⟩

theorem isWitness_iff {path : List Node} : isWitness path = true ↔
    4 ≤ path.length ∧ (path.IsChain fun u v => u.side ≠ v.side) ∧ TwoThreads path := by
  rw [isWitness, Bool.and_eq_true, Bool.and_eq_true, decide_eq_true_eq, decide_eq_true_eq,
    alternates_iff, two_le_threadsOn_iff, and_assoc]

/-! ## Soundness -/

namespace Graph

variable {g : Graph} {c : List Node}

/-- A deadlock in a graph: a path along edges of the table that comes back to its start and meets no
other vertex twice, on which threads and locks alternate and two threads take part. -/
structure DeadlockCycle (g : Graph) (c : List Node) : Prop where
  closed : c.head? = c.getLast?
  simple : c.dropLast.Nodup
  linked : ∀ e ∈ c.zip c.tail, e.2 ∈ g.targetsOf e.1
  listed : ∀ n ∈ c, n ∈ g.nodes
  alternating : ∀ e ∈ c.zip c.tail, e.1.side ≠ e.2.side
  shared : TwoThreads c

theorem mem_detect : c ∈ g.detect.cycles ↔ c ∈ g.digraph.closedPaths ∧ isWitness c = true := by
  rw [detect, List.mem_filter]

theorem hasDeadlock_iff : g.detect.hasDeadlock = true ↔ g.detect.cycles ≠ [] := by
  show (!g.detect.cycles.isEmpty) = true ↔ _
  rw [Bool.not_eq_true', List.isEmpty_eq_false_iff]

/-- Every vertex of a closed path has an edge, so it is in the table. -/
theorem mem_nodes_of_closedPath (h : g.digraph.ClosedPath c) {n : Node} (hn : n ∈ c) : n ∈ g.nodes := by
  obtain ⟨m, hm⟩ := h.exists_succ hn
  have hl := isChain_iff_zip_tail.mp h.linked (n, m) hm
  rw [digraph_next] at hl
  exact mem_nodes_of_mem_targetsOf hl

theorem deadlockCycle_of_mem (h : c ∈ g.detect.cycles) : g.DeadlockCycle c := by
  obtain ⟨hc, hw⟩ := mem_detect.mp h
  have hp := Digraph.closedPath_of_mem hc
  obtain ⟨-, halt, htwo⟩ := isWitness_iff.mp hw
  refine ⟨hp.closed, hp.simple, ?_, fun n hn => mem_nodes_of_closedPath hp hn,
    isChain_iff_zip_tail.mp halt, htwo⟩
  intro e he
  rw [← digraph_next]
  exact isChain_iff_zip_tail.mp hp.linked e he

theorem exists_succ_of_mem_detect (h : c ∈ g.detect.cycles) {n : Node} (hn : n ∈ c) :
    ∃ m, (n, m) ∈ c.zip c.tail :=
  (Digraph.closedPath_of_mem (mem_detect.mp h).1).exists_succ hn

/-- Whatever the graph, what a detection reports are deadlocks of it, and it says that there is one
exactly if it reports one. -/
theorem detect_sound (g : Graph) :
    (∀ c ∈ g.detect.cycles, g.DeadlockCycle c) ∧
      (g.detect.hasDeadlock = true ↔ g.detect.cycles ≠ []) :=
  ⟨fun _ h => deadlockCycle_of_mem h, hasDeadlock_iff⟩

/-- Two threads and two locks in a ring, among repeated edges, edges of a vertex to itself, an edge
between threads, and edges to a vertex of an earlier epoch and to one outside the table. -/
def tangle : Graph where
  epoch := 1
  rows :=
    [{ node := ⟨.process, "A", .listed 1⟩,
       targets := [⟨.resource, "L", .listed 1⟩, ⟨.resource, "L", .listed 1⟩] },
     { node := ⟨.resource, "L", .listed 1⟩,
       targets := [⟨.resource, "L", .listed 1⟩, ⟨.process, "A", .listed 0⟩, ⟨.process, "B", .listed 1⟩] },
     { node := ⟨.process, "B", .listed 1⟩,
       targets := [⟨.process, "A", .listed 1⟩, ⟨.resource, "M", .listed 1⟩] },
     { node := ⟨.resource, "M", .listed 1⟩,
       targets := [⟨.process, "C", .loose 1⟩, ⟨.process, "A", .listed 1⟩] }]
  spares :=
    [{ node := ⟨.process, "A", .listed 0⟩, targets := [⟨.resource, "L", .listed 1⟩] },
     { node := ⟨.process, "C", .loose 1⟩, targets := [⟨.resource, "M", .listed 1⟩] }]

def tangleRing : List Node :=
  [⟨.process, "A", .listed 1⟩, ⟨.resource, "L", .listed 1⟩, ⟨.process, "B", .listed 1⟩,
    ⟨.resource, "M", .listed 1⟩, ⟨.process, "A", .listed 1⟩]

theorem detect_sound_tangle :
    tangleRing ∈ tangle.detect.cycles ∧ tangle.DeadlockCycle tangleRing := by
  have h : tangleRing ∈ tangle.detect.cycles := by
    rw [mem_detect, Digraph.closedPaths,
      Digraph.explore_eq_of_tour tangle.digraph (n := 20) (by decide) (by decide)]
    decide
  exact ⟨h, (detect_sound tangle).1 tangleRing h⟩

end Graph

end Gridlock
