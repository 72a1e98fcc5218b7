import Gridlock.Proofs.Chronicle

/-!
# The graph only grows

As long as the graph is not emptied, nothing in it is taken back: vertices and edges are added at the end, and a
flavour that is recorded for a lock stays. Which flavour this is can be told from the history. A lock has the first
flavour under which a thread took it that did not hold it, where parking counts as taking the permit of the
thread; to take a lock again records nothing.

* `Graph.flavourOf` : the flavour of a vertex; `flavourOf_intern`, `flavourOf_link`
* `Graph.Grows` : nothing is taken back; `Recorded.grows` : one event, `grows_run` : calls of any kind
* `Step.flavourFor` : the flavour that a step has for a lock; `Recorded.flavourOf`, `flavourOf_run`
* `grows_between` : any two points of a history
-/

namespace Gridlock

namespace Graph

variable {g g' g'' : Graph}

/-! ## Flavours -/

def flavourOf (g : Graph) (n : Node) : Option Flavour :=
  (g.row? n).bind (·.flavour)

theorem flavourOf_of_mem (h : g.nodes.Nodup) {r : Row} (hr : r ∈ g.rows) : g.flavourOf r.node = r.flavour := by
  rw [flavourOf, row?_of_mem h hr, Option.bind_some]

section Intern
variable (g) (side : Side) (name : Text) (flavour : Option Flavour) (n : Node)

theorem row?_intern_of_mem (h : g.listed side name ∈ g.nodes) : (g.intern side name flavour).row? n =
    (g.row? n).map fun r => if r.node = g.listed side name then
      { r with flavour := r.flavour.or (if side = .resource then flavour else none) } else r := by
  have hnode (r : Row) : (if r.node = g.listed side name then
      { r with flavour := r.flavour.or (if side = .resource then flavour else none) } else r).node = r.node := by
    split <;> rfl
  unfold intern
  rw [if_pos (isSome_row?.mpr h), row?, List.find?_map]
  simp only [Function.comp_def, hnode]
  rfl

theorem row?_intern_of_notMem (h : g.listed side name ∉ g.nodes) : (g.intern side name flavour).row? n =
    (g.row? n).or (if n = g.listed side name then
      some { node := n, flavour := if side = .resource then flavour else none } else none) := by
  unfold intern
  rw [if_neg (isSome_row?.not.mpr h), row?, List.find?_append, List.find?_singleton]
  simp only [decide_eq_true_eq, eq_comm (a := n)]
  congr 1
  split
  · next hn => rw [hn]
  · rfl

/-- A lock that is interned keeps its flavour, and takes the one that is given if it has none. -/
theorem flavourOf_intern : (g.intern side name flavour).flavourOf n =
    (g.flavourOf n).or (if n = g.listed side name ∧ side = .resource then flavour else none) := by
  rw [flavourOf, flavourOf]
  by_cases h : g.listed side name ∈ g.nodes
  · rw [row?_intern_of_mem g side name flavour n h]
    cases hr : g.row? n with
    | none =>
      have hne : n ≠ g.listed side name := by
        rintro rfl
        rw [← isSome_row?, hr] at h
        cases h
      simp [hne]
    | some r =>
      have hnode := (node_of_row? hr).2
      by_cases hn : n = g.listed side name <;> simp [hnode, hn]
  · rw [row?_intern_of_notMem g side name flavour n h]
    cases hr : g.row? n with
    | none => by_cases hn : n = g.listed side name <;> simp [hn]
    | some r =>
      have hne : n ≠ g.listed side name := by
        rintro rfl
        exact h (isSome_row?.mp (by rw [hr]; rfl))
      simp [hne]

end Intern

@[simp] theorem flavourOf_link (g : Graph) (u v n : Node) : (g.link u v).flavourOf n = g.flavourOf n := by
  have hflavour (r : Row) : (linkRow u v r).flavour = r.flavour := by
    unfold linkRow
    split <;> rfl
  unfold flavourOf row? link
  simp only [List.find?_map, Function.comp_def, linkRow_node, Option.bind_map, hflavour]

theorem flavourOf_internThread (g : Graph) (thread : Text) (n : Node) :
    (g.intern .process thread).flavourOf n = g.flavourOf n := by
  rw [flavourOf_intern, if_neg (by simp), Option.or_none]

theorem flavourOf_addTaking (g : Graph) (thread key : Text) (flavour : Option Flavour) (nested : Bool) (n : Node) :
    (g.addTaking thread key flavour nested).flavourOf n =
      (g.flavourOf n).or (if n = g.listed .resource key then flavour else none) := by
  have hintern : ((g.intern .process thread).intern .resource key flavour).flavourOf n =
      (g.flavourOf n).or (if n = g.listed .resource key then flavour else none) := by
    rw [flavourOf_intern, flavourOf_internThread, listed_intern]
    simp only [and_true]
  unfold addTaking
  cases nested <;> simpa using hintern

theorem flavourOf_addPark (g : Graph) (thread : Text) (n : Node) : (g.addPark thread).flavourOf n =
    (g.flavourOf n).or (if n = g.listed .resource (permitKey thread) then some .permit else none) := by
  unfold addPark
  rw [flavourOf_link, flavourOf_intern, flavourOf_internThread, listed_intern]
  simp only [and_true]

/-! ## Growth -/

/-- Nothing of `g` is taken back in `g'`: vertices and edges are added at the end, and flavours stay. -/
structure Grows (g g' : Graph) : Prop where
  nodes : g.nodes <+: g'.nodes
  targets : ∀ n, g.targetsOf n <+: g'.targetsOf n
  flavours : ∀ n f, g.flavourOf n = some f → g'.flavourOf n = some f

namespace Grows

theorem refl (g : Graph) : g.Grows g :=
  ⟨List.prefix_rfl, fun _ => List.prefix_rfl, fun _ _ h => h⟩

theorem trans (h : g.Grows g') (h' : g'.Grows g'') : g.Grows g'' :=
  ⟨h.nodes.trans h'.nodes, fun n => (h.targets n).trans (h'.targets n),
    fun n f hf => h'.flavours n f (h.flavours n f hf)⟩

theorem intern (g : Graph) (side : Side) (name : Text) (flavour : Option Flavour) :
    g.Grows (g.intern side name flavour) where
  nodes := nodes_prefix_intern g side name flavour
  targets n := targetsOf_intern g side name flavour n ▸ List.prefix_rfl
  flavours n f hf := by rw [flavourOf_intern, hf, Option.some_or]

theorem link (g : Graph) (u v : Node) : g.Grows (g.link u v) where
  nodes := nodes_link g u v ▸ List.prefix_rfl
  targets n := by
    rw [targetsOf_link]
    split
    · exact List.prefix_append _ _
    · exact List.prefix_rfl
  flavours n f hf := by rw [flavourOf_link, hf]

theorem addTaking (g : Graph) (thread key : Text) (flavour : Option Flavour) (nested : Bool) :
    g.Grows (g.addTaking thread key flavour nested) := by
  have hintern := (intern g .process thread none).trans (intern _ .resource key flavour)
  unfold Graph.addTaking
  cases nested with
  | false => exact hintern.trans (link _ _ _)
  | true => exact (hintern.trans (link _ _ _)).trans (link _ _ _)

theorem addPark (g : Graph) (thread : Text) : g.Grows (g.addPark thread) :=
  ((intern g .process thread none).trans (intern _ .resource (permitKey thread) (some .permit))).trans (link _ _ _)

end Grows

end Graph

/-- The flavour that a step has for a lock: the one under which the lock is taken, unless the thread holds it
already, and the flavour of permits for the permit of a thread that parks. -/
def Step.flavourFor (key : Text) (x : Step) : Option Flavour :=
  if x.newKey? = some key then x.event.flavour
  else if x.event.action = .park ∧ permitKey x.event.thread = key then some .permit
  else none

namespace Session

/-! ## One event -/

section Event
variable {s : Session} {e : Event} {g : Graph}

theorem Recorded.grows (h : s.Recorded e g) : s.graph.Grows g := by
  cases h with
  | started ha => exact .intern s.graph .process e.thread none
  | taken key hk hh => exact .addTaking _ _ _ _ _
  | parked ha => exact .addPark _ _
  | kept hp hk => exact .refl _

/-- A lock that has no flavour gets the one that the event has for it. -/
theorem Recorded.flavourOf (h : s.Recorded e g) (key : Text) : g.flavourOf (s.graph.listed .resource key) =
    (s.graph.flavourOf (s.graph.listed .resource key)).or ((s.step e).flavourFor key) := by
  unfold Step.flavourFor
  cases h with
  | started ha =>
    have hnew : (s.step e).newKey? = none := Step.newKey?_of_start ha
    have hpark : ¬ ((s.step e).event.action = .park ∧ permitKey (s.step e).event.thread = key) := by
      simp [step, ha]
    rw [Graph.flavourOf_internThread, hnew, if_neg (Option.some_ne_none key).symm, if_neg hpark, Option.or_none]
  | taken k hk hh =>
    have hnew : (s.step e).newKey? = some k := Step.newKey?_eq_some_iff.mpr ⟨hk, hh⟩
    have hpark : (s.step e).event.action ≠ .park := Step.action_ne_park_of_newKey? hnew
    rw [Graph.flavourOf_addTaking, hnew]
    simp only [Graph.listed_inj, hpark, false_and, if_false, Option.some.injEq, eq_comm]
    rfl
  | parked ha =>
    have hnew : (s.step e).newKey? = none := Step.newKey?_of_park ha
    have hpark : (s.step e).event.action = .park := ha
    rw [Graph.flavourOf_addPark, hnew, if_neg (Option.some_ne_none key).symm]
    simp only [Graph.listed_inj, hpark, true_and, eq_comm]
    rfl
  | kept hp hk =>
    have hnew : (s.step e).newKey? = none := Step.newKey?_eq_none_iff.mpr hk
    have hpark : ¬ ((s.step e).event.action = .park ∧ permitKey (s.step e).event.thread = key) :=
      fun h => hp h.1
    rw [hnew, if_neg (Option.some_ne_none key).symm, if_neg hpark, Option.or_none]

end Event

/-! ## Histories -/

theorem grows_feed (s : Session) (events : List Event) : s.graph.Grows (s.feed events).graph :=
  feed_induction (P := s.graph.Grows) (fun _ _ _ hr hs => hs.trans hr.grows) s events (.refl _)

theorem flavourOf_feed (s : Session) (events : List Event) (key : Text) :
    (s.feed events).graph.flavourOf (s.graph.listed .resource key) =
      (s.graph.flavourOf (s.graph.listed .resource key)).or ((s.steps events).findSome? (Step.flavourFor key)) := by
  induction events generalizing s with
  | nil => exact Option.or_none.symm
  | cons e events ih =>
    have hr := apply_recorded s e
    have hlisted : (s.apply e).graph.listed .resource key = s.graph.listed .resource key := by
      rw [Graph.listed, hr.epoch, Graph.listed]
    have hrest := ih (s.apply e)
    rw [hlisted, hr.flavourOf, Option.or_assoc] at hrest
    rw [steps, List.findSome?_cons]
    refine hrest.trans ?_
    cases (s.step e).flavourFor key <;> rfl

section Calls
variable {calls : List Call} (h : ∀ c ∈ calls, c.emptiesGraph = false)
include h

theorem grows_run (s : Session) : s.graph.Grows (s.run calls).graph := by
  induction calls generalizing s with
  | nil => exact .refl _
  | cons c calls ih =>
    obtain ⟨hc, hcalls⟩ := List.forall_mem_cons.mp h
    have hcall : s.graph.Grows (s.call c).graph := by
      rw [graph_call hc]
      exact grows_feed s _
    exact hcall.trans (ih hcalls (s.call c))

theorem epoch_run (s : Session) : (s.run calls).graph.epoch = s.graph.epoch := by
  induction calls generalizing s with
  | nil => rfl
  | cons c calls ih =>
    obtain ⟨hc, hcalls⟩ := List.forall_mem_cons.mp h
    have hrest : ((s.call c).run calls).graph.epoch = (s.call c).graph.epoch := ih hcalls (s.call c)
    rw [graph_call hc, feed_epoch] at hrest
    exact hrest

/-- A lock that has no flavour gets the first one that the history has for it. -/
theorem flavourOf_run (s : Session) (key : Text) :
    (s.run calls).graph.flavourOf (s.graph.listed .resource key) =
      (s.graph.flavourOf (s.graph.listed .resource key)).or ((s.chronicle calls).findSome? (Step.flavourFor key)) := by
  induction calls generalizing s with
  | nil => exact Option.or_none.symm
  | cons c calls ih =>
    obtain ⟨hc, hcalls⟩ := List.forall_mem_cons.mp h
    have hlisted : (s.call c).graph.listed .resource key = s.graph.listed .resource key := by
      rw [graph_call hc, Graph.listed, feed_epoch, Graph.listed]
    have hrest : ((s.call c).run calls).graph.flavourOf _ = _ := ih hcalls (s.call c)
    rw [hlisted, graph_call hc, flavourOf_feed, Option.or_assoc] at hrest
    rw [chronicle, List.findSome?_append]
    exact hrest

end Calls

theorem run_append (s : Session) (calls calls' : List Call) : s.run (calls ++ calls') = (s.run calls).run calls' :=
  List.foldl_append

theorem orderly_run {s : Session} (h : s.graph.Orderly) (calls : List Call) : (s.run calls).graph.Orderly := by
  induction calls generalizing s with
  | nil => exact h
  | cons c calls ih => exact ih (orderly_call h c)

/-- Between two points of a history in which the graph is not emptied, nothing is taken back: the table and the edges of
each vertex are continued, and flavours stay. At every point the flavour of a lock is the first one that the history
has for it so far. -/
theorem grows_between {calls : List Call} (h : ∀ c ∈ calls, c.emptiesGraph = false) {i j : Nat} (hij : i ≤ j) :
    (run {} (calls.take i)).graph.Grows (run {} (calls.take j)).graph ∧
      ∀ r ∈ (run {} (calls.take i)).graph.rows, r.node.side = .resource →
        r.flavour = (chronicle {} (calls.take i)).findSome? (Step.flavourFor r.node.name) := by
  constructor
  · have hlater : ∀ c ∈ (calls.take j).drop i, c.emptiesGraph = false :=
      fun c hc => h c (List.mem_of_mem_take (List.mem_of_mem_drop hc))
    have hsplit := List.take_append_drop i (calls.take j)
    rw [List.take_take, Nat.min_eq_left hij] at hsplit
    rw [← hsplit, run_append]
    exact grows_run hlater _
  · intro r hr hs
    have hcalls : ∀ c ∈ calls.take i, c.emptiesGraph = false := fun c hc => h c (List.mem_of_mem_take hc)
    have horderly : (run {} (calls.take i)).graph.Orderly := orderly_run (.of_rows_eq_nil rfl) _
    have hnode : r.node = Graph.listed {} .resource r.node.name := by
      have hlisted := horderly.eq_listed (List.mem_map_of_mem hr)
      rwa [hs, Graph.listed, epoch_run hcalls] at hlisted
    have hflavour := flavourOf_run hcalls {} r.node.name
    rw [← hnode, Graph.flavourOf_of_mem horderly.nodup hr] at hflavour
    exact hflavour

/-- A lock is taken without a flavour, again under a flavour by the thread that holds it, and then under two others: by
a second thread, and by the first one, which has given it back twice and takes it anew. A permit is taken before its
thread parks. At last the session forgets its threads, and the second one takes the lock anew. -/
def rivals : List Call := [
  .acquire "A" (some "L") none,
  .acquire "A" (some "L") (some .reentrant),
  .release "A" (some "L") none,
  .release "A" (some "L") none,
  .freshThreadName none 0,
  .feed [{ action := .acquire, thread := "B", lock := some "L", flavour := some .monitor },
    { action := .acquire, thread := "B", lock := some "LockSupport_C" }],
  .park "C",
  .acquire "A" (some "L") (some .permit),
  .resetRecorder,
  .acquire "B" (some "L") none]

theorem grows_between_rivals : (∀ c ∈ rivals, c.emptiesGraph = false) ∧
    (run {} (rivals.take 5)).graph.Grows (run {} (rivals.take 10)).graph ∧
    (run {} (rivals.take 5)).graph.rows = [
      { node := threadNode "A" },
      { node := lockNode "L", targets := [threadNode "A"] }] ∧
    (run {} (rivals.take 10)).graph.rows = [
      { node := threadNode "A" },
      { node := lockNode "L", flavour := some .monitor,
        targets := [threadNode "A", threadNode "B", threadNode "A", threadNode "B"] },
      { node := threadNode "B", targets := [lockNode "LockSupport_C"] },
      { node := lockNode "LockSupport_C", flavour := some .permit, targets := [threadNode "B"] },
      { node := threadNode "C", targets := [lockNode "LockSupport_C"] }] ∧
    ∀ r ∈ (run {} (rivals.take 10)).graph.rows, r.node.side = .resource →
      r.flavour = (chronicle {} (rivals.take 10)).findSome? (Step.flavourFor r.node.name) := by
  have h : ∀ c ∈ rivals, c.emptiesGraph = false := by decide
  exact ⟨h, (grows_between h (by decide)).1, by decide, by decide, (grows_between h (Nat.le_refl 10)).2⟩

end Session

end Gridlock
