import Mathlib.Data.List.Basic
import Mathlib.Logic.Equiv.Basic
import Gridlock.Advice
import Gridlock.Analysis.Finding
import Gridlock.Session

/-!
# What does not depend on where vertices come from

The search compares vertices and does nothing else with them, so it finds the same closed paths if all vertices
are replaced by others, different ones by different ones. Reports, advice and sizes read only sides and names.
So two sessions whose graphs differ in the origin of the vertices, and in what is outside the table, cannot be
told apart by what is reported.

* `closedPaths_map` : the search on a graph with other vertices
* `Renaming` : other vertices of the same sides and names; `Renaming.swap` : those of two epochs exchanged
* `Graph.Renamed` : tables that correspond; `Renamed.intern`, `Renamed.link` : operations keep them so
* `Renamed.detect`, `Renamed.metrics`, `deadlockReport_map`, `suggestions_map` : what is reported
* `Session.Renamed`, `Renamed.feed` : sessions that correspond still do after the same events
-/

namespace Gridlock

/-! ## The search -/

section Search
variable {α β : Type}

def Digraph.map (f : α → β) (g : Digraph α) : Digraph β :=
  ⟨g.rows.map fun r => (f r.1, r.2.map f)⟩

def Search.map (f : α → β) (s : Search α) : Search β where
  frames := s.frames.map fun r => (f r.1, r.2.map f)
  path := s.path.map f
  active := s.active.map f
  visited := s.visited.map f
  noted := s.noted.map (List.map f)

variable [DecidableEq α] [DecidableEq β] {f : α → β} (hf : Function.Injective f)
include hf

theorem Digraph.next_map (g : Digraph α) (v : α) : (g.map f).next (f v) = (g.next v).map f := by
  have h (rows : List (α × List α)) : (rows.map fun r => (f r.1, r.2.map f)).lookup (f v) =
      (rows.lookup v).map (List.map f) := by
    induction rows with
    | nil => rfl
    | cons r rows ih =>
      obtain ⟨w, ws⟩ := r
      have hw : (f v == f w) = (v == w) := by rw [Bool.eq_iff_iff, beq_iff_eq, beq_iff_eq, hf.eq_iff]
      rw [List.map_cons, List.lookup_cons, List.lookup_cons, hw, ih]
      cases v == w <;> rfl
  unfold next map
  rw [h]
  cases g.rows.lookup v <;> rfl

namespace Search

theorem enter_map (g : Digraph α) (s : Search α) (v : α) :
    (s.map f).enter (g.map f) (f v) = (s.enter g v).map f := by
  unfold enter map
  rw [Digraph.next_map hf]
  rfl

theorem close?_map (path : List α) (v : α) :
    close? (path.map f) (f v) = (close? path v).map (List.map f) := by
  have htake : (path.map f).takeWhile (· ≠ f v) = (path.takeWhile (· ≠ v)).map f := by
    rw [List.takeWhile_map]
    simp only [Function.comp_def, ne_eq, hf.eq_iff]
  unfold close?
  rw [htake]
  by_cases h : v ∈ path
  · rw [if_pos h, if_pos (List.mem_map_of_mem h)]
    simp
  · rw [if_neg h, if_neg ((List.mem_map_of_injective hf).not.mpr h)]
    rfl

theorem erase_map (l : List α) (u : α) : (l.map f).erase (f u) = (l.erase u).map f :=
  (List.map_erase hf l).symm

theorem step_map (g : Digraph α) (s : Search α) : (s.map f).step (g.map f) = (s.step g).map f := by
  obtain ⟨frames, path, active, visited, noted⟩ := s
  cases frames with
  | nil => rfl
  | cons frame frames =>
    obtain ⟨u, vs⟩ := frame
    cases vs with
    | nil =>
      simp only [step, map, List.map_cons, List.map_nil, List.map_tail, erase_map hf]
    | cons v vs =>
      by_cases hv : v ∈ visited
      · by_cases ha : v ∈ active
        · simp [step, map, hv, ha, List.mem_map_of_injective hf, close?_map hf, Option.toList_map]
        · simp [step, map, hv, ha, List.mem_map_of_injective hf]
      · have henter := enter_map hf g ⟨(u, vs) :: frames, path, active, visited, noted⟩ v
        simp only [step, map, List.map_cons, List.mem_map_of_injective hf, hv, not_false_eq_true, if_true] at henter ⊢
        exact henter

theorem run_map (g : Digraph α) (s : Search α) : (s.map f).run (g.map f) = (s.run g).map f := by
  fun_induction run g s with
  | case1 s h =>
    rw [run, dif_pos]
    show s.frames.map _ = []
    rw [h, List.map_nil]
  | case2 s h ih =>
    rw [run, dif_neg, step_map hf, ih]
    show s.frames.map _ ≠ []
    rwa [Ne, List.map_eq_nil_iff]

theorem visit_map (g : Digraph α) (s : Search α) (root : α) :
    (s.map f).visit (g.map f) (f root) = (s.visit g root).map f := by
  have hvisited : f root ∈ (s.map f).visited ↔ root ∈ s.visited := List.mem_map_of_injective hf
  unfold visit
  by_cases h : root ∈ s.visited
  · rw [if_pos h, if_pos (hvisited.mpr h)]
  · rw [if_neg h, if_neg (hvisited.not.mpr h), enter_map hf, run_map hf]

end Search

/-- The search finds the same closed paths, with the other vertices. -/
theorem Digraph.closedPaths_map (g : Digraph α) : (g.map f).closedPaths = g.closedPaths.map (List.map f) := by
  have hfold (vs : List α) (s : Search α) :
      (vs.map f).foldl (Search.visit (g.map f)) (s.map f) = (vs.foldl (Search.visit g) s).map f := by
    induction vs generalizing s with
    | nil => rfl
    | cons v vs ih => rw [List.map_cons, List.foldl_cons, List.foldl_cons, Search.visit_map hf, ih]
  have hvertices : (g.map f).vertices = g.vertices.map f := by
    simp [map, vertices]
  unfold closedPaths explore
  rw [hvertices]
  exact congrArg Search.noted (hfold g.vertices {})

end Search

/-! ## Renamings -/

/-- Other vertices of the same sides and names. -/
structure Renaming where
  map : Node → Node
  injective : Function.Injective map
  side : ∀ n, (map n).side = n.side
  name : ∀ n, (map n).name = n.name

namespace Renaming

/-- The vertices of two epochs exchanged. -/
def swap (e e' : Nat) : Renaming where
  map n := { n with mark := Equiv.swap (.listed e) (.listed e') n.mark }
  injective := by
    rintro ⟨side, name, mark⟩ ⟨side', name', mark'⟩ h
    simp only [Node.mk.injEq, EmbeddingLike.apply_eq_iff_eq] at h
    rw [h.1, h.2.1, h.2.2]
  side _ := rfl
  name _ := rfl

theorem swap_listed (e e' : Nat) (side : Side) (name : Text) :
    (swap e e').map ⟨side, name, .listed e⟩ = ⟨side, name, .listed e'⟩ := by
  show (⟨side, name, Equiv.swap (Mark.listed e) (.listed e') (.listed e)⟩ : Node) = _
  rw [Equiv.swap_apply_left]

variable (f : Renaming)

def row (r : Row) : Row :=
  ⟨f.map r.node, r.flavour, r.targets.map f.map⟩

/-! ## What is reported -/

theorem isWitness_map (path : List Node) : isWitness (path.map f.map) = isWitness path := by
  have halternates : alternates (path.map f.map) = alternates path := by
    unfold alternates
    rw [← List.map_tail, List.zip_map, List.all_map]
    simp only [Function.comp_def, Prod.map_fst, Prod.map_snd, f.side]
  have hthreads : threadsOn (path.map f.map) = threadsOn path := by
    unfold threadsOn Node.isProcess
    rw [List.filter_map, List.map_map]
    simp only [Function.comp_def, f.side, f.name]
  unfold isWitness
  rw [halternates, hthreads, List.length_map]

theorem cycleText_map (cycle : List Node) : cycleText (cycle.map f.map) = cycleText cycle := by
  unfold cycleText Node.isProcess
  rw [List.map_map]
  simp only [Function.comp_def, f.side, f.name]

theorem lockOrder_map (cycle : List Node) : lockOrder (cycle.map f.map) = lockOrder cycle := by
  unfold lockOrder Node.isResource
  rw [List.filter_map, List.map_map]
  simp only [Function.comp_def, f.side, f.name]

theorem numbered_map {α β : Type} (g : α → β) (line : String → β → List Text) (items : List α) :
    numbered line (items.map g) = numbered (fun n x => line n (g x)) items := by
  unfold numbered
  rw [List.zipIdx_map, List.flatMap_map]
  rfl

variable (cycles : List (List Node))

theorem deadlockReport_map : deadlockReport (cycles.map (List.map f.map)) = deadlockReport cycles := by
  unfold deadlockReport
  rw [numbered_map, List.isEmpty_map]
  simp only [cycleText_map]

theorem suggestions_map : suggestions (cycles.map (List.map f.map)) = suggestions cycles := by
  have hadvice : numbered cycleAdvice (cycles.map (List.map f.map)) = numbered cycleAdvice cycles := by
    rw [numbered_map]
    unfold cycleAdvice
    simp only [lockOrder_map]
  unfold suggestions
  rw [hadvice, List.isEmpty_map]

end Renaming

/-! ## Graphs that correspond -/

namespace Graph

/-- The tables correspond, row by row and in the vertices that come up next. What is outside them does not
matter. -/
structure Renamed (f : Renaming) (g g' : Graph) : Prop where
  listed : ∀ side name, f.map (g.listed side name) = g'.listed side name
  rows : g'.rows = g.rows.map f.row

namespace Renamed

variable {f : Renaming} {g g' : Graph} (h : Renamed f g g')
include h

theorem isSome_row? (n : Node) : (g'.row? (f.map n)).isSome = (g.row? n).isSome := by
  unfold Graph.row?
  rw [h.rows, List.find?_map, Option.isSome_map]
  simp only [Function.comp_def, Renaming.row, f.injective.eq_iff]

theorem intern (side : Side) (name : Text) (flavour : Option Flavour) :
    Renamed f (g.intern side name flavour) (g'.intern side name flavour) := by
  have hsome := h.isSome_row? (g.listed side name)
  rw [h.listed] at hsome
  unfold Graph.intern
  dsimp only
  rw [hsome]
  split
  · refine ⟨h.listed, ?_⟩
    show g'.rows.map _ = (g.rows.map _).map f.row
    rw [h.rows, List.map_map, List.map_map, ← h.listed]
    apply List.map_congr_left
    intro r _
    by_cases hr : r.node = g.listed side name
    · simp [Renaming.row, hr]
    · simp [Renaming.row, hr, f.injective.eq_iff]
  · refine ⟨h.listed, ?_⟩
    show g'.rows ++ _ = (g.rows ++ _).map f.row
    rw [h.rows, List.map_append, ← h.listed]
    rfl

theorem link (side side' : Side) (name name' : Text) :
    Renamed f (g.link (g.listed side name) (g.listed side' name'))
      (g'.link (g'.listed side name) (g'.listed side' name')) where
  listed := h.listed
  rows := by
    show g'.rows.map _ = (g.rows.map _).map f.row
    rw [h.rows, List.map_map, List.map_map, ← h.listed, ← h.listed]
    apply List.map_congr_left
    intro r _
    by_cases hr : r.node = g.listed side name
    · simp [linkRow, Renaming.row, hr]
    · simp [linkRow, Renaming.row, hr, f.injective.eq_iff]

theorem addTaking (thread key : Text) (flavour : Option Flavour) (nested : Bool) :
    Renamed f (g.addTaking thread key flavour nested) (g'.addTaking thread key flavour nested) := by
  have hi := (h.intern .process thread none).intern .resource key flavour
  unfold Graph.addTaking
  cases nested with
  | false => exact hi.link .resource .process key thread
  | true => exact (hi.link .process .resource thread key).link .resource .process key thread

theorem addPark (thread : Text) : Renamed f (g.addPark thread) (g'.addPark thread) :=
  ((h.intern .process thread none).intern .resource (permitKey thread) (some .permit)).link _ _ _ _

theorem detect : g'.detect.cycles = g.detect.cycles.map (List.map f.map) := by
  have hdigraph : g'.digraph = g.digraph.map f.map := by
    unfold Graph.digraph Digraph.map
    rw [h.rows, List.map_map, List.map_map]
    rfl
  unfold Graph.detect
  rw [hdigraph, Digraph.closedPaths_map f.injective, List.filter_map]
  simp only [Function.comp_def, f.isWitness_map]

theorem rowsOf (side : Side) : g'.rowsOf side = (g.rowsOf side).map f.row := by
  unfold Graph.rowsOf
  rw [h.rows, List.filter_map]
  simp only [Function.comp_def, Renaming.row, f.side]

theorem edgesOf (side : Side) : g'.edgesOf side = g.edgesOf side := by
  unfold Graph.edgesOf
  rw [h.rowsOf, List.flatMap_map, List.length_flatMap, List.length_flatMap]
  simp only [Renaming.row, List.length_map]

theorem metrics (events : Nat) : g'.metrics events = g.metrics events := by
  unfold Graph.metrics
  rw [h.rowsOf, h.rowsOf, h.edgesOf, h.edgesOf, h.detect, List.length_map, List.length_map, List.length_map]

theorem cycleNames : g'.detect.cycleNames = g.detect.cycleNames := by
  unfold Detection.cycleNames
  rw [h.detect, List.map_map]
  simp only [Function.comp_def, List.map_map, f.name]

theorem hasDeadlock : g'.detect.hasDeadlock = g.detect.hasDeadlock := by
  show (!g'.detect.cycles.isEmpty) = !g.detect.cycles.isEmpty
  rw [h.detect, List.isEmpty_map]

end Renamed

end Graph

/-! ## Sessions that correspond -/

namespace Session

/-- The graphs correspond, and the recorders are the same. -/
structure Renamed (f : Renaming) (s s' : Session) : Prop where
  graph : s.graph.Renamed f s'.graph
  recorder : s'.recorder = s.recorder

namespace Renamed

variable {f : Renaming} {s s' : Session}

theorem reset (s s' : Session) :
    Renamed (.swap s.reset.graph.epoch s'.reset.graph.epoch) s.reset s'.reset where
  graph := ⟨fun side name => Renaming.swap_listed _ _ side name, rfl⟩
  recorder := rfl

theorem acquire (h : Renamed f s s') (thread : Text) (lock : Option Text) (flavour : Option Flavour) :
    Renamed f (s.acquire thread lock flavour) (s'.acquire thread lock flavour) := by
  have hholdings : s'.holdings thread = s.holdings thread := congrArg (Recorder.holdings · thread) h.recorder
  unfold Session.acquire Session.taking
  rw [hholdings, h.recorder]
  cases (s.holdings thread).taking lock flavour with
  | unnamed => exact h
  | again l key => exact ⟨h.graph, rfl⟩
  | fresh l key nested => exact ⟨h.graph.addTaking thread key flavour nested, rfl⟩

theorem release (h : Renamed f s s') (thread : Text) (lock : Option Text) (flavour : Option Flavour) :
    Renamed f (s.release thread lock flavour) (s'.release thread lock flavour) := by
  have hholdings : s'.holdings thread = s.holdings thread := congrArg (Recorder.holdings · thread) h.recorder
  unfold Session.release Session.releasing?
  rw [hholdings, h.recorder]
  cases named? lock with
  | none => exact h
  | some l =>
    dsimp only
    split
    · exact h
    · exact ⟨h.graph, rfl⟩

/-- One event. -/
theorem apply (h : Renamed f s s') (e : Event) : Renamed f (s.apply e) (s'.apply e) := by
  unfold Session.apply
  cases e.action with
  | start =>
    refine ⟨h.graph.intern .process e.thread none, ?_⟩
    show s'.recorder.setHoldings _ _ = s.recorder.setHoldings _ _
    rw [h.recorder]
  | acquire => exact h.acquire _ _ _
  | tryAcquire =>
    dsimp only
    unfold Session.tryAcquire
    split
    · exact h.acquire _ _ _
    · exact h
  | release => exact h.release _ _ _
  | park => exact ⟨h.graph.addPark e.thread, h.recorder⟩
  | unpark => exact h

/-- A list of events. -/
theorem feed (h : Renamed f s s') (events : List Event) : Renamed f (s.feed events) (s'.feed events) := by
  induction events generalizing s s' with
  | nil => exact h
  | cons e events ih => exact ih (h.apply e)

end Renamed

end Session

end Gridlock
