import Gridlock.Proofs.Detection
import Gridlock.Proofs.Exporting

/-!
# What an export tells of a graph

Edges may lead out of the table, to vertices that share a key with one another or with a vertex of the table; the
export does not tell these apart, but it has as many links from a vertex to a key as the vertex has edges to vertices
with this key. In the graphs of sessions, where edges stay in the table, nothing is lost but the order of edges to
different targets.

* `Graph.ofEdits`, `Graph.tabled_ofEdits` : the graphs that come up by any operations on graphs
* `Depicts` : what lists of nodes and links tell of a graph; `Graph.Tabled.depicts` : an export tells this
* `Row.Copied`, `Depicts.rows_copied` : graphs with the same export
* `ExportLink.Relates`, `Graph.WellFormed.exists_relates` : what a link says
* `Graph.export_faithful` : all of this, for any graph and for those of sessions
-/

namespace Gridlock

/-! ## Graphs that come up by operations -/

namespace Graph

inductive Edit
  | intern (side : Side) (name : Text) (flavour : Option Flavour)
  /-- An edge between any two vertices, in the table or outside it. -/
  | link (u v : Node)
  | reset
  | addLoose (side : Side) (name : Text) (flavour : Option Flavour)
deriving DecidableEq, Repr

def edit (g : Graph) : Edit → Graph
  | .intern side name flavour => g.intern side name flavour
  | .link u v => g.link u v
  | .reset => g.reset
  | .addLoose side name flavour => g.addLoose side name flavour

def ofEdits (edits : List Edit) : Graph :=
  edits.foldl edit {}

theorem Tabled.edit {g : Graph} (h : g.Tabled) (e : Edit) : (g.edit e).Tabled := by
  cases e with
  | intern side name flavour =>
    exact ⟨g.nodup_nodes_intern side name flavour h.nodup, g.current_intern side name flavour h.current⟩
  | link u v =>
    have hnodes : (g.link u v).nodes = g.nodes := nodes_link g u v
    refine ⟨?_, ?_⟩
    · exact hnodes ▸ h.nodup
    · intro n hn
      exact h.current n (hnodes ▸ hn)
  | reset => exact ⟨.nil, by simp [Graph.edit, Graph.reset, nodes]⟩
  | addLoose side name flavour => exact ⟨h.nodup, h.current⟩

theorem tabled_ofEdits (edits : List Edit) : (ofEdits edits).Tabled := by
  have hrun : ∀ g : Graph, g.Tabled → (edits.foldl Graph.edit g).Tabled := by
    induction edits with
    | nil => exact fun g h => h
    | cons e edits ih => exact fun g h => ih (g.edit e) (h.edit e)
  exact hrun {} ⟨.nil, by simp [nodes]⟩

end Graph

/-! ## Exports -/

/-- What an export tells of a graph: its nodes are the vertices of the table, in order and with what is known of them,
and then the other keys that edges lead to; all keys differ; and it has the links from a vertex to a key that stand
for the edges of the vertex to vertices with this key. -/
structure Depicts (nodes : List ExportNode) (links : List ExportLink) (g : Graph) : Prop where
  distinct : ∀ u ∈ g.nodes, ∀ v ∈ g.nodes, u ≠ v → u.exportKey ≠ v.exportKey
  nodup : (nodes.map (·.key)).Nodup
  vertices : ∃ strays : List Text,
    nodes = g.rows.map (fun r => ⟨r.node.exportKey, some ⟨r.node.name, r.node.side, r.flavour⟩⟩) ++
      strays.map (⟨·, none⟩) ∧
    ∀ k, k ∈ strays ↔ (∃ r ∈ g.rows, ∃ v ∈ r.targets, v.exportKey = k) ∧ ∀ n ∈ g.nodes, n.exportKey ≠ k
  edges : ∀ r ∈ g.rows, ∀ key, between links r.node.exportKey key = Graph.parallelLinks r key
  count : links.length = g.edgeCount

/-- The export of a graph, wherever its edges lead. -/
theorem Graph.Tabled.depicts {g : Graph} (h : g.Tabled) {lib : Multigraph} (hlib : lib.Lawful) :
    Depicts (lib.nodes (g.exportTo lib)) (lib.links (g.exportTo lib)) g where
  distinct _ hu _ hv hne := fun hkey => hne (h.eq_of_exportKey_eq hu hv hkey)
  nodup := by
    obtain ⟨strays, hnodes, hnodup, hmem⟩ := h.strays_exportTo hlib
    have hkeys : (g.rows.map exportRow).map (·.key) = g.rows.map (·.node.exportKey) := by
      rw [List.map_map]
      rfl
    have hstrays : (strays.map fun k => (⟨k, none⟩ : ExportNode)).map (·.key) = strays := by
      simp [Function.comp_def]
    rw [hkeys] at hmem
    rw [hnodes, List.map_append, hkeys, hstrays, List.nodup_append]
    refine ⟨h.nodup_keys, hnodup, ?_⟩
    rintro k hk k' hk' rfl
    exact ((hmem k).mp hk').2 hk
  vertices := by
    obtain ⟨strays, hnodes, -, hmem⟩ := h.strays_exportTo hlib
    refine ⟨strays, hnodes, fun k => ?_⟩
    rw [hmem]
    simp [Graph.nodes, exportRow, List.mem_flatMap]
  edges _ hr key := h.between_exportTo hlib hr key
  count := length_links hlib g

/-! ## Graphs with the same export -/

/-- A row of one graph, and its copy in another: the vertex has the same side, name and flavour, and edges to the same
vertices, each as many times. -/
structure Row.Copied (g' : Graph) (r r' : Row) : Prop where
  node : r'.node = g'.listed r.node.side r.node.name
  flavour : r'.flavour = r.flavour
  targets : r'.targets.Perm (r.targets.map fun v => g'.listed v.side v.name)

namespace Graph

variable {g : Graph}

/-- Vertices with the same keys are the same, once they are taken from one table. -/
theorem perm_map_listed (g : Graph) {l l' : List Node} (h : (l.map (·.exportKey)).Perm (l'.map (·.exportKey))) :
    (l.map fun v => g.listed v.side v.name).Perm (l'.map fun v => g.listed v.side v.name) := by
  have hinj : Function.Injective fun p : Side × Text => Node.exportKey ⟨p.1, p.2, .listed 0⟩ := by
    rintro ⟨side, name⟩ ⟨side', name'⟩ heq
    obtain ⟨hside, hname⟩ := Node.exportKey_inj.mp heq
    exact Prod.ext hside hname
  have : Nonempty (Side × Text) := ⟨(.process, "")⟩
  obtain ⟨f, hf⟩ := hinj.hasLeftInverse
  have hlisted (l : List Node) : (l.map (·.exportKey)).map (fun k => g.listed (f k).1 (f k).2) =
      l.map fun v => g.listed v.side v.name := by
    rw [List.map_map]
    refine List.map_congr_left fun v _ => ?_
    have hv : f v.exportKey = (v.side, v.name) := hf (v.side, v.name)
    simp only [Function.comp_apply, hv]
  rw [← hlisted l, ← hlisted l']
  exact h.map _

end Graph

theorem length_parallelLinks (r : Row) (key : Text) :
    (Graph.parallelLinks r key).length = (r.targets.map (·.exportKey)).count key := by
  rw [Graph.parallelLinks, List.length_map, List.length_range, List.count, List.countP_map]
  rfl

namespace Depicts

variable {nodes : List ExportNode} {links links' : List ExportLink} {g g' : Graph}

theorem nodes_eq (h : Depicts nodes links g) (hg : g.WellFormed) : nodes = g.rows.map Graph.exportRow := by
  obtain ⟨strays, hnodes, hstrays⟩ := h.vertices
  have hnone : strays = [] := by
    rw [List.eq_nil_iff_forall_not_mem]
    intro k hk
    obtain ⟨⟨r, hr, v, hv, rfl⟩, hoff⟩ := (hstrays k).mp hk
    exact hoff v (hg.mem_nodes_of_target hr hv) rfl
  rw [hnodes, hnone, List.map_nil, List.append_nil]
  rfl

theorem perm_targets (h : Depicts nodes links g) (h' : Depicts nodes links' g') (hlinks : links.Perm links')
    {r r' : Row} (hr : r ∈ g.rows) (hr' : r' ∈ g'.rows) (hkey : r.node.exportKey = r'.node.exportKey) :
    (r'.targets.map (·.exportKey)).Perm (r.targets.map (·.exportKey)) := by
  rw [List.perm_iff_count]
  intro k
  have hcount : (Graph.parallelLinks r' k).length = (Graph.parallelLinks r k).length := by
    rw [← h.edges r hr k, ← h'.edges r' hr' k, hkey]
    exact (hlinks.filter _).length_eq.symm
  rw [← length_parallelLinks, ← length_parallelLinks, hcount]

/-- Graphs with the same export are the same up to the order of edges to different targets. -/
theorem rows_copied (h : Depicts nodes links g) (h' : Depicts nodes links' g') (hlinks : links.Perm links')
    (hg : g.WellFormed) (hg' : g'.WellFormed) : List.Forall₂ (Row.Copied g') g.rows g'.rows := by
  have hnodes : g.rows.map Graph.exportRow = g'.rows.map Graph.exportRow := by
    rw [← h.nodes_eq hg, h'.nodes_eq hg']
  have hrows : List.Forall₂ (fun r r' => Graph.exportRow r = Graph.exportRow r') g.rows g'.rows := by
    have hsame : List.Forall₂ (· = ·) (g.rows.map Graph.exportRow) (g'.rows.map Graph.exportRow) :=
      hnodes ▸ List.forall₂_refl _
    exact List.forall₂_map_right_iff.mp (List.forall₂_map_left_iff.mp hsame)
  rw [List.forall₂_iff_zip] at hrows ⊢
  refine ⟨hrows.1, ?_⟩
  intro r r' hzip
  obtain ⟨hr, hr'⟩ := List.of_mem_zip hzip
  have hrow := hrows.2 hzip
  simp only [Graph.exportRow, Graph.detailsOf, ExportNode.mk.injEq, Option.some.injEq, NodeDetails.mk.injEq] at hrow
  obtain ⟨hkey, hname, hside, hflavour⟩ := hrow
  refine ⟨?_, hflavour.symm, ?_⟩
  · rw [hname, hside]
    exact hg'.eq_listed (List.mem_map_of_mem hr')
  · have hself : r'.targets = r'.targets.map fun v => g'.listed v.side v.name := by
      conv_lhs => rw [← List.map_id r'.targets]
      exact List.map_congr_left fun v hv => hg'.eq_listed (hg'.mem_nodes_of_target hr' hv)
    rw [hself]
    exact g'.perm_map_listed (h.perm_targets h' hlinks hr hr' hkey)

end Depicts

/-! ## Relations -/

/-- A link between a thread and a lock, and what it says of them. -/
structure ExportLink.Relates (l : ExportLink) (u v : Node) : Prop where
  source : l.source = u.exportKey
  target : l.target = v.exportKey
  relation : l.relation = "waits" ∧ u.side = .process ∧ v.side = .resource ∨
    l.relation = "holds" ∧ u.side = .resource ∧ v.side = .process

theorem Graph.WellFormed.exists_relates {g : Graph} (h : g.WellFormed) {lib : Multigraph} (hlib : lib.Lawful)
    {l : ExportLink} (hl : l ∈ lib.links (g.exportTo lib)) :
    ∃ r ∈ g.rows, ∃ v ∈ r.targets, l.Relates r.node v := by
  obtain ⟨r, hr, v, hv, hrelation, hsource, htarget⟩ := exists_edge_of_mem_links hlib hl
  refine ⟨r, hr, v, hv, hsource, htarget, ?_⟩
  have hside : r.node.side ≠ v.side := h.target_side r.node v (by rwa [targetsOf_of_mem h.nodup hr])
  rw [hrelation, Graph.relation, Node.isProcess]
  cases hr : r.node.side with
  | process => exact Or.inl ⟨rfl, rfl, Side.eq_resource_of_ne (hr ▸ hside)⟩
  | resource => exact Or.inr ⟨rfl, rfl, Side.eq_process_of_ne (hr ▸ hside)⟩

/-- The export of any graph depicts it. In the graphs of sessions, threads wait for locks and locks are held by
threads, and two of them that have the same nodes and links are copies of each other. -/
theorem Graph.export_faithful {lib : Multigraph} (hlib : lib.Lawful) :
    (∀ edits : List Edit,
      let g := ofEdits edits
      Depicts (lib.nodes (g.exportTo lib)) (lib.links (g.exportTo lib)) g) ∧
    ∀ (n : Nat) (calls : List (Nat × Session.Call)),
      let g := ((Pool.ofSize n).run calls).graph
      Depicts (lib.nodes (g.exportTo lib)) (lib.links (g.exportTo lib)) g ∧
      (∀ l ∈ lib.links (g.exportTo lib), ∃ r ∈ g.rows, ∃ v ∈ r.targets, l.Relates r.node v) ∧
      ∀ (n' : Nat) (calls' : List (Nat × Session.Call)),
        let g' := ((Pool.ofSize n').run calls').graph
        lib.nodes (g.exportTo lib) = lib.nodes (g'.exportTo lib) →
        (lib.links (g.exportTo lib)).Perm (lib.links (g'.exportTo lib)) →
          List.Forall₂ (Row.Copied g') g.rows g'.rows := by
  have hbuilt (n : Nat) (calls : List (Nat × Session.Call)) : ((Pool.ofSize n).run calls).graph.WellFormed :=
    (Pool.orderly_run (Pool.ofSize n) (.of_rows_eq_nil rfl) calls).toWellFormed
  refine ⟨fun edits => (tabled_ofEdits edits).depicts hlib, ?_⟩
  intro n calls g
  have hg : g.WellFormed := hbuilt n calls
  refine ⟨hg.tabled.depicts hlib, fun l hl => hg.exists_relates hlib hl, ?_⟩
  intro n' calls' g' hnodes hlinks
  have hg' : g'.WellFormed := hbuilt n' calls'
  have hdepicts : Depicts (lib.nodes (g.exportTo lib)) (lib.links (g'.exportTo lib)) g' :=
    hnodes ▸ hg'.tabled.depicts hlib
  exact (hg.tabled.depicts hlib).rows_copied hdepicts hlinks hg hg'

/-- A thread takes a lock and keeps it, then takes others and gives each back at once. -/
def takesInTurn (locks : List Text) : List (Nat × Session.Call) :=
  (0, .acquire "T" (some "X") none) ::
    locks.flatMap fun l => [(0, .acquire "T" (some l) none), (0, .release "T" (some l) none)]

/-- A thread with an edge to a lock of the table, two to a lock outside the table with the same key, and one to a lock
that has no node yet. -/
def looseLocks : List Graph.Edit :=
  let thread : Node := ⟨.process, "T", .listed 0⟩
  [.intern .process "T" none, .intern .resource "L" (some .readView), .addLoose .resource "L" none,
    .addLoose .resource "M" none, .link thread ⟨.resource, "L", .loose 0⟩, .link thread ⟨.resource, "M", .loose 1⟩,
    .link thread ⟨.resource, "L", .listed 0⟩, .link thread ⟨.resource, "L", .loose 0⟩]

/-- Of two edges to one lock and an edge to another, the export does not tell which came last. -/
theorem Graph.export_faithful_takesInTurn :
    Multigraph.ordered.Lawful ∧
    (let x := (ofEdits looseLocks).exportTo .ordered
     Depicts (Multigraph.ordered.nodes x) (Multigraph.ordered.links x) (ofEdits looseLocks) ∧
     (Multigraph.ordered.nodes x).map (·.key) = (["PROCESS:T", "RESOURCE:L", "RESOURCE:M"] : List Text) ∧
     (between (Multigraph.ordered.links x) "PROCESS:T" "RESOURCE:L").map (·.index) = [0, 1, 2]) ∧
    let g := ((Pool.ofSize 1).run (takesInTurn ["A", "B", "A"])).graph
    let g' := ((Pool.ofSize 1).run (takesInTurn ["A", "A", "B"])).graph
    g.rows ≠ g'.rows ∧ List.Forall₂ (Row.Copied g') g.rows g'.rows := by
  have hfaithful := Graph.export_faithful Multigraph.lawful_ordered
  refine ⟨Multigraph.lawful_ordered, ⟨hfaithful.1 looseLocks, by decide +kernel, by decide +kernel⟩, ?_⟩
  intro g g'
  have hrows : g.rows ≠ g'.rows := by decide +kernel
  have hnodes : Multigraph.ordered.nodes (g.exportTo .ordered) = Multigraph.ordered.nodes (g'.exportTo .ordered) := by
    decide +kernel
  have hlinks : Multigraph.ordered.links (g.exportTo .ordered) = Multigraph.ordered.links (g'.exportTo .ordered) := by
    decide +kernel
  exact ⟨hrows, (hfaithful.2 1 _).2.2 1 _ hnodes (.of_eq hlinks)⟩

end Gridlock
