import Mathlib.Data.List.Induction
import Mathlib.Data.List.Nodup
import Mathlib.Data.List.Perm.Subperm
import Gridlock.Proofs.Edges

/-!
# Which vertices have a label

A vertex whose name is a label already is listed under its description. The description can be the name of a vertex
before it, whose entry is lost then: labels are given out in the order of the table, and nobody looks whether a
description is free.

* `Graph.Displaced` : the vertices that are listed under their descriptions, told from the names in the table
* `Graph.Overwritten` : the vertices that lose their entries
* `lookup_labelsOf_eq_none_iff`, `lookup_labelsOf_eq_some_iff` : what stands under a label
* `Graph.interned` : the graphs that come up by interning
* `byLabel_interned` : each of their vertices has one entry, the overwritten ones apart
-/

namespace Gridlock

/-! ## Entries of association lists -/

namespace Assoc

variable {κ ν : Type} [DecidableEq κ] {k k' : κ} {v w : ν} {l : List (κ × ν)}

theorem keys_put (k : κ) (v : ν) (l : List (κ × ν)) : (put k v l).map Prod.fst =
    if k ∈ l.map Prod.fst then l.map Prod.fst else l.map Prod.fst ++ [k] := by
  induction l with
  | nil => simp
  | cons e rest ih =>
    by_cases he : e.1 = k
    · simp [put, he]
    · have hk : k ≠ e.1 := Ne.symm he
      simp only [put, beq_iff_eq, he, if_false, List.map_cons, List.mem_cons, hk, false_or, ih]
      split <;> simp

theorem nodup_keys_put (h : (l.map Prod.fst).Nodup) (k : κ) (v : ν) : ((put k v l).map Prod.fst).Nodup := by
  rw [keys_put]
  split
  · exact h
  · next hk =>
    rw [← List.concat_eq_append, List.nodup_concat]
    exact ⟨hk, h⟩

theorem lookup_put_eq_some_iff : (put k v l).lookup k' = some w ↔ k' = k ∧ w = v ∨ k' ≠ k ∧ l.lookup k' = some w := by
  by_cases hk : k' = k
  · subst hk
    simp [eq_comm]
  · simp [lookup_put_of_ne hk, hk]

theorem mem_iff_lookup (h : (l.map Prod.fst).Nodup) : (k, v) ∈ l ↔ l.lookup k = some v := by
  induction l with
  | nil => simp
  | cons e rest ih =>
    obtain ⟨a, w⟩ := e
    rw [List.map_cons, List.nodup_cons] at h
    by_cases hk : k = a
    · subst hk
      have hrest : (k, v) ∉ rest := fun hm => h.1 (List.mem_map.mpr ⟨_, hm, rfl⟩)
      simp [hrest, eq_comm]
    · have hk' : (k == a) = false := beq_eq_false_iff_ne.mpr hk
      rw [List.lookup_cons, hk', List.mem_cons, ← ih h.2]
      simp [hk]

end Assoc

/-! ## Descriptions -/

namespace Node

/-- The description of a vertex gives away its side and its name. -/
theorem eq_of_describe_eq {m n : Node} (h : m.describe = n.describe) : m.side = n.side ∧ m.name = n.name := by
  -- the last letter but one is another for a thread and for a lock
  have hreverse := congrArg (fun s => s.points.reverse) h
  have hside : m.side = n.side := by
    cases hm : m.side <;> cases hn : n.side <;> simp [describe, hm, hn, Side.name, Text.points] at hreverse ⊢
  refine ⟨hside, ?_⟩
  rw [describe, describe, hside, Text.append_left_inj, Text.append_left_inj, Text.append_left_inj] at h
  exact h

end Node

namespace Graph

variable {nodes : List Node} {m n : Node} {label : Text}

/-! ## Displaced vertices -/

theorem pair_sublist_concat {α : Type} {a b c : α} {l : List α} :
    [a, b].Sublist (l ++ [c]) ↔ [a, b].Sublist l ∨ a ∈ l ∧ b = c := by
  rw [← List.reverse_sublist, List.reverse_append, List.reverse_singleton, List.singleton_append,
    List.sublist_cons_iff, List.reverse_sublist]
  refine or_congr_right ⟨?_, ?_⟩
  · rintro ⟨r, hr, hl⟩
    obtain ⟨rfl, rfl⟩ := List.cons.inj hr
    exact ⟨by simpa using hl, rfl⟩
  · rintro ⟨ha, rfl⟩
    exact ⟨[a], rfl, by simpa using ha⟩

/-- A vertex is displaced if its name is the name of a vertex before it in the table, or the description of a
displaced one before it. -/
inductive Displaced (nodes : List Node) : Node → Prop
  | twin {m n : Node} (h : [m, n].Sublist nodes) (hname : m.name = n.name) : Displaced nodes n
  | pushed {m n : Node} (h : [m, n].Sublist nodes) (hm : Displaced nodes m) (hname : m.describe = n.name) :
    Displaced nodes n

def DisplacedTo (nodes : List Node) (label : Text) : Prop :=
  ∃ n ∈ nodes, Displaced nodes n ∧ n.describe = label

/-- The labels that are in use: the names of the vertices, and the descriptions of the displaced ones. -/
def Taken (nodes : List Node) (label : Text) : Prop :=
  label ∈ nodes.map Node.name ∨ DisplacedTo nodes label

/-- What a new vertex at the end of the table does not change. -/
theorem displaced_concat_of_mem (hm : m ∈ nodes) (hn : n ∉ nodes) :
    Displaced (nodes ++ [n]) m ↔ Displaced nodes m := by
  constructor
  · intro h
    induction h with
    | twin h hname =>
      rcases pair_sublist_concat.mp h with h | ⟨-, rfl⟩
      · exact .twin h hname
      · exact absurd hm hn
    | pushed h _ hname ih =>
      rcases pair_sublist_concat.mp h with h | ⟨-, rfl⟩
      · exact .pushed h (ih (h.subset List.mem_cons_self)) hname
      · exact absurd hm hn
  · intro h
    clear hm
    induction h with
    | twin h hname => exact .twin (pair_sublist_concat.mpr (Or.inl h)) hname
    | pushed h _ hname ih => exact .pushed (pair_sublist_concat.mpr (Or.inl h)) ih hname

/-- A new vertex is displaced if its name is in use. -/
theorem displaced_concat_self (hn : n ∉ nodes) : Displaced (nodes ++ [n]) n ↔ Taken nodes n.name := by
  constructor
  · intro h
    cases h with
    | twin h hname =>
      rcases pair_sublist_concat.mp h with h | ⟨hm, -⟩
      · exact absurd (h.subset (by simp)) hn
      · exact Or.inl (List.mem_map.mpr ⟨_, hm, hname⟩)
    | pushed h hd hname =>
      rcases pair_sublist_concat.mp h with h | ⟨hm, -⟩
      · exact absurd (h.subset (by simp)) hn
      · exact Or.inr ⟨_, hm, (displaced_concat_of_mem hm hn).mp hd, hname⟩
  · rintro (hname | ⟨m, hm, hd, hname⟩)
    · obtain ⟨m, hm, hname⟩ := List.mem_map.mp hname
      exact .twin (pair_sublist_concat.mpr (Or.inr ⟨hm, rfl⟩)) hname
    · exact .pushed (pair_sublist_concat.mpr (Or.inr ⟨hm, rfl⟩)) ((displaced_concat_of_mem hm hn).mpr hd) hname

theorem displacedTo_concat (hn : n ∉ nodes) : DisplacedTo (nodes ++ [n]) label ↔
    DisplacedTo nodes label ∨ Taken nodes n.name ∧ n.describe = label := by
  have hold : (∃ m ∈ nodes, Displaced (nodes ++ [n]) m ∧ m.describe = label) ↔ DisplacedTo nodes label := by
    refine exists_congr fun m => and_congr_right fun hm => ?_
    rw [displaced_concat_of_mem hm hn]
  rw [← hold, ← displaced_concat_self hn]
  simp only [DisplacedTo, List.mem_append, List.mem_singleton, or_and_right, exists_or, exists_eq_left]

theorem taken_concat (hn : n ∉ nodes) : Taken (nodes ++ [n]) label ↔
    Taken nodes label ∨ n.name = label ∨ Taken nodes n.name ∧ n.describe = label := by
  have hnames : label ∈ (nodes ++ [n]).map Node.name ↔ label ∈ nodes.map Node.name ∨ n.name = label := by
    rw [List.map_append, List.mem_append, List.map_singleton, List.mem_singleton, eq_comm]
  rw [Taken, displacedTo_concat hn, hnames, or_or_or_comm]
  rfl

/-! ## What stands under a label -/

def labelsOf (nodes : List Node) : List (Text × Node) :=
  nodes.foldl addLabel []

theorem labelsOf_concat (nodes : List Node) (n : Node) : labelsOf (nodes ++ [n]) =
    Assoc.put (if (labelsOf nodes).lookup n.name = none then n.name else n.describe) n (labelsOf nodes) := by
  rw [labelsOf, List.foldl_concat, ← labelsOf, addLabel]
  simp only [Option.isNone_iff_eq_none]

theorem nodup_keys_labelsOf (nodes : List Node) : ((labelsOf nodes).map Prod.fst).Nodup := by
  induction nodes using List.reverseRecOn with
  | nil => exact .nil
  | append_singleton nodes n ih =>
    rw [labelsOf_concat]
    exact Assoc.nodup_keys_put ih _ _

theorem nodup_concat_iff : (nodes ++ [n]).Nodup ↔ n ∉ nodes ∧ nodes.Nodup := by
  rw [← List.concat_eq_append, List.nodup_concat]

/-- There is an entry under a label exactly if the label is in use. -/
theorem lookup_labelsOf_eq_none_iff (h : nodes.Nodup) :
    (labelsOf nodes).lookup label = none ↔ ¬ Taken nodes label := by
  induction nodes using List.reverseRecOn generalizing label with
  | nil => simp [labelsOf, Taken, DisplacedTo]
  | append_singleton nodes n ih =>
    obtain ⟨hn, hnodes⟩ := nodup_concat_iff.mp h
    rw [labelsOf_concat, taken_concat hn]
    by_cases htaken : Taken nodes n.name
    · rw [if_neg fun hnone => (ih hnodes).mp hnone htaken]
      by_cases hl : label = n.describe
      · simp [hl, htaken]
      · rw [Assoc.lookup_put_of_ne hl, ih hnodes]
        have hname : n.name = label → Taken nodes label := fun h => h ▸ htaken
        simp [htaken, Ne.symm hl, or_iff_left_of_imp hname]
    · rw [if_pos ((ih hnodes).mpr htaken)]
      by_cases hl : label = n.name
      · simp [hl]
      · rw [Assoc.lookup_put_of_ne hl, ih hnodes]
        simp [htaken, Ne.symm hl]

def GivenLabel (nodes : List Node) (n : Node) (label : Text) : Prop :=
  Displaced nodes n ∧ label = n.describe ∨ ¬ Displaced nodes n ∧ label = n.name

/-- A vertex is overwritten if it is not displaced, and its name is the description of a displaced one. -/
def Overwritten (nodes : List Node) (n : Node) : Prop :=
  ¬ Displaced nodes n ∧ DisplacedTo nodes n.name

/-- A vertex gets the label under which it is put when its turn comes. -/
theorem labelsOf_concat_of_givenLabel (h : (nodes ++ [n]).Nodup) (hl : GivenLabel (nodes ++ [n]) n label) :
    labelsOf (nodes ++ [n]) = Assoc.put label n (labelsOf nodes) := by
  obtain ⟨hn, hnodes⟩ := nodup_concat_iff.mp h
  rw [GivenLabel, displaced_concat_self hn] at hl
  rw [labelsOf_concat]
  rcases hl with ⟨htaken, rfl⟩ | ⟨hfree, rfl⟩
  · rw [if_neg fun hnone => (lookup_labelsOf_eq_none_iff hnodes).mp hnone htaken]
  · rw [if_pos ((lookup_labelsOf_eq_none_iff hnodes).mpr hfree)]

theorem GivenLabel.taken (h : GivenLabel nodes n label) (hn : n ∈ nodes) : Taken nodes label := by
  rcases h with ⟨hd, rfl⟩ | ⟨-, rfl⟩
  · exact Or.inr ⟨n, hn, hd, rfl⟩
  · exact Or.inl (List.mem_map_of_mem hn)

theorem exists_givenLabel (nodes : List Node) (n : Node) : ∃ label, GivenLabel nodes n label := by
  by_cases hd : Displaced nodes n
  · exact ⟨_, Or.inl ⟨hd, rfl⟩⟩
  · exact ⟨_, Or.inr ⟨hd, rfl⟩⟩

theorem GivenLabel.unique {label' : Text} (h : GivenLabel nodes n label) (h' : GivenLabel nodes n label') :
    label = label' := by
  rcases h with ⟨hd, rfl⟩ | ⟨hd, rfl⟩ <;> rcases h' with ⟨hd', rfl⟩ | ⟨hd', rfl⟩
  · rfl
  · exact absurd hd hd'
  · exact absurd hd' hd
  · rfl

theorem givenLabel_concat_of_mem (hm : m ∈ nodes) (hn : n ∉ nodes) :
    GivenLabel (nodes ++ [n]) m label ↔ GivenLabel nodes m label := by
  rw [GivenLabel, displaced_concat_of_mem hm hn, GivenLabel]

theorem not_overwritten_concat_self (hn : n ∉ nodes) : ¬ Overwritten (nodes ++ [n]) n := by
  rintro ⟨hself, hto⟩
  rw [displaced_concat_self hn] at hself
  rcases (displacedTo_concat hn).mp hto with hto | ⟨htaken, -⟩
  · exact hself (Or.inr hto)
  · exact hself htaken

theorem overwritten_concat_of_mem (hm : m ∈ nodes) (hn : n ∉ nodes) : Overwritten (nodes ++ [n]) m ↔
    Overwritten nodes m ∨ ¬ Displaced nodes m ∧ Taken nodes n.name ∧ n.describe = m.name := by
  rw [Overwritten, displaced_concat_of_mem hm hn, displacedTo_concat hn, and_or_left]
  rfl

/-- A vertex that had a label keeps it when a new vertex is put under its own, or the new vertex overwrites it. -/
theorem ne_label_iff (h : ((nodes ++ [n]).map Node.describe).Nodup) (hm : m ∈ nodes) {label' : Text}
    (hl : GivenLabel (nodes ++ [n]) n label) (hl' : GivenLabel nodes m label') :
    label' ≠ label ↔ ¬ (¬ Displaced nodes m ∧ Taken nodes n.name ∧ n.describe = m.name) := by
  have hn := (nodup_concat_iff.mp h.of_map).1
  rw [GivenLabel, displaced_concat_self hn] at hl
  rcases hl with ⟨htaken, rfl⟩ | ⟨hfree, rfl⟩
  · rcases hl' with ⟨hdm, rfl⟩ | ⟨hdm, rfl⟩
    · have hne : m.describe ≠ n.describe := by
        intro heq
        have hmn := List.inj_on_of_nodup_map h (List.mem_append_left _ hm) (by simp) heq
        exact hn (hmn ▸ hm)
      simp [hne, hdm]
    · simp [htaken, hdm, eq_comm]
  · have hne : label' ≠ n.name := by
      rintro rfl
      exact hfree (hl'.taken hm)
    simp [hne, hfree]

/-- Under a label stands the vertex that was given it, unless the vertex is overwritten. -/
theorem lookup_labelsOf_eq_some_iff (h : (nodes.map Node.describe).Nodup) :
    (labelsOf nodes).lookup label = some m ↔ m ∈ nodes ∧ GivenLabel nodes m label ∧ ¬ Overwritten nodes m := by
  induction nodes using List.reverseRecOn generalizing label m with
  | nil => simp [labelsOf]
  | append_singleton nodes n ih =>
    have hnodup := h.of_map
    have hn := (nodup_concat_iff.mp hnodup).1
    have hinit : (nodes.map Node.describe).Nodup := by
      rw [List.map_append] at h
      exact h.of_append_left
    obtain ⟨given, hgiven⟩ := exists_givenLabel (nodes ++ [n]) n
    rw [labelsOf_concat_of_givenLabel hnodup hgiven, Assoc.lookup_put_eq_some_iff, ih hinit]
    by_cases hmn : m = n
    · subst hmn
      have hiff : GivenLabel (nodes ++ [m]) m label ↔ label = given :=
        ⟨fun hl => hl.unique hgiven, fun hl => hl ▸ hgiven⟩
      simp [hn, hiff, not_overwritten_concat_self hn]
    · have hmem : m ∈ nodes ++ [n] ↔ m ∈ nodes := by simp [hmn]
      rw [hmem]
      simp only [hmn, and_false, false_or]
      constructor
      · rintro ⟨hne, hm, hl, ho⟩
        rw [givenLabel_concat_of_mem hm hn, overwritten_concat_of_mem hm hn]
        exact ⟨hm, hl, not_or.mpr ⟨ho, (ne_label_iff h hm hgiven hl).mp hne⟩⟩
      · rintro ⟨hm, hl, ho⟩
        rw [givenLabel_concat_of_mem hm hn] at hl
        rw [overwritten_concat_of_mem hm hn, not_or] at ho
        exact ⟨(ne_label_iff h hm hgiven hl).mpr ho.2, hm, hl, ho.1⟩

/-! ## Graphs that come up by interning -/

/-- The graph after these vertices have been interned, one after the other. -/
def interned (calls : List (Side × Text × Option Flavour)) : Graph :=
  calls.foldl (fun g c => g.intern c.1 c.2.1 c.2.2) {}

theorem wellFormed_interned (calls : List (Side × Text × Option Flavour)) : (interned calls).WellFormed := by
  induction calls using List.reverseRecOn with
  | nil => exact .empty
  | append_singleton calls c ih =>
    rw [interned, List.foldl_concat, ← interned]
    exact ih.intern c.1 c.2.1 c.2.2

variable {g : Graph}

theorem WellFormed.nodup_describe (h : g.WellFormed) : (g.nodes.map Node.describe).Nodup := by
  refine h.nodup.map_on fun m hm n hn hmn => ?_
  obtain ⟨hside, hname⟩ := Node.eq_of_describe_eq hmn
  rw [h.eq_listed hm, h.eq_listed hn, hside, hname]

theorem nodup_keys_byLabel (g : Graph) : (g.byLabel.map Prod.fst).Nodup :=
  nodup_keys_labelsOf g.nodes

theorem mem_byLabel_iff (h : g.WellFormed) : (label, n) ∈ g.byLabel ↔
    n ∈ g.nodes ∧ GivenLabel g.nodes n label ∧ ¬ Overwritten g.nodes n := by
  rw [Assoc.mem_iff_lookup (nodup_keys_byLabel g)]
  exact lookup_labelsOf_eq_some_iff h.nodup_describe

/-- No vertex is listed twice. -/
theorem nodup_values_byLabel (h : g.WellFormed) : (g.byLabel.map Prod.snd).Nodup := by
  refine (nodup_keys_byLabel g).of_map.map_on ?_
  rintro ⟨label, n⟩ he ⟨label', n'⟩ he' (rfl : n = n')
  rw [mem_byLabel_iff h] at he he'
  rw [he.2.1.unique he'.2.1]

theorem mem_values_byLabel_iff (h : g.WellFormed) :
    n ∈ g.byLabel.map Prod.snd ↔ n ∈ g.nodes ∧ ¬ Overwritten g.nodes n := by
  constructor
  · intro hn
    obtain ⟨⟨label, n'⟩, he, rfl⟩ := List.mem_map.mp hn
    obtain ⟨hmem, -, ho⟩ := (mem_byLabel_iff h).mp he
    exact ⟨hmem, ho⟩
  · rintro ⟨hmem, ho⟩
    obtain ⟨label, hl⟩ := exists_givenLabel g.nodes n
    exact List.mem_map.mpr ⟨(label, n), (mem_byLabel_iff h).mpr ⟨hmem, hl, ho⟩, rfl⟩

theorem length_byLabel_eq_iff (h : g.WellFormed) :
    g.byLabel.length = g.rows.length ↔ ∀ n ∈ g.nodes, ¬ Overwritten g.nodes n := by
  have hvalues : g.byLabel.length = (g.byLabel.map Prod.snd).length := (List.length_map _).symm
  have hrows : g.rows.length = g.nodes.length := (List.length_map _).symm
  have hsub : g.byLabel.map Prod.snd ⊆ g.nodes := fun n hn => ((mem_values_byLabel_iff h).mp hn).1
  rw [hvalues, hrows]
  constructor
  · intro hlength n hn
    have hperm := ((nodup_values_byLabel h).subperm hsub).perm_of_length_le (Nat.le_of_eq hlength.symm)
    exact ((mem_values_byLabel_iff h).mp (hperm.mem_iff.mpr hn)).2
  · intro hall
    refine ((List.perm_ext_iff_of_nodup (nodup_values_byLabel h) h.nodup).mpr fun n => ?_).length_eq
    rw [mem_values_byLabel_iff h]
    exact ⟨And.left, fun hn => ⟨hn, hall n hn⟩⟩

/-- The labels of a graph that comes up by interning are different, and no vertex is listed twice. A displaced vertex
is listed under its description, and any other one under its name, with the exception of the overwritten vertices:
these are not listed. So there are as many entries as vertices exactly if no vertex is overwritten. -/
theorem byLabel_interned (calls : List (Side × Text × Option Flavour)) :
    ((interned calls).byLabel.map Prod.fst).Nodup ∧ ((interned calls).byLabel.map Prod.snd).Nodup ∧
      (∀ label n, (label, n) ∈ (interned calls).byLabel ↔ n ∈ (interned calls).nodes ∧
        GivenLabel (interned calls).nodes n label ∧ ¬ Overwritten (interned calls).nodes n) ∧
      ((interned calls).byLabel.length = (interned calls).rows.length ↔
        ∀ n ∈ (interned calls).nodes, ¬ Overwritten (interned calls).nodes n) := by
  have h := wellFormed_interned calls
  exact ⟨nodup_keys_byLabel _, nodup_values_byLabel h, fun _ _ => mem_byLabel_iff h, length_byLabel_eq_iff h⟩

/-- Two locks and a thread: the second lock has the name of the thread, and its description is the name of the first
lock, which loses its entry. -/
theorem byLabel_interned_three :
    (interned [(.resource, "A (RESOURCE)", none), (.process, "A", none), (.resource, "A", none)]).rows.length = 3 ∧
      (interned [(.resource, "A (RESOURCE)", none), (.process, "A", none), (.resource, "A", none)]).byLabel =
        ([("A (RESOURCE)", ⟨.resource, "A", .listed 0⟩), ("A", ⟨.process, "A", .listed 0⟩)] : List (Text × Node)) := by
  decide

end Graph

end Gridlock
