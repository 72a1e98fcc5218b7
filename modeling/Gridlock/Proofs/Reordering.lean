import Mathlib.Data.Fin.VecNotation
import Gridlock.Proofs.Account
import Gridlock.Proofs.Guarded
import Gridlock.Proofs.Isolation

/-!
# Traces with their threads in another order

The order in which a trace lists its threads does not matter for the graph, up to the order of the table and
of the threads at a lock. So it does not matter for the rings either, but it can matter for what is reported.

* `filter_script_of_perm` : the events of each thread are the same in any order of the threads
* `view_loaded_of_perm` : so is all that is known of a thread
* `isRing_of_view`, `guarded_of_view` : sessions that know the same of every thread have the same rings
* `analyze_of_perm` : what is reported in any order of the threads
* `order_decides` : two threads are reported or not, by the place of a third one
-/

namespace Gridlock

/-! ## The events of a thread -/

section Script
variable {l l' : List ThreadTrace}

theorem filter_flatMap_script (h : ∀ entry ∈ l, ∀ e ∈ entry.script, e.thread = entry.thread) (x : Text) :
    (l.flatMap (·.script)).filter (·.thread = x) = (l.filter (·.thread = x)).flatMap (·.script) := by
  induction l with
  | nil => rfl
  | cons entry rest ih =>
    have hentry := h entry List.mem_cons_self
    rw [List.flatMap_cons, List.filter_append, ih fun d hd => h d (List.mem_cons_of_mem entry hd)]
    by_cases hx : entry.thread = x
    · have hall : entry.script.filter (·.thread = x) = entry.script := by
        rw [List.filter_eq_self]
        intro e he
        simpa [hentry e he] using hx
      rw [hall, List.filter_cons_of_pos (by simpa using hx), List.flatMap_cons]
    · have hnone : entry.script.filter (·.thread = x) = [] := by
        rw [List.filter_eq_nil_iff]
        intro e he
        simpa [hentry e he] using hx
      rw [hnone, List.filter_cons_of_neg (by simpa using hx), List.nil_append]

theorem filter_eq_of_perm (hids : (l.map (·.thread)).Nodup) (hperm : l'.Perm l) (x : Text) :
    l'.filter (·.thread = x) = l.filter (·.thread = x) := by
  have hle : (l.filter (·.thread = x)).length ≤ 1 := by
    have hcount := List.nodup_iff_count_le_one.mp hids x
    rw [List.count_eq_countP, List.countP_map, List.countP_eq_length_filter] at hcount
    exact hcount
  have hfilter := hperm.filter fun entry => decide (entry.thread = x)
  generalize l.filter (·.thread = x) = own at hle hfilter
  match own, hle with
  | [], _ => exact List.perm_nil.mp hfilter
  | [entry], _ => exact List.perm_singleton.mp hfilter

end Script

namespace Trace

variable {t t' : Trace}

theorem Owned.of_perm (h : t.Owned) (hperm : t'.threads.Perm t.threads) : t'.Owned :=
  fun entry hentry => h entry (hperm.mem_iff.mp hentry)

theorem filter_script_of_perm (h : t.Owned) (hids : (t.threads.map (·.thread)).Nodup)
    (hperm : t'.threads.Perm t.threads) (x : Text) :
    t'.script.filter (·.thread = x) = t.script.filter (·.thread = x) := by
  rw [script, script, filter_flatMap_script h, filter_flatMap_script (h.of_perm hperm),
    filter_eq_of_perm hids hperm]

end Trace

/-! ## The graph of a trace -/

namespace Analyzer

variable {t t' : Trace} (a a' : Analyzer)

theorem analyze_hasDeadlock (t : Trace) (base : Finding) :
    (a.analyze t base).2.hasDeadlock = (a.loaded t).graph.detect.hasDeadlock :=
  rfl

theorem view_loaded (t : Trace) (x : Text) :
    (a.loaded t).view x = ThreadView.feed {} (t.script.filter (·.thread = x)) :=
  Session.view_feed a.session.reset t.script x

theorem view_loaded_of_perm (h : t.Owned) (hids : (t.threads.map (·.thread)).Nodup)
    (hperm : t'.threads.Perm t.threads) (x : Text) : (a.loaded t).view x = (a'.loaded t').view x := by
  rw [view_loaded, view_loaded, Trace.filter_script_of_perm h hids hperm]

/-- Nobody but the threads of the trace waits for a lock or takes one. -/
theorem within_threads (h : t.Owned) (key : Text) :
    (a.loaded t).graph.Within (· ∈ t.threads.map (·.thread)) key := by
  intro x hx
  by_contra hnot
  have hne : ∀ e ∈ t.script, e.thread ≠ x := by
    rintro e he rfl
    obtain ⟨entry, hentry, he⟩ := List.mem_flatMap.mp he
    exact hnot (List.mem_map.mpr ⟨entry, hentry, (h entry hentry e he).symm⟩)
  have hview : (a.loaded t).view x = {} := Session.view_feed_of_forall_ne _ hne
  rcases hx with hx | hx
  · have hwaits : (a.loaded t).graph.waits x = [] := congrArg ThreadView.waits hview
    rw [hwaits] at hx
    cases hx
  · have hcount : ((a.loaded t).graph.takers key).count x = 0 := congrFun (congrArg ThreadView.takes hview) key
    exact List.count_eq_zero.mp hcount hx

end Analyzer

namespace Session

variable {s s' : Session} (h : ∀ t, s.view t = s'.view t)
include h

theorem isRing_of_view {n : Nat} {threads locks : Fin (n + 2) → Text} (r : s.graph.IsRing threads locks) :
    s'.graph.IsRing threads locks where
  threads_injective := r.threads_injective
  locks_injective := r.locks_injective
  waits i := waits_eq_of_view h (threads i) ▸ r.waits i
  taken i := (takers_perm_of_view h (locks i)).mem_iff.mp (r.taken i)

theorem guarded_of_view {group : Text → Prop} (hg : s.graph.Guarded group) : s'.graph.Guarded group := by
  intro t ht
  obtain ⟨n, threads, locks, r⟩ := hg t ht
  refine ⟨n, threads, locks, isRing_of_view h r.toIsRing, r.first, ?_, ?_⟩
  · intro i x hx
    apply r.within i x
    rwa [waits_eq_of_view h, (takers_perm_of_view h (locks i)).mem_iff]
  · rw [← waits_eq_of_view h]
    exact r.ahead

end Session

/-! ## What is reported -/

/-- Every trace that is read lists its events under their threads. Of such a trace, with each thread listed
once, the rings are the same in any order of the threads. Without a ring no deadlock is reported in any order,
and with a guarded group of threads one is reported in every order. -/
theorem analyze_of_perm : (∀ j t, Trace.ofJson? j = some t → t.Owned) ∧
    ∀ t t' : Trace, t.Owned → (t.threads.map (·.thread)).Nodup → t'.threads.Perm t.threads →
    ∀ (a a' : Analyzer) (base base' : Finding),
      (∀ n, ∀ threads locks : Fin (n + 2) → Text,
        (a.loaded t).graph.IsRing threads locks ↔ (a'.loaded t').graph.IsRing threads locks) ∧
      ((∀ n, ∀ threads locks : Fin (n + 2) → Text, ¬ (a.loaded t).graph.IsRing threads locks) →
        (a.analyze t base).2.hasDeadlock = false ∧ (a'.analyze t' base').2.hasDeadlock = false) ∧
      ∀ group x, group x → (a.loaded t).graph.Guarded group →
        (a.analyze t base).2.hasDeadlock = true ∧ (a'.analyze t' base').2.hasDeadlock = true := by
  refine ⟨fun j t => owned_of_ofJson?, ?_⟩
  intro t t' hown hids hperm a a' base base'
  have hview := a.view_loaded_of_perm a' hown hids hperm
  have ho := a.orderly_loaded t
  have ho' := a'.orderly_loaded t'
  have hrings (n : Nat) (threads locks : Fin (n + 2) → Text) :
      (a.loaded t).graph.IsRing threads locks ↔ (a'.loaded t').graph.IsRing threads locks :=
    ⟨Session.isRing_of_view hview, Session.isRing_of_view fun x => (hview x).symm⟩
  refine ⟨hrings, ?_, ?_⟩
  · intro hnone
    have hnone' : ∀ n, ∀ threads locks : Fin (n + 2) → Text,
        ¬ (a'.loaded t').graph.IsRing threads locks := by
      intro n threads locks
      rw [← hrings]
      exact hnone n threads locks
    rw [Analyzer.analyze_hasDeadlock, Analyzer.analyze_hasDeadlock]
    exact ⟨Graph.hasDeadlock_eq_false_of_forall_not_isRing ho.toWellFormed hnone,
      Graph.hasDeadlock_eq_false_of_forall_not_isRing ho'.toWellFormed hnone'⟩
  · intro group x hx hg
    rw [Analyzer.analyze_hasDeadlock, Analyzer.analyze_hasDeadlock]
    exact ⟨Graph.hasDeadlock_of_guarded ho hg hx,
      Graph.hasDeadlock_of_guarded ho' (Session.guarded_of_view hview hg) hx⟩

def taking (thread : Text) (locks : List Text) : ThreadTrace where
  thread := thread
  events := locks.map fun lock =>
    { action := .acquire, thread := thread, lock := some lock, flavour := some .monitor }

/-- Two threads that take two locks in opposite order. -/
def crossing : List ThreadTrace :=
  [taking "A" ["M", "L"], taking "B" ["L", "M"]]

/-- The same as JSON, each lock taken around the next one. -/
def crossingJson : Json :=
  let thread (name outer inner : Text) : Json := .obj [("id", .str name), ("regions", .arr
    [.obj [("resource", .str outer), ("body", .arr [.obj [("resource", .str inner)]])]])]
  .arr [thread "A" "M" "L", thread "B" "L" "M"]

/-- Two threads that take two locks in the same order. -/
def following : List ThreadTrace :=
  [taking "A" ["L", "M"], taking "B" ["L", "M"]]

theorem guarded_crossing :
    (Analyzer.loaded {} { threads := crossing }).graph.Guarded (· ∈ (["A", "B"] : List Text)) := by
  have hwithin := Analyzer.within_threads {} (t := { threads := crossing }) (by decide)
  have hA : ("M" : Text) ∉ (Analyzer.loaded {} { threads := crossing }).graph.waits "A" := by decide +kernel
  have hB : ("L" : Text) ∉ (Analyzer.loaded {} { threads := crossing }).graph.waits "B" := by decide +kernel
  intro x hx
  simp only [List.mem_cons, List.not_mem_nil, or_false] at hx
  rcases hx with rfl | rfl
  · refine ⟨0, !["A", "B"], !["L", "M"], ?_, rfl, fun _ => hwithin _, ?_⟩
    · exact ⟨by decide, by decide, by decide +kernel, by decide +kernel⟩
    · intro pre post he
      exact absurd (he ▸ List.mem_append_right pre List.mem_cons_self) hA
  · refine ⟨0, !["B", "A"], !["M", "L"], ?_, rfl, fun _ => hwithin _, ?_⟩
    · exact ⟨by decide, by decide, by decide +kernel, by decide +kernel⟩
    · intro pre post he
      exact absurd (he ▸ List.mem_append_right pre List.mem_cons_self) hB

theorem not_isRing_following (n : Nat) (threads locks : Fin (n + 2) → Text) :
    ¬ (Analyzer.loaded {} { threads := following }).graph.IsRing threads locks := by
  intro r
  have hA : (Analyzer.loaded {} { threads := following }).graph.waits "A" = [Text.plain "M"] := by decide +kernel
  have hB : (Analyzer.loaded {} { threads := following }).graph.waits "B" = [Text.plain "M"] := by decide +kernel
  have hwaits {x key : Text} (h : key ∈ (Analyzer.loaded {} { threads := following }).graph.waits x) :
      key = "M" := by
    have hx := Analyzer.within_threads {} (t := { threads := following }) (by decide) key x (Or.inl h)
    simp only [following, taking, List.map_cons, List.map_nil, List.mem_cons, List.not_mem_nil,
      or_false] at hx
    rcases hx with rfl | rfl
    · rw [hA] at h
      exact List.mem_singleton.mp h
    · rw [hB] at h
      exact List.mem_singleton.mp h
  have hsame := r.locks_injective ((hwaits (r.waits 0)).trans (hwaits (r.waits 1)).symm)
  simp at hsame

theorem analyze_of_perm_crossing :
    (∃ t, Trace.ofJson? crossingJson = some t ∧ t.Owned) ∧
    Trace.Owned { threads := crossing } ∧ (crossing.map (·.thread)).Nodup ∧ crossing.reverse.Perm crossing ∧
    (Analyzer.loaded {} { threads := crossing }).graph.Guarded (· ∈ (["A", "B"] : List Text)) ∧
    (Analyzer.analyze {} { threads := crossing } {}).2.hasDeadlock = true ∧
    (Analyzer.analyze {} { threads := crossing.reverse } {}).2.hasDeadlock = true ∧
    (∀ n, ∀ threads locks : Fin (n + 2) → Text,
      ¬ (Analyzer.loaded {} { threads := following }).graph.IsRing threads locks) ∧
    (Analyzer.analyze {} { threads := following.reverse } {}).2.hasDeadlock = false := by
  obtain ⟨hread, horder⟩ := analyze_of_perm
  have hcrossing := horder { threads := crossing } { threads := crossing.reverse } (by decide) (by decide)
    crossing.reverse_perm {} {} {} {}
  have hfollowing := horder { threads := following } { threads := following.reverse } (by decide)
    (by decide) following.reverse_perm {} {} {} {}
  obtain ⟨h, h'⟩ := hcrossing.2.2 (· ∈ (["A", "B"] : List Text)) "A" (by decide) guarded_crossing
  exact ⟨⟨_, rfl, hread crossingJson _ rfl⟩, by decide, by decide, crossing.reverse_perm, guarded_crossing, h, h',
    not_isRing_following, (hfollowing.2.1 not_isRing_following).2⟩

/-- The deadlock of two threads is reported or not, by the place at which a third one is listed. -/
theorem order_decides :
    Trace.Owned { threads := crossing ++ [taking "P" ["L"]] } ∧
      ((crossing ++ [taking "P" ["L"]]).map (·.thread)).Nodup ∧
      (taking "P" ["L"] :: crossing).Perm (crossing ++ [taking "P" ["L"]]) ∧
      (({} : Analyzer).analyze { threads := crossing ++ [taking "P" ["L"]] } {}).2.hasDeadlock = true ∧
      (({} : Analyzer).analyze { threads := taking "P" ["L"] :: crossing } {}).2.hasDeadlock = false := by
  refine ⟨by decide, by decide, (List.perm_append_singleton _ _).symm, ?_, ?_⟩
  · rw [Analyzer.analyze_hasDeadlock, Graph.detect, Digraph.closedPaths,
      Digraph.explore_eq_of_tour _ (n := 30) (by decide +kernel) (by decide +kernel)]
    decide +kernel
  · rw [Analyzer.analyze_hasDeadlock, Graph.detect, Digraph.closedPaths,
      Digraph.explore_eq_of_tour _ (n := 30) (by decide +kernel) (by decide +kernel)]
    decide +kernel

end Gridlock
