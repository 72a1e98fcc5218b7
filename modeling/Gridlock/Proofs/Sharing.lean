import Gridlock.Proofs.Consistency

/-!
# Sessions that share a graph work like one session

Each session of a pool keeps the locks of its own threads, and all of them write to one graph. A session alone
would keep the locks of all threads. As long as no thread is known to two sessions, nobody can tell from the graph
how many sessions there are: an event looks at the graph and at the locks of its own thread, and at nothing else.

* `Session.Agree` : sessions with the same graph, in which some threads hold the same locks; `Agree.feed`
* `Session.run` : calls to one session
* `Pool.Follows` : each session of the pool agrees with one session about the threads that it owns;
  `Follows.call`, `Follows.run`
* `Pool.Divided` : calls that bring events, with no thread in the hands of two sessions
* `Pool.run_eq_single` : the pool comes to the graph of one session, and each thread holds what it holds there
-/

namespace Gridlock

namespace Session

/-! ## Sessions that agree about some threads -/

/-- The sessions have the same graph, and the threads in `own` hold the same locks in both. -/
structure Agree (own : Text → Prop) (s s' : Session) : Prop where
  graph : s.graph = s'.graph
  holdings : ∀ t, own t → s.holdings t = s'.holdings t

namespace Agree

variable {own : Text → Prop} {s s' : Session} {t : Text}

theorem view (h : Agree own s s') (ht : own t) : s.view t = s'.view t := by
  unfold Session.view
  rw [h.graph, h.holdings t ht]

theorem apply (h : Agree own s s') {e : Event} (he : own e.thread) :
    Agree own (s.apply e) (s'.apply e) := by
  refine ⟨graph_apply_congr h.graph fun key => by rw [h.holdings e.thread he], ?_⟩
  intro t ht
  have hview : (s.apply e).view t = (s'.apply e).view t := by
    by_cases hte : t = e.thread
    · subst hte
      rw [view_apply_self, view_apply_self, h.view he]
    · rw [view_apply_of_ne s hte, view_apply_of_ne s' hte, h.view ht]
  exact congrArg ThreadView.holdings hview

/-- Sessions still agree after events of threads that they agree about. -/
theorem feed (h : Agree own s s') {events : List Event} (he : ∀ e ∈ events, own e.thread) :
    Agree own (s.feed events) (s'.feed events) := by
  induction events generalizing s s' with
  | nil => exact h
  | cons e events ih =>
    obtain ⟨hfirst, hrest⟩ := List.forall_mem_cons.mp he
    exact ih (h.apply hfirst) hrest

end Agree

theorem holdings_feed_of_forall_ne (s : Session) {events : List Event} {t : Text}
    (h : ∀ e ∈ events, e.thread ≠ t) : (s.feed events).holdings t = s.holdings t :=
  congrArg ThreadView.holdings (s.view_feed_of_forall_ne h)

def run (s : Session) (calls : List Call) : Session :=
  calls.foldl call s

def Call.threads (c : Call) : List Text :=
  (c.script?.getD []).map (·.thread)

end Session

namespace Pool

/-! ## A pool that follows one session -/

/-- Sessions that have seen nothing, over a graph. -/
def sharing (g : Graph) (n : Nat) : Pool :=
  { graph := g, recorders := List.replicate n {} }

theorem session_update_self (p : Pool) {i : Nat} (hi : i < p.recorders.length) (s : Session) :
    (p.update i s).session i = s := by
  simp [session, update, hi]

theorem session_update_of_ne (p : Pool) {i j : Nat} (h : j ≠ i) (s : Session) :
    (p.update i s).session j = { graph := s.graph, recorder := (p.session j).recorder } := by
  simp [session, update, List.getElem?_set_ne (Ne.symm h)]

/-- Each session of the pool agrees with `s` about the threads that it owns. -/
def Follows (owner : Text → Nat) (p : Pool) (s : Session) : Prop :=
  ∀ i, (p.session i).Agree (owner · = i) s

namespace Follows

variable {owner : Text → Nat} {p : Pool} {s : Session}

theorem sharing (owner : Text → Nat) (g : Graph) (n : Nat) : (sharing g n).Follows owner { graph := g } := by
  intro i
  have hrecorder : (List.replicate n ({} : Recorder)).getD i {} = {} := by
    rw [List.getD_eq_getElem?_getD, List.getElem?_replicate]
    split <;> rfl
  exact ⟨rfl, fun t _ => congrArg (Recorder.holdings · t) hrecorder⟩

/-- A call to a session, with events of threads that this session owns. -/
theorem call (h : p.Follows owner s) {i : Nat} (hi : i < p.recorders.length) {c : Session.Call}
    {events : List Event} (hc : c.script? = some events) (ho : ∀ e ∈ events, owner e.thread = i) :
    (p.call (i, c)).Follows owner (s.call c) := by
  have hown : ((p.session i).feed events).Agree (owner · = i) (s.feed events) := (h i).feed ho
  unfold Pool.call
  rw [Session.call_of_script? hc, Session.call_of_script? hc]
  intro j
  by_cases hj : j = i
  · subst hj
    rw [session_update_self p hi]
    exact hown
  · rw [session_update_of_ne p hj]
    refine ⟨hown.graph, ?_⟩
    intro t ht
    have hother : ∀ e ∈ events, e.thread ≠ t := by
      rintro e he rfl
      exact hj (ht.symm.trans (ho e he))
    rw [s.holdings_feed_of_forall_ne hother, ← (h j).holdings t ht]
    rfl

end Follows

/-! ## Calls with no thread in the hands of two sessions -/

/-- The calls go to the first `n` sessions and bring events, and no two sessions have events of one thread. -/
structure Divided (n : Nat) (calls : List (Nat × Session.Call)) : Prop where
  session_lt : ∀ c ∈ calls, c.1 < n
  events : ∀ c ∈ calls, c.2.script?.isSome = true
  apart : ∀ c ∈ calls, ∀ d ∈ calls, ∀ t ∈ c.2.threads, t ∈ d.2.threads → c.1 = d.1

theorem recorders_length_call (p : Pool) (c : Nat × Session.Call) :
    (p.call c).recorders.length = p.recorders.length := by
  unfold call update
  exact List.length_set

/-- The pool follows the session through calls that respect the owners of the threads. -/
theorem Follows.run {owner : Text → Nat} {p : Pool} {s : Session} (h : p.Follows owner s)
    {calls : List (Nat × Session.Call)} (hi : ∀ c ∈ calls, c.1 < p.recorders.length)
    (he : ∀ c ∈ calls, c.2.script?.isSome = true) (ho : ∀ c ∈ calls, ∀ t ∈ c.2.threads, owner t = c.1) :
    (p.run calls).Follows owner (s.run (calls.map Prod.snd)) := by
  induction calls generalizing p s with
  | nil => exact h
  | cons c calls ih =>
    obtain ⟨hi₁, hi⟩ := List.forall_mem_cons.mp hi
    obtain ⟨he₁, he⟩ := List.forall_mem_cons.mp he
    obtain ⟨ho₁, ho⟩ := List.forall_mem_cons.mp ho
    obtain ⟨events, hc⟩ := Option.isSome_iff_exists.mp he₁
    have hown : ∀ e ∈ events, owner e.thread = c.1 := by
      intro e hm
      apply ho₁
      rw [Session.Call.threads, hc, Option.getD_some]
      exact List.mem_map_of_mem hm
    refine ih (h.call hi₁ hc hown) ?_ he ho
    intro d hd
    rw [recorders_length_call]
    exact hi d hd

theorem Divided.exists_owner {n : Nat} {calls : List (Nat × Session.Call)} (h : Divided n calls) :
    ∃ owner : Text → Nat, ∀ c ∈ calls, ∀ t ∈ c.2.threads, owner t = c.1 := by
  have hone (t : Text) : ∃ i, ∀ c ∈ calls, t ∈ c.2.threads → i = c.1 := by
    by_cases hex : ∃ c ∈ calls, t ∈ c.2.threads
    · obtain ⟨c, hc, ht⟩ := hex
      exact ⟨c.1, fun d hd ht' => h.apart c hc d hd t ht ht'⟩
    · exact ⟨0, fun c hc ht => absurd ⟨c, hc, ht⟩ hex⟩
  choose owner howner using hone
  exact ⟨owner, fun c hc t ht => howner t c hc ht⟩

/-- A session can own a thread if no other session has events of it. -/
theorem owner_update {owner : Text → Nat} {calls : List (Nat × Session.Call)}
    (ho : ∀ c ∈ calls, ∀ t ∈ c.2.threads, owner t = c.1) {i : Nat} {t : Text}
    (ht : ∀ c ∈ calls, t ∈ c.2.threads → c.1 = i) :
    ∀ c ∈ calls, ∀ u ∈ c.2.threads, (if u = t then i else owner u) = c.1 := by
  intro c hc u hu
  split
  · next he => exact (ht c hc (he ▸ hu)).symm
  · exact ho c hc u hu

/-- Sessions that share a graph, with no thread in the hands of two of them, bring the graph to what one session
makes of the same calls, with the same deadlocks; and a thread of which no other session has events holds the
locks that it holds in the one session. -/
theorem run_eq_single (g : Graph) {n : Nat} {calls : List (Nat × Session.Call)} (h : Divided n calls) :
    let pool := (sharing g n).run calls
    let single := Session.run { graph := g } (calls.map Prod.snd)
    pool.graph = single.graph ∧ pool.graph.detect = single.graph.detect ∧
      ∀ i t, (∀ c ∈ calls, t ∈ c.2.threads → c.1 = i) → (pool.session i).heldBy t = single.heldBy t := by
  intro pool single
  have hlength : (sharing g n).recorders.length = n := List.length_replicate
  have hfollows {owner : Text → Nat} (ho : ∀ c ∈ calls, ∀ t ∈ c.2.threads, owner t = c.1) :
      pool.Follows owner single :=
    (Follows.sharing owner g n).run (hlength.symm ▸ h.session_lt) h.events ho
  obtain ⟨owner, ho⟩ := h.exists_owner
  have hgraph : pool.graph = single.graph := (hfollows ho 0).graph
  refine ⟨hgraph, congrArg Graph.detect hgraph, ?_⟩
  intro i t ht
  have hagree := hfollows (owner_update ho ht) i
  exact congrArg Holdings.keys (hagree.holdings t (if_pos rfl))

/-- Two sessions in turn: one walks through the regions of a thread, the other follows a thread that takes the same
locks the other way round. -/
def crossing : List (Nat × Session.Call) :=
  [(0, .start "A"),
   (1, .feed [{ action := .start, thread := "B" }, { action := .acquire, thread := "B", lock := some "M" }]),
   (0, .walk "A" (.block "L" none [.block "M" none [], .event { action := .park, thread := "A" }])),
   (1, .tryAcquire "B" (some "L") (some .reentrant) true),
   (0, .acquire "A" (some "N") (some .readView)),
   (1, .release "B" (some "M") none)]

theorem run_eq_single_crossing : Divided 2 crossing ∧
    ((sharing {} 2).run crossing).graph = (Session.run {} (crossing.map Prod.snd)).graph ∧
    (((sharing {} 2).run crossing).session 0).heldBy "A" = [Text.plain "N_readLock"] ∧
    (((sharing {} 2).run crossing).session 1).heldBy "B" = [Text.plain "L"] := by
  have hd : Divided 2 crossing := ⟨by decide, by decide, by decide⟩
  obtain ⟨hgraph, -, hheld⟩ := run_eq_single {} hd
  refine ⟨hd, hgraph, ?_, ?_⟩
  · rw [hheld 0 "A" (by decide)]
    decide
  · rw [hheld 1 "B" (by decide)]
    decide

end Pool

end Gridlock
