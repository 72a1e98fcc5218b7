import Gridlock.Proofs.Threads

/-!
# Regions give back what they take

A block takes its lock, goes through its body and gives the lock back. If the events in the body take and give
back nothing themselves, the lock is the newest one again when it is given back, and it is found under its
key as well as under its bare name.

* `Event.Idle`, `Region.Idle` : events that leave the holdings alone, and regions with no other events inside
* `Recorder.Resumes` : a recorder is what it was before
* `holdings_acquire`, `holdings_release` : what a thread holds after it has taken a lock or given one back
* `release_newest` : giving back the newest lock
* `resumes_walk`, `resumes_walks` : after a region, and after several, the recorder is what it was before
* `walk_balanced` : after a region every thread holds what it held before
-/

namespace Gridlock

/-- The event takes no lock and gives none back: a thread parks or is unparked, or tries a lock without
waiting. -/
def Event.Idle (e : Event) : Prop :=
  e.action = .park ∨ e.action = .unpark ∨ e.action = .tryAcquire ∧ e.timed = false

instance (e : Event) : Decidable e.Idle :=
  inferInstanceAs (Decidable (_ ∨ _))

namespace Region

mutual

def Idle : Region → Prop
  | event e => e.Idle
  | block _ _ body => AllIdle body

def AllIdle : List Region → Prop
  | [] => True
  | r :: rest => r.Idle ∧ AllIdle rest

end

mutual

def decidableIdle : (r : Region) → Decidable r.Idle
  | event e => inferInstanceAs (Decidable e.Idle)
  | block _ _ body => decidableAllIdle body

def decidableAllIdle : (rs : List Region) → Decidable (AllIdle rs)
  | [] => .isTrue trivial
  | r :: rest => @instDecidableAnd _ _ (decidableIdle r) (decidableAllIdle rest)

end

instance : DecidablePred Region.Idle :=
  decidableIdle

theorem scripts_append (thread : Text) (rs rs' : List Region) :
    scripts thread (rs ++ rs') = scripts thread rs ++ scripts thread rs' := by
  induction rs with
  | nil => rfl
  | cons r rs ih => rw [List.cons_append, scripts, scripts, ih, List.append_assoc]

theorem scripts_singleton (thread : Text) (r : Region) : scripts thread [r] = r.script thread := by
  rw [scripts, scripts, List.append_nil]

end Region

/-! ## Recorders -/

namespace Recorder

variable {thread : Text} {r r' r'' : Recorder}

theorem setHoldings_setHoldings (r : Recorder) (thread : Text) (h h' : Holdings) :
    (r.setHoldings thread h).setHoldings thread h' = r.setHoldings thread h' := by
  simp only [setHoldings, Assoc.put_put]

/-- The recorder is `r` again. A thread that `r` does not know may be known now, with no locks. -/
def Resumes (r' : Recorder) (thread : Text) (r : Recorder) : Prop :=
  r' = r ∨ r.threads.lookup thread = none ∧ r' = r.setHoldings thread .empty

theorem resumes_setHoldings (r : Recorder) (thread : Text) :
    (r.setHoldings thread (r.holdings thread)).Resumes thread r := by
  unfold holdings
  cases hl : r.threads.lookup thread with
  | none => exact Or.inr ⟨hl, rfl⟩
  | some h =>
    left
    rw [Option.getD_some, setHoldings, Assoc.put_of_lookup hl]

namespace Resumes

theorem trans (h : r'.Resumes thread r) (h' : r''.Resumes thread r') : r''.Resumes thread r := by
  rcases h with rfl | ⟨hnone, rfl⟩
  · exact h'
  · rcases h' with rfl | ⟨-, rfl⟩
    · exact Or.inr ⟨hnone, rfl⟩
    · exact Or.inr ⟨hnone, setHoldings_setHoldings _ _ _ _⟩

theorem eq_of_lookup (h : r'.Resumes thread r) (hr : r.threads.lookup thread ≠ none) : r' = r :=
  h.resolve_right fun hnone => hr hnone.1

theorem holdings (h : r'.Resumes thread r) : r'.holdings = r.holdings := by
  rcases h with rfl | ⟨hnone, rfl⟩
  · rfl
  · funext t
    by_cases ht : t = thread
    · subst ht
      rw [holdings_setHoldings_self, Recorder.holdings, hnone, Option.getD_none]
    · exact holdings_setHoldings_of_ne r ht .empty

end Resumes

end Recorder

theorem Holdings.push_some {name : Text} (hn : name ≠ "") (h : Holdings) (key : Text) :
    h.push key (some name) = ⟨⟨name, key⟩ :: h.entries⟩ := by
  simp [push, Option.filter, hn]

theorem Holdings.getD_release? (h : Holdings) (key : Text) (name : Option Text) :
    (h.release? key name).getD h = ⟨h.entries.eraseP (matchesHold key name)⟩ := by
  unfold release?
  split
  · rfl
  · next hany =>
    rw [Option.getD_none, List.eraseP_of_forall_not]
    intro e he hmatch
    exact hany (List.any_eq_true.mpr ⟨e, he, hmatch⟩)

/-! ## Sessions -/

namespace Session

variable {s : Session} {thread lock name : Text} {flavour flavour' : Option Flavour}

theorem feed_block (s : Session) (thread lock : Text) (flavour : Option Flavour) (body : List Region) :
    s.feed ((Region.block lock flavour body).script thread) =
      ((s.acquire thread (some lock) flavour).feed (Region.scripts thread body)).release thread (some lock)
        flavour := by
  rw [← walk, walk_block, feed_scripts]

theorem feed_scripts_cons (s : Session) (thread : Text) (r : Region) (rest : List Region) :
    s.feed (Region.scripts thread (r :: rest)) =
      (s.feed (r.script thread)).feed (Region.scripts thread rest) := by
  rw [Region.scripts, feed_append]

theorem recorder_apply_of_idle {e : Event} (h : e.Idle) : (s.apply e).recorder = s.recorder := by
  unfold apply
  rcases h with h | h | ⟨h, ht⟩
  · rw [h]
    rfl
  · rw [h]
  · rw [h]
    simp only [tryAcquire, ht, Bool.false_eq_true, if_false]

theorem named?_some (h : lock ≠ "") : named? (some lock) = some lock := by
  simp [named?, h]

theorem named?_eq_some_iff {lock : Option Text} : named? lock = some name ↔ lock = some name ∧ name ≠ "" := by
  simp [named?, Option.filter_eq_some_iff]

theorem acquire_of_unnamed {lock : Option Text} (h : named? lock = none) : s.acquire thread lock flavour = s := by
  have htaking : s.taking thread lock flavour = .unnamed := by rw [taking, Holdings.taking, h]
  rw [acquire, htaking]

theorem release_of_unnamed {lock : Option Text} (h : named? lock = none) : s.release thread lock flavour = s := by
  rw [release, h]

theorem acquire_of_eq_empty (s : Session) (thread : Text) (flavour : Option Flavour) :
    s.acquire thread (some "") flavour = s :=
  rfl

theorem graph_acquire (h : lock ≠ "") : (s.acquire thread (some lock) flavour).graph =
    if lockKey lock flavour ∈ s.heldBy thread then s.graph
    else s.graph.addTaking thread (lockKey lock flavour) flavour (decide (s.heldBy thread ≠ [])) := by
  have hheld : lockKey lock flavour ∈ s.heldBy thread ↔ (s.holdings thread).holds (lockKey lock flavour) = true :=
    Holdings.holds_iff.symm
  unfold acquire taking Holdings.taking
  rw [named?_some h, isEmpty_holdings, ← decide_not]
  by_cases hold : (s.holdings thread).holds (lockKey lock flavour) = true
  · simp only [hheld, hold, if_true]
  · simp only [hheld, hold, Bool.false_eq_true, if_false]

theorem recorder_acquire (h : lock ≠ "") : (s.acquire thread (some lock) flavour).recorder =
    s.recorder.setHoldings thread ((s.holdings thread).push (lockKey lock flavour) (some lock)) := by
  unfold acquire taking Holdings.taking
  rw [named?_some h]
  by_cases hold : (s.holdings thread).holds (lockKey lock flavour) = true
  · simp only [hold, if_true]
  · simp only [hold, Bool.false_eq_true, if_false]

theorem holdings_acquire (h : lock ≠ "") : (s.acquire thread (some lock) flavour).holdings thread =
    (s.holdings thread).push (lockKey lock flavour) (some lock) := by
  rw [holdings, recorder_acquire h, Recorder.holdings_setHoldings_self]

theorem holdings_acquire_of_ne {t : Text} (h : t ≠ thread) (lock : Option Text) :
    (s.acquire thread lock flavour).holdings t = s.holdings t :=
  congrArg ThreadView.holdings (view_acquire_of_ne s lock flavour h)

/-- The newest entry that answers is taken out, if there is one. -/
theorem holdings_release (h : lock ≠ "") : (s.release thread (some lock) flavour).holdings thread =
    ⟨(s.holdings thread).entries.eraseP
      (Holdings.matchesHold (lockKey lock flavour) (if flavour.isNone then some lock else none))⟩ := by
  have hreleasing : (s.holdings thread).release? (lockKey lock flavour)
      (if flavour.isNone then some lock else none) = s.releasing? thread lock flavour := rfl
  rw [← Holdings.getD_release?, hreleasing]
  unfold release
  rw [named?_some h]
  dsimp only
  cases s.releasing? thread lock flavour with
  | none => rfl
  | some h' => exact Recorder.holdings_setHoldings_self _ _ _

theorem holdings_release_of_ne {t : Text} (h : t ≠ thread) (lock : Option Text) :
    (s.release thread lock flavour).holdings t = s.holdings t :=
  congrArg ThreadView.holdings (view_release_of_ne s lock flavour h)

/-- The newest lock is given back under its flavour, or without one. -/
theorem release_newest (hl : lock ≠ "") {h : Holdings}
    (hh : s.holdings thread = h.push (lockKey lock flavour) (some lock))
    (hf : flavour' = flavour ∨ flavour' = none) :
    s.release thread (some lock) flavour' = { s with recorder := s.recorder.setHoldings thread h } := by
  have hmatch : Holdings.matchesHold (lockKey lock flavour') (if flavour'.isNone then some lock else none)
      ⟨lock, lockKey lock flavour⟩ = true := by
    rcases hf with rfl | rfl <;> simp [Holdings.matchesHold]
  have hrelease : s.releasing? thread lock flavour' = some h := by
    unfold releasing? Holdings.release?
    rw [hh, Holdings.push_some hl, List.any_cons, hmatch, Bool.true_or, if_pos rfl, List.eraseP_cons_of_pos hmatch]
  unfold release
  rw [named?_some hl]
  simp only [hrelease]

theorem release_of_eq_empty (s : Session) (thread : Text) (flavour : Option Flavour) :
    s.release thread (some "") flavour = s :=
  rfl

/-- Taking a lock and giving it back, with something in between that leaves the recorder as it is. -/
theorem resumes_release {s' : Session}
    (h : s'.recorder.Resumes thread (s.acquire thread (some lock) flavour).recorder) :
    (s'.release thread (some lock) flavour).recorder.Resumes thread s.recorder := by
  by_cases hl : lock = ""
  · subst hl
    exact h
  · have hheld : s'.holdings thread = (s.holdings thread).push (lockKey lock flavour) (some lock) := by
      rw [holdings, h.holdings]
      exact holdings_acquire hl
    have hsame : s'.recorder = (s.acquire thread (some lock) flavour).recorder := by
      refine h.eq_of_lookup ?_
      rw [recorder_acquire hl, Recorder.setHoldings, Assoc.lookup_put_self]
      exact Option.some_ne_none _
    rw [release_newest hl hheld (Or.inl rfl), hsame, recorder_acquire hl]
    show ((s.recorder.setHoldings thread _).setHoldings thread (s.holdings thread)).Resumes thread s.recorder
    rw [Recorder.setHoldings_setHoldings]
    exact s.recorder.resumes_setHoldings thread

mutual

/-- After a region the recorder is what it was before. -/
theorem resumes_walk (thread : Text) : ∀ (r : Region), r.Idle → ∀ s : Session,
    (s.walk thread r).recorder.Resumes thread s.recorder
  | .event e, h, s => by
    rw [walk_event]
    exact Or.inl (recorder_apply_of_idle h)
  | .block lock flavour body, h, s => by
    rw [walk_block]
    exact resumes_release (resumes_walks thread body h _)

theorem resumes_walks (thread : Text) : ∀ (rs : List Region), Region.AllIdle rs → ∀ s : Session,
    (rs.foldl (fun s r => s.walk thread r) s).recorder.Resumes thread s.recorder
  | [], _, _ => Or.inl rfl
  | r :: rest, h, s => (resumes_walk thread r h.1 s).trans (resumes_walks thread rest h.2 _)

end

theorem resumes_feed_scripts (thread : Text) {rs : List Region} (h : Region.AllIdle rs) (s : Session) :
    (s.feed (Region.scripts thread rs)).recorder.Resumes thread s.recorder := by
  rw [feed_scripts]
  exact resumes_walks thread rs h s

theorem holdings_feed_script {r : Region} (h : r.Idle) (thread : Text) (s : Session) :
    (s.feed (r.script thread)).holdings = s.holdings :=
  (resumes_walk thread r h s).holdings

theorem holdings_feed_scripts {rs : List Region} (h : Region.AllIdle rs) (thread : Text) (s : Session) :
    (s.feed (Region.scripts thread rs)).holdings = s.holdings :=
  (resumes_feed_scripts thread h s).holdings

/-- After a region with idle events every thread holds what it held before: the same locks under the same names and
keys, in the same order. The recorder differs at most in that it knows the thread of the region now. -/
theorem walk_balanced (s : Session) (thread : Text) {region : Region} (h : region.Idle) :
    (∀ t, ((s.walk thread region).holdings t).entries = (s.holdings t).entries) ∧
      (s.walk thread region).recorder.Resumes thread s.recorder := by
  refine ⟨?_, resumes_walk thread region h s⟩
  intro t
  rw [walk, holdings_feed_script h]

/-- A thread that holds the read view of a lock, and the write view of a lock that goes by the key of the first.
Another thread holds the first lock by its bare name. -/
def twoViews : Session :=
  Session.feed {} [
    { action := .acquire, thread := "A", lock := some "rw", flavour := some .readView },
    { action := .acquire, thread := "A", lock := some "rw_readLock", flavour := some .writeView },
    { action := .acquire, thread := "B", lock := some "rw" }]

/-- The lock by its bare name, by its views and by the key of a view, around a block without a name, a class, and
events of two threads. -/
def woven : Region :=
  .block "rw" none [
    .block "rw" (some .readView) [.block "rw_readLock" none [.event { action := .park, thread := "B" }]],
    .block "" (some .writeView) [.block "rw" none [.event { action := .unpark, thread := "A", target := some "B" }]],
    .block "Foo.class" (some .classMonitor) [
      .block "CLASS_Foo.class" none [.event { action := .tryAcquire, thread := "A", lock := some "rw" }]]]

theorem walk_balanced_woven : woven.Idle ∧
    (twoViews.holdings "A").entries = [⟨"rw_readLock", "rw_readLock_writeLock"⟩, ⟨"rw", "rw_readLock"⟩] ∧
    (∀ t, ((twoViews.walk "A" woven).holdings t).entries = (twoViews.holdings t).entries) ∧
    (twoViews.walk "A" woven).recorder.Resumes "A" twoViews.recorder := by
  have hidle : woven.Idle := by decide
  exact ⟨hidle, by decide, walk_balanced twoViews "A" hidle⟩

end Session

end Gridlock
