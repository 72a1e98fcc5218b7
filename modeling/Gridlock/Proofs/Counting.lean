import Gridlock.Proofs.Nesting

/-!
# Locks counted by their keys

What a thread holds is a stack, because a lock that is given back without a flavour is looked for by its name, the
newest entry first. If every lock is given back under a flavour, the order of the stack shows nowhere: it is enough to
count how often each key is held.

* `Counts` : how often each key is held, `Counts.Busy` : some key is held
* `Ledger` : a graph, and counts for each thread; `Ledger.apply`, `Ledger.feed` : what events do to it
* `Holdings.count_keys_push`, `Holdings.count_keys_eraseP` : the stack, as far as it is counted
* `Ledger.Tracks` : a ledger and a session with the same graph and the same numbers; `Tracks.apply` : one event,
  `Tracks.feed` : a list of events
* `feed_counted` : a session and a ledger, at every point of a history
-/

namespace Gridlock

/-! ## Counts -/

/-- How often each key is held. A key that is not listed is not held. -/
structure Counts where
  entries : List (Text × Nat) := []
deriving DecidableEq, Repr

namespace Counts

def count (c : Counts) (key : Text) : Nat :=
  (c.entries.lookup key).getD 0

def set (c : Counts) (key : Text) (n : Nat) : Counts :=
  ⟨Assoc.put key n c.entries⟩

def Busy (c : Counts) : Prop :=
  ∃ key, 0 < c.count key

theorem busy_iff {c : Counts} : c.Busy ↔ ∃ e ∈ c.entries, 0 < c.count e.1 := by
  constructor
  · rintro ⟨key, hkey⟩
    cases hn : c.entries.lookup key with
    | none => simp [count, hn] at hkey
    | some n =>
      obtain ⟨before, after, hentries, -⟩ := List.lookup_eq_some_iff.mp hn
      exact ⟨(key, n), by simp [hentries], hkey⟩
  · rintro ⟨e, -, he⟩
    exact ⟨e.1, he⟩

instance (c : Counts) : Decidable c.Busy :=
  decidable_of_iff _ busy_iff.symm

theorem count_set (c : Counts) (key k : Text) (n : Nat) :
    (c.set key n).count k = if key = k then n else c.count k := by
  unfold count set
  by_cases hk : key = k
  · rw [if_pos hk, hk, Assoc.lookup_put_self, Option.getD_some]
  · rw [if_neg hk, Assoc.lookup_put_of_ne (Ne.symm hk)]

end Counts

/-- A graph, and how often each thread holds each key. -/
structure Ledger where
  graph : Graph := {}
  threads : List (Text × Counts) := []
deriving DecidableEq, Repr

namespace Ledger

def counts (l : Ledger) (thread : Text) : Counts :=
  (l.threads.lookup thread).getD {}

def setCounts (l : Ledger) (thread : Text) (c : Counts) : Ledger :=
  { l with threads := Assoc.put thread c l.threads }

/-- A thread starts, and all its counts are zero. -/
def start (l : Ledger) (thread : Text) : Ledger :=
  { l.setCounts thread {} with graph := l.graph.intern .process thread }

/-- A thread takes a lock. The lock is new to the thread if its count is zero, and the thread waits for a lock that is
new to it if another count is positive. -/
def take (l : Ledger) (thread key : Text) (flavour : Option Flavour) : Ledger :=
  let held := l.counts thread
  { l.setCounts thread (held.set key (held.count key + 1)) with
    graph := if held.count key = 0 then l.graph.addTaking thread key flavour (decide held.Busy) else l.graph }

def giveBack (l : Ledger) (thread key : Text) : Ledger :=
  let held := l.counts thread
  if 0 < held.count key then l.setCounts thread (held.set key (held.count key - 1)) else l

def acquire (l : Ledger) (thread : Text) (lock : Option Text) (flavour : Option Flavour) : Ledger :=
  match named? lock with
  | none => l
  | some name => l.take thread (lockKey name flavour) flavour

def release (l : Ledger) (thread : Text) (lock : Option Text) (flavour : Option Flavour) : Ledger :=
  match named? lock with
  | none => l
  | some name => l.giveBack thread (lockKey name flavour)

def apply (l : Ledger) (e : Event) : Ledger :=
  match e.action with
  | .start => l.start e.thread
  | .acquire => l.acquire e.thread e.lock e.flavour
  | .tryAcquire => if e.timed then l.acquire e.thread e.lock e.flavour else l
  | .release => l.release e.thread e.lock e.flavour
  | .park => { l with graph := l.graph.addPark e.thread }
  | .unpark => l

def feed (l : Ledger) (events : List Event) : Ledger :=
  events.foldl apply l

theorem counts_setCounts (l : Ledger) (thread t : Text) (c : Counts) :
    (l.setCounts thread c).counts t = if t = thread then c else l.counts t := by
  unfold counts setCounts
  by_cases ht : t = thread
  · rw [if_pos ht, ht, Assoc.lookup_put_self, Option.getD_some]
  · rw [if_neg ht, Assoc.lookup_put_of_ne ht]

theorem counts_take (l : Ledger) (thread key : Text) (flavour : Option Flavour) (t k : Text) :
    ((l.take thread key flavour).counts t).count k =
      (l.counts t).count k + if t = thread ∧ key = k then 1 else 0 := by
  show ((l.setCounts thread _).counts t).count k = _
  rw [counts_setCounts]
  by_cases ht : t = thread
  · subst ht
    rw [if_pos rfl, Counts.count_set]
    by_cases hk : key = k <;> simp [hk]
  · simp [ht]

theorem counts_giveBack (l : Ledger) (thread key t k : Text) :
    ((l.giveBack thread key).counts t).count k =
      (l.counts t).count k - if t = thread ∧ key = k then 1 else 0 := by
  unfold giveBack
  dsimp only
  split
  · rw [counts_setCounts]
    by_cases ht : t = thread
    · subst ht
      rw [if_pos rfl, Counts.count_set]
      by_cases hk : key = k <;> simp [hk]
    · simp [ht]
  · next hzero =>
    split
    · next h =>
      rw [← h.2, h.1]
      omega
    · rw [Nat.sub_zero]

theorem graph_giveBack (l : Ledger) (thread key : Text) : (l.giveBack thread key).graph = l.graph := by
  unfold giveBack
  dsimp only
  split <;> rfl

end Ledger

/-! ## Stacks, as far as they are counted -/

namespace Holdings

theorem keys_push (h : Holdings) (key : Text) (name : Option Text) : (h.push key name).keys = h.keys ++ [key] := by
  simp [push, keys]

theorem count_keys_push (h : Holdings) (key : Text) (name : Option Text) (k : Text) :
    (h.push key name).keys.count k = h.keys.count k + if key = k then 1 else 0 := by
  rw [keys_push, List.count_append, List.count_singleton]
  simp only [beq_iff_eq]

/-- Without a bare name one entry is taken out, and this entry has the key that is given. -/
theorem count_keys_eraseP (h : Holdings) (key k : Text) :
    (keys ⟨h.entries.eraseP (matchesHold key none)⟩).count k = h.keys.count k - if key = k then 1 else 0 := by
  have hmatch : matchesHold key none = (fun x => key == x) ∘ Hold.key := by
    funext e
    simp [matchesHold, eq_comm]
  unfold keys
  rw [hmatch, ← List.eraseP_map, ← List.erase_eq_eraseP, List.count_reverse, List.count_reverse, List.count_erase]
  simp only [beq_iff_eq]

end Holdings

/-! ## Sessions and ledgers -/

namespace Ledger

/-- The ledger has the graph of the session, and its counts say how often each key is on the stack of each thread. -/
structure Tracks (l : Ledger) (s : Session) : Prop where
  graph : s.graph = l.graph
  count : ∀ t key, (s.heldBy t).count key = (l.counts t).count key

namespace Tracks

variable {l : Ledger} {s : Session}

theorem mem_heldBy (h : Tracks l s) {t key : Text} : key ∈ s.heldBy t ↔ 0 < (l.counts t).count key := by
  rw [← h.count, List.count_pos_iff]

theorem busy_iff (h : Tracks l s) {t : Text} : (l.counts t).Busy ↔ s.heldBy t ≠ [] := by
  simp only [Counts.Busy, ← h.mem_heldBy, ne_eq, List.eq_nil_iff_forall_not_mem, not_forall, not_not]

theorem start (h : Tracks l s) (thread : Text) : Tracks (l.start thread) (s.start thread) where
  graph := congrArg (·.intern .process thread) h.graph
  count t key := by
    show ((s.start thread).heldBy t).count key = ((l.setCounts thread {}).counts t).count key
    rw [counts_setCounts]
    by_cases ht : t = thread
    · rw [if_pos ht, ht, Session.heldBy, Session.holdings, Session.start, Recorder.holdings_setHoldings_self]
      rfl
    · rw [if_neg ht, Session.heldBy, Session.holdings, Session.start, Recorder.holdings_setHoldings_of_ne _ ht]
      exact h.count t key

theorem acquire (h : Tracks l s) (thread : Text) (lock : Option Text) (flavour : Option Flavour) :
    Tracks (l.acquire thread lock flavour) (s.acquire thread lock flavour) := by
  unfold Ledger.acquire
  cases hl : named? lock with
  | none =>
    rw [Session.acquire_of_unnamed hl]
    exact h
  | some name =>
    obtain ⟨rfl, hname⟩ := Session.named?_eq_some_iff.mp hl
    refine ⟨?_, fun t key => ?_⟩
    · have hheld : lockKey name flavour ∈ s.heldBy thread ↔
          ¬ (l.counts thread).count (lockKey name flavour) = 0 := by
        rw [h.mem_heldBy]
        omega
      rw [Session.graph_acquire hname, h.graph]
      simp only [hheld, ite_not, ← h.busy_iff]
      rfl
    · rw [counts_take, ← h.count, Session.heldBy, Session.heldBy]
      by_cases ht : t = thread
      · rw [ht, Session.holdings_acquire hname, Holdings.count_keys_push]
        simp
      · rw [Session.holdings_acquire_of_ne ht]
        simp [ht]

theorem release (h : Tracks l s) (thread : Text) (lock : Option Text) {flavour : Option Flavour}
    (hf : flavour ≠ none) : Tracks (l.release thread lock flavour) (s.release thread lock flavour) := by
  unfold Ledger.release
  cases hl : named? lock with
  | none =>
    rw [Session.release_of_unnamed hl]
    exact h
  | some name =>
    obtain ⟨rfl, hname⟩ := Session.named?_eq_some_iff.mp hl
    refine ⟨?_, fun t key => ?_⟩
    · rw [Session.release_graph, graph_giveBack, h.graph]
    · rw [counts_giveBack, ← h.count, Session.heldBy, Session.heldBy]
      by_cases ht : t = thread
      · rw [ht, Session.holdings_release hname, if_neg (by simpa using hf), Holdings.count_keys_eraseP]
        simp
      · rw [Session.holdings_release_of_ne ht]
        simp [ht]

/-- One event, and the same in the ledger. -/
theorem apply (h : Tracks l s) {e : Event} (he : e.action = .release → e.flavour ≠ none) :
    Tracks (l.apply e) (s.apply e) := by
  unfold Ledger.apply Session.apply
  cases ha : e.action with
  | start => exact h.start e.thread
  | acquire => exact h.acquire e.thread e.lock e.flavour
  | tryAcquire =>
    dsimp only
    unfold Session.tryAcquire
    split
    · exact h.acquire e.thread e.lock e.flavour
    · exact h
  | release => exact h.release e.thread e.lock (he ha)
  | park => exact ⟨congrArg (·.addPark e.thread) h.graph, h.count⟩
  | unpark => exact h

theorem feed (h : Tracks l s) {events : List Event} (he : ∀ e ∈ events, e.action = .release → e.flavour ≠ none) :
    Tracks (l.feed events) (s.feed events) := by
  induction events generalizing l s with
  | nil => exact h
  | cons e events ih =>
    refine ih (h.apply (he e List.mem_cons_self)) ?_
    intro e' he'
    exact he e' (List.mem_cons_of_mem e he')

end Tracks

end Ledger

/-! ## Histories -/

def Event.returnedKey? (e : Event) : Option Text :=
  if e.action = .release then (named? e.lock).map fun name => lockKey name e.flavour else none

/-- The count of a key goes down only for the thread that gives it back. -/
theorem Ledger.count_apply_of_release (l : Ledger) {e : Event} (ha : e.action = .release) {t key : Text}
    (h : t ≠ e.thread ∨ e.returnedKey? ≠ some key) :
    ((l.apply e).counts t).count key = (l.counts t).count key := by
  unfold Ledger.apply
  simp only [ha]
  unfold Ledger.release
  cases hl : named? e.lock with
  | none => rfl
  | some name =>
    have hother : ¬ (t = e.thread ∧ lockKey name e.flavour = key) := by
      rintro ⟨ht, hkey⟩
      have hreturned : e.returnedKey? = some key := by rw [Event.returnedKey?, if_pos ha, hl, Option.map_some, hkey]
      exact h.elim (absurd ht) (absurd hreturned)
    dsimp only
    rw [counts_giveBack, if_neg hother, Nat.sub_zero]

/-- If every lock is given back under a flavour, a session has at every point of its history the graph of the ledger,
and each thread holds each key as often as the ledger counts. So a lock that is given back under one flavour is
taken from no other key and from no other thread. -/
theorem feed_counted {events : List Event} (h : ∀ e ∈ events, e.action = .release → e.flavour ≠ none) (n : Nat) :
    (Session.feed {} (events.take n)).graph = (Ledger.feed {} (events.take n)).graph ∧
      (∀ t key, ((Session.feed {} (events.take n)).heldBy t).count key =
        ((Ledger.feed {} (events.take n)).counts t).count key) ∧
      ∀ e, events[n]? = some e → e.action = .release → ∀ t key, t ≠ e.thread ∨ e.returnedKey? ≠ some key →
        ((Session.feed {} (events.take (n + 1))).heldBy t).count key =
          ((Session.feed {} (events.take n)).heldBy t).count key := by
  have htracks (m : Nat) : Ledger.Tracks (Ledger.feed {} (events.take m)) (Session.feed {} (events.take m)) := by
    have hempty : Ledger.Tracks {} {} := ⟨rfl, fun _ _ => rfl⟩
    exact hempty.feed fun e he => h e (List.mem_of_mem_take he)
  refine ⟨(htracks n).graph, (htracks n).count, ?_⟩
  intro e he ha t key hother
  have hnext : Ledger.feed {} (events.take (n + 1)) = (Ledger.feed {} (events.take n)).apply e := by
    rw [List.take_add_one, he, Option.toList_some, Ledger.feed, List.foldl_concat, ← Ledger.feed]
  rw [(htracks (n + 1)).count, (htracks n).count, hnext, Ledger.count_apply_of_release _ ha hother]

/-- A thread takes both views of a lock, the write view twice, and another lock. It gives the views back out of order,
and a view that it does not hold. -/
def twoSided : List Event := [
  { action := .start, thread := "A" },
  { action := .acquire, thread := "A", lock := some "rw", flavour := some .readView },
  { action := .acquire, thread := "A", lock := some "rw", flavour := some .writeView },
  { action := .tryAcquire, thread := "A", lock := some "rw", flavour := some .writeView, timed := true },
  { action := .release, thread := "A", lock := some "rw", flavour := some .classMonitor },
  { action := .release, thread := "A", lock := some "rw", flavour := some .readView },
  { action := .acquire, thread := "A", lock := some "L" },
  { action := .release, thread := "A", lock := some "rw", flavour := some .writeView },
  { action := .acquire, thread := "A", lock := some "rw", flavour := some .readView }]

theorem feed_counted_twoSided :
    (∀ e ∈ twoSided, e.action = .release → e.flavour ≠ none) ∧
      (Session.feed {} (twoSided.take 7)).heldBy "A" = (["rw_writeLock", "rw_writeLock", "L"] : List Text) ∧
      (Session.feed {} twoSided).graph.waits "A" = (["rw_writeLock", "L", "rw_readLock"] : List Text) ∧
      (Session.feed {} (twoSided.take 7)).graph = (Ledger.feed {} (twoSided.take 7)).graph ∧
      (∀ t key, ((Session.feed {} (twoSided.take 7)).heldBy t).count key =
        ((Ledger.feed {} (twoSided.take 7)).counts t).count key) ∧
      ∀ e, twoSided[7]? = some e → e.action = .release → ∀ t key, t ≠ e.thread ∨ e.returnedKey? ≠ some key →
        ((Session.feed {} (twoSided.take (7 + 1))).heldBy t).count key =
          ((Session.feed {} (twoSided.take 7)).heldBy t).count key := by
  have hflavoured : ∀ e ∈ twoSided, e.action = .release → e.flavour ≠ none := by decide
  exact ⟨hflavoured, by decide, by decide, feed_counted hflavoured 7⟩

end Gridlock
