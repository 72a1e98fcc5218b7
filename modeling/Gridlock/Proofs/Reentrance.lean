import Gridlock.Proofs.Nesting

/-!
# Blocks of a lock that is held already

A block inside another one of the same lock takes a lock that its thread holds, and gives it back at its end. What
the events in between do to the graph depends on which locks are held, and not on how often or in which order they
were taken. So such a block can be replaced by its body.

* `Session.SameKeys` : sessions with the same graph, in which every thread holds the same keys;
  `SameKeys.graph_feed_script`, `SameKeys.graph_feed_scripts` : a region does the same to their graphs
* `feed_block_of_holds` : a block of a lock that is held is as good as its body
* `Region.Spliced` : a block is replaced by its body where a block of the same lock is around it
* `walk_spliced` : a session goes through both alike
-/

namespace Gridlock

variable {thread lock : Text} {flavour : Option Flavour}

namespace Holdings

variable {h : Holdings} {key : Text}

theorem holds_push (name : Option Text) (key' : Text) :
    (h.push key name).holds key' = (key == key' || h.holds key') := by
  simp [push, holds]

theorem holds_push_of_holds (hkey : h.holds key = true) (name : Option Text) (key' : Text) :
    (h.push key name).holds key' = h.holds key' := by
  rw [holds_push]
  by_cases hk : key = key'
  · subst hk
    simp [hkey]
  · simp [hk]

end Holdings

namespace Session

/-! ## Sessions in which threads hold the same keys -/

/-- The sessions have the same graph, and every thread holds the same keys in both. -/
structure SameKeys (s s' : Session) : Prop where
  graph : s.graph = s'.graph
  holds : ∀ t key, (s.holdings t).holds key = (s'.holdings t).holds key

variable {s s' : Session}

namespace SameKeys

theorem acquire (h : SameKeys s s') (thread lock : Text) (flavour : Option Flavour) :
    SameKeys (s.acquire thread (some lock) flavour) (s'.acquire thread (some lock) flavour) where
  graph := graph_acquire_congr h.graph (h.holds thread) _ _
  holds t key := by
    by_cases hl : lock = ""
    · subst hl
      exact h.holds t key
    · by_cases ht : t = thread
      · subst ht
        rw [holdings_acquire hl, holdings_acquire hl, Holdings.holds_push, Holdings.holds_push, h.holds]
      · rw [holdings_acquire_of_ne ht, holdings_acquire_of_ne ht, h.holds]

mutual

/-- A region does the same to the graphs of both sessions. -/
theorem graph_feed_script : ∀ (r : Region), r.Idle → ∀ {s s' : Session}, SameKeys s s' →
    (s.feed (r.script thread)).graph = (s'.feed (r.script thread)).graph
  | .event e, _, s, s', h => graph_apply_congr h.graph (h.holds e.thread)
  | .block lock flavour body, hr, s, s', h => by
    rw [feed_block, feed_block, release_graph, release_graph]
    exact graph_feed_scripts body hr (h.acquire thread lock flavour)

theorem graph_feed_scripts : ∀ (rs : List Region), Region.AllIdle rs → ∀ {s s' : Session}, SameKeys s s' →
    (s.feed (Region.scripts thread rs)).graph = (s'.feed (Region.scripts thread rs)).graph
  | [], _, s, s', h => h.graph
  | r :: rest, hr, s, s', h => by
    -- the holdings are those of before the first region, so the keys are the same again
    have hrest : SameKeys (s.feed (r.script thread)) (s'.feed (r.script thread)) := by
      refine ⟨graph_feed_script r hr.1 h, ?_⟩
      rw [holdings_feed_script hr.1, holdings_feed_script hr.1]
      exact h.holds
    rw [feed_scripts_cons, feed_scripts_cons]
    exact graph_feed_scripts rest hr.2 hrest

end

end SameKeys

/-! ## Blocks of a lock that is held -/

theorem lookup_ne_none_of_holds {key : Text} (h : (s.holdings thread).holds key = true) :
    s.recorder.threads.lookup thread ≠ none := by
  intro hnone
  rw [holdings, Recorder.holdings, hnone] at h
  cases h

/-- Taking a lock again changes nothing but how often it is held. -/
theorem sameKeys_acquire_of_holds (hl : lock ≠ "") (h : (s.holdings thread).holds (lockKey lock flavour) = true) :
    SameKeys (s.acquire thread (some lock) flavour) s where
  graph := by
    have htaking : s.taking thread (some lock) flavour = .again lock (lockKey lock flavour) := by
      rw [taking, Holdings.taking, named?_some hl]
      exact if_pos h
    rw [acquire, htaking]
  holds t key := by
    by_cases ht : t = thread
    · subst ht
      rw [holdings_acquire hl, Holdings.holds_push_of_holds h]
    · rw [holdings_acquire_of_ne ht]

theorem feed_block_of_holds {body : List Region} (hbody : Region.AllIdle body)
    (h : (s.holdings thread).holds (lockKey lock flavour) = true) :
    s.feed ((Region.block lock flavour body).script thread) = s.feed (Region.scripts thread body) := by
  by_cases hl : lock = ""
  · subst hl
    rw [feed_block, release_of_eq_empty, acquire_of_eq_empty]
  · have hknown := lookup_ne_none_of_holds h
    have hblock := (resumes_walk thread (.block lock flavour body) hbody s).eq_of_lookup hknown
    have hrecorder := (resumes_feed_scripts thread hbody s).eq_of_lookup hknown
    have hgraph : (s.feed ((Region.block lock flavour body).script thread)).graph =
        (s.feed (Region.scripts thread body)).graph := by
      rw [feed_block, release_graph]
      exact SameKeys.graph_feed_scripts body hbody (sameKeys_acquire_of_holds hl h)
    calc s.feed ((Region.block lock flavour body).script thread)
      _ = ⟨(s.feed (Region.scripts thread body)).graph, s.recorder⟩ := by rw [← hgraph, ← hblock, walk]
      _ = s.feed (Region.scripts thread body) := by rw [← hrecorder]

end Session

/-! ## Splicing -/

namespace Region

/-- The keys of the locks that are held inside a block: those that are held around it, and its own. A block without a
name holds nothing. -/
def around (lock : Text) (flavour : Option Flavour) (held : List Text) : List Text :=
  if lock = "" then held else lockKey lock flavour :: held

/-- The second list of regions is the first one with a block replaced by its body, at any depth. The key of this block
is one of those in `held`, or that of a block around it which has a name. -/
inductive Spliced : List Text → List Region → List Region → Prop
  | here {held : List Text} {lock : Text} {flavour : Option Flavour} (body rest : List Region)
    (h : lockKey lock flavour ∈ held) : Spliced held (block lock flavour body :: rest) (body ++ rest)
  | inside {held : List Text} {body body' : List Region} (lock : Text) (flavour : Option Flavour)
    (rest : List Region) (h : Spliced (around lock flavour held) body body') :
    Spliced held (block lock flavour body :: rest) (block lock flavour body' :: rest)
  | later {held : List Text} {rest rest' : List Region} (r : Region) (h : Spliced held rest rest') :
    Spliced held (r :: rest) (r :: rest')

end Region

namespace Session

/-- In a block the thread holds the locks of the blocks around it and of the block itself. -/
theorem holds_around {s : Session} {held : List Text} (lock : Text) (flavour : Option Flavour)
    (h : ∀ key ∈ held, (s.holdings thread).holds key = true) :
    ∀ key ∈ Region.around lock flavour held,
      ((s.acquire thread (some lock) flavour).holdings thread).holds key = true := by
  intro key hkey
  unfold Region.around at hkey
  split at hkey
  · next hl =>
    subst hl
    exact h key hkey
  · next hl =>
    rw [holdings_acquire hl, Holdings.holds_push]
    rcases List.mem_cons.mp hkey with rfl | hkey
    · simp
    · simp [h key hkey]

theorem feed_spliced {held : List Text} {rs rs' : List Region} (h : Region.Spliced held rs rs')
    (hidle : Region.AllIdle rs) {s : Session} (hheld : ∀ key ∈ held, (s.holdings thread).holds key = true) :
    s.feed (Region.scripts thread rs') = s.feed (Region.scripts thread rs) := by
  induction h generalizing s with
  | here body rest h =>
    rw [Region.scripts_append, feed_append, feed_scripts_cons, feed_block_of_holds hidle.1 (hheld _ h)]
  | inside lock flavour rest h ih =>
    have hbody := ih hidle.1 (holds_around lock flavour hheld)
    rw [feed_scripts_cons, feed_scripts_cons, feed_block, feed_block, hbody]
  | later r h ih =>
    rw [feed_scripts_cons, feed_scripts_cons]
    refine ih hidle.2 ?_
    rw [holdings_feed_script hidle.1]
    exact hheld

/-- If a block inside a region is replaced by its body, and a block around it has a name and the same key, a session
goes through the region as before: it has the same graph and the same holdings at the end. -/
theorem walk_spliced {r r' : Region} (h : Region.Spliced [] [r] [r']) (hidle : r.Idle) (s : Session)
    (thread : Text) : s.walk thread r' = s.walk thread r := by
  have hnone : ∀ key ∈ ([] : List Text), (s.holdings thread).holds key = true := by simp
  have hfeed := feed_spliced h ⟨hidle, trivial⟩ hnone
  rwa [Region.scripts_singleton, Region.scripts_singleton] at hfeed

/-- What a thread does while it holds the read view of a lock: it takes two more locks, and parks in between. -/
def reading : List Region :=
  [.block "L" none [], .event { action := .park, thread := "A" }, .block "M" (some .monitor) []]

/-- The read view of a lock around a block without a name. -/
def reader (inside : List Region) : Region :=
  .block "rw" (some .readView) [
    .event { action := .tryAcquire, thread := "A", lock := some "rw" }, .block "" none (inside ++ [.block "N" none []])]

theorem walk_spliced_reader :
    Region.Spliced [] [reader [.block "rw_readLock" none reading]] [reader reading] ∧
      (reader [.block "rw_readLock" none reading]).Idle ∧
      (Session.walk {} "A" (reader reading)).graph.waits "A" = (["L", "LockSupport_A", "M", "N"] : List Text) ∧
      Session.walk {} "A" (reader reading) = Session.walk {} "A" (reader [.block "rw_readLock" none reading]) := by
  have hspliced : Region.Spliced [] [reader [.block "rw_readLock" none reading]] [reader reading] :=
    .inside _ _ _ (.later _ (.inside _ _ _ (.here _ _ (by decide))))
  have hidle : (reader [.block "rw_readLock" none reading]).Idle := by decide
  exact ⟨hspliced, hidle, by decide, walk_spliced hspliced hidle {} "A"⟩

end Session

end Gridlock
