import Gridlock.Proofs.Sharing

/-!
# Histories, event by event

What an event does to the graph depends on the event and on the keys that its thread holds when it happens. A
chronicle lists both, so that what has come of a history can be read off its chronicle.

* `Step` : an event, and the keys that its thread holds when it happens
* `Step.newKey?` : the lock that a thread takes and does not hold yet
* `Session.steps` : the chronicle of a list of events; `map_event_steps`, `steps_congr`
* `Session.chronicle` : the chronicle of calls of any kind
-/

namespace Gridlock

/-- An event, and the keys that its thread holds when it happens. -/
structure Step where
  event : Event
  held : List Text
deriving DecidableEq, Repr

/-- The key of the lock that a thread takes and does not hold yet. -/
def Step.newKey? (x : Step) : Option Text :=
  x.event.key?.filter (· ∉ x.held)

namespace Step

variable {x : Step} {key : Text}

theorem newKey?_eq_some_iff : x.newKey? = some key ↔ x.event.key? = some key ∧ key ∉ x.held := by
  simp [newKey?, Option.filter_eq_some_iff]

theorem newKey?_eq_none_iff : x.newKey? = none ↔ ∀ key, x.event.key? = some key → key ∈ x.held := by
  simp [newKey?, Option.filter_eq_none_iff]

theorem newKey?_of_start (h : x.event.action = .start) : x.newKey? = none := by
  rw [newKey?, Event.key?, if_neg (by simp [h]), Option.filter_none]

theorem newKey?_of_park (h : x.event.action = .park) : x.newKey? = none := by
  rw [newKey?, Event.key?, if_neg (by simp [h]), Option.filter_none]

theorem action_ne_park_of_newKey? (h : x.newKey? = some key) : x.event.action ≠ .park := by
  intro hp
  rw [newKey?_of_park hp] at h
  cases h

end Step

namespace Session

variable {s s' : Session} {e : Event}

def step (s : Session) (e : Event) : Step :=
  ⟨e, s.heldBy e.thread⟩

@[simp] theorem event_step (s : Session) (e : Event) : (s.step e).event = e := rfl

@[simp] theorem held_step (s : Session) (e : Event) : (s.step e).held = s.heldBy e.thread := rfl

/-- The events of a list, each with the keys that its thread holds when it happens. -/
def steps (s : Session) : List Event → List Step
  | [] => []
  | e :: events => s.step e :: (s.apply e).steps events

theorem map_event_steps (s : Session) (events : List Event) : (s.steps events).map (·.event) = events := by
  induction events generalizing s with
  | nil => rfl
  | cons e events ih => exact congrArg (e :: ·) (ih (s.apply e))

/-! ## Chronicles and recorders -/

theorem recorder_acquire_congr (h : s.recorder = s'.recorder) (thread : Text) (lock : Option Text)
    (flavour : Option Flavour) :
    (s.acquire thread lock flavour).recorder = (s'.acquire thread lock flavour).recorder := by
  have hholdings : s.holdings thread = s'.holdings thread := congrArg (Recorder.holdings · thread) h
  unfold acquire taking
  rw [hholdings, h]
  cases (s'.holdings thread).taking lock flavour with
  | unnamed => exact h
  | again l key => rfl
  | fresh l key nested => rfl

theorem recorder_release_congr (h : s.recorder = s'.recorder) (thread : Text) (lock : Option Text)
    (flavour : Option Flavour) :
    (s.release thread lock flavour).recorder = (s'.release thread lock flavour).recorder := by
  have hholdings : s.holdings thread = s'.holdings thread := congrArg (Recorder.holdings · thread) h
  unfold release releasing?
  rw [hholdings, h]
  cases named? lock with
  | none => exact h
  | some l =>
    dsimp only
    split
    · exact h
    · rfl

/-- What becomes of the recorder does not depend on the graph. -/
theorem recorder_apply_congr (h : s.recorder = s'.recorder) (e : Event) :
    (s.apply e).recorder = (s'.apply e).recorder := by
  unfold apply
  cases e.action with
  | start => exact congrArg (·.setHoldings e.thread .empty) h
  | acquire => exact recorder_acquire_congr h _ _ _
  | tryAcquire =>
    dsimp only
    unfold tryAcquire
    split
    · exact recorder_acquire_congr h _ _ _
    · exact h
  | release => exact recorder_release_congr h _ _ _
  | park => exact h
  | unpark => exact h

/-- Sessions with the same recorder have the same chronicle. -/
theorem steps_congr (h : s.recorder = s'.recorder) (events : List Event) : s.steps events = s'.steps events := by
  induction events generalizing s s' with
  | nil => rfl
  | cons e events ih =>
    have hheld : s.heldBy e.thread = s'.heldBy e.thread := congrArg (fun r => (r.holdings e.thread).keys) h
    rw [steps, steps, step, step, hheld, ih (recorder_apply_congr h e)]

/-! ## Chronicles of calls -/

def chronicle (s : Session) : List Call → List Step
  | [] => []
  | c :: calls => s.steps (c.script?.getD []) ++ (s.call c).chronicle calls

end Session

def Session.Call.emptiesGraph : Session.Call → Bool
  | .resetGraph | .reset => true
  | _ => false

namespace Session

/-- A call that does not empty the graph feeds it with the events that it brings, if there are any. -/
theorem graph_call {c : Call} (h : c.emptiesGraph = false) (s : Session) :
    (s.call c).graph = (s.feed (c.script?.getD [])).graph := by
  cases hc : c.script? with
  | some events => rw [call_of_script? hc, Option.getD_some]
  | none =>
    cases c with
    | freshThreadName owner offset => rfl
    | resetRecorder => rfl
    | resetGraph => cases h
    | reset => cases h
    | _ => cases hc

end Session

end Gridlock
