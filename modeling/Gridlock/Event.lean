import Gridlock.Lock.Flavour

/-!
# Events and regions

What a thread does with locks comes as a list of events, or as regions that take a lock around what
is nested inside them. A region is the same as its script: taking the lock, the scripts of what is
inside, giving the lock back.

* `Action`, `Event` : one thing that a thread does
* `Region` : an event, or a lock taken around other regions
* `Region.script` : the events of a region, in order
* `Region.size` : the number of operations in a region
-/

namespace Gridlock

inductive Action
  | start
  | acquire
  | tryAcquire
  | release
  | park
  | unpark
deriving DecidableEq, Inhabited, Repr

namespace Action

def takesLock : Action → Bool
  | acquire | tryAcquire => true
  | _ => false

def needsLock (a : Action) : Bool :=
  a.takesLock || a = release

end Action

/-- One thing that a thread does. An attempt to take a lock is `timed` if it waits for a while, and
`target` is the thread that an `unpark` is meant for. -/
structure Event where
  action : Action
  thread : Text
  lock : Option Text := none
  flavour : Option Flavour := none
  timed : Bool := false
  target : Option Text := none
deriving DecidableEq, Inhabited, Repr

/-- An event, or a lock that is held around the regions inside. -/
inductive Region
  | event (e : Event)
  | block (lock : Text) (flavour : Option Flavour) (body : List Region)
deriving Inhabited, Repr

namespace Region

mutual

def script (thread : Text) : Region → List Event
  | event e => [e]
  | block lock flavour body =>
    { action := .acquire, thread := thread, lock := some lock, flavour := flavour } ::
      (scripts thread body ++
        [{ action := .release, thread := thread, lock := some lock, flavour := flavour }])

def scripts (thread : Text) : List Region → List Event
  | [] => []
  | r :: rest => r.script thread ++ scripts thread rest

end

mutual

/-- The number of operations in a region: a lock is taken and given back. -/
def size : Region → Nat
  | event _ => 1
  | block _ _ body => 2 + sizes body

def sizes : List Region → Nat
  | [] => 0
  | r :: rest => r.size + sizes rest

end

end Region

end Gridlock
