import Gridlock.Assoc
import Gridlock.Event
import Gridlock.Graph.Basic
import Gridlock.Lock.Holdings
import Gridlock.Number.Text

/-!
# Sessions

A session follows the events of threads. Its recorder keeps the locks that each thread holds, and
its graph collects what the events say about threads and locks:

* a thread that takes a lock it does not hold gets an edge from the lock to the thread;
* if the thread holds another lock at that moment, there is also an edge from the thread to the
  lock, before the other one;
* taking a lock again adds no edge, and giving a lock back takes no edge away;
* a thread that parks gets an edge to its permit.

Nothing is an error: events without a lock, and locks given back that are not held, are passed over.
Regions may be nested to any depth: a limit on the depth of recursion, as an interpreter has it, is
left out.

* `Recorder`, `Session` : the state
* `Taking` : what taking a lock amounts to
* `Session.apply`, `Session.feed` : the effect of one event, and of a list of events
* `Session.walk` : the effect of a region; `walk_event`, `walk_block` : it takes the lock of a block,
  goes through the regions inside in order and gives the lock back
* `Session.freshThreadName` : names for threads that have none
* `Pool` : sessions that share one graph
-/

namespace Gridlock

/-- The locks held by each thread, and the number of thread names given out. -/
structure Recorder where
  threads : List (Text × Holdings) := []
  issued : Nat := 0
deriving DecidableEq, Repr

namespace Recorder

def holdings (r : Recorder) (thread : Text) : Holdings :=
  (r.threads.lookup thread).getD .empty

def setHoldings (r : Recorder) (thread : Text) (h : Holdings) : Recorder :=
  { r with threads := Assoc.put thread h r.threads }

end Recorder

/-- What taking a lock amounts to, given what the thread holds. -/
inductive Taking
  /-- No lock is named. -/
  | unnamed
  /-- The thread holds the lock already. -/
  | again (lock key : Text)
  /-- The thread does not hold the lock; `nested` tells whether it holds another. -/
  | fresh (lock key : Text) (nested : Bool)
deriving DecidableEq, Repr

/-- A lock that has a name. -/
def named? (lock : Option Text) : Option Text :=
  lock.filter (· ≠ ("" : Text))

def Holdings.taking (h : Holdings) (lock : Option Text) (flavour : Option Flavour) : Taking :=
  match named? lock with
  | none => .unnamed
  | some l =>
    if h.holds (lockKey l flavour) then .again l (lockKey l flavour)
    else .fresh l (lockKey l flavour) (!h.isEmpty)

def Graph.addTaking (g : Graph) (thread key : Text) (flavour : Option Flavour) (nested : Bool) :
    Graph :=
  let g := (g.intern .process thread).intern .resource key flavour
  let process := g.listed .process thread
  let resource := g.listed .resource key
  let g := if nested then g.link process resource else g
  g.link resource process

def Graph.addPark (g : Graph) (thread : Text) : Graph :=
  let g := (g.intern .process thread).intern .resource (permitKey thread) (some .permit)
  g.link (g.listed .process thread) (g.listed .resource (permitKey thread))

/-- A graph and the recorder that feeds it. -/
structure Session where
  graph : Graph := {}
  recorder : Recorder := {}
deriving DecidableEq, Repr

namespace Session

def holdings (s : Session) (thread : Text) : Holdings :=
  s.recorder.holdings thread

/-- The keys of the locks a thread holds, the oldest first. -/
def heldBy (s : Session) (thread : Text) : List Text :=
  (s.holdings thread).keys

/-- A thread starts, with no locks. -/
def start (s : Session) (thread : Text) : Session :=
  { graph := s.graph.intern .process thread
    recorder := s.recorder.setHoldings thread .empty }

def taking (s : Session) (thread : Text) (lock : Option Text) (flavour : Option Flavour) :
    Taking :=
  (s.holdings thread).taking lock flavour

def acquire (s : Session) (thread : Text) (lock : Option Text) (flavour : Option Flavour) :
    Session :=
  let push (l key : Text) := s.recorder.setHoldings thread ((s.holdings thread).push key (some l))
  match s.taking thread lock flavour with
  | .unnamed => s
  | .again l key => { s with recorder := push l key }
  | .fresh l key nested =>
    { graph := s.graph.addTaking thread key flavour nested, recorder := push l key }

/-- An attempt to take a lock counts as taking it if it waits for a while, and for nothing if it
does not. -/
def tryAcquire (s : Session) (thread : Text) (lock : Option Text) (flavour : Option Flavour)
    (timed : Bool) : Session :=
  if timed then s.acquire thread lock flavour else s

/-- The holdings after a lock is given back, if the thread holds it. Without a flavour the bare name
finds whatever view was taken. -/
def releasing? (s : Session) (thread lock : Text) (flavour : Option Flavour) : Option Holdings :=
  (s.holdings thread).release? (lockKey lock flavour) (if flavour.isNone then some lock else none)

def release (s : Session) (thread : Text) (lock : Option Text) (flavour : Option Flavour) :
    Session :=
  match named? lock with
  | none => s
  | some l =>
    match s.releasing? thread l flavour with
    | none => s
    | some h => { s with recorder := s.recorder.setHoldings thread h }

def park (s : Session) (thread : Text) : Session :=
  { s with graph := s.graph.addPark thread }

/-- The effect of an event. An `unpark` has none, for the graph knows no order of events. -/
def apply (s : Session) (e : Event) : Session :=
  match e.action with
  | .start => s.start e.thread
  | .acquire => s.acquire e.thread e.lock e.flavour
  | .tryAcquire => s.tryAcquire e.thread e.lock e.flavour e.timed
  | .release => s.release e.thread e.lock e.flavour
  | .park => s.park e.thread
  | .unpark => s

def feed (s : Session) (events : List Event) : Session :=
  events.foldl apply s

theorem feed_cons (s : Session) (e : Event) (events : List Event) :
    s.feed (e :: events) = (s.apply e).feed events :=
  rfl

theorem feed_append (s : Session) (events events' : List Event) :
    s.feed (events ++ events') = (s.feed events).feed events' :=
  List.foldl_append

def walk (s : Session) (thread : Text) (region : Region) : Session :=
  s.feed (region.script thread)

theorem feed_scripts (s : Session) (thread : Text) (regions : List Region) :
    s.feed (Region.scripts thread regions) = regions.foldl (fun s r => s.walk thread r) s := by
  induction regions generalizing s with
  | nil => rfl
  | cons r rest ih => rw [Region.scripts, feed_append, ih, List.foldl_cons, walk]

theorem walk_event (s : Session) (thread : Text) (e : Event) : s.walk thread (.event e) = s.apply e :=
  rfl

theorem walk_block (s : Session) (thread lock : Text) (flavour : Option Flavour)
    (body : List Region) :
    s.walk thread (.block lock flavour body) =
      (body.foldl (fun s r => s.walk thread r) (s.acquire thread (some lock) flavour)).release thread
        (some lock) flavour := by
  rw [walk, Region.script, feed_cons, feed_append, feed_scripts]
  rfl

/-- A name for a thread that has none, from its owner and a place in it. -/
def freshThreadName (s : Session) (owner : Option Text) (offset : Int) : Text × Session :=
  let count := s.recorder.issued + 1
  ("Thread_" ++ (named? owner).getD "AnonymousThread" ++ "_" ++ Number.intText offset ++ "_" ++
      Number.natText count,
    { s with recorder := { s.recorder with issued := count } })

def resetRecorder (s : Session) : Session :=
  { s with recorder := {} }

def resetGraph (s : Session) : Session :=
  { s with graph := s.graph.reset }

def reset (s : Session) : Session :=
  s.resetGraph.resetRecorder

end Session

/-- Sessions that share one graph. -/
structure Pool where
  graph : Graph := {}
  recorders : List Recorder
deriving DecidableEq, Repr

namespace Pool

def ofSize (n : Nat) : Pool :=
  { recorders := List.replicate n {} }

def session (p : Pool) (i : Nat) : Session :=
  { graph := p.graph, recorder := p.recorders.getD i {} }

/-- The pool after one of its sessions has come to `s`. -/
def update (p : Pool) (i : Nat) (s : Session) : Pool :=
  { graph := s.graph, recorders := p.recorders.set i s.recorder }

end Pool

end Gridlock
