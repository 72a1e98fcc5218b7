import Gridlock.Event
import Gridlock.Json.Printer
import Gridlock.Session

/-!
# Traces

A trace lists threads, each with a flat list of events and with regions. Entries of a trace that
make no sense are left out, and a warning says so.

* `ThreadTrace`, `Trace` : what a trace says
* `Trace.script` : all its events, in the order in which a session is fed
* `Trace.eventCount` : the number of operations, without the starts of threads
* `Place`, `Warning` : what was left out, and where
* `Session.load` : a session fed with a trace
-/

namespace Gridlock

structure ThreadTrace where
  thread : Text
  events : List Event := []
  regions : List Region := []

namespace ThreadTrace

def eventCount (t : ThreadTrace) : Nat :=
  t.events.length + Region.sizes t.regions

/-- The events of the thread: its start, the flat list, then the regions. -/
def script (t : ThreadTrace) : List Event :=
  { action := .start, thread := t.thread } :: (t.events ++ Region.scripts t.thread t.regions)

end ThreadTrace

/-- A place in a trace, under the name of its thread. -/
inductive Place
  | thread (name : Text)
  | event (thread : Text) (index : Nat)
  /-- A region, by the indices that lead to it from the outside. -/
  | region (thread : Text) (path : List Nat)
deriving DecidableEq, Repr

def Place.text : Place → Text
  | thread t => t
  | event t index => t ++ "[" ++ Number.natText index ++ "]"
  | region t path => t ++ String.join (path.map fun i => "/" ++ Number.natText i)

inductive Warning
  /-- A thread has no name. -/
  | namelessThread (position : Nat)
  /-- An event is not an object. -/
  | eventShape (place : Place)
  /-- The operation of an event is not known. -/
  | unknownOperation (place : Place) (operation : Json)
  /-- An operation on a lock names none. -/
  | lockMissing (place : Place) (operation : Text)
  /-- A region is not an object. -/
  | regionShape (place : Place)
  /-- A region names no lock. -/
  | regionLockMissing (place : Place)
  /-- The flavour of a lock is not known; the entry is kept without a flavour. -/
  | unknownFlavour (place : Place) (flavour : Json)
  /-- Something that should be a list is none; it counts as empty. -/
  | notList (place : Place) (field : String)

def Warning.text : Warning → Text
  | namelessThread position => "Thread #" ++ Number.natText position ++ " skipped: missing 'id'"
  | eventShape place => "Event " ++ place.text ++ " skipped: not an object"
  | unknownOperation place operation =>
    "Event " ++ place.text ++ " skipped: unknown op " ++ operation.display
  | lockMissing place operation =>
    "Event " ++ place.text ++ " skipped: '" ++ operation ++ "' needs a resource"
  | regionShape place => "Region " ++ place.text ++ " skipped: not an object"
  | regionLockMissing place => "Region " ++ place.text ++ " skipped: missing 'resource'"
  | unknownFlavour place flavour =>
    place.text ++ ": unknown lock kind " ++ flavour.display ++ " ignored"
  | notList place field => place.text ++ ": '" ++ field ++ "' is not a list, ignored"

/-- The threads of a trace, the warnings, and the file it comes from, if any. -/
structure Trace where
  threads : List ThreadTrace := []
  warnings : List Warning := []
  source : String := ""

namespace Trace

def eventCount (t : Trace) : Nat :=
  t.threads.foldr (fun thread n => thread.eventCount + n) 0

def script (t : Trace) : List Event :=
  t.threads.flatMap (·.script)

end Trace

def Session.load (s : Session) (t : Trace) : Session :=
  s.feed t.script

end Gridlock
