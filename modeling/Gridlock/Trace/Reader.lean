import Gridlock.Trace.Basic

/-!
# Traces from JSON

A trace is an object with a list of threads, or that list itself. A thread has a name and lists of
events and regions; a region that has an operation is an event. Every entry is either kept, in its
place, or left out with a warning.

* `Reading` : an entry if it is kept, and the warnings about it
* `readEvent`, `readRegion`, `readThread` : the entries
* `Trace.ofJson?` : a whole trace
-/

namespace Gridlock

structure Reading (α : Type) where
  kept : Option α
  warnings : List Warning := []

namespace Reading

variable {α β : Type}

def skip (w : Warning) : Reading α := ⟨none, [w]⟩

def map (f : α → β) (r : Reading α) : Reading β := ⟨r.kept.map f, r.warnings⟩

end Reading

/-- The action that an operation stands for, in any case and with blanks around it. -/
def operation? (text : Text) : Option Action :=
  match Text.ofPoints (Text.smalls (Text.trimPoints text.points)) with
  | .plain "acquire" | .plain "lock" => some .acquire
  | .plain "try_acquire" | .plain "try_lock" => some .tryAcquire
  | .plain "release" | .plain "unlock" => some .release
  | .plain "park" => some .park
  | .plain "unpark" => some .unpark
  | _ => none

/-- Reads a flavour. Null stands for none. -/
def readFlavour (place : Place) (j : Json) : Reading Flavour :=
  if j.isNull then ⟨none, []⟩
  else match Flavour.ofName? j.text with
    | some f => ⟨some f, []⟩
    | none => .skip (.unknownFlavour place j)

/-- The lock of an event and its flavour. A lock that is taken without a flavour is a monitor. -/
def readLock (place : Place) (action : Action) (lock flavour : Json) :
    Option Text × Reading Flavour :=
  let name := if lock.holds then some (lock.text.trim) else none
  if flavour.isNull && action.takesLock then
    let (l, f) := monitorOf (name.getD "")
    (some l, ⟨some f, []⟩)
  else (name, readFlavour place flavour)

def readEvent (thread : Text) (place : Place) (j : Json) : Reading Event :=
  match j with
  | .obj _ =>
    match operation? ((j.field? "op").getD (.str "")).text with
    | none => .skip (.unknownOperation place (j.field "op"))
    | some action =>
      if action.needsLock && !(j.field "resource").holds then
        .skip (.lockMissing place (j.field "op").text)
      else
        let (lock, flavour) := readLock place action (j.field "resource") (j.field "kind")
        let target := j.field "target"
        { kept := some
            { action := action
              thread := thread
              lock := lock
              flavour := flavour.kept
              timed := (j.field "timed").holds
              target := if target.holds then some target.text else none }
          warnings := flavour.warnings }
  | _ => .skip (.eventShape place)

/-- Reads the events of a list whose first item has the given index. -/
def readEvents (thread : Text) (index : Nat) : List Json → List Event × List Warning
  | [] => ([], [])
  | j :: rest =>
    let first := readEvent thread (.event thread index) j
    let (events, warnings) := readEvents thread (index + 1) rest
    (first.kept.toList ++ events, first.warnings ++ warnings)

mutual

/-- Reads a region that is reached by the indices of `path`. -/
def readRegion (thread : Text) (path : List Nat) (j : Json) : Reading Region :=
  let place := Place.region thread path
  match j with
  | .obj fields =>
    let j := Json.obj fields
    if (j.field? "op").isSome then (readEvent thread place j).map .event
    else if !(j.field "resource").holds then .skip (.regionLockMissing place)
    else
      let (lock, usual) := monitorOf (j.field "resource").text
      let flavour : Reading Flavour :=
        if (j.field "kind").isNull then ⟨some usual, []⟩ else readFlavour place (j.field "kind")
      match h : fields.lookup ("body" : Text) with
      | none | some .null => ⟨some (.block lock flavour.kept []), flavour.warnings⟩
      | some (.arr items) =>
        let (body, warnings) := readRegions thread path 0 items
        ⟨some (.block lock flavour.kept body), flavour.warnings ++ warnings⟩
      | some _ => ⟨some (.block lock flavour.kept []), flavour.warnings ++ [.notList place "body"]⟩
  | _ => .skip (.regionShape place)
termination_by sizeOf j
decreasing_by
  have := Json.sizeOf_lookup_lt h
  simp only [Json.arr.sizeOf_spec] at this
  simp only [Json.obj.sizeOf_spec]
  omega

/-- Reads the regions of a list inside `path` whose first item has the given index. -/
def readRegions (thread : Text) (path : List Nat) (index : Nat) (items : List Json) :
    List Region × List Warning :=
  match items with
  | [] => ([], [])
  | j :: rest =>
    let first := readRegion thread (path ++ [index]) j
    let (regions, warnings) := readRegions thread path (index + 1) rest
    (first.kept.toList ++ regions, first.warnings ++ warnings)
termination_by sizeOf items

end

/-- A list that may be left out. Anything else than a list counts as empty. -/
def readList (place : Place) (name : String) (j : Json) : List Json × List Warning :=
  match j.field name with
  | .null => ([], [])
  | .arr items => (items, [])
  | _ => ([], [.notList place name])

def readThread (position : Nat) (j : Json) : Reading ThreadTrace :=
  match j with
  | .obj _ =>
    if (j.field "id").holds then
      let thread := (j.field "id").text
      let (events, w₁) := readList (.thread thread) "events" j
      let (events, w₂) := readEvents thread 0 events
      let (regions, w₃) := readList (.thread thread) "regions" j
      let (regions, w₄) := readRegions thread [] 0 regions
      ⟨some { thread, events, regions }, w₁ ++ w₂ ++ w₃ ++ w₄⟩
    else .skip (.namelessThread position)
  | _ => .skip (.namelessThread position)

def readThreads (position : Nat) : List Json → List ThreadTrace × List Warning
  | [] => ([], [])
  | j :: rest =>
    let first := readThread position j
    let (threads, warnings) := readThreads (position + 1) rest
    (first.kept.toList ++ threads, first.warnings ++ warnings)

/-- The list of threads in a JSON value. -/
def threadList? : Json → Option (List Json)
  | .arr items => some items
  | j =>
    match j.field? "threads" with
    | some (.arr items) => some items
    | _ => none

def Trace.ofJson? (j : Json) : Option Trace :=
  (threadList? j).map fun items =>
    let (threads, warnings) := readThreads 0 items
    { threads, warnings }

end Gridlock
