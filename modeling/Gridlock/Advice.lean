import Gridlock.Graph.Basic
import Gridlock.Number.Text

/-!
# Reports and advice

Deadlocks are reported as paths through threads and locks, with advice on how to avoid them.

* `cycleText`, `deadlockReport` : the deadlocks in words
* `lockOrder` : the locks of a deadlock, in an order in which all threads could take them
* `suggestions` : the advice
-/

namespace Gridlock

def arrow : String := " → "

/-- The path with the part that each vertex plays. -/
def cycleText (cycle : List Node) : Text :=
  Text.intercalate arrow
    (cycle.map fun n => n.name ++ if n.isProcess then "(process)" else "(resource)")

/-- Lines of text that are numbered from one. -/
def numbered {α : Type} (line : String → α → List Text) (items : List α) : List Text :=
  (items.zipIdx 1).flatMap fun e => line (Number.natText e.2) e.1

def unlines (lines : List Text) : Text :=
  Text.intercalate "\n" lines

def deadlockReport (cycles : List (List Node)) : Text :=
  if cycles.isEmpty then "No deadlock detected"
  else
    unlines ("Deadlock detected!" ::
      numbered (fun n c => ["Deadlock cycle " ++ n ++ ": " ++ cycleText c]) cycles) ++ "\n"

/-- The locks of a path by their first occurrence. -/
def lockOrder (cycle : List Node) : List Text :=
  ((cycle.filter (·.isResource)).map (·.name)).eraseDups

def generalAdvice : List Text :=
  ["Consistent lock ordering: make every thread acquire locks in the same global order",
    "Timed acquisition: use tryLock() with a timeout instead of waiting forever",
    "Finer-grained locking: split coarse locks into smaller ones to reduce contention",
    "Avoid nested acquisition: do not take another lock while holding one",
    "Higher-level primitives: prefer concurrent collections, atomics and executors over " ++
      "explicit locks"]

/-- The advice on one deadlock. An order is given if there are two locks to put into one. -/
def cycleAdvice (n : String) (cycle : List Node) : List Text :=
  let order := lockOrder cycle
  let title : List Text := ["", "Deadlock cycle " ++ n ++ ":"]
  let last : Text := "   - Consider refactoring to avoid acquiring these locks nested"
  title ++
    (if 2 ≤ order.length then
      ["   - Acquire these locks in one order: " ++ Text.intercalate arrow order]
    else []) ++
    [last]

/-- Advice for a list of deadlocks: the principles first, then each deadlock. -/
def suggestions (cycles : List (List Node)) : Text :=
  let title : List Text := ["", "Deadlock resolution suggestions:"]
  let none : Text := "No deadlock detected, no remediation needed"
  let subtitle : List Text := ["", "Suggestions for the detected deadlocks:"]
  if cycles.isEmpty then unlines (title ++ [none])
  else
    unlines (title ++ numbered (fun n advice => [n ++ ". " ++ advice]) generalAdvice ++ subtitle ++
      numbered cycleAdvice cycles) ++ "\n"

end Gridlock
