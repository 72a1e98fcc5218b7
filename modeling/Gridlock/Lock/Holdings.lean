import Gridlock.Text.Basic

/-!
# The locks a thread holds

Holdings are a stack of the locks that one thread has taken and not released. An entry keeps the
name under which the lock was taken beside its key, so that a release that gives the bare name still
finds the view that was taken.

* `Hold`, `Holdings` : entries, the newest first
* `Holdings.push`, `Holdings.holds`, `Holdings.release?` : take, ask, give back the newest match
* `Holdings.keys` : the keys held, the oldest first
-/

namespace Gridlock

/-- One lock held: the name it was taken by, and its key. -/
structure Hold where
  name : Text
  key : Text
deriving DecidableEq, Repr

/-- The locks held by one thread, the newest first. -/
structure Holdings where
  entries : List Hold := []
deriving DecidableEq, Repr

namespace Holdings

def empty : Holdings := {}

/-- Takes a lock. Without a name of its own, the entry goes by its key. -/
def push (h : Holdings) (key : Text) (name : Option Text) : Holdings :=
  ⟨⟨(name.filter (· ≠ ("" : Text))).getD key, key⟩ :: h.entries⟩

def holds (h : Holdings) (key : Text) : Bool :=
  h.entries.any (·.key == key)

/-- An entry answers to its key, and to the bare name if one is given. -/
def matchesHold (key : Text) (name : Option Text) (e : Hold) : Bool :=
  e.key == key || name == some e.name

/-- Gives back the newest entry that answers to the key or the bare name, if there is one. -/
def release? (h : Holdings) (key : Text) (name : Option Text) : Option Holdings :=
  if h.entries.any (matchesHold key name) then
    some ⟨h.entries.eraseP (matchesHold key name)⟩
  else none

/-- The keys held, the oldest first. -/
def keys (h : Holdings) : List Text :=
  (h.entries.map (·.key)).reverse

def depth (h : Holdings) : Nat :=
  h.entries.length

def isEmpty (h : Holdings) : Bool :=
  h.entries.isEmpty

end Holdings

end Gridlock
