import Gridlock.Text.Character

/-!
# Flavours of locks

A lock is taken under a name and, if it is known, a flavour. The two together give the key under
which the lock is a resource of its own: the read and the write view of one lock are two resources,
and the monitor of a class is told apart from the monitor of an object.

* `Flavour` : the six flavours, with their names in reports
* `Flavour.ofName?` : reads such a name
* `lockKey` : the key of a lock
* `monitorOf` : the flavour of a lock that is given by an expression only
* `permitKey` : the key of the permit on which a thread parks
-/

namespace Gridlock

/-- What kind of lock a resource is. It shapes the key of the lock and is reported with it. -/
inductive Flavour
  /-- The monitor of an object. -/
  | monitor
  | reentrant
  /-- The shared side of a read and write lock. -/
  | readView
  /-- The exclusive side of a read and write lock. -/
  | writeView
  /-- The permit that a parked thread waits for. -/
  | permit
  /-- The monitor of a class. -/
  | classMonitor
deriving DecidableEq, Repr

namespace Flavour

def name : Flavour → String
  | monitor => "SYNCHRONIZED"
  | reentrant => "REENTRANT_LOCK"
  | readView => "READ_LOCK"
  | writeView => "WRITE_LOCK"
  | permit => "LOCK_SUPPORT"
  | classMonitor => "CLASS_LOCK"

def all : List Flavour :=
  [monitor, reentrant, readView, writeView, permit, classMonitor]

/-- Reads the name of a flavour, in any case and with blanks around it. -/
def ofName? (text : Text) : Option Flavour :=
  all.find? fun f => (f.name : Text).points == Text.capitals (Text.trimPoints text.points)

end Flavour

/-- The key of a lock: its name, marked with the view or the class that is meant. A name that
already carries the mark of a class keeps it. -/
def lockKey (lock : Text) : Option Flavour → Text
  | some .readView => lock ++ "_readLock"
  | some .writeView => lock ++ "_writeLock"
  | some .classMonitor => 
    if ("CLASS_" : Text).points.isPrefixOf lock.points then lock else "CLASS_" ++ lock
  | _ => lock

/-- The lock named by the expression of a monitor, and its flavour: a class literal stands for the
monitor of the class. -/
def monitorOf (expression : Text) : Text × Flavour :=
  let lock := expression.trim
  (lock, if (".class" : Text).points.isSuffixOf lock.points then .classMonitor else .monitor)

def permitKey (thread : Text) : Text :=
  "LockSupport_" ++ thread

end Gridlock
