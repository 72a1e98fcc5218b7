import Gridlock.Console
import Gridlock.Moment

/-!
# Records and loggers

A record says something to those who follow the analysis. It names the part of the analysis that
speaks, and carries a level that tells how much it matters.

Loggers have dotted names, and a logger stands below those whose names its own name extends. A
record goes to the handlers of its logger and of all loggers above it, up to the root.

* `Record` : a record
* `Handler`, `Logger` : where records go to, and from which level on
* `Registry` : the loggers that are known by name
* `Registry.know` : makes a logger known and finds its place
* `Registry.setup` : gives a logger a level and its handlers
* `Registry.send` : sends a record to the handlers that take it
-/

namespace Gridlock.Log

structure Record where
  source : String
  level : Int
  message : Text
deriving DecidableEq, Repr

namespace Record

def debug (source : String) (message : Text) : Record := ⟨source, 10, message⟩

def info (source : String) (message : Text) : Record := ⟨source, 20, message⟩

end Record

inductive Sink
  /-- It drops what it is given. -/
  | nothing
  | console
  | file (path : String)
deriving DecidableEq, Repr

/-- A handler takes records from its level on. -/
structure Handler where
  sink : Sink
  level : Int := 0
deriving DecidableEq, Repr

/-- A logger takes records from its level on; at level zero, the loggers above it decide. -/
structure Logger where
  level : Int := 0
  handlers : List Handler := []
  /-- The logger right above it, unless that is the root. -/
  parent : Option String := none
deriving DecidableEq, Repr

/-- A logger is set up once it has a handler that writes. -/
def Logger.isSetUp (l : Logger) : Bool :=
  l.handlers.any (·.sink ≠ .nothing)

def levelName (level : Int) : String :=
  if level = 10 then "DEBUG"
  else if level = 20 then "INFO"
  else if level = 30 then "WARNING"
  else if level = 40 then "ERROR"
  else if level = 50 then "CRITICAL"
  else "Level " ++ Number.intText level

def Record.line (r : Record) (now : Moment) : Text :=
  now.stamp ++ " - " ++ r.source ++ " - " ++ levelName r.level ++ " - " ++ r.message

def warningLevel : Int := 30

/-- The known loggers by their names. Whether a logger takes records of a level is decided when it
gets the first such record, and the decision stands until a level is set anywhere. -/
structure Registry where
  root : Logger := { level := warningLevel }
  loggers : List (String × Logger) := []
  decisions : List ((String × Int) × Bool) := []
deriving DecidableEq, Repr

namespace Registry

/-- At first there is a logger for the whole program, whose records are dropped. -/
def initial : Registry :=
  { loggers := [("lockgraph", { handlers := [{ sink := .nothing }] })] }

/-! ## Names -/

/-- The root has a name as well. -/
def rootName : String := "root"

def isRoot (name : String) : Bool :=
  name = "" ∨ name = rootName

def shownName (name : String) : String :=
  if isRoot name then rootName else name

/-- The names above a name, whose characters are given last to first. A name is cut at its last dot;
the next cut is made in what is left without its last character. -/
def cutsOf : List Char → List String
  | [] => []
  | ['.'] => []
  | '.' :: c :: rest => String.ofList (c :: rest).reverse :: cutsOf rest
  | _ :: rest => cutsOf rest

def cuts (name : String) : List String :=
  cutsOf name.toList.reverse

/-! ## Places -/

def logger (r : Registry) (name : String) : Logger :=
  if isRoot name then r.root else (r.loggers.lookup name).getD {}

def update (r : Registry) (name : String) (l : Logger) : Registry :=
  if isRoot name then { r with root := l } else { r with loggers := Assoc.put name l r.loggers }

def isKnown (r : Registry) (name : String) : Bool :=
  isRoot name || (r.loggers.lookup name).isSome

/-- Whether a logger that becomes known takes a place right above another one. It does not if the
name of the one that is there now begins with its own. -/
def takesOver (name : String) (other : String × Logger) : Bool :=
  name ∈ cuts other.1 && !name.toList.isPrefixOf (other.2.parent.getD rootName).toList

/-- Makes a logger known. It stands below the nearest known logger above it. -/
def know (r : Registry) (name : String) : Registry :=
  if r.isKnown name then r
  else
    let below := r.loggers.map fun e =>
      if takesOver name e then (e.1, { e.2 with parent := some name }) else e
    let parent := (cuts name).find? fun n => (r.loggers.lookup n).isSome
    { r with loggers := below ++ [(name, { parent := parent })] }

/-- A logger and those above it, of which there are at most `n` besides the root. -/
def upwards (r : Registry) : Nat → Option String → List Logger
  | n + 1, some name =>
    let l := r.logger name
    l :: r.upwards n l.parent
  | _, _ => [r.root]

/-- A logger and all loggers above it. The names get shorter on the way up. -/
def chain (r : Registry) (name : String) : List Logger :=
  if isRoot name then [r.root] else r.upwards name.length (some name)

/-! ## Records -/

/-- The level from which on a logger takes records. -/
def effectiveLevel (r : Registry) (name : String) : Int :=
  (((r.chain name).map (·.level)).find? (· ≠ 0)).getD 0

def takes (r : Registry) (x : Record) : Bool :=
  (r.decisions.lookup (shownName x.source, x.level)).getD
    (0 < x.level ∧ r.effectiveLevel x.source ≤ x.level)

/-- Decides on records like this one, if that is not done. -/
def settle (r : Registry) (x : Record) : Registry :=
  { r with decisions := Assoc.put (shownName x.source, x.level) (r.takes x) r.decisions }

/-- The handlers that could be given a record. -/
def handlers (r : Registry) (name : String) : List Handler :=
  (r.chain name).flatMap (·.handlers)

def deliver (c : Console) (line : Text) : Sink → Console
  | .nothing => c
  | .console => c.warn line
  | .file path => c.note path line

/-- Gives a record to the handlers that take it. If there are no handlers at all, a warning or worse
is printed as it is. -/
def handle (r : Registry) (now : Moment) (c : Console) (x : Record) : Console :=
  if (r.handlers x.source).isEmpty then
    if warningLevel ≤ x.level then c.warn x.message else c
  else
    ((r.handlers x.source).filter (·.level ≤ x.level)).foldl
      (fun c h => deliver c ({ x with source := shownName x.source }.line now) h.sink) c

def send (now : Moment) (rc : Registry × Console) (x : Record) : Registry × Console :=
  let r := (rc.1.know x.source).settle x
  (r, if r.takes x then r.handle now rc.2 x else rc.2)

def sendAll (now : Moment) (rc : Registry × Console) (records : List Record) : Registry × Console :=
  records.foldl (send now) rc

/-! ## Setting up -/

/-- The handlers of a logger that is not set up: they write to the console and, if one is named, to
a file. -/
def freshHandlers (files : FileTree) (file : Option String) : List Handler :=
  { sink := .console } ::
    match file with
    | some path => [{ sink := .file (files.absolute path) }]
    | none => []

/-- Gives a logger a level, which its handlers take over. A logger that is not set up gets its
handlers first. The file is made at once; if that fails, the handler for it is not added and the
levels of the handlers stay. -/
def setup (r : Registry) (files : FileTree) (name : String) (level : Int) (file : Option String) :
    Registry × Except FileError FileTree :=
  let r := { r.know name with decisions := [] }
  let l : Logger := { r.logger name with level := level }
  let give (handlers : List Handler) : Registry :=
    r.update name { l with handlers := handlers.map fun h => { h with level := level } }
  if l.isSetUp then (give l.handlers, .ok files)
  else
    match file with
    | none => (give (l.handlers ++ freshHandlers files none), .ok files)
    | some path =>
      match files.append (files.absolute path) "" with
      | .ok made => (give (l.handlers ++ freshHandlers files file), .ok made)
      | .error e =>
        (r.update name { l with handlers := l.handlers ++ freshHandlers files none }, .error e)

end Registry

end Gridlock.Log
