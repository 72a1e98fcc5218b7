/-!
# The switches of the command

* `Switch` : the switches
* `Switch.spellings`, `Switch.table` : how they are written
-/

namespace Gridlock.CommandLine

inductive Switch
  | help
  | output
  | json
  | ciMode
  | maxDeadlocks
  | debug
  | logFile
  | quiet
  | version
deriving DecidableEq, Repr

namespace Switch

def all : List Switch :=
  [help, output, json, ciMode, maxDeadlocks, debug, logFile, quiet, version]

/-- The ways to write a switch, in the order in which they are shown. -/
def spellings : Switch → List String
  | help => ["-h", "--help"]
  | output => ["--output", "-o"]
  | json => ["--json"]
  | ciMode => ["--ci-mode"]
  | maxDeadlocks => ["--max-deadlocks"]
  | debug => ["--debug"]
  | logFile => ["--log-file"]
  | quiet => ["--quiet", "-q"]
  | version => ["--version"]

def title (s : Switch) : String :=
  String.intercalate "/" s.spellings

/-- Whether the switch takes a value; otherwise it is a flag. -/
def takesValue : Switch → Bool
  | output | json | maxDeadlocks | logFile => true
  | _ => false

/-- All spellings, with the switches that they stand for. -/
def table : List (String × Switch) :=
  all.flatMap fun s => s.spellings.map fun w => (w, s)

def ofSpelling? (w : String) : Option Switch :=
  table.lookup w

end Switch

end Gridlock.CommandLine
