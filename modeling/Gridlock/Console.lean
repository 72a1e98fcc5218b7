import Gridlock.File.Tree
import Gridlock.Text.Encoding

/-!
# What a run reads and writes

Results are printed as UTF-8. A text with a lone half cannot be printed, and nothing of it is. Faults
are always printed, with their halves by number.

* `Console` : the files, and what was printed on the two streams
* `Console.print`, `Console.display?` : printing a line of a result, and a text of which it must turn out
  whether it can be printed
* `Console.warn`, `Console.note` : printing a line about a fault, adding a line to a file
-/

namespace Gridlock

/-- The files that a run works on, and what it has printed. -/
structure Console where
  files : FileTree := {}
  /-- The stream for results. -/
  out : String := ""
  /-- The stream for faults and log lines. -/
  err : String := ""
deriving DecidableEq

namespace Console

def print (c : Console) (line : String) : Console :=
  { c with out := c.out ++ line ++ "\n" }

def display? (c : Console) (text : Text) : Except Text.Unencodable Console :=
  text.encode.map c.print

def warn (c : Console) (line : Text) : Console :=
  { c with err := c.err ++ line.escaped ++ "\n" }

/-- What is printed in place of a log line that cannot be written. -/
def lostLine : String := "--- Logging error ---\n<traceback>"

/-- Adds a line to a file. A file that cannot be opened is left alone. -/
def note (c : Console) (path : String) (line : Text) : Console :=
  match line.encode with
  | .error _ => c.warn lostLine
  | .ok line =>
    match c.files.append path (line ++ "\n") with
    | .ok files => { c with files := files }
    | .error _ => c

end Console

end Gridlock
