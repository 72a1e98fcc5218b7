import Gridlock.File.Tree
import Gridlock.Json.Reader
import Gridlock.Text.Encoding
import Gridlock.Trace.Reader

/-!
# Traces in files

* `TraceError` : why a file is no trace
* `TraceError.message` : the same in words
* `Trace.ofText`, `Trace.ofBytes`, `Trace.load` : reading a trace
-/

namespace Gridlock

inductive TraceError
  /-- The file cannot be opened. -/
  | unreadable (path : String) (error : FileError)
  /-- The bytes are no text. -/
  | undecodable (path : String) (fault : Text.Utf8.Fault)
  /-- The text is no JSON. -/
  | malformed (path : String) (place : Text.Position) (cause : Json.Fault.Cause)
  /-- The value is no trace. -/
  | wrongShape
  /-- A number in the text has too many digits. -/
  | digitLimit (digits : Nat)
  /-- The path cannot be looked up at all. -/
  | unreachable (error : FileError)
deriving DecidableEq, Repr

namespace TraceError

def message : TraceError → String
  | unreadable path e => "Cannot read trace " ++ path ++ ": " ++ e.message
  | undecodable path fault => "Cannot read trace " ++ path ++ ": " ++ fault.message
  | malformed path place cause =>
    "Invalid JSON in " ++ path ++ " (line " ++ Number.natText place.line ++ ", column " ++
      Number.natText place.column ++ "): " ++ cause.message
  | wrongShape => "Trace must be an object with a 'threads' list"
  | digitLimit digits =>
    "Exceeds the limit (" ++ Number.natText Number.digitLimit ++
      " digits) for integer string conversion: value has " ++ Number.natText digits ++
      " digits; use sys.set_int_max_str_digits() to increase the limit"
  | unreachable e => e.message

/-- Whether the error says that the file is no trace. The limit on digits is another matter: it
stops the reading of a text that may well be a trace. So is a path under which there can be no
file. -/
def isFormat : TraceError → Bool
  | digitLimit _ | unreachable _ => false
  | _ => true

end TraceError

namespace Trace

def ofJson (j : Json) : Except TraceError Trace :=
  match ofJson? j with
  | some t => .ok t
  | none => .error .wrongShape

def ofText (path : String) (text : List Char) : Except TraceError Trace :=
  match Json.parse text with
  | .ok j => ofJson j
  | .error (.malformed cause left) => .error (.malformed path (Text.positionOf text left) cause)
  | .error (.tooLong digits) => .error (.digitLimit digits)

def ofBytes (path : String) (bytes : List UInt8) : Except TraceError Trace :=
  match Text.Utf8.decode bytes with
  | .ok text => ofText path (Text.unifyBreaks text)
  | .error fault => .error (.undecodable path fault)

def load (files : FileTree) (path : Path) : Except TraceError Trace :=
  match files.read path.text with
  | .ok content => do
    let t ← ofBytes path.text content.data.toList
    return { t with source := path.text }
  | .error e => .error (if e.cause = .nullByte then .unreachable e else .unreadable path.text e)

end Trace

end Gridlock
