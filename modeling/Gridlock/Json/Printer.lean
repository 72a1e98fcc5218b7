import Gridlock.Json.Basic
import Gridlock.Text.Quoted

/-!
# JSON values in writing

Messages show a value as a term: nothing as `None`, truth values with a capital, lists in brackets,
objects in braces, and texts in quotes. A value that stands for a name is shown without the outer
quotes.

JSON itself is written in printable ASCII: every other character is escaped, by its UTF-16 units
where it has no shorter form, and so is a lone half.

* `Json.display` : the value as a term
* `Json.text` : the value as a name
* `Json.compact` : in one line
* `Json.pretty` : one entry a line, indented by two spaces a level
-/

namespace Gridlock.Json

/-! ## Messages -/

mutual

/-- The value as a term. -/
def display : Json → String
  | null => "None"
  | bool true => "True"
  | bool false => "False"
  | num n => n.text
  | str s => s.quote
  | arr items => "[" ++ String.intercalate ", " (displayItems items) ++ "]"
  | obj fields => "\x7b" ++ String.intercalate ", " (displayFields fields) ++ "\x7d"

def displayItems : List Json → List String
  | [] => []
  | j :: rest => j.display :: displayItems rest

def displayFields : List (Text × Json) → List String
  | [] => []
  | (k, j) :: rest => (k.quote ++ ": " ++ j.display) :: displayFields rest

end

/-- The value as a name. -/
def text : Json → Text
  | str s => s
  | j => j.display

/-! ## JSON -/

def escapeChar (c : Char) : List Char :=
  if c = '"' then ['\\', '"']
  else if c = '\\' then ['\\', '\\']
  else if c = '\n' then ['\\', 'n']
  else if c = '\r' then ['\\', 'r']
  else if c = '\t' then ['\\', 't']
  else if c = '\x08' then ['\\', 'b']
  else if c = '\x0c' then ['\\', 'f']
  else
    let n := c.toNat
    if 0x20 ≤ n ∧ n < 0x7F then [c]
    else if n < 0x10000 then Text.unitEscape n
    else
      Text.unitEscape (0xD800 + (n - 0x10000) / 0x400) ++ Text.unitEscape (0xDC00 + (n - 0x10000) % 0x400)

def escapePoint : CodePoint → List Char
  | .char c => escapeChar c
  | .half h => Text.unitEscape h.unit

def stringLiteral (s : Text) : String :=
  String.ofList ('"' :: (s.points.flatMap escapePoint ++ ['"']))

def numberLiteral : Number → String
  | .real .undefined => "NaN"
  | .real (.infinite false) => "Infinity"
  | .real (.infinite true) => "-Infinity"
  | n => n.text

mutual

def compact : Json → String
  | null => "null"
  | bool true => "true"
  | bool false => "false"
  | num n => numberLiteral n
  | str s => stringLiteral s
  | arr items => "[" ++ String.intercalate ", " (compactItems items) ++ "]"
  | obj fields => "\x7b" ++ String.intercalate ", " (compactFields fields) ++ "\x7d"

def compactItems : List Json → List String
  | [] => []
  | j :: rest => j.compact :: compactItems rest

def compactFields : List (Text × Json) → List String
  | [] => []
  | (k, j) :: rest => (stringLiteral k ++ ": " ++ j.compact) :: compactFields rest

end

def newline (level : Nat) : String :=
  String.ofList ('\n' :: List.replicate (2 * level) ' ')

/-- The lines of a container between its brackets. -/
def bracket (left right : String) (level : Nat) (lines : List String) : String :=
  if lines.isEmpty then left ++ right
  else
    left ++ newline (level + 1) ++ String.intercalate ("," ++ newline (level + 1)) lines ++
      newline level ++ right

mutual

/-- The value over several lines, at a level of indentation. -/
def prettyAt (level : Nat) : Json → String
  | arr items => bracket "[" "]" level (prettyItems (level + 1) items)
  | obj fields => bracket "\x7b" "\x7d" level (prettyFields (level + 1) fields)
  | null => "null"
  | bool true => "true"
  | bool false => "false"
  | num n => numberLiteral n
  | str s => stringLiteral s

def prettyItems (level : Nat) : List Json → List String
  | [] => []
  | j :: rest => j.prettyAt level :: prettyItems level rest

def prettyFields (level : Nat) : List (Text × Json) → List String
  | [] => []
  | (k, j) :: rest => (stringLiteral k ++ ": " ++ j.prettyAt level) :: prettyFields level rest

end

def pretty (j : Json) : String :=
  j.prettyAt 0

end Gridlock.Json
