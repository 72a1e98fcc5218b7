/-!
# Paths

A path is read into its parts: empty parts and single dots say nothing and are dropped, two dots
stay. A path that starts at the root keeps its mark, which is one slash or exactly two.

* `Path`, `Path.ofString`, `Path.text` : paths and their text
* `Path.name`, `Path.suffix` : the last part, and what follows its last dot
-/

namespace Gridlock

def slashParts (s : String) : List String :=
  (s.toList.splitOn '/').map String.ofList

/-- A path: the mark of the root, which is empty for a path from the working directory, and the
parts after it. -/
structure Path where
  root : String := ""
  parts : List String := []
deriving DecidableEq, Repr

namespace Path

def rootOf (s : List Char) : String :=
  match (s.takeWhile (· = '/')).length with
  | 0 => ""
  | 2 => "//"
  | _ => "/"

def ofString (s : String) : Path :=
  { root := rootOf s.toList
    parts := (slashParts s).filter fun p => p ≠ "" ∧ p ≠ "." }

/-- The text of a path; the working directory is a dot. -/
def text (p : Path) : String :=
  if p.root = "" ∧ p.parts = [] then "." else p.root ++ String.intercalate "/" p.parts

/-- The last part of a path, which may be missing. -/
def name (p : Path) : String :=
  p.parts.getLast?.getD ""

/-- What follows the last dot of a name, with the dot. A dot at either end of the name does not
count. -/
def suffixOf (name : List Char) : List Char :=
  let tail := (name.reverse.takeWhile (· ≠ '.')).reverse
  if tail = [] ∨ name.length ≤ tail.length + 1 then [] else '.' :: tail

def suffix (p : Path) : String :=
  String.ofList (suffixOf p.name.toList)

end Path

end Gridlock
