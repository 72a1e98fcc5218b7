import Gridlock.CommandLine.Switch
import Gridlock.Text.Character
import Gridlock.Text.Quoted

/-!
# The words of a command line

Each word is told apart by itself: it is a switch, perhaps with a value in the same word, or it is
plain. After the first double dash all words are plain.

* `Misuse` : what can be wrong with a command line
* `Word`, `Word.ofString`, `words` : words and what they stand for
-/

namespace Gridlock.CommandLine

inductive Misuse
  | ambiguous (word : String) (spellings : List String)
  | ignoredValue (switch : Switch) (value : String)
  | missingValue (switch : Switch)
  | notNumber (switch : Switch) (value : String)
  | unrecognized (words : List String)
deriving DecidableEq, Repr

def Misuse.message : Misuse → String
  | ambiguous word spellings =>
    "ambiguous option: " ++ word ++ " could match " ++ String.intercalate ", " spellings
  | ignoredValue s value =>
    "argument " ++ s.title ++ ": ignored explicit argument " ++ Text.quote value
  | missingValue s => "argument " ++ s.title ++ ": expected one argument"
  | notNumber s value => "argument " ++ s.title ++ ": invalid int value: " ++ Text.quote value
  | unrecognized words => "unrecognized arguments: " ++ String.intercalate " " words

inductive Word
  | plain (text : String)
  /-- The first double dash. -/
  | divider
  /-- A switch, whether it is written with a single dash, and the value in the same word. -/
  | switch (switch : Switch) (short : Bool) (value : Option String)
  /-- A word that looks like a switch and is none. -/
  | unknown (text : String)
deriving DecidableEq, Repr

namespace Word

def isShort (spelling : String) : Bool :=
  !"--".toList.isPrefixOf spelling.toList

def spelt (e : String × Switch) (value : Option String) : Word :=
  .switch e.2 (isShort e.1) value

/-- A word before and after its first equals sign. -/
def cut (w : List Char) : String × Option String :=
  (String.ofList (w.takeWhile (· ≠ '=')),
    match w.dropWhile (· ≠ '=') with
    | [] => none
    | _ :: value => some (String.ofList value))

/-- A switch that is written in full, with a value after an equals sign or without one. -/
def full? (w : String) : Option Word :=
  match Switch.ofSpelling? w with
  | some s => some (spelt (w, s) none)
  | none =>
    match cut w.toList with
    | (left, some value) => (Switch.ofSpelling? left).map fun s => spelt (left, s) (some value)
    | (_, none) => none

/-- The spellings that a word can stand for, and what it then means. A long switch may be cut short;
after a single dash and a letter, the rest of the word is a value. -/
def guesses (w : List Char) : List (String × Word) :=
  match w with
  | '-' :: '-' :: _ =>
    let (left, value) := cut w
    (Switch.table.filter fun e => left.toList.isPrefixOf e.1.toList).map fun e =>
      (e.1, spelt e value)
  | '-' :: c :: rest =>
    (Switch.table.filter fun e => e.1.toList = ['-', c]).map fun e =>
      (e.1, spelt e (some (String.ofList rest)))
  | _ => []

/-- Whether a word is a dash and a number, whole or with a point. A line break may follow. -/
def isNegative (w : List Char) : Bool :=
  match w with
  | '-' :: rest =>
    let rest := if rest.getLast? = some '\n' then rest.dropLast else rest
    let digits (s : List Char) : Bool := !s.isEmpty && s.all Text.isDigit
    digits rest ||
      match rest.dropWhile Text.isDigit with
      | '.' :: places => digits places
      | _ => false
  | _ => false

def ofString (w : String) : Except Misuse Word :=
  if w.toList.head? ≠ some '-' ∨ w = "-" then .ok (.plain w)
  else
    match full? w with
    | some word => .ok word
    | none =>
      match guesses w.toList with
      | [guess] => .ok guess.2
      | [] =>
        if isNegative w.toList ∨ ' ' ∈ w.toList then .ok (.plain w) else .ok (.unknown w)
      | several => .error (.ambiguous w (several.map (·.1)))

end Word

def words : List String → Except Misuse (List Word)
  | [] => .ok []
  | w :: rest =>
    if w = "--" then .ok (.divider :: rest.map .plain)
    else do return (← Word.ofString w) :: (← words rest)

end Gridlock.CommandLine
