import Gridlock.CommandLine.Word
import Gridlock.Number.Numeral

/-!
# What a command line asks for

The words are taken from left to right. The plain words that come first in a row are the files; all
other plain words that no switch takes as its value are left over, and so are the words that look
like switches.

* `Settings` : the files and what the switches say
* `Stop` : why the words are not taken to their end
* `spread` : the switches of one word
* `Settings.ofWords` : the settings of a command line
-/

namespace Gridlock.CommandLine

/-- The files to analyze and what the switches say. An empty name of a file names none. The number
of cycles that are allowed is missing if the switch for it was given nothing. -/
structure Settings where
  files : List String := []
  output : Option String := none
  json : Option String := none
  ciMode : Bool := false
  maxDeadlocks : Option Int := some 0
  debug : Bool := false
  logFile : Option String := none
  quiet : Bool := false
deriving DecidableEq, Repr

inductive Stop
  | help
  | version
  | misuse (m : Misuse)
deriving DecidableEq, Repr

namespace Settings

def fileName? (name : String) : Option String :=
  if name = "" then none else some name

def flag (s : Settings) : Switch → Except Stop Settings
  | .help => .error .help
  | .version => .error .version
  | .ciMode => .ok { s with ciMode := true }
  | .debug => .ok { s with debug := true }
  | .quiet => .ok { s with quiet := true }
  | .output | .json | .maxDeadlocks | .logFile => .ok s

/-- Obeys a switch with a value. The double dash as a value is dropped, which leaves the switch with
nothing. -/
def value (s : Settings) (switch : Switch) (v : String) : Except Stop Settings :=
  let name := if v = "--" then none else fileName? v
  match switch with
  | .output => .ok { s with output := name }
  | .json => .ok { s with json := name }
  | .logFile => .ok { s with logFile := name }
  | .maxDeadlocks =>
    if v = "--" then .ok { s with maxDeadlocks := none }
    else
      match Number.wholeNumber? v with
      | some n => .ok { s with maxDeadlocks := some n }
      | none => .error (.misuse (.notNumber switch v))
  | .help | .version | .ciMode | .debug | .quiet => .ok s

def flags (s : Settings) : List Switch → Except Stop Settings
  | [] => .ok s
  | f :: rest => do (← s.flag f).flags rest

end Settings

/-- The switches of one word: flags, and the last switch with the value that the word gives it. -/
structure Spread where
  flags : List Switch
  last : Switch
  value : Option String
deriving DecidableEq, Repr

/-- The switches of a word with a value. A switch that takes a value takes all of it. After a flag
with a single dash the value is read as further letters; no other flag can have a value. -/
def spread (s : Switch) (short : Bool) : List Char → Except Misuse Spread
  | [] =>
    if s.takesValue then .ok ⟨[], s, some ""⟩ else .error (.ignoredValue s "")
  | c :: rest =>
    if s.takesValue then .ok ⟨[], s, some (String.ofList (c :: rest))⟩
    else
      match short, Switch.ofSpelling? (String.ofList ['-', c]) with
      | true, some next =>
        if rest.isEmpty then .ok ⟨[s], next, none⟩
        else do
          let more ← spread next true rest
          return { more with flags := s :: more.flags }
      | _, _ => .error (.ignoredValue s (String.ofList (c :: rest)))

def spreadOf (s : Switch) (short : Bool) : Option String → Except Misuse Spread
  | none => .ok ⟨[], s, none⟩
  | some value => spread s short value.toList

inductive FileRow
  | before
  | within
  | after
deriving DecidableEq, Repr

structure Progress where
  settings : Settings := {}
  row : FileRow := .before
  /-- The words that are left over. -/
  rest : List String := []
deriving DecidableEq, Repr

namespace Progress

def plain (p : Progress) (w : String) : Progress :=
  if p.row = .after then { p with rest := p.rest ++ [w] }
  else
    { p with row := .within, settings.files := p.settings.files ++ [w] }

/-- Takes the double dash, which is not itself a file. -/
def divider (p : Progress) : Progress :=
  if p.row = .after then { p with rest := p.rest ++ ["--"] } else { p with row := .within }

/-- Ends the row of files, if it has begun. -/
def leave (p : Progress) : Progress :=
  if p.row = .within then { p with row := .after } else p

/-- Takes a word that looks like a switch and is none. -/
def unknown (p : Progress) (w : String) : Progress :=
  { p.leave with rest := p.rest ++ [w] }

def obey (p : Progress) (flags : List Switch) (last : Switch) (value : Option String) :
    Except Stop Progress := do
  let s ← p.settings.flags flags
  let s ← match value with
    | some v => s.value last v
    | none => s.flag last
  return { p.leave with settings := s }

/-- Takes words from left to right. A switch that needs a value which its own word does not give
takes the next word, which has to be plain. -/
def take (p : Progress) : List Word → Except Stop Progress
  | [] => .ok p
  | .plain w :: rest => (p.plain w).take rest
  | .divider :: rest => p.divider.take rest
  | .unknown w :: rest => (p.unknown w).take rest
  | .switch s short value :: rest =>
    match spreadOf s short value with
    | .error m => .error (.misuse m)
    | .ok ⟨flags, last, value⟩ =>
      if last.takesValue ∧ value = none then
        match rest with
        | .plain v :: rest => do (← p.obey flags last (some v)).take rest
        | _ => .error (.misuse (.missingValue last))
      else do (← p.obey flags last value).take rest

end Progress

def Settings.ofWords (args : List String) : Except Stop Settings :=
  match words args with
  | .error m => .error (.misuse m)
  | .ok l => do
    let p ← ({} : Progress).take l
    if p.rest.isEmpty then return p.settings else throw (.misuse (.unrecognized p.rest))

end Gridlock.CommandLine
