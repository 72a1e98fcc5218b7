import Gridlock.CommandLine.Run
import Std.Time.Format

/-!
# The command

The outer layer of the command: it looks up the files that the command line names, runs the command
on them, and prints and writes what the run has printed and written.
-/

namespace Gridlock

def currentMoment : IO Moment := do
  let t ← Std.Time.PlainDateTime.now
  return ⟨t.year.toInt.toNat, t.month.toNat, t.day.toNat, t.hour.toNat, t.minute.toNat,
    t.second.toNat⟩

/-- What is found under a name in a directory. In one that may not be entered nothing can be seen. -/
inductive Sight
  | entry (e : Entry)
  | nothing
  | hidden

/-- Looks at what may not be opened. A directory of that kind may still be entered. -/
def glance (path : String) : IO Sight := do
  try
    let seen ← (← IO.FS.realPath path).metadata
    match seen.type with
    | .dir => return .entry .directory
    | _ => return .entry (.barred (.file seen.byteSize.toNat))
  catch _ => return .hidden

def probe (path : String) : IO Sight := do
  try
    return .entry (.file (← IO.FS.readBinFile path))
  catch e =>
    match e with
    | .inappropriateType .. => return .entry .directory
    | .permissionDenied .. => glance path
    | _ => return .nothing

/-- Adds to the tree what is found along a path. -/
def survey (tree : FileTree) (name : String) : IO FileTree := do
  let path := Path.ofString name
  let front (n : Nat) : String := { path with parts := path.parts.take n }.text
  let mut tree := tree
  for n in List.range path.parts.length do
    let here := tree.absolute (front (n + 1))
    match ← probe (front (n + 1)) with
    | .entry .directory => tree := tree.add here .directory
    | .entry e => return tree.add here e
    | .nothing => return tree
    | .hidden => return tree.add (tree.absolute (front n)) (.barred .directory)
  return tree

def surveyAll (args : List String) : IO FileTree := do
  let home := (Path.ofString (← IO.currentDir).toString).parts
  match CommandLine.Settings.ofWords args with
  | .error _ => return { home := home }
  | .ok s =>
    (s.files ++ s.output.toList ++ s.json.toList ++ s.logFile.toList).foldlM survey
      { home := home }

end Gridlock

open Gridlock in
def main (args : List String) : IO UInt32 := do
  let files ← surveyAll args
  let ending := CommandLine.run .ordered (← currentMoment) { files := files } args
  IO.print ending.console.out
  IO.eprint ending.console.err
  for (name, content) in FileTree.changes files ending.console.files do
    IO.FS.writeBinFile name content
  match ending.exit with
  | .ok code => return code.toUInt32
  | .error e => do
    IO.eprintln e.message
    return 1
