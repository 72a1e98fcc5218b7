import Gridlock.Assoc
import Gridlock.File.Path
import Gridlock.Text.Encoding

/-!
# Files

The files that a run can see are a tree with a home in it, which is where paths start that do not
start at the root. Paths are followed part by part, as they are written: every part but the last
must lead through a directory. The home and the directories above it are always there.

* `Entry`, `FileTree` : files and directories by their parts; some of them may not be opened
* `FileError`, `WriteFault` : why a file cannot be opened, and why a text cannot be written to it
* `FileTree.has`, `FileTree.lookup`, `FileTree.read` : looking
* `FileTree.write`, `FileTree.append` : writing, which makes the file if it is not there
-/

namespace Gridlock

/-- What can be seen of an entry that may not be opened: the size of a file, or a directory. -/
inductive Sealed
  | file (size : Nat)
  | directory
deriving DecidableEq, Repr

inductive Entry
  | file (content : ByteArray)
  | directory
  | barred (s : Sealed)

instance : DecidableEq Entry
  | .file a, .file b =>
    match ByteArray.instDecidableEq a b with
    | isTrue h => isTrue (congrArg Entry.file h)
    | isFalse h => isFalse fun e => h (Entry.file.inj e)
  | .barred a, .barred b =>
    if h : a = b then isTrue (congrArg Entry.barred h) else isFalse fun e => h (Entry.barred.inj e)
  | .directory, .directory => isTrue rfl
  | .file _, .directory => isFalse nofun
  | .file _, .barred _ => isFalse nofun
  | .directory, .file _ => isFalse nofun
  | .directory, .barred _ => isFalse nofun
  | .barred _, .file _ => isFalse nofun
  | .barred _, .directory => isFalse nofun

/-- Files and directories, by the parts that lead to them from the root. -/
structure FileTree where
  home : List String := []
  entries : List (List String × Entry) := []
deriving DecidableEq

inductive FileError.Cause
  | missing
  | notDirectory
  | isDirectory
  /-- The file may not be opened, or a directory on the way not be entered. -/
  | denied
  /-- The path, or a part of it that is looked up, has too many bytes. -/
  | tooLong
  /-- The path has a character of code zero, which no path can have. -/
  | nullByte
deriving DecidableEq, Repr

structure FileError where
  cause : FileError.Cause
  path : String
deriving DecidableEq, Repr

def FileError.Cause.message : FileError.Cause → String
  | missing => "[Errno 2] No such file or directory"
  | notDirectory => "[Errno 20] Not a directory"
  | isDirectory => "[Errno 21] Is a directory"
  | denied => "[Errno 13] Permission denied"
  | tooLong => "[Errno 36] File name too long"
  | nullByte => "embedded null byte"

/-- The error in words. A path that is none is not shown. -/
def FileError.message (e : FileError) : String :=
  match e.cause with
  | .nullByte => e.cause.message
  | cause => cause.message ++ ": " ++ Text.quote e.path

/-- Whether the cause means that there is nothing at the path. -/
def FileError.Cause.isAbsence : FileError.Cause → Bool
  | tooLong | denied => false
  | _ => true

inductive WriteFault
  | path (e : FileError)
  | text (f : Text.Unencodable)
deriving DecidableEq, Repr

namespace FileTree

def entryAt (t : FileTree) (spot : List String) : Option Entry :=
  if spot.isPrefixOf t.home then some .directory else t.entries.lookup spot

/-- The most bytes that a part of a path may have. -/
def nameLimit : Nat := 255

def pathLimit : Nat := 4095

/-- What is wrong with a path whatever is in the tree. -/
def fault? (path : String) : Option FileError.Cause :=
  if '\x00' ∈ path.toList then some .nullByte
  else if pathLimit < path.utf8ByteSize then some .tooLong
  else none

def enter (t : FileTree) (spot : List String) (part : String) :
    Except FileError.Cause (List String) :=
  match t.entryAt spot with
  | none => .error .missing
  | some (.file _) | some (.barred (.file _)) => .error .notDirectory
  | some (.barred .directory) => .error .denied
  | some .directory =>
    if part = "" ∨ part = "." then .ok spot
    else if part = ".." then .ok spot.dropLast
    else if nameLimit < part.utf8ByteSize then .error .tooLong
    else .ok (spot ++ [part])

def follow (t : FileTree) (spot : List String) :
    List String → Except FileError.Cause (List String)
  | [] => .ok spot
  | part :: rest => do t.follow (← t.enter spot part) rest

def origin (t : FileTree) (path : String) : List String :=
  if path.toList.head? = some '/' then [] else t.home

def lookup (t : FileTree) (path : String) : Except FileError.Cause Entry :=
  match fault? path with
  | some cause => .error cause
  | none => do
    match t.entryAt (← t.follow (t.origin path) (slashParts path)) with
    | some e => return e
    | none => throw .missing

def has (t : FileTree) (path : String) : Except FileError Bool :=
  match t.lookup path with
  | .ok _ => .ok true
  | .error cause => if cause.isAbsence then .ok false else .error ⟨cause, path⟩

def read (t : FileTree) (path : String) : Except FileError ByteArray :=
  match t.lookup path with
  | .ok (.file content) => .ok content
  | .ok .directory => .error ⟨.isDirectory, path⟩
  | .ok (.barred _) => .error ⟨.denied, path⟩
  | .error cause => .error ⟨cause, path⟩

/-- The parts of a path without the empty ones at its end. -/
def dropSlashes (parts : List String) : List String :=
  (parts.reverse.dropWhile (· = "")).reverse

/-- The file that a path names for writing: the parts that lead to it, and its content so far. A
slash at the end names a directory, and a directory cannot be written. -/
def target (t : FileTree) (path : String) : Except FileError.Cause (List String × ByteArray) :=
  let parts := slashParts path
  let named := dropSlashes parts
  match fault? path, named.getLast? with
  | some cause, _ => .error cause
  | none, none => .error .isDirectory
  | none, some last => do
    let directory ← t.follow (t.origin path) named.dropLast
    let spot ← t.enter directory (if named = parts then last else ".")
    match t.entryAt spot with
    | some .directory | some (.barred .directory) => throw .isDirectory
    | some (.barred (.file _)) => throw .denied
    | some (.file content) => return (spot, content)
    | none => return (spot, .empty)

/-- Changes the content of a file, or makes the file. -/
def modify (t : FileTree) (path : String) (f : ByteArray → ByteArray) : Except FileError FileTree :=
  match t.target path with
  | .ok (spot, content) => .ok { t with entries := Assoc.put spot (.file (f content)) t.entries }
  | .error cause => .error ⟨cause, path⟩

def replace (t : FileTree) (path : String) (content : ByteArray) : Except FileError FileTree :=
  t.modify path fun _ => content

/-- Writes a text to a file. The file is emptied before it turns out that the text cannot be
written. -/
def write (t : FileTree) (path : String) (text : Text) : FileTree × Except WriteFault Unit :=
  match text.encode with
  | .ok s =>
    match t.replace path s.toUTF8 with
    | .ok t => (t, .ok ())
    | .error e => (t, .error (.path e))
  | .error f =>
    match t.replace path .empty with
    | .ok t => (t, .error (.text f))
    | .error e => (t, .error (.path e))

def append (t : FileTree) (path text : String) : Except FileError FileTree :=
  t.modify path fun content => content ++ text.toUTF8

/-- Puts a directory at a spot where there is nothing. -/
def addDirectory (t : FileTree) (spot : List String) : FileTree :=
  match t.entryAt spot with
  | some _ => t
  | none => { t with entries := Assoc.put spot .directory t.entries }

/-- Puts an entry into the tree, with the directories that lead to it. -/
def add (t : FileTree) (path : String) (e : Entry) : FileTree :=
  let spot := t.origin path ++ (Path.ofString path).parts
  let t := ((List.range spot.length).map spot.take).foldl addDirectory t
  if spot.isPrefixOf t.home then t else { t with entries := Assoc.put spot e t.entries }

/-- The name of a spot: its path from the home or, if it is elsewhere, from the root. -/
def nameOf (t : FileTree) (spot : List String) : String :=
  if t.home.isPrefixOf spot then String.intercalate "/" (spot.drop t.home.length)
  else "/" ++ String.intercalate "/" spot

/-- The path of a file from the root, found from the text alone: two dots take away the part before
them, whatever it is. A root of two slashes stays. -/
def absolute (t : FileTree) (path : String) : String :=
  let step (spot : List String) (part : String) : List String :=
    if part = ".." then spot.dropLast else spot ++ [part]
  let p := Path.ofString path
  let root := if p.root = "" then "/" else p.root
  root ++ String.intercalate "/" (p.parts.foldl step (t.origin path))

/-- The files whose content differs from before, by their names. -/
def changes (before after : FileTree) : List (String × ByteArray) :=
  after.entries.filterMap fun e =>
    match e.2 with
    | .file content =>
      if before.entries.lookup e.1 = some e.2 then none else some (after.nameOf e.1, content)
    | _ => none

end FileTree

end Gridlock
