import Gridlock.Number.Text
import Gridlock.Text.Quoted

/-!
# Text in files

Bytes are read as UTF-8, one after the other. Between characters a first byte says which bytes may
follow it; inside a character the ranges of the bytes that are still to come are known. A fault names
the bytes that cannot be read: a byte that starts no character, or the start of a character that is
broken off.

Every text of characters can be written. A lone half cannot: there are no bytes for it.

* `Utf8.following?` : the ranges of the bytes after a first byte
* `Utf8.State`, `Utf8.run` : reading byte by byte
* `Utf8.decode` : the characters of a list of bytes
* `encode`, `Unencodable` : the characters of a text, if it can be written
* `escaped` : a text in which halves are written by number
* `unifyBreaks` : all three kinds of line breaks become one
* `Position`, `positionOf` : line and column of a place in a text
-/

namespace Gridlock.Text

namespace Utf8

inductive Reason
  | firstByte
  | laterByte
  | endOfData
deriving DecidableEq, Repr

def Reason.message : Reason → String
  | firstByte => "invalid start byte"
  | laterByte => "invalid continuation byte"
  | endOfData => "unexpected end of data"

/-- The bytes that cannot be read, and where they are. -/
structure Fault where
  position : Nat
  bytes : List UInt8
  reason : Reason
deriving DecidableEq, Repr

def Fault.message (f : Fault) : String :=
  let place :=
    match f.bytes with
    | [b] => "byte 0x" ++ String.ofList (hex 2 b.toNat) ++ " in position " ++
        Number.natText f.position
    | bs => "bytes in position " ++ Number.natText f.position ++ "-" ++
        Number.natText (f.position + bs.length - 1)
  "'utf-8' codec can't decode " ++ place ++ ": " ++ f.reason.message

/-- The ranges of the bytes that follow a first byte. Second bytes that would spell a character in
more bytes than it needs, half a character, or no character are not in range. -/
def following? (b : Nat) : Option (List (Nat × Nat)) :=
  let tail := (0x80, 0xBF)
  if b < 0x80 then some []
  else if 0xC2 ≤ b ∧ b ≤ 0xDF then some [tail]
  else if b = 0xE0 then some [(0xA0, 0xBF), tail]
  else if b = 0xED then some [(0x80, 0x9F), tail]
  else if 0xE1 ≤ b ∧ b ≤ 0xEF then some [tail, tail]
  else if b = 0xF0 then some [(0x90, 0xBF), tail, tail]
  else if b = 0xF4 then some [(0x80, 0x8F), tail, tail]
  else if 0xF1 ≤ b ∧ b ≤ 0xF3 then some [tail, tail, tail]
  else none

/-- The part of the code point that a first byte holds, by the number of bytes that follow. -/
def leadBits (b following : Nat) : Nat :=
  match following with
  | 0 => b
  | 1 => b % 0x20
  | 2 => b % 0x10
  | _ => b % 0x08

/-- The character being read: the bits so far, its bytes so far, the last one first, and the ranges
of the bytes to come. Between characters all of this is empty. -/
structure State where
  bits : Nat := 0
  bytes : List UInt8 := []
  ranges : List (Nat × Nat) := []
deriving DecidableEq, Repr

/-- Reads the bytes from a position on. The characters that are `done` come last one first. -/
def run (done : List Char) (position : Nat) (s : State) : List UInt8 → Except Fault (List Char)
  | [] =>
    if s.ranges.isEmpty then .ok done.reverse
    else .error ⟨position - s.bytes.length, s.bytes.reverse, .endOfData⟩
  | b :: rest =>
    match s.ranges with
    | [] =>
      match following? b.toNat with
      | none => .error ⟨position, [b], .firstByte⟩
      | some [] => run (Char.ofNat b.toNat :: done) (position + 1) {} rest
      | some ranges =>
        run done (position + 1) ⟨leadBits b.toNat ranges.length, [b], ranges⟩ rest
    | (low, high) :: ranges =>
      if low ≤ b.toNat ∧ b.toNat ≤ high then
        let bits := s.bits * 0x40 + b.toNat % 0x40
        if ranges.isEmpty then run (Char.ofNat bits :: done) (position + 1) {} rest
        else run done (position + 1) ⟨bits, b :: s.bytes, ranges⟩ rest
      else .error ⟨position - s.bytes.length, s.bytes.reverse, .laterByte⟩

def decode (bytes : List UInt8) : Except Fault (List Char) :=
  run [] 0 {} bytes

end Utf8

/-! ## Writing -/

/-- The first halves of a text that cannot be written, and where they are. -/
structure Unencodable where
  position : Nat
  halves : List Half
deriving DecidableEq, Repr

def Unencodable.message (f : Unencodable) : String :=
  let place :=
    match f.halves with
    | [h] => "character '" ++ String.ofList (unitEscape h.unit) ++ "' in position " ++
        Number.natText f.position
    | hs => "characters in position " ++ Number.natText f.position ++ "-" ++
        Number.natText (f.position + hs.length - 1)
  "'utf-8' codec can't encode " ++ place ++ ": surrogates not allowed"

def leadingHalves : Text → List Half
  | broken "" h rest => h :: rest.leadingHalves
  | _ => []

/-- The characters of a text, if it has no halves. -/
def encode : Text → Except Unencodable String
  | plain run => .ok run
  | broken run h rest => .error ⟨run.length, h :: rest.leadingHalves⟩

/-- The text with its halves by number. -/
def escaped : Text → String
  | plain run => run
  | broken run h rest => run ++ String.ofList (unitEscape h.unit) ++ rest.escaped

/-! ## Lines -/

/-- Goes on after the characters that are done, which come last one first. -/
def unifyBreaksFrom (done : List Char) : List Char → List Char
  | [] => done.reverse
  | '\r' :: '\n' :: rest => unifyBreaksFrom ('\n' :: done) rest
  | '\r' :: rest => unifyBreaksFrom ('\n' :: done) rest
  | c :: rest => unifyBreaksFrom (c :: done) rest

/-- Writes every line break as a line feed. -/
def unifyBreaks (s : List Char) : List Char :=
  unifyBreaksFrom [] s

/-- A line and a column, both counted from one. -/
structure Position where
  line : Nat
  column : Nat
deriving DecidableEq, Repr

def positionAfter (before : List Char) : Position :=
  { line := 1 + before.count '\n'
    column := 1 + (before.reverse.takeWhile (· ≠ '\n')).length }

/-- The place that has `left` characters from it to the end of the text. -/
def positionOf (text : List Char) (left : Nat) : Position :=
  positionAfter (text.take (text.length - left))

end Gridlock.Text
