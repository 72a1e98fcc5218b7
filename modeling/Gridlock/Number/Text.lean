import Gridlock.Number.Binary64
import Gridlock.Number.Shortest

/-!
# Numbers in text

A whole number is written in decimal. A number with a fraction is written with the fewest digits
that read back, and always so that it is told from a whole number: with a point or with an exponent.

* `Number` : whole numbers of any size, and numbers of 64 bits
* `Binary64.text` : positional between `10 ^ -4` and `10 ^ 16`, with an exponent elsewhere
* `Binary64.fixed` : a given number of decimal places, rounded from the exact value
* `Number.text`, `Number.fixed` : the same for any number
* `natText`, `intText` : whole numbers
-/

namespace Gridlock.Number

def zeros (n : Nat) : List Char :=
  List.replicate n '0'

/-- An exponent has a sign and at least two digits. -/
def exponentText (e : Int) : List Char :=
  let digits := Nat.toDigits 10 e.natAbs
  (if e < 0 then '-' else '+') :: (zeros (2 - digits.length) ++ digits)

/-- Writes the digits of a number whose first `point` digits stand before the point. -/
def layout (digits : List Char) (point : Int) : List Char :=
  if -4 < point ∧ point ≤ 16 then
    if point ≤ 0 then '0' :: '.' :: (zeros (-point).toNat ++ digits)
    else if (digits.length : Int) ≤ point then
      digits ++ zeros (point.toNat - digits.length) ++ ['.', '0']
    else digits.take point.toNat ++ '.' :: digits.drop point.toNat
  else
    match digits with
    | [] => []
    | [d] => d :: 'e' :: exponentText (point - 1)
    | d :: ds => d :: '.' :: (ds ++ 'e' :: exponentText (point - 1))

def signed (negative : Bool) (s : List Char) : String :=
  String.ofList (if negative then '-' :: s else s)

namespace Binary64

def text : Binary64 → String
  | undefined => "nan"
  | infinite negative => signed negative "inf".toList
  | finite negative m q =>
    if m = 0 then signed negative "0.0".toList
    else
      let (c, t) := shortest m q
      let digits := Nat.toDigits 10 c
      signed negative (layout digits (digits.length + t))

/-- The number with `places` digits after the point; a half goes to the even neighbour. -/
def fixed (places : Nat) : Binary64 → String
  | undefined => "nan"
  | infinite negative => signed negative "inf".toList
  | finite negative m q =>
    let scaled := roundDiv (m * Nat.pow 2 q.toNat * Nat.pow 10 places) (Nat.pow 2 (-q).toNat)
    let digits := Nat.toDigits 10 scaled
    let digits := zeros (places + 1 - digits.length) ++ digits
    let whole := digits.length - places
    signed negative (digits.take whole ++ '.' :: digits.drop whole)

end Binary64

/-- The most digits that a whole number may have where one is read. -/
def digitLimit : Nat := 4300

def natText (n : Nat) : String :=
  String.ofList (Nat.toDigits 10 n)

def intText (n : Int) : String :=
  signed (n < 0) (Nat.toDigits 10 n.natAbs)

end Gridlock.Number

namespace Gridlock

/-- A number: a whole number of any size, or a number of 64 bits. -/
inductive Number
  | whole (n : Int)
  | real (x : Number.Binary64)
deriving DecidableEq, Repr

namespace Number

def isZero : Number → Bool
  | whole n => n = 0
  | real x => x.isZero

def text : Number → String
  | whole n => intText n
  | real x => x.text

/-- The number of 64 bits that is nearest. A whole number may be too large to have one. -/
def toBinary64? : Number → Option Binary64
  | whole n =>
    match Binary64.ofInt n with
    | .infinite _ => none
    | x => some x
  | real x => some x

def fixed? (places : Nat) (n : Number) : Option String :=
  n.toBinary64?.map (·.fixed places)

end Number

end Gridlock
