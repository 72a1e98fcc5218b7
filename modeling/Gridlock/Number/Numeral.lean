import Gridlock.Number.Text
import Gridlock.Text.Character

/-!
# Whole numbers as people write them

A whole number may have blanks around it and a sign before it. Its digits may be of any script, and
single underscores may stand between them.

* `digitValues?` : the digits of a numeral
* `wholeNumber?` : the number that a text stands for
-/

namespace Gridlock.Number

/-- Blanks around a number. The separators among the control characters are not taken for blanks
here. -/
def isMargin (c : Char) : Bool :=
  Text.isBlank c && !(0x1C ≤ c.toNat && c.toNat ≤ 0x1F)

/-- The digits of a numeral, in which single underscores stand between digits. -/
def digitValues? : List Char → Option (List Nat)
  | [] => none
  | [c] => (Text.digit? c).map ([·])
  | c :: '_' :: rest => do return (← Text.digit? c) :: (← digitValues? rest)
  | c :: rest => do return (← Text.digit? c) :: (← digitValues? rest)

def unsigned? (s : List Char) : Option Nat := do
  let digits ← digitValues? s
  if digits.length ≤ digitLimit then return digits.foldl (fun n d => 10 * n + d) 0 else none

def wholeNumber? (s : String) : Option Int :=
  let inner := (s.toList.dropWhile isMargin).reverse.dropWhile isMargin |>.reverse
  match inner with
  | '-' :: rest => (unsigned? rest).map fun n => -(n : Int)
  | '+' :: rest => (unsigned? rest).map fun n => (n : Int)
  | rest => (unsigned? rest).map fun n => (n : Int)

end Gridlock.Number
