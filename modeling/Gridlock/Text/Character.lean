import Gridlock.Text.Basic

/-!
# Blanks, digits and letter case

Names may be surrounded by characters that carry no meaning. Many scripts have their own ten digits,
which stand in a row from zero to nine. Keywords are words of ASCII letters, and they are recognised
whatever the case they are written in: a character matters to that only if its case mapping leads
into ASCII, for every other character stays outside ASCII under the mapping and matches no keyword,
so it is kept as it stands. A lone half has none of these properties.

* `isBlank`, `trim`, `trimEnd` : blanks, and a text without those at its ends
* `digit?` : the value of a digit
* `capitals`, `smalls` : capital letters, one character may give several, and small letters
-/

namespace Gridlock

namespace Text

/-! ## Blanks -/

/-- Tabs, line and page breaks, the four information separators, and the spaces and breaks of
Unicode. -/
def isBlank (c : Char) : Bool :=
  let n := c.toNat
  (0x09 ≤ n && n ≤ 0x0D) || (0x1C ≤ n && n ≤ 0x20) || n == 0x85 || n == 0xA0 || n == 0x1680 ||
    (0x2000 ≤ n && n ≤ 0x200A) || n == 0x2028 || n == 0x2029 || n == 0x202F || n == 0x205F ||
    n == 0x3000

end Text

def CodePoint.isBlank : CodePoint → Bool
  | char c => Text.isBlank c
  | half _ => false

namespace Text

def trimEndPoints (s : List CodePoint) : List CodePoint :=
  (s.reverse.dropWhile CodePoint.isBlank).reverse

def trimPoints (s : List CodePoint) : List CodePoint :=
  trimEndPoints (s.dropWhile CodePoint.isBlank)

def trim (s : Text) : Text :=
  ofPoints (trimPoints s.points)

def trimEnd (s : Text) : Text :=
  ofPoints (trimEndPoints s.points)

/-! ## Digits -/

/-- The zeros of all scripts, in order. -/
def digitZeros : List Nat :=
  [0x30, 0x660, 0x6F0, 0x7C0, 0x966, 0x9E6, 0xA66, 0xAE6, 0xB66, 0xBE6, 0xC66, 0xCE6, 0xD66, 0xDE6,
    0xE50, 0xED0, 0xF20, 0x1040, 0x1090, 0x17E0, 0x1810, 0x1946, 0x19D0, 0x1A80, 0x1A90, 0x1B50,
    0x1BB0, 0x1C40, 0x1C50, 0xA620, 0xA8D0, 0xA900, 0xA9D0, 0xA9F0, 0xAA50, 0xABF0, 0xFF10, 0x104A0,
    0x10D30, 0x11066, 0x110F0, 0x11136, 0x111D0, 0x112F0, 0x11450, 0x114D0, 0x11650, 0x116C0,
    0x11730, 0x118E0, 0x11950, 0x11C50, 0x11D50, 0x11DA0, 0x16A60, 0x16AC0, 0x16B50, 0x1D7CE,
    0x1D7D8, 0x1D7E2, 0x1D7EC, 0x1D7F6, 0x1E140, 0x1E2F0, 0x1E950, 0x1FBF0]

def digit? (c : Char) : Option Nat :=
  (digitZeros.find? fun z => z ≤ c.toNat ∧ c.toNat < z + 10).map (c.toNat - ·)

def isDigit (c : Char) : Bool := (digit? c).isSome

/-! ## Letter case -/

/-- The capitals of a character, where these are ASCII. Besides `a` to `z` these are the sharp s,
the dotless i, the long s and the Latin ligatures. -/
def capital (c : Char) : List Char :=
  if 'a' ≤ c ∧ c ≤ 'z' then [c.toUpper]
  else match c.toNat with
    | 0x00DF => ['S', 'S']
    | 0x0131 => ['I']
    | 0x017F => ['S']
    | 0xFB00 => ['F', 'F']
    | 0xFB01 => ['F', 'I']
    | 0xFB02 => ['F', 'L']
    | 0xFB03 => ['F', 'F', 'I']
    | 0xFB04 => ['F', 'F', 'L']
    | 0xFB05 => ['S', 'T']
    | 0xFB06 => ['S', 'T']
    | _ => [c]

/-- The small form of a character, where this is ASCII. Besides `A` to `Z` it is the Kelvin sign
that has one. -/
def small (c : Char) : Char :=
  if 'A' ≤ c ∧ c ≤ 'Z' then c.toLower
  else if c.toNat = 0x212A then 'k'
  else c

end Text

namespace CodePoint

def capital : CodePoint → List CodePoint
  | char c => (Text.capital c).map char
  | half h => [half h]

def small : CodePoint → CodePoint
  | char c => char (Text.small c)
  | half h => half h

end CodePoint

namespace Text

def capitals (s : List CodePoint) : List CodePoint :=
  s.flatMap CodePoint.capital

def smalls (s : List CodePoint) : List CodePoint :=
  s.map CodePoint.small

end Text

end Gridlock
