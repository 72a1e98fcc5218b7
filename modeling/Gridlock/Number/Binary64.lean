/-!
# Binary numbers of 64 bits

Numbers with a fraction or an exponent are held with 53 bits of precision, as exact data: a sign, a
mantissa and a power of two. Reading a decimal gives the nearest such number, and of two that are
equally near the one with the even mantissa.

* `roundDiv` : the integer nearest to a quotient; of two that are equally near, the even one
* `floorLog2` : the exponent of the greatest power of two that does not exceed a quotient
* `Binary64` : the numbers, with the two infinities and the undefined value
* `Binary64.ofRatio`, `Binary64.ofDecimal`, `Binary64.ofInt` : the nearest number
-/

namespace Gridlock.Number

/-- The integer nearest to `num / den`, where a half goes to the even neighbour. -/
def roundDiv (num den : Nat) : Nat :=
  let q := num / den
  let twice := 2 * (num % den)
  if den < twice ∨ (twice = den ∧ q % 2 = 1) then q + 1 else q

/-- The greatest `e` such that `2 ^ e` does not exceed `num / den`, for a positive quotient. -/
def floorLog2 (num den : Nat) : Int :=
  let e : Int := (Nat.log2 num : Int) - Nat.log2 den
  if den * Nat.pow 2 e.toNat ≤ num * Nat.pow 2 (-e).toNat then e else e - 1

def decimalLength (n : Nat) : Nat :=
  (Nat.toDigits 10 n).length

/-- A number of 64 bits. A finite one is `± mantissa * 2 ^ exponent`. -/
inductive Binary64
  | undefined
  | infinite (negative : Bool)
  | finite (negative : Bool) (mantissa : Nat) (exponent : Int)
deriving DecidableEq, Repr

namespace Binary64

def leastExponent : Int := -1074

def greatestExponent : Int := 971

def zero (negative : Bool) : Binary64 := finite negative 0 leastExponent

def isZero : Binary64 → Bool
  | finite _ m _ => m = 0
  | _ => false

/-- The number nearest to `± num / den`. -/
def ofRatio (negative : Bool) (num den : Nat) : Binary64 :=
  if num = 0 then zero negative
  else
    let e := max (floorLog2 num den - 52) leastExponent
    let m := roundDiv (num * Nat.pow 2 (-e).toNat) (den * Nat.pow 2 e.toNat)
    let (m, e) := if m = Nat.pow 2 53 then (Nat.pow 2 52, e + 1) else (m, e)
    if greatestExponent < e then infinite negative else finite negative m e

/-- The number nearest to `± digits * 10 ^ exponent`. Decimals far outside the range are settled by
their length alone. -/
def ofDecimal (negative : Bool) (digits : Nat) (exponent : Int) : Binary64 :=
  let magnitude := (decimalLength digits : Int) + exponent
  if digits = 0 ∨ magnitude < -330 then zero negative
  else if 330 < magnitude then infinite negative
  else ofRatio negative (digits * Nat.pow 10 exponent.toNat) (Nat.pow 10 (-exponent).toNat)

def ofInt (n : Int) : Binary64 :=
  ofRatio (n < 0) n.natAbs 1

end Binary64

end Gridlock.Number
