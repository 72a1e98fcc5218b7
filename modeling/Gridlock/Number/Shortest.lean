import Gridlock.Number.Binary64

/-!
# The shortest decimal that reads back

The reals that are read as `m * 2 ^ q` form an interval around that number, which contains its ends
if and only if `m` is even. The shortest decimal is looked for on ever finer decimal grids: on the
first grid that has a point in the interval, one of the two neighbours of the number is such a
point.

* `Shortest.holds` : whether a decimal lies in the interval
* `Shortest.onGrid?` : the neighbour on a grid that lies in the interval, the nearer one of two
* `shortest` : the digits, as a number without a zero at its end, and their power of ten
-/

namespace Gridlock.Number

namespace Shortest

/-- Whether `c * 10 ^ t ≤ x * 2 ^ q`. -/
def decimalLe (c : Nat) (t : Int) (x : Nat) (q : Int) : Bool :=
  c * Nat.pow 10 t.toNat * Nat.pow 2 (-q).toNat ≤ x * Nat.pow 2 q.toNat * Nat.pow 10 (-t).toNat

/-- Whether `x * 2 ^ q ≤ c * 10 ^ t`. -/
def binaryLe (x : Nat) (q : Int) (c : Nat) (t : Int) : Bool :=
  x * Nat.pow 2 q.toNat * Nat.pow 10 (-t).toNat ≤ c * Nat.pow 10 t.toNat * Nat.pow 2 (-q).toNat

/-- Whether `c * 10 ^ t` is read as `m * 2 ^ q`. The ends of the interval are counted in quarters of
the last bit: the neighbour below a power of two is nearer. -/
def holds (m : Nat) (q : Int) (c : Nat) (t : Int) : Bool :=
  let low := if m = Nat.pow 2 52 ∧ -1074 < q then 4 * m - 1 else 4 * m - 2
  let high := 4 * m + 2
  if m % 2 = 0 then binaryLe low (q - 2) c t && decimalLe c t high (q - 2)
  else !decimalLe c t low (q - 2) && !binaryLe high (q - 2) c t

/-- The point of the grid of step `10 ^ t` that is next to `m * 2 ^ q` and in the interval. -/
def onGrid? (m : Nat) (q : Int) (t : Int) : Option Nat :=
  let num := m * Nat.pow 2 q.toNat * Nat.pow 10 (-t).toNat
  let den := Nat.pow 2 (-q).toNat * Nat.pow 10 t.toNat
  let below := num / den
  match holds m q below t, holds m q (below + 1) t with
  | true, true => some (roundDiv num den)
  | true, false => some below
  | false, true => some (below + 1)
  | false, false => none

/-- The number of digits before the point of `m * 2 ^ q`; it is negative for as many zeros after
the point. -/
def magnitude (m : Nat) (q : Int) : Int :=
  let num := m * Nat.pow 2 q.toNat
  let den := Nat.pow 2 (-q).toNat
  let e : Int := (decimalLength num : Int) - decimalLength den
  if den * Nat.pow 10 e.toNat ≤ num * Nat.pow 10 (-e).toNat then e + 1 else e

/-- Moves the zeros at the end of `c` into the power of ten. -/
def dropZeros (c : Nat) (t : Int) : Nat × Int :=
  if h : 0 < c ∧ c % 10 = 0 then dropZeros (c / 10) (t + 1) else (c, t)
termination_by c
decreasing_by omega

end Shortest

/-- The shortest decimal `c * 10 ^ t` that is read as `m * 2 ^ q`, for a positive `m`. Seventeen
digits always suffice. -/
def shortest (m : Nat) (q : Int) : Nat × Int :=
  let k := Shortest.magnitude m q
  let hit := (List.range 17).findSome? fun (n : Nat) =>
    let t : Int := k - (n + 1)
    (Shortest.onGrid? m q t).map fun c => (c, t)
  let (c, t) := hit.getD (0, 0)
  Shortest.dropZeros c t

end Gridlock.Number
