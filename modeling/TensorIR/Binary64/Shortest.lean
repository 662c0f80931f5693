import TensorIR.Binary64

/-! # The shortest decimal that reads back

Writing a binary number in decimal needs no more digits than it takes to tell the number from
its neighbours. The reals that round to a number form an interval around it, and any decimal
inside this interval reads back as the number.

**Key idea**: for each count of digits the candidates lie on a grid, and if any grid point is
in the interval then one of the two next to the number is. So it is enough to test these two,
on grids of 1, 2, …, 17 digits, in exact arithmetic on naturals. Of two hits the nearer one
is taken, and of two equally near ones the larger.
-/

namespace TensorIR

/-- The decimal number `coefficient × 10 ^ exponent`. -/
structure Decimal where
  coefficient : Nat
  exponent : Int
deriving DecidableEq

/-- An interval around a positive number, all three over one denominator. -/
structure RoundingInterval where
  low : Nat
  value : Nat
  high : Nat
  den : Nat
  /-- Whether the two ends belong to the interval. -/
  closed : Bool

namespace RoundingInterval

/-- The interval measured in units of `10 ^ e`. -/
def inUnits (r : RoundingInterval) (e : Int) : RoundingInterval :=
  let up := Nat.pow 10 (-e).toNat
  ⟨r.low * up, r.value * up, r.high * up, r.den * Nat.pow 10 e.toNat, r.closed⟩

/-- Whether the natural number `c` lies in the interval. -/
def contains (r : RoundingInterval) (c : Nat) : Bool :=
  if r.closed then r.low ≤ c * r.den && c * r.den ≤ r.high
  else r.low < c * r.den && c * r.den < r.high

/-- The natural number nearest to the value, if the interval contains any. -/
def nearest? (r : RoundingInterval) : Option Nat :=
  let c := r.value / r.den
  match r.contains c, r.contains (c + 1) with
  | false, false => none
  | true, false => some c
  | false, true => some (c + 1)
  | true, true => if 2 * (r.value % r.den) < r.den then some c else some (c + 1)

/-- The `k` with `10 ^ (k - 1) ≤ value < 10 ^ k`. -/
def magnitude (r : RoundingInterval) : Int :=
  if r.den ≤ r.value then (Nat.toDigits 10 (r.value / r.den)).length
  else 1 - (Nat.toDigits 10 ((r.den - 1) / r.value)).length

/-- The decimal with the fewest digits in the interval. Seventeen digits always suffice for a
64-bit number. -/
def shortest (r : RoundingInterval) : Decimal :=
  let exponents := (List.range 17).map fun (n : Nat) => r.magnitude - (n + 1)
  (exponents.findSome? fun e => (r.inUnits e).nearest?.map (⟨·, e⟩)).getD ⟨0, 0⟩

end RoundingInterval

namespace Binary64

/-- The reals that round to the magnitude of a finite number other than zero. The number is
`4 × significand` in units of `2 ^ (scale - 2)`; its neighbours are 4 units away, except that
the one below a power of two is 2 units away. A tie goes to the even significand, so the
ends belong to the interval of an even one. -/
def roundingInterval (x : Binary64) : RoundingInterval :=
  let m := x.significand
  let up := 1 <<< (x.scale - 2).toNat
  { low := (4 * m - if x.fraction.val = 0 ∧ 1 < x.exponent.val then 1 else 2) * up
    value := 4 * m * up
    high := (4 * m + 2) * up
    den := 1 <<< (2 - x.scale).toNat
    closed := m % 2 == 0 }

end Binary64

end TensorIR
