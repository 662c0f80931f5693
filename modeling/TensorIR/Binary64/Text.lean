import TensorIR.Binary64.Shortest

/-! # The text of a floating-point number

A number is written with the fewest digits that read back. Numbers from `1e-4` up to but not
including `1e16` are written in positional notation with at least one digit after the point,
all others with an exponent and, where there is more than one digit, a point after the first.
-/

namespace TensorIR

namespace Decimal

/-- The digits without trailing zeros, at least one. -/
def digits (d : Decimal) : List Char :=
  match ((Nat.toDigits 10 d.coefficient).reverse.dropWhile (· == '0')).reverse with
  | [] => ['0']
  | ds => ds

/-- The position of the point relative to the first digit: the number is
`0.digits × 10 ^ point`. -/
def point (d : Decimal) : Int := (Nat.toDigits 10 d.coefficient).length + d.exponent

/-- All digits in their places, with at least one on each side of the point. -/
def positional (d : Decimal) : List Char :=
  let ds := d.digits
  let zeros (n : Int) : List Char := List.replicate n.toNat '0'
  if d.point ≤ 0 then '0' :: '.' :: (zeros (-d.point) ++ ds)
  else
    let whole := ds.take d.point.toNat
    let part := ds.drop d.point.toNat
    whole ++ zeros (d.point - ds.length) ++ '.' :: (if part.isEmpty then ['0'] else part)

/-- One digit before the point, and the exponent that makes up for it. -/
def scientific (d : Decimal) : List Char :=
  let exponent := (toString (d.point - 1)).toList
  match d.digits with
  | [] => []
  | [c] => c :: 'e' :: exponent
  | c :: rest => c :: '.' :: rest ++ 'e' :: exponent

/-- Positional notation from `1e-4` up to below `1e16`, and with an exponent beyond. -/
def text (d : Decimal) : String :=
  .ofList (if -3 ≤ d.point ∧ d.point ≤ 16 then d.positional else d.scientific)

end Decimal

namespace Binary64

/-- The text of a number. Zeros keep their sign; a NaN shows none. -/
def text (x : Binary64) : String :=
  if x.isNaN then "NaN"
  else
    (if x.negative then "-" else "") ++
      if x.isInfinite then "inf"
      else if x.isZero then "0.0"
      else x.roundingInterval.shortest.text

end Binary64

end TensorIR
