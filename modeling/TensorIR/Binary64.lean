/-! # Binary floating-point numbers

The 64-bit binary format of IEEE 754, field by field: a sign, an 11-bit exponent and a 52-bit
fraction. No arithmetic is done on these numbers; they are compared, widened from the 32-bit
format, and written (`TensorIR.Binary64.Text`).

**Key idea**: a finite number is `± significand × 2 ^ scale` with a natural significand, so
everything that needs its exact value can stay in `Nat` and `Int`.
-/

namespace TensorIR

/-- A 64-bit binary floating-point number. -/
structure Binary64 where
  negative : Bool
  /-- The biased exponent: 0 for zeros and subnormal numbers, 2047 for infinities and NaNs. -/
  exponent : Fin 2048
  /-- The bits below the leading one. -/
  fraction : Fin (1 <<< 52)
deriving DecidableEq

namespace Binary64

/-- The number with the given sign, exponent and fraction, the latter two cut to their widths. -/
def ofFields (negative : Bool) (exponent fraction : Nat) : Binary64 where
  negative := negative
  exponent := ⟨exponent % 2048, Nat.mod_lt _ (by decide)⟩
  fraction := ⟨fraction % 1 <<< 52, Nat.mod_lt _ (by decide)⟩

/-- The number with the given 64-bit pattern. -/
def ofBits (bits : Nat) : Binary64 :=
  ofFields (bits >>> 63 % 2 == 1) (bits >>> 52) bits

/-- The number with the given 32-bit pattern in the single format: one sign bit, 8 exponent
bits, 23 fraction bits. Widening is exact; a subnormal of the narrow format is normal in the
wide one, so its leading one moves into place. -/
def ofSingleBits (bits : Nat) : Binary64 :=
  let negative := bits >>> 31 % 2 == 1
  let exponent := bits >>> 23 % 256
  let fraction := bits % 1 <<< 23
  if exponent == 255 then ofFields negative 2047 (fraction <<< 29)
  else if exponent != 0 then ofFields negative (exponent + 896) (fraction <<< 29)
  else if fraction == 0 then ofFields negative 0 0
  else
    let lead := fraction.log2
    ofFields negative (lead + 874) ((fraction - 1 <<< lead) <<< (52 - lead))

/-- Positive zero. -/
def zero : Binary64 := ofFields false 0 0

def isNaN (x : Binary64) : Bool := x.exponent.val == 2047 && x.fraction.val != 0

def isInfinite (x : Binary64) : Bool := x.exponent.val == 2047 && x.fraction.val == 0

def isFinite (x : Binary64) : Bool := x.exponent.val != 2047

/-- Either of the two zeros. -/
def isZero (x : Binary64) : Bool := x.exponent.val == 0 && x.fraction.val == 0

/-- Equality of numbers: a NaN equals nothing, and the two zeros are equal. -/
def numEq (x y : Binary64) : Bool :=
  !x.isNaN && !y.isNaN && (x == y || (x.isZero && y.isZero))

/-- The significand of a finite number, with the leading one of a normal number. -/
def significand (x : Binary64) : Nat :=
  if x.exponent.val = 0 then x.fraction.val else 1 <<< 52 + x.fraction.val

/-- The exponent of the last significand bit: a finite number has the magnitude
`significand × 2 ^ scale`. -/
def scale (x : Binary64) : Int := (max x.exponent.val 1 : Nat) - 1075

end Binary64

end TensorIR
