import TensorIR.Ty
import TensorIR.Binary64.Text

/-! # Literals

Constants of the language: single integers, floats and truth values, and dense tensors given
by their components in row-major order.
-/

namespace TensorIR

/-- A constant. -/
inductive Literal where
  | int (n : Int)
  | float (x : Binary64)
  | bool (b : Bool)
  /-- The components of a dense tensor, the last index varying fastest. -/
  | dense (xs : List Binary64)

namespace Literal

/-- The kind of a single value. A dense tensor has none of its own: its node carries it. -/
def scalar? : Literal → Option ScalarType
  | .int _ => some .int
  | .float _ => some .float
  | .bool _ => some .bool
  | .dense _ => none

/-- The text of a literal. -/
def text : Literal → String
  | .int n => toString n
  | .float x => x.text
  | .bool b => if b then "true" else "false"
  | .dense xs => "[" ++ ", ".intercalate (xs.map Binary64.text) ++ "]"

/-- Whether two lists of numbers agree in length and, place by place, as numbers. -/
def numEqAll : List Binary64 → List Binary64 → Bool
  | [], [] => true
  | x :: xs, y :: ys => x.numEq y && numEqAll xs ys
  | _, _ => false

/-- Equality of values: floats compare as numbers, so a NaN differs from itself and the two
zeros agree. -/
def sameValue : Literal → Literal → Bool
  | .int m, .int n => m == n
  | .float x, .float y => x.numEq y
  | .bool b, .bool c => b == c
  | .dense xs, .dense ys => numEqAll xs ys
  | _, _ => false

end Literal

end TensorIR
