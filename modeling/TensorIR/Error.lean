import TensorIR.Program.Text

/-! # Errors

What can go wrong when expressions are built or programs normalized. Each error names its cause
and carries what its message needs; expressions are carried as text.

Errors are *internal* when they say that the program was malformed, which is the fault of an
earlier stage. The others are for the user.
-/

namespace TensorIR

/-- Failures to build an expression. -/
inductive BuildError where
  /-- An inner product of something that is no tensor. -/
  | innerProductNonTensor (lhs rhs : Ty)
  /-- An inner product of tensors of different types. -/
  | innerProductTypeMismatch (lhs rhs : Ty)
  /-- An elementwise operation on something that is no tensor. -/
  | elementwiseNonTensor (ty : Ty)
deriving DecidableEq

/-- The wording of a failure to build. -/
def BuildError.message : BuildError → String
  | .innerProductNonTensor lhs rhs =>
    "inner product requires tensor operands, got " ++ lhs.text ++ " and " ++ rhs.text
  | .innerProductTypeMismatch lhs rhs =>
    "inner product operand types differ: " ++ lhs.text ++ " vs " ++ rhs.text
  | .elementwiseNonTensor ty =>
    "elementwise operation requires a tensor operand, got " ++ ty.text

/-- Failures to normalize a program. -/
inductive Error where
  /-- An operand of a sum is not scalar. -/
  | nonScalarOperand (op : BinaryOp) (operand : String) (ty : Ty)
  /-- The number of index variables of a read is not that of the dimensions it reads. -/
  | indexArityMismatch (node : String) (expected found : Nat)
  /-- A call of an intrinsic function has the wrong number of actuals or results. -/
  | intrinsicArity (callee : String) (expectedActuals expectedResults actuals results : Nat)
  /-- An index expression is left inside another one or under an indexed read. -/
  | nestedIndexExpr (node : String)
  /-- A tensor is passed to a call without being a variable. -/
  | unspilledOperand (context operand : String)
  /-- An expression could not be built. -/
  | builder (source : BuildError)
  /-- An actual of an intrinsic function is not a tensor. -/
  | nonTensorIntrinsicArgument (callee : String) (position : Nat) (ty : Ty)
  /-- The actuals of an intrinsic function differ in type. -/
  | intrinsicArgumentMismatch (callee : String) (lhs rhs : Ty)
  /-- The back end rejected a function. -/
  | backend (func message : String)
deriving DecidableEq

namespace Error

/-- The wording of an error. -/
def message : Error → String
  | .nonScalarOperand op operand ty =>
    "operand of '" ++ op.text ++ "' must be scalar, got " ++ operand ++ " : " ++ ty.text
  | .indexArityMismatch node expected found =>
    node ++ ": expected " ++ toString expected ++ " index variables, found " ++ toString found
  | .intrinsicArity callee expectedActuals expectedResults actuals results =>
    "call to '" ++ callee ++ "' must have " ++ toString expectedActuals ++ " actuals and "
      ++ toString expectedResults ++ " results, got " ++ toString actuals ++ " and "
      ++ toString results
  | .nestedIndexExpr node => "index expression read through an indexed tensor: " ++ node
  | .unspilledOperand context operand =>
    "tensor operand of '" ++ context ++ "' is not a variable: " ++ operand
  | .builder source => "ir builder failed: " ++ source.message
  | .nonTensorIntrinsicArgument callee position ty =>
    "argument " ++ toString position ++ " of '" ++ callee ++ "' must be a tensor, got " ++ ty.text
  | .intrinsicArgumentMismatch callee lhs rhs =>
    "arguments of '" ++ callee ++ "' must have the same type, got " ++ lhs.text ++ " and "
      ++ rhs.text
  | .backend func message => "backend failed to compile '" ++ func ++ "': " ++ message

/-- Whether the error shows a malformed program. -/
def isInternal : Error → Bool
  | .nonScalarOperand .. | .indexArityMismatch .. | .intrinsicArity .. | .nestedIndexExpr ..
  | .unspilledOperand .. | .builder .. => true
  | .nonTensorIntrinsicArgument .. | .intrinsicArgumentMismatch .. | .backend .. => false

end Error

end TensorIR
