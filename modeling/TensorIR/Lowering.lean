import TensorIR.Builder
import TensorIR.Transform

/-! # Lowering of norms and dot products

Call statements of the intrinsic functions `norm` and `dot` become inner products:

    r = dot(x, y);    =>  r = (: x{i} * y{i});
    r = norm(x);      =>  tmp0 = (: x{i} * x{i});
                          r = sqrt(tmp0);

A callee counts as `norm` or `dot` by its name. Calls within expressions stay as they are.

A call is checked before it is lowered: one result, the right number of actuals, a tensor in
each place, and for `dot` two of the same type. The first check that fails is the error.
-/

namespace TensorIR

/-- Actions of the lowering. -/
abbrev LowerM := ExceptT Error (StateM Builder)

namespace Lowering

/-- Runs an action of the builder, which may fail. -/
def build {α : Type} (act : BuildM α) : LowerM α := ExceptT.adapt Error.builder act

/-- The actual at `position` has to be a tensor. -/
def requireTensor (callee : String) (position : Nat) (a : Expr) : LowerM Unit :=
  unless a.ty.isTensor do throw (.nonTensorIntrinsicArgument callee position a.ty)

/-- A call of `norm`: the root of the inner product of the actual with itself. -/
def norm (results : List Var) (actuals : List Expr) : LowerM Stmt :=
  match results, actuals with
  | [r], [x] => do
    requireTensor "norm" 0 x
    let squared ← build (Builder.innerProduct x x)
    let tmp ← Builder.temporary r.ty
    return .block [.assign tmp squared, .call [r] .sqrt [.ofVar tmp]]
  | _, _ => throw (.intrinsicArity "norm" 1 1 actuals.length results.length)

/-- A call of `dot`: the inner product of the actuals. -/
def dot (results : List Var) (actuals : List Expr) : LowerM Stmt :=
  match results, actuals with
  | [r], [x, y] => do
    requireTensor "dot" 0 x
    requireTensor "dot" 1 y
    unless x.ty == y.ty do throw (.intrinsicArgumentMismatch "dot" x.ty y.ty)
    return .assign r (← build (Builder.innerProduct x y))
  | _, _ => throw (.intrinsicArity "dot" 2 1 actuals.length results.length)

/-- Replaces the call statements of `norm` and `dot`. -/
def transform : Transform LowerM where
  expr e _ := return .keep e
  stmt s walk :=
    match s with
    | .instr (.call results callee actuals) =>
      if callee.name == "norm" then return .replace (← norm results actuals)
      else if callee.name == "dot" then return .replace (← dot results actuals)
      else walk
    | _ => walk

end Lowering

/-- Lowers every call statement within a statement. -/
def Stmt.lower (s : Stmt) : LowerM (Transformed Stmt) := s.transformM Lowering.transform

/-- Lowers every call statement in the body of a function. -/
def Func.lower (f : Func) : LowerM (Transformed Func) :=
  f.transformM Lowering.transform Builder.newId

end TensorIR
