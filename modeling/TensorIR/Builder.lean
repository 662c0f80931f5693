import TensorIR.Error
import TensorIR.Expr.Typed
import TensorIR.Fresh

/-! # Building index expressions

A builder makes the index expressions that passes introduce, with index variables and
temporaries of its own. Every builder names its index variables from `i` on; temporary names
may be shared.
-/

namespace TensorIR

/-- What a builder draws from. -/
structure Builder extends Fresh where
  indexNames : IndexNames := {}

/-- The operators that can be applied to every component of a tensor. -/
inductive Elementwise where
  /-- Leaves the component as it is, so the tensor is copied. -/
  | copy
  | neg
deriving DecidableEq

/-- Building either succeeds or names what was wrong; what was drawn stays drawn. -/
abbrev BuildM := ExceptT BuildError (StateM Builder)

namespace Builder

/-- A builder that has made no index variables. -/
def ofFresh (s : Fresh) : Builder := { s with }

/-- Draws an identity. -/
def newId : StateM Builder Nat := modifyGet fun b => (b.nextId, { b with nextId := b.nextId + 1 })

/-- Makes an index variable that ranges over the given dimension. -/
def indexVar (domain : Dim) (reduction : Option Reduction) : StateM Builder IndexVar :=
  modifyGet fun b =>
    let (v, indexNames) := b.indexNames.indexVar b.nextId domain reduction
    (v, { b with nextId := b.nextId + 1, indexNames })

/-- Makes one index variable for each dimension, in order. -/
def indexVars (reduction : Option Reduction) : List Dim → StateM Builder (List IndexVar)
  | [] => pure []
  | d :: ds => do return (← indexVar d reduction) :: (← indexVars reduction ds)

/-- Makes a variable of the given type with a temporary name. -/
def temporary (ty : Ty) : StateM Builder Var := modifyGet fun b =>
  let (v, s) := (Fresh.temporary ty).run b.toFresh
  (v, { b with toFresh := s })

/-- `(: a{r..} * b{r..})`, which sums over one reduction variable for each dimension. The result
is a tensor of order 0. -/
def innerProduct (a b : Expr) : BuildM Expr := do
  unless a.ty.isTensor && b.ty.isTensor do throw (.innerProductNonTensor a.ty b.ty)
  unless a.ty == b.ty do throw (.innerProductTypeMismatch a.ty b.ty)
  let vars ← indexVars (some .sum) a.ty.dims
  return .build [] (.binaryOf .mul (a.index vars) (b.index vars))

/-- `(i..: op(a{i..}))`, with one free variable for each dimension of `a`. -/
def elementwise (op : Elementwise) (a : Expr) : BuildM Expr := do
  unless a.ty.isTensor do throw (.elementwiseNonTensor a.ty)
  let vars ← indexVars none a.ty.dims
  let read := a.index vars
  return .build vars (match op with
    | .copy => read
    | .neg => read.negOf)

end Builder

end TensorIR
