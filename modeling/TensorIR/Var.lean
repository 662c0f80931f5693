import TensorIR.Ty

/-! # Variables

A program reads and writes *variables*, and ranges over the dimensions of tensors with *index
variables*. Both carry an identity, a number given out once; two variables that agree in name
and type are still apart. Names are for the reader of a program only and may repeat.

Identities of variables and index variables come from the same supply (`TensorIR.Fresh`), in
the order of creation.
-/

namespace TensorIR

/-- The operator that a reduction variable combines components with. -/
inductive Reduction where
  | sum
deriving DecidableEq

/-- The symbol of a reduction. -/
def Reduction.text : Reduction → String
  | .sum => "+"

/-- A typed storage location. -/
structure Var where
  /-- The identity. -/
  id : Nat
  name : String
  ty : Ty
deriving DecidableEq

namespace Var

/-- A description that tells variables of one name apart: `Var(a#4 : float)`. -/
def describe (v : Var) : String :=
  "Var(" ++ v.name ++ "#" ++ toString v.id ++ " : " ++ v.ty.text ++ ")"

/-- The order of creation. -/
def order (v w : Var) : Ordering := compare v.id w.id

end Var

/-- A symbolic index that ranges over one dimension of a tensor. -/
structure IndexVar where
  /-- The identity. -/
  id : Nat
  name : String
  /-- The dimension it ranges over. -/
  domain : Dim
  /-- The operator that combines the components, if the index is reduced over; otherwise the
  variable is *free* and names a dimension of a result. -/
  reduction : Option Reduction
deriving DecidableEq

namespace IndexVar

/-- Not reduced over. -/
def isFree (v : IndexVar) : Bool := v.reduction.isNone

/-- A description that tells index variables of one name apart: `IndexVar(i#7 in 3)`, with the
symbol of the reduction before the name. -/
def describe (v : IndexVar) : String :=
  "IndexVar(" ++ (v.reduction.elim "" Reduction.text) ++ v.name ++ "#" ++ toString v.id
    ++ " in " ++ v.domain.text ++ ")"

/-- The order of creation. -/
def order (v w : IndexVar) : Ordering := compare v.id w.id

end IndexVar

end TensorIR
