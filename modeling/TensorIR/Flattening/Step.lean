import TensorIR.Builder
import TensorIR.FreeIndexVars
import TensorIR.Search
import TensorIR.Splicer
import TensorIR.Substitution

/-! # One step of flattening

Flattening removes index expressions that are nested inside others, and sees to it that the
tensor operands of sums are read from variables:

    A = (i,j: (i: a{i}){i} * a{j});          =>  A = (i,j: a{i} * a{j});
    A = (i,j: (i: b{i} + c{i}){i} + a{j});   =>  tmp0 = (i: b{i} + c{i});
                                                 A = (i,j: tmp0{i} + a{j});

There are three ways to do it:

* **Inlining**: an indexed read of an index expression becomes the body of that expression,
  with its result variables renamed to those of the read.
* **Distributing**: an indexed read of a negation or of a binary operation on tensors becomes
  the operation on indexed reads.
* **Spilling**: an operand of a sum that is not an indexed read is bound to a temporary, by an
  assignment that is to run before the current statement.

**Key idea**: inlining and distributing make new nodes that have to be flattened in turn, so
the recursion does not follow the tree. This module gives the treatment of a single node, with
the flattening of others as a parameter; `TensorIR.Flattening.Termination` ties the knot.
-/

namespace TensorIR

/-- What flattening works with: a builder, and the assignments to temporaries that wait to be
put in front of the current statement. -/
structure Flattener extends Builder, Splicer

namespace Flattener

/-- A flattener that has done nothing. -/
def ofFresh (s : Fresh) : Flattener := { Builder.ofFresh s with }

/-- Runs an action of the builder. -/
def onBuilder {α : Type} (act : StateM Builder α) (st : Flattener) : α × Flattener :=
  let (a, b) := act.run st.toBuilder
  (a, { st with toBuilder := b })

/-- Makes a temporary that holds `value`, and leaves its assignment pending. -/
def bindTemporary (value : Expr) (st : Flattener) : Var × Flattener :=
  let (tmp, st) := st.onBuilder (Builder.temporary value.ty)
  (tmp, { st with toSplicer := st.toSplicer.emit (.assign tmp value) })

/-- Binds an expression to a temporary unless it is scalar and reads no tensor through index
variables. An expression that does so is bound as an index expression, and read back through
its result variables; for one that is no index expression these are its free variables. -/
def hoist (a : Expr) (st : Flattener) : Transformed Expr × Flattener :=
  if a.containsIndexed then
    let (value, vars) :=
      match a with
      | .indexExpr _ vars _ => (a, vars)
      | _ => (.build a.freeIndexVars a, a.freeIndexVars)
    let (tmp, st) := st.bindTemporary value
    (.replace ((Expr.ofVar tmp).index vars), st)
  else if a.ty.isScalar then (.keep a, st)
  else
    let (tmp, st) := st.bindTemporary a
    (.replace (.ofVar tmp), st)

end Flattener

/-- `(-t){i..}` as `-(t{i..})` and `(t op u){i..}` as `t{i..} op u{i..}`. Scalar operands stay as
they are. There is no such form if an operand is neither scalar nor a tensor with one
dimension for each variable. -/
def Expr.distributeIndex? (vars : List IndexVar) : Expr → Option Expr :=
  let operand? (a : Expr) : Option Expr :=
    if a.ty.isScalar then some a
    else if a.ty.isTensor && a.ty.order == vars.length then some (a.index vars)
    else none
  fun
  | .neg _ a => (operand? a).map .negOf
  | .binary _ op a b => (operand? a).bind fun a => (operand? b).map (Expr.binaryOf op a)
  | _ => none

namespace Flattening

variable {m : Type → Type} [Monad m] [MonadStateOf Flattener m] [MonadExceptOf Error m]

/-- Runs an action of the builder, which may fail. -/
def build {α : Type} (act : BuildM α) : m α := do
  match ← modifyGet (Flattener.onBuilder act.run) with
  | .ok a => return a
  | .error e => throw (.builder e)

section

variable (flatten : Expr → m (Transformed Expr))

/-- Binds `a` to a temporary unless it is scalar, and reads the temporary back. A tensor that is
not given by an index expression is first put in the form of one, with a result variable for
each dimension, so the temporary holds the whole of it. -/
def spill (a : Expr) : m (Transformed Expr) := do
  if a.ty.isWhole && !a.isIndexExpr then
    -- the copy reads the tensor, so it may be inlined or distributed
    let whole ← build (Builder.elementwise .copy a)
    let out ← flatten whole
    let read ← modifyGet (Flattener.hoist out.value)
    return .replace read.value
  else
    modifyGet (Flattener.hoist a)

/-- An operand of a sum: an indexed read, or else read from a temporary. -/
def sumOperand (a : Expr) : m (Transformed Expr) := do
  let out ← flatten a
  if out.value.isIndexed then return out
  else
    let read ← spill flatten out.value
    return ⟨read.value, out.changed || read.changed⟩

/-- The operands of a sum have to be scalar. -/
def requireScalar (op : BinaryOp) (operand : Expr) : m Unit :=
  unless operand.ty.isScalar do throw (.nonScalarOperand op operand.text operand.ty)

/-- A sum. Both operands are checked before either is flattened. -/
def sum (e : Expr) (op : BinaryOp) (a b : Expr) : m (Transformed Expr) := do
  requireScalar op a
  requireScalar op b
  return e.rebuild [← sumOperand flatten a, ← sumOperand flatten b]

/-- An indexed read: inlined, distributed, or left in place over its flattened tensor. -/
def indexedRead (e tensor : Expr) (vars : List IndexVar) : m (Transformed Expr) := do
  let out ← flatten tensor
  match out.value with
  | .indexExpr _ resultVars body =>
    unless resultVars.length == vars.length do
      throw (.indexArityMismatch e.text resultVars.length vars.length)
    return .replace (body.substitute (.ofPairs (resultVars.zip vars))).value
  | _ =>
    match out.value.distributeIndex? vars with
    | some distributed => return .replace (← flatten distributed).value
    | none => return e.rebuild [out]

/-- Flattens expressions in order. -/
def all : List Expr → m (List (Transformed Expr))
  | [] => pure []
  | e :: es => do return (← flatten e) :: (← all es)

/-- The treatment of one node. All that is neither a sum nor an indexed read is put together
again over its flattened parts. -/
def step (e : Expr) : m (Transformed Expr) :=
  match e with
  | .binary _ .add a b => sum flatten e .add a b
  | .binary _ .sub a b => sum flatten e .sub a b
  | .indexed _ tensor vars => indexedRead flatten e tensor vars
  | _ => do return e.rebuild (← all flatten e.children)

end

end Flattening

end TensorIR
