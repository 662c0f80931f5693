import TensorIR.Program

/-! # Typed construction of expressions

Each function here builds a node and derives its type from the operands. Nothing is checked:
an operand of the wrong shape gets a type by the same rules.
-/

namespace TensorIR

namespace Expr

/-- A single constant. A dense tensor has no type of its own and counts as a float here; its
node is built by `dense`. -/
def literal (value : Literal) : Expr :=
  .prim (.scalar (value.scalar?.getD .float)) (.literal value) []

/-- A dense tensor constant of the given type. -/
def dense (xs : List Binary64) (ty : Ty) : Expr := .prim ty (.literal (.dense xs)) []

/-- The read of a variable. -/
def ofVar (v : Var) : Expr := .var v.ty v

/-- The type of a field: of a record the field's own, of a set a tensor with one more dimension,
which runs over the members. A field that is not there counts as a float. -/
def fieldTy (target : Ty) (field : String) : Ty :=
  let found :=
    match target with
    | .element e => e.field? field
    | .set e => (e.field? field).map fun (ty : Ty) =>
        .ofDims (ty.component?.getD .float) (.set e.name :: ty.dims)
    | _ => none
  found.getD .float

/-- The field of a record, or of every member of a set. -/
def fieldRead (target : Expr) (field : String) : Expr :=
  .prim (fieldTy target.ty field) (.fieldRead field) [target]

/-- One component of a tensor. -/
def tensorRead (tensor : Expr) (indices : List Expr) : Expr :=
  .prim tensor.ty.componentTy .tensorRead (tensor :: indices)

/-- One member of a tuple. -/
def tupleRead (tuple index : Expr) : Expr :=
  let ty :=
    match tuple.ty with
    | .tuple e _ => .element e
    | ty => ty
  .prim ty .tupleRead [tuple, index]

/-- An index array of an edge set: integers over a dynamic dimension. -/
def edgeRead (edgeSet : Expr) (which : EdgeArray) : Expr :=
  .prim (.ofDims .int [.dynamic]) (.edgeRead which) [edgeSet]

/-- The number of indices of a dimension. -/
def length (dim : Dim) : Expr := .prim .int (.length dim) []

/-- An element of a buffer. -/
def load (buffer index : Expr) : Expr := .prim buffer.ty.componentTy .load [buffer, index]

/-- `tensor{vars}`: one component of a tensor. -/
def index (tensor : Expr) (vars : List IndexVar) : Expr :=
  .indexed tensor.ty.componentTy tensor vars

/-- `(vars: body)`: a tensor with one dimension for each result variable. -/
def build (vars : List IndexVar) (body : Expr) : Expr :=
  .indexExpr (.ofDims (body.ty.component?.getD .float) (vars.map IndexVar.domain)) vars body

/-- A call, of the type of the first result; without results, of the first actual. -/
def callOf (callee : Func) (actuals : List Expr) : Expr :=
  let ty := callee.resultTy?.or (actuals.head?.map Expr.ty)
  .prim (ty.getD .float) (.call callee) actuals

/-- Negation keeps the type. -/
def negOf (a : Expr) : Expr := .neg a.ty a

/-- A binary operation has the type of its left operand. -/
def binaryOf (op : BinaryOp) (a b : Expr) : Expr := .binary a.ty op a b

@[simp] theorem ty_ofVar (v : Var) : (ofVar v).ty = v.ty := rfl

@[simp] theorem ty_index (t : Expr) (vs : List IndexVar) : (t.index vs).ty = t.ty.componentTy :=
  rfl

@[simp] theorem ty_build (vs : List IndexVar) (b : Expr) :
    (build vs b).ty = .ofDims (b.ty.component?.getD .float) (vs.map IndexVar.domain) := rfl

@[simp] theorem ty_negOf (a : Expr) : a.negOf.ty = a.ty := rfl

@[simp] theorem ty_binaryOf (op : BinaryOp) (a b : Expr) : (binaryOf op a b).ty = a.ty := rfl

end Expr

end TensorIR
