import TensorIR.Literal
import TensorIR.Var

/-! # Programs

The syntax of the language: expressions, the statements that evaluate them, and functions.

**Key idea**: only four kinds of expression matter to normalization, and each has its own
constructor: the indexed read of a tensor, the index expression that builds a tensor from a
scalar body, negation, and binary arithmetic. All other operations (`Prim`) act on a list of
operands and are handled alike. Every node carries its type explicitly; `TensorIR.Expr.Typed`
has the constructors that derive the type from the operands.

Statements fall into *instructions*, which run straight through, and the three forms that
contain other statements.
-/

namespace TensorIR

/-- The arithmetic operators. -/
inductive BinaryOp where
  | add
  | sub
  | mul
  | div
deriving DecidableEq

namespace BinaryOp

/-- The symbol of an operator. -/
def text : BinaryOp → String
  | .add => "+"
  | .sub => "-"
  | .mul => "*"
  | .div => "/"

/-- The name of an operator. -/
def name : BinaryOp → String
  | .add => "Add"
  | .sub => "Sub"
  | .mul => "Mul"
  | .div => "Div"

/-- Addition and subtraction. -/
def isSum : BinaryOp → Bool
  | .add | .sub => true
  | .mul | .div => false

end BinaryOp

/-- The index arrays of an edge set. -/
inductive EdgeArray where
  | endpoints
  | neighborsStart
  | neighbors
deriving DecidableEq

/-- The name of an index array. -/
def EdgeArray.text : EdgeArray → String
  | .endpoints => "endpoints"
  | .neighborsStart => "neighbors_start"
  | .neighbors => "neighbors"

/-- Where the code of a function comes from. -/
inductive FuncKind where
  /-- The program defines it. -/
  | internal
  /-- The compiler provides it. -/
  | intrinsic
  /-- It is linked in from outside. -/
  | external
deriving DecidableEq

/-- The name of a function kind. -/
def FuncKind.text : FuncKind → String
  | .internal => "Internal"
  | .intrinsic => "Intrinsic"
  | .external => "External"

mutual

/-- An expression. The first argument of each constructor is the type of the node. -/
inductive Expr where
  /-- The value of a variable. -/
  | var (ty : Ty) (v : Var)
  /-- An operation on operands, in evaluation order. -/
  | prim (ty : Ty) (op : Prim) (operands : List Expr)
  /-- `t{i,j}`: the component of `t` that the index variables select. -/
  | indexed (ty : Ty) (tensor : Expr) (vars : List IndexVar)
  /-- `(i,j: e)`: the tensor with the component `e` at each place of the result variables. -/
  | indexExpr (ty : Ty) (vars : List IndexVar) (body : Expr)
  | neg (ty : Ty) (operand : Expr)
  | binary (ty : Ty) (op : BinaryOp) (lhs rhs : Expr)

/-- An operation with operands. -/
inductive Prim where
  /-- A constant, no operands. -/
  | literal (value : Literal)
  /-- The field of a record, or of every member of a set. Operand: the record or set. -/
  | fieldRead (field : String)
  /-- One component of a tensor. Operands: the tensor and its indices. -/
  | tensorRead
  /-- One member of a tuple. Operands: the tuple and the index. -/
  | tupleRead
  /-- An index array. Operand: the edge set. -/
  | edgeRead (which : EdgeArray)
  /-- The number of indices of a dimension, no operands. -/
  | length (dim : Dim)
  /-- An element of a buffer. Operands: the buffer and the index. -/
  | load
  /-- A call. Operands: the actuals. -/
  | call (callee : Func)

/-- A statement that contains no other. -/
inductive Instr where
  | assign (v : Var) (value : Expr)
  /-- A call that binds results. -/
  | call (results : List Var) (callee : Func) (actuals : List Expr)
  /-- Applies a function to every member of a target set, with the member's neighbours if they
  are given, and binds (or reduces into) the results. The partial actuals are passed first. -/
  | map (results : List Var) (function : Func) (target : Expr) (neighbors : Option Expr)
      (partials : List Expr) (reduction : Option Reduction)
  | fieldWrite (target : Expr) (field : String) (value : Expr)
  | tensorWrite (tensor : Expr) (indices : List Expr) (value : Expr)
  | store (buffer index value : Expr)
  /-- Does nothing. -/
  | pass
  /-- Declares a local variable. -/
  | varDecl (v : Var)

/-- What a loop runs over. -/
inductive LoopDomain where
  /-- Every index of a dimension. -/
  | dim (d : Dim)
  /-- From the first bound up to, but not including, the second. -/
  | range (start stop : Expr)

/-- A statement. -/
inductive Stmt where
  | instr (i : Instr)
  | forLoop (v : Var) (domain : LoopDomain) (body : Stmt)
  | ifThenElse (condition : Expr) (thenBody : Stmt) (elseBody : Option Stmt)
  | block (stmts : List Stmt)

/-- A function. Functions of the program have a body; the others are declared without one. -/
structure Func where
  /-- The identity: two functions of one identity are the same function. -/
  id : Nat
  name : String
  kind : FuncKind
  args : List Var
  results : List Var
  body : Option Stmt

end

/-! ### Expressions -/

namespace Expr

/-- The type of a node. -/
def ty : Expr → Ty
  | .var ty _ | .prim ty _ _ | .indexed ty _ _ | .indexExpr ty _ _ | .neg ty _
  | .binary ty _ _ _ => ty

/-- The same node with another type. -/
def withTy (ty : Ty) : Expr → Expr
  | .var _ v => .var ty v
  | .prim _ op es => .prim ty op es
  | .indexed _ t vs => .indexed ty t vs
  | .indexExpr _ vs b => .indexExpr ty vs b
  | .neg _ a => .neg ty a
  | .binary _ op a b => .binary ty op a b

/-- The direct parts of an expression, in evaluation order. -/
def children : Expr → List Expr
  | .var _ _ => []
  | .prim _ _ es => es
  | .indexed _ t _ => [t]
  | .indexExpr _ _ b => [b]
  | .neg _ a => [a]
  | .binary _ _ a b => [a, b]

/-- The same node over other parts, as many as it has. A node offered another number of parts
stays as it is, except that an operation takes any operands. -/
def withChildren : Expr → List Expr → Expr
  | .prim ty op _, es => .prim ty op es
  | .indexed ty _ vs, [t] => .indexed ty t vs
  | .indexExpr ty vs _, [b] => .indexExpr ty vs b
  | .neg ty _, [a] => .neg ty a
  | .binary ty op _ _, [a, b] => .binary ty op a b
  | e, _ => e

/-- The variable, if the expression is the bare read of one. -/
def var? : Expr → Option Var
  | .var _ v => some v
  | _ => none

def isVar (e : Expr) : Bool := e.var?.isSome

/-- Whether the expression reads a tensor through index variables. -/
def isIndexed : Expr → Bool
  | .indexed _ _ _ => true
  | _ => false

def isIndexExpr : Expr → Bool
  | .indexExpr _ _ _ => true
  | _ => false

@[simp] theorem ty_withTy (ty : Ty) (e : Expr) : (e.withTy ty).ty = ty := by
  cases e <;> rfl

@[simp] theorem withChildren_children (e : Expr) : e.withChildren e.children = e := by
  cases e <;> rfl

/-- Rebuilding keeps the type. -/
@[simp] theorem ty_withChildren (e : Expr) (es : List Expr) : (e.withChildren es).ty = e.ty := by
  unfold withChildren
  split <;> rfl

end Expr

/-! ### Statements -/

namespace Instr

/-- The expressions an instruction evaluates, in evaluation order. A map evaluates its partial
actuals before its target. -/
def exprs : Instr → List Expr
  | .assign _ e => [e]
  | .call _ _ es => es
  | .map _ _ target neighbors partials _ => partials ++ target :: neighbors.toList
  | .fieldWrite target _ value => [target, value]
  | .tensorWrite tensor indices value => tensor :: (indices ++ [value])
  | .store buffer index value => [buffer, index, value]
  | .pass | .varDecl _ => []

/-- The same instruction over other expressions, given in evaluation order. An instruction
offered a number of expressions it cannot take stays as it is. -/
def withExprs : Instr → List Expr → Instr
  | .assign v _, [e] => .assign v e
  | .call rs f _, es => .call rs f es
  | i@(.map rs f _ neighbors partials red), es =>
    let partials' := es.take partials.length
    match es.drop partials.length, neighbors with
    | [t], none => .map rs f t none partials' red
    | [t, n], some _ => .map rs f t (some n) partials' red
    | _, _ => i
  | .fieldWrite _ field _, [t, e] => .fieldWrite t field e
  | i@(.tensorWrite _ _ _), t :: rest =>
    match rest.getLast? with
    | some e => .tensorWrite t rest.dropLast e
    | none => i
  | .store _ _ _, [b, i, e] => .store b i e
  | i, _ => i

/-- The variables an instruction defines. -/
def defined : Instr → List Var
  | .assign v _ => [v]
  | .call rs _ _ | .map rs _ _ _ _ _ => rs
  | _ => []

@[simp] theorem withExprs_exprs (i : Instr) : i.withExprs i.exprs = i := by
  cases i with
  | map rs f t n ps red => cases n <;> simp [exprs, withExprs]
  | tensorWrite t is e => simp [exprs, withExprs]
  | _ => rfl

end Instr

namespace LoopDomain

/-- The bounds of a loop, in evaluation order. -/
def exprs : LoopDomain → List Expr
  | .dim _ => []
  | .range start stop => [start, stop]

/-- The same domain with other bounds. -/
def withExprs : LoopDomain → List Expr → LoopDomain
  | .range _ _, [start, stop] => .range start stop
  | d, _ => d

@[simp] theorem withExprs_exprs (d : LoopDomain) : d.withExprs d.exprs = d := by
  cases d <;> rfl

end LoopDomain

namespace Stmt

abbrev assign (v : Var) (value : Expr) : Stmt := .instr (.assign v value)

abbrev call (results : List Var) (callee : Func) (actuals : List Expr) : Stmt :=
  .instr (.call results callee actuals)

abbrev varDecl (v : Var) : Stmt := .instr (.varDecl v)

abbrev pass : Stmt := .instr .pass

/-- The expressions a statement itself evaluates, without those of the statements inside it. -/
def exprs : Stmt → List Expr
  | .instr i => i.exprs
  | .forLoop _ d _ => d.exprs
  | .ifThenElse c _ _ => [c]
  | .block _ => []

/-- The statements directly inside a statement. -/
def children : Stmt → List Stmt
  | .instr _ => []
  | .forLoop _ _ body => [body]
  | .ifThenElse _ t e => t :: e.toList
  | .block ss => ss

/-- The same statement over other expressions and other inner statements, as many as it has. -/
def withParts : Stmt → List Expr → List Stmt → Stmt
  | .instr i, es, _ => .instr (i.withExprs es)
  | .forLoop v d _, es, [body] => .forLoop v (d.withExprs es) body
  | .ifThenElse _ _ none, [c], [t] => .ifThenElse c t none
  | .ifThenElse _ _ (some _), [c], [t, e] => .ifThenElse c t (some e)
  | .block _, _, ss => .block ss
  | s, _, _ => s

def isBlock : Stmt → Bool
  | .block _ => true
  | _ => false

def isVarDecl : Stmt → Bool
  | .instr (.varDecl _) => true
  | _ => false

@[simp] theorem withParts_exprs_children (s : Stmt) : s.withParts s.exprs s.children = s := by
  cases s with
  | ifThenElse c t e => cases e <;> rfl
  | _ => simp [withParts, exprs, children]

end Stmt

/-! ### Functions -/

namespace Func

/-- The type of the first result. -/
def resultTy? (f : Func) : Option Ty := f.results.head?.map Var.ty

/-- A function like `f` with the given identity and body. -/
def withBody (f : Func) (id : Nat) (body : Stmt) : Func :=
  { f with id := id, body := some body }

/-- A result or parameter of a compiler-provided function. -/
private def param (id : Nat) (name : String) (ty : Ty) : Var := ⟨id, name, ty⟩

/-- The square root. -/
def sqrt : Func :=
  ⟨2, "sqrt", .intrinsic, [param 0 "x" .float], [param 1 "r" .float], none⟩

/-- The Euclidean norm of a vector. -/
def norm : Func :=
  ⟨5, "norm", .intrinsic, [param 3 "x" (.vector 1)], [param 4 "r" .float], none⟩

/-- The inner product of two vectors. -/
def dot : Func :=
  ⟨9, "dot", .intrinsic, [param 6 "x" (.vector 1), param 7 "y" (.vector 1)],
    [param 8 "r" .float], none⟩

/-- The functions that the compiler provides. Their identities and those of their parameters
are reserved. -/
def intrinsics : List Func := [sqrt, norm, dot]

/-- The compiler-provided function of the given name. -/
def intrinsic? (name : String) : Option Func := intrinsics.find? (·.name == name)

/-- The first identity that is not reserved. -/
def firstFreeId : Nat := 10

end Func

end TensorIR
