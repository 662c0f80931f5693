import TensorIR.Program.Text

/-! # Outlines

The outline of an expression shows its tree, one node a line, each with its type. Lines below
a node start with branches that lead down from it:

    Mul : float
    ├─ INDEXED{i} : float
    │  └─ VAR(a) : tensor[3](float)
    └─ LITERAL(2) : int
-/

namespace TensorIR

/-- The name of an operation in an outline. -/
def Prim.outlineName : Prim → String
  | .literal value => "LITERAL(" ++ value.text ++ ")"
  | .fieldRead field => "FIELD_READ(." ++ field ++ ")"
  | .tensorRead => "TENSOR_READ"
  | .tupleRead => "TUPLE_READ"
  | .edgeRead which => "INDEX_READ(" ++ which.text ++ ")"
  | .length dim => "LENGTH(" ++ dim.text ++ ")"
  | .load => "LOAD"
  | .call callee => "CALL(" ++ callee.name ++ ")"

namespace Expr

/-- The name of a node in an outline. -/
def outlineName : Expr → String
  | .var _ v => "VAR(" ++ v.name ++ ")"
  | .prim _ op _ => op.outlineName
  | .indexed _ _ vs => "INDEXED\x7b" ++ IndexVar.names vs ++ "\x7d"
  | .indexExpr _ vs _ => "INDEX_EXPR(" ++ IndexVar.names vs ++ ")"
  | .neg _ _ => "Neg"
  | .binary _ op _ _ => op.name

/-- The line of a node. -/
def outlineLine (e : Expr) : String := e.outlineName ++ " : " ++ e.ty.text ++ "\n"

mutual

/-- The lines of an expression; those below the first start with `lead`. -/
def outlineFrom (lead : String) : Expr → String
  | e@(.var _ _) => e.outlineLine
  | e@(.prim _ _ es) => e.outlineLine ++ outlineParts lead es
  | e@(.indexed _ t _) => e.outlineLine ++ lead ++ "└─ " ++ t.outlineFrom (lead ++ "   ")
  | e@(.indexExpr _ _ b) => e.outlineLine ++ lead ++ "└─ " ++ b.outlineFrom (lead ++ "   ")
  | e@(.neg _ a) => e.outlineLine ++ lead ++ "└─ " ++ a.outlineFrom (lead ++ "   ")
  | e@(.binary _ _ a b) =>
    e.outlineLine ++ lead ++ "├─ " ++ a.outlineFrom (lead ++ "│  ")
      ++ lead ++ "└─ " ++ b.outlineFrom (lead ++ "   ")

/-- The lines of the parts of a node. The branch to the last part bends off. -/
def outlineParts (lead : String) : List Expr → String
  | [] => ""
  | [e] => lead ++ "└─ " ++ e.outlineFrom (lead ++ "   ")
  | e :: es => lead ++ "├─ " ++ e.outlineFrom (lead ++ "│  ") ++ outlineParts lead es

end

/-- The outline of an expression. -/
def outline (e : Expr) : String := e.outlineFrom ""

end Expr

end TensorIR
