import TensorIR.Program
import TensorIR.Quoted

/-! # The text of a program

Programs are written in a compact notation:

    tmp0 = (i: b{i} + c{i});
    A = (i,j: tmp0{i} + a{j});
    r = sqrt(tmp0);

**Key idea**: each expression has a binding strength, and an operand is put in parentheses
when it binds more loosely than its place asks for. The operators associate to the left, so
the right operand of `-` and `/` has to bind more tightly than the operator itself; `+` and
`*` let a right operand of their own strength stand bare.
-/

namespace TensorIR

/-- The binding strength of an expression: sums 1, products 2, negations 3, all else 4. -/
def Expr.strength : Expr → Nat
  | .binary _ op _ _ => if op.isSum then 1 else 2
  | .neg _ _ => 3
  | _ => 4

/-- The given text of an expression, in parentheses if the expression binds more loosely than
`least`. -/
def Expr.bracket (least : Nat) (e : Expr) (text : String) : String :=
  if e.strength < least then "(" ++ text ++ ")" else text

/-- The least strength of the right operand of an operator of strength `s`. -/
def BinaryOp.rightStrength (s : Nat) : BinaryOp → Nat
  | .sub | .div => s + 1
  | .add | .mul => s

/-- The names of index variables, separated by commas. -/
def IndexVar.names (vs : List IndexVar) : String := ",".intercalate (vs.map IndexVar.name)

/-- The text of an operation, given its operands and their texts. The first operand of a read
stands in front and binds tightly; the others are listed behind it. -/
def Prim.render (op : Prim) (operands : List Expr) (texts : List String) : String :=
  let first :=
    match operands, texts with
    | e :: _, t :: _ => e.bracket 4 t
    | _, _ => ""
  let others := ",".intercalate (texts.drop 1)
  match op with
  | .literal value => value.text
  | .fieldRead field => first ++ "." ++ field
  | .tensorRead | .tupleRead => first ++ "(" ++ others ++ ")"
  | .edgeRead which => first ++ "." ++ which.text
  | .length dim => "length(" ++ dim.text ++ ")"
  | .load => first ++ "[" ++ others ++ "]"
  | .call callee => callee.name ++ "(" ++ ", ".intercalate texts ++ ")"

mutual

/-- The text of an expression. -/
def Expr.text : Expr → String
  | .var _ v => v.name
  | .prim _ op es => op.render es (Expr.texts es)
  | .indexed _ t vs => t.bracket 4 t.text ++ "\x7b" ++ IndexVar.names vs ++ "\x7d"
  | .indexExpr _ vs b => "(" ++ IndexVar.names vs ++ ": " ++ b.text ++ ")"
  | .neg _ a => "-" ++ a.bracket 3 a.text
  | .binary _ op a b =>
    let s := if op.isSum then 1 else 2
    a.bracket s a.text ++ " " ++ op.text ++ " " ++ b.bracket (op.rightStrength s) b.text

/-- The texts of expressions, in order. -/
def Expr.texts : List Expr → List String
  | [] => []
  | e :: es => e.text :: Expr.texts es

end

@[simp] theorem Expr.texts_eq_map (es : List Expr) : Expr.texts es = es.map Expr.text := by
  induction es with
  | nil => rfl
  | cons e es ih => simp [Expr.texts, ih]

/-! ### Statements -/

/-- What a loop runs over. -/
def LoopDomain.text : LoopDomain → String
  | .dim d => d.text
  | .range start stop => start.text ++ ":" ++ stop.text

/-- The bound results in front of a call or map. -/
def Instr.resultsText (results : List Var) : String :=
  if results.isEmpty then "" else ", ".intercalate (results.map Var.name) ++ " = "

/-- The text of an instruction, without indentation and line end. -/
def Instr.text : Instr → String
  | .assign v e => v.name ++ " = " ++ e.text ++ ";"
  | .call results callee actuals =>
    Instr.resultsText results ++ callee.name ++ "(" ++ ", ".intercalate (actuals.map Expr.text)
      ++ ");"
  | .map results function target neighbors partials reduction =>
    Instr.resultsText results ++ "map " ++ function.name
      ++ (if partials.isEmpty then ""
          else "(" ++ ", ".intercalate (partials.map Expr.text) ++ ")")
      ++ " to " ++ target.text
      ++ (match neighbors with
          | some n => " with " ++ n.text
          | none => "")
      ++ (match reduction with
          | some r => " reduce " ++ r.text
          | none => "")
      ++ ";"
  | .fieldWrite target field value => target.text ++ "." ++ field ++ " = " ++ value.text ++ ";"
  | .tensorWrite tensor indices value =>
    tensor.text ++ "(" ++ ",".intercalate (indices.map Expr.text) ++ ") = " ++ value.text ++ ";"
  | .store buffer index value =>
    buffer.text ++ "[" ++ index.text ++ "] = " ++ value.text ++ ";"
  | .pass => "pass;"
  | .varDecl v => "var " ++ v.name ++ " : " ++ v.ty.text ++ ";"

/-- Two blanks for each level of nesting. -/
def indent (depth : Nat) : String := String.join (List.replicate depth "  ")

mutual

/-- The lines of a statement at the given level of nesting. A block adds no level. -/
def Stmt.textAt (depth : Nat) : Stmt → String
  | .instr i => indent depth ++ i.text ++ "\n"
  | .forLoop v domain body =>
    indent depth ++ "for " ++ v.name ++ " in " ++ domain.text ++ ":\n"
      ++ body.textAt (depth + 1) ++ indent depth ++ "end\n"
  | .ifThenElse condition thenBody none =>
    indent depth ++ "if " ++ condition.text ++ ":\n" ++ thenBody.textAt (depth + 1)
      ++ indent depth ++ "end\n"
  | .ifThenElse condition thenBody (some elseBody) =>
    indent depth ++ "if " ++ condition.text ++ ":\n" ++ thenBody.textAt (depth + 1)
      ++ indent depth ++ "else:\n" ++ elseBody.textAt (depth + 1) ++ indent depth ++ "end\n"
  | .block stmts => Stmt.textAll depth stmts

/-- The lines of statements, in order. -/
def Stmt.textAll (depth : Nat) : List Stmt → String
  | [] => ""
  | s :: ss => s.textAt depth ++ Stmt.textAll depth ss

end

/-- The text of a statement. -/
def Stmt.text (s : Stmt) : String := s.textAt 0

/-! ### Functions -/

namespace Func

/-- Variables with their types. -/
def typed (vs : List Var) : String :=
  ", ".intercalate (vs.map fun v => v.name ++ " : " ++ v.ty.text)

/-- The head of a function. -/
def signature (f : Func) : String :=
  "func " ++ f.name ++ "(" ++ typed f.args ++ ") -> (" ++ typed f.results ++ ")"

/-- The text of a function. The body is shown for functions of the program only; a function
of the program without a body is shown as one from outside. -/
def text (f : Func) : String :=
  match f.kind, f.body with
  | .internal, some body => f.signature ++ ":\n" ++ body.textAt 1 ++ "end\n"
  | .intrinsic, _ => "intrinsic " ++ f.signature ++ ";\n"
  | _, _ => "extern " ++ f.signature ++ ";\n"

/-- A description of the head of a function, with its variables told apart. -/
def describe (f : Func) : String :=
  let vars (vs : List Var) := "[" ++ ", ".intercalate (vs.map Var.describe) ++ "]"
  "Func \x7b name: " ++ quoted f.name ++ ", kind: " ++ f.kind.text ++ ", args: " ++ vars f.args ++ ", results: " ++ vars f.results ++ ", .. \x7d"

end Func

end TensorIR
