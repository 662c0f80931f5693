import TensorIR.Error
import TensorIR.Visitor

/-! # The check for flatness

A body is flat when

* no index expression lies inside another one, or is read through index variables;
* every indexed read has as many index variables as its tensor has dimensions;
* every tensor that a call statement passes is a variable.

The check finds the first violation in evaluation order. A node is checked before its parts,
and the actuals of a call statement before what is inside them.
-/

namespace TensorIR

/-- A check under way. -/
structure FlatnessCheck where
  /-- The first violation found. -/
  violation : Option Error := none
  /-- The number of index expressions around the current node. -/
  depth : Nat := 0

namespace FlatnessCheck

/-- Notes a violation. -/
def report (e : Error) : StateM FlatnessCheck Unit :=
  modify fun c => { c with violation := some e }

/-- The actual of a call statement that should have been a variable, if there is one. -/
def unspilled? : Stmt → Option (Func × Expr)
  | .instr (.call _ callee actuals) =>
    (actuals.find? fun a => a.ty.isWhole && !a.isVar).map (callee, ·)
  | _ => none

/-- Checks node after node up to the first violation. -/
def visitor : Visitor (StateM FlatnessCheck) where
  expr e walk := do
    let c ← get
    if c.violation.isSome then return
    match e with
    | .indexExpr _ _ _ =>
      if c.depth > 0 then report (.nestedIndexExpr e.text)
      else
        modify fun c => { c with depth := c.depth + 1 }
        walk
        modify fun c => { c with depth := c.depth - 1 }
    | .indexed _ tensor vars =>
      if tensor.isIndexExpr then report (.nestedIndexExpr e.text)
      else if vars.length != tensor.ty.order then
        report (.indexArityMismatch e.text tensor.ty.order vars.length)
      else walk
    | _ => walk
  stmt s walk := do
    if (← get).violation.isSome then return
    match unspilled? s with
    | some (callee, operand) => report (.unspilledOperand callee.name operand.text)
    | none => walk

/-- Forgets everything. -/
def reset : StateM FlatnessCheck Unit := set ({} : FlatnessCheck)

/-- Hands over the violation and goes on with none found. -/
def finish : StateM FlatnessCheck (Option Error) :=
  modifyGet fun c => (c.violation, { c with violation := none })

/-- Checks an expression. -/
def visitExpr (e : Expr) : StateM FlatnessCheck Unit := e.visitM visitor

/-- Checks a statement. -/
def visitStmt (s : Stmt) : StateM FlatnessCheck Unit := s.visitM visitor

/-- Starts over and checks an expression. -/
def queryExpr (e : Expr) : StateM FlatnessCheck (Option Error) := do
  reset
  visitExpr e
  finish

/-- Starts over and checks a statement. -/
def queryStmt (s : Stmt) : StateM FlatnessCheck (Option Error) := do
  reset
  visitStmt s
  finish

end FlatnessCheck

/-- The first violation of flatness in a statement. -/
def Stmt.flatnessViolation? (s : Stmt) : Option Error := ((FlatnessCheck.queryStmt s).run {}).1

/-- Fails on a statement that is not flat. -/
def Stmt.verifyFlat (s : Stmt) : Except Error Unit :=
  match s.flatnessViolation? with
  | some e => .error e
  | none => .ok ()

end TensorIR
