import TensorIR.Visitor

/-! # Free index variables

The free index variables of an expression are the variables without a reduction that its
indexed reads use and that no index expression around the read, within the expression, binds as
a result variable. They are listed once each, in the order of their first use.

A collector can be shown several expressions and statements in a row before it is asked for
what it has found.
-/

namespace TensorIR

/-- A collector of free index variables. -/
structure FreeIndexVars where
  /-- The result variables of the index expressions around the current node. -/
  bound : List IndexVar := []
  /-- The variables found so far, in order of first use. -/
  vars : List IndexVar := []

namespace FreeIndexVars

/-- Notes one use of a variable. -/
def use (c : FreeIndexVars) (v : IndexVar) : FreeIndexVars :=
  if v.isFree && !c.bound.contains v && !c.vars.contains v then { c with vars := c.vars ++ [v] }
  else c

/-- Collects the uses of an indexed read after those inside the tensor it reads. -/
def visitor : Visitor (StateM FreeIndexVars) where
  expr e walk :=
    match e with
    | .indexed _ _ vars => do
      walk
      modify (vars.foldl use)
    | .indexExpr _ vars _ => do
      let depth := (← get).bound.length
      modify fun c => { c with bound := c.bound ++ vars }
      walk
      modify fun c => { c with bound := c.bound.take depth }
    | _ => walk

/-- Collects from an expression. -/
def visitExpr (e : Expr) : StateM FreeIndexVars Unit := e.visitM visitor

/-- Collects from a statement. -/
def visitStmt (s : Stmt) : StateM FreeIndexVars Unit := s.visitM visitor

/-- Forgets everything. -/
def reset : StateM FreeIndexVars Unit := set ({} : FreeIndexVars)

/-- Hands over what was found and goes on with none found. -/
def finish : StateM FreeIndexVars (List IndexVar) :=
  modifyGet fun c => (c.vars, { c with vars := [] })

/-- Starts over and collects from an expression. -/
def queryExpr (e : Expr) : StateM FreeIndexVars (List IndexVar) := do
  reset
  visitExpr e
  finish

/-- Starts over and collects from a statement. -/
def queryStmt (s : Stmt) : StateM FreeIndexVars (List IndexVar) := do
  reset
  visitStmt s
  finish

end FreeIndexVars

/-- The free index variables of an expression. -/
def Expr.freeIndexVars (e : Expr) : List IndexVar := ((FreeIndexVars.queryExpr e).run {}).1

end TensorIR
