import TensorIR.Program

/-! # Visiting programs

A visitor looks at every node of a program without changing it. For each node it is handed
the *walk*, the action that visits the parts of the node: it may act before the walk, after
it, around it, or leave the walk out and so skip the subtree.

**Key idea**: one traversal serves every query, because a visitor decides at each node what
becomes of the walk. Parts come in evaluation order: operands before the node that consumes
them is left, the expressions of a statement before the statements inside it.
-/

namespace TensorIR

variable {m : Type → Type} [Monad m]

/-- What to do at each node, given the walk over its parts. By default, just walk. -/
structure Visitor (m : Type → Type) where
  expr : Expr → m Unit → m Unit := fun _ walk => walk
  stmt : Stmt → m Unit → m Unit := fun _ walk => walk

mutual

/-- Visits an expression. -/
def Expr.visitM (v : Visitor m) : Expr → m Unit
  | e@(.var _ _) => v.expr e (pure ())
  | e@(.prim _ _ es) => v.expr e (Expr.visitAll v es)
  | e@(.indexed _ t _) => v.expr e (t.visitM v)
  | e@(.indexExpr _ _ b) => v.expr e (b.visitM v)
  | e@(.neg _ a) => v.expr e (a.visitM v)
  | e@(.binary _ _ a b) => v.expr e (do a.visitM v; b.visitM v)

/-- Visits expressions in order. -/
def Expr.visitAll (v : Visitor m) : List Expr → m Unit
  | [] => pure ()
  | e :: es => do e.visitM v; Expr.visitAll v es

end

mutual

/-- Visits a statement. -/
def Stmt.visitM (v : Visitor m) : Stmt → m Unit
  | s@(.instr i) => v.stmt s (Expr.visitAll v i.exprs)
  | s@(.forLoop _ d body) => v.stmt s (do Expr.visitAll v d.exprs; body.visitM v)
  | s@(.ifThenElse c t none) => v.stmt s (do c.visitM v; t.visitM v)
  | s@(.ifThenElse c t (some e)) => v.stmt s (do c.visitM v; t.visitM v; e.visitM v)
  | s@(.block ss) => v.stmt s (Stmt.visitAll v ss)

/-- Visits statements in order. -/
def Stmt.visitAll (v : Visitor m) : List Stmt → m Unit
  | [] => pure ()
  | s :: ss => do s.visitM v; Stmt.visitAll v ss

end

/-- Visits the body of a function, if it has one. -/
def Func.visitM (v : Visitor m) (f : Func) : m Unit :=
  match f.body with
  | some body => body.visitM v
  | none => pure ()

/-! ### The walk over the parts of a node -/

variable [LawfulMonad m]

/-- At every expression a visitor is handed the visits of its parts. -/
theorem Expr.visitM_eq (v : Visitor m) (e : Expr) :
    e.visitM v = v.expr e (Expr.visitAll v e.children) := by
  cases e <;> simp [Expr.visitM, Expr.visitAll, Expr.children]

/-- At every statement a visitor is handed the visits of its expressions, then those of the
statements inside it. -/
theorem Stmt.visitM_eq (v : Visitor m) (s : Stmt) :
    s.visitM v = v.stmt s (do Expr.visitAll v s.exprs; Stmt.visitAll v s.children) := by
  cases s with
  | ifThenElse c t e =>
    cases e <;> simp [Stmt.visitM, Stmt.visitAll, Stmt.exprs, Stmt.children, Expr.visitAll]
  | _ => simp [Stmt.visitM, Stmt.visitAll, Stmt.exprs, Stmt.children, Expr.visitAll]

end TensorIR
