import TensorIR.Visitor

/-! # Searching for an expression

A search asks whether some expression of a tree satisfies a test. It goes through the tree in
order, each expression before its parts, and stops testing at the first match.

A search starts from a seed. A search with the seed `true` has its answer before it begins, and
tests nothing. One search can be asked again and again: each question starts over from the seed.

The test may have effects of its own (it may count its calls, for instance), so it lives in a
monad.
-/

namespace TensorIR

/-- A search that can be asked several times. -/
structure Search where
  /-- The answer that every question starts from. -/
  seed : Bool
  /-- The answer so far. -/
  found : Bool

namespace Search

variable {m : Type → Type} [Monad m]

/-- A search that has been asked nothing. -/
def start (seed : Bool) : Search := ⟨seed, seed⟩

/-- Back to the seed. -/
def reset (s : Search) : Search := { s with found := s.seed }

/-- Tests each expression before its parts, as long as there is no answer. -/
def visitor (test : Expr → m Bool) : Visitor (StateT Search m) where
  expr e walk := do
    if (← get).found then return
    if ← test e then modify ({ · with found := true })
    else walk
  stmt _ walk := do
    unless (← get).found do walk

/-- Starts over, runs the given visit and tells the answer. -/
def query (visit : StateT Search m Unit) : StateT Search m Bool := do
  modify reset
  visit
  return (← get).found

/-- Asks about an expression. -/
def queryExpr (test : Expr → m Bool) (e : Expr) : StateT Search m Bool :=
  query (e.visitM (visitor test))

/-- Asks about the expressions of a statement. -/
def queryStmt (test : Expr → m Bool) (s : Stmt) : StateT Search m Bool :=
  query (s.visitM (visitor test))

/-- Asks about the expressions in the body of a function. -/
def queryFunc (test : Expr → m Bool) (f : Func) : StateT Search m Bool :=
  query (f.visitM (visitor test))

end Search

variable {m : Type → Type} [Monad m]

/-- Whether some expression in `e` satisfies the test. -/
def Expr.anyM (test : Expr → m Bool) (e : Expr) : m Bool :=
  (Search.queryExpr test e).run' (.start false)

/-- Whether some expression in `s` satisfies the test. -/
def Stmt.anyM (test : Expr → m Bool) (s : Stmt) : m Bool :=
  (Search.queryStmt test s).run' (.start false)

/-- Whether some expression in `e` satisfies the test. -/
def Expr.any (test : Expr → Bool) (e : Expr) : Bool :=
  Id.run (e.anyM fun e => pure (test e))

/-- Whether a tensor is read through index variables anywhere in `e`, by an indexed read or
within an index expression. -/
def Expr.containsIndexed (e : Expr) : Bool := e.any fun e => e.isIndexed || e.isIndexExpr

end TensorIR
