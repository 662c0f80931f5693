import TensorIR.Transform

/-! # Splicing statements

Transforming an expression can need statements of its own that have to run first. A splicer
collects them until the statement that contains the expression is done, and then puts them in
front of it.

**Key idea**: nested statements are transformed with the pending statements set aside, so what
they need lands in their own body and not in that of the statement around them.
-/

namespace TensorIR

/-- The statements that wait to be put in front of the current one. -/
structure Splicer where
  pending : List Stmt := []

namespace Splicer

/-- Adds a statement behind those that wait. -/
def emit (sp : Splicer) (s : Stmt) : Splicer := ⟨sp.pending ++ [s]⟩

/-- Puts the pending statements in front of `s`, in one block. If there are none, `s` stays as
it is. -/
def splice (sp : Splicer) (s : Stmt) : Transformed Stmt × Splicer :=
  if sp.pending.isEmpty then (.keep s, sp)
  else (.replace (.block (sp.pending ++ [s])), {})

/-- Sets the pending statements aside. -/
def save (sp : Splicer) : List Stmt × Splicer := (sp.pending, {})

/-- Puts statements that were set aside back in front of those pending now. -/
def restore (sp : Splicer) (saved : List Stmt) : Splicer := ⟨saved ++ sp.pending⟩

end Splicer

end TensorIR
