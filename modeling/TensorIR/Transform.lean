import TensorIR.Program

/-! # Transforming programs

A transform maps every node to another of the same role. As with visitors, it is handed at each
node the *walk*, here the action that transforms the parts and puts the node together again, and
may use its result, replace it, or leave the walk out.

**Key idea**: transforming shares. A result says whether it was *changed*; a node none of whose
parts changed is not put together again but kept, so an unchanged result is the very node that
went in. Being changed is not a matter of content: a part that was replaced by an equal one
has changed.
-/

namespace TensorIR

/-- The outcome of transforming a node. -/
structure Transformed (α : Type) where
  value : α
  /-- Whether the value took the place of the one that went in. If not, it is that very one. -/
  changed : Bool

namespace Transformed

variable {α β : Type}

/-- The value that went in stays. -/
def keep (a : α) : Transformed α := ⟨a, false⟩

/-- Another value takes its place. -/
def replace (a : α) : Transformed α := ⟨a, true⟩

/-- Any member of the list was changed. -/
def anyChanged (rs : List (Transformed α)) : Bool := rs.any (·.changed)

/-- The values, in order. -/
def values (rs : List (Transformed α)) : List α := rs.map (·.value)

@[simp] theorem value_keep (a : α) : (keep a).value = a := rfl

@[simp] theorem changed_keep (a : α) : (keep a).changed = false := rfl

@[simp] theorem value_replace (a : α) : (replace a).value = a := rfl

@[simp] theorem changed_replace (a : α) : (replace a).changed = true := rfl

end Transformed

/-- The expression over its transformed parts. -/
def Expr.rebuild (e : Expr) (parts : List (Transformed Expr)) : Transformed Expr :=
  if Transformed.anyChanged parts then .replace (e.withChildren (Transformed.values parts))
  else .keep e

/-- Putting a node together again keeps its type. -/
@[simp] theorem Expr.ty_rebuild (e : Expr) (parts : List (Transformed Expr)) :
    (e.rebuild parts).value.ty = e.ty := by
  unfold Expr.rebuild
  split <;> simp

/-- The statement over its transformed expressions and inner statements. -/
def Stmt.rebuild (s : Stmt) (exprs : List (Transformed Expr)) (inner : List (Transformed Stmt)) :
    Transformed Stmt :=
  if Transformed.anyChanged exprs || Transformed.anyChanged inner then
    .replace (s.withParts (Transformed.values exprs) (Transformed.values inner))
  else .keep s

variable {m : Type → Type} [Monad m]

/-- What to put in the place of each node, given the walk that transforms its parts. By default,
the outcome of the walk. -/
structure Transform (m : Type → Type) where
  expr : Expr → m (Transformed Expr) → m (Transformed Expr) := fun _ walk => walk
  stmt : Stmt → m (Transformed Stmt) → m (Transformed Stmt) := fun _ walk => walk

mutual

/-- Transforms an expression. -/
def Expr.transformM (r : Transform m) : Expr → m (Transformed Expr)
  | e@(.var _ _) => r.expr e (pure (e.rebuild []))
  | e@(.prim _ _ es) => r.expr e (do return e.rebuild (← Expr.transformAll r es))
  | e@(.indexed _ t _) => r.expr e (do return e.rebuild [← t.transformM r])
  | e@(.indexExpr _ _ b) => r.expr e (do return e.rebuild [← b.transformM r])
  | e@(.neg _ a) => r.expr e (do return e.rebuild [← a.transformM r])
  | e@(.binary _ _ a b) => r.expr e (do return e.rebuild [← a.transformM r, ← b.transformM r])

/-- Transforms expressions in order. -/
def Expr.transformAll (r : Transform m) : List Expr → m (List (Transformed Expr))
  | [] => pure []
  | e :: es => do return (← e.transformM r) :: (← Expr.transformAll r es)

end

mutual

/-- Transforms a statement. -/
def Stmt.transformM (r : Transform m) : Stmt → m (Transformed Stmt)
  | s@(.instr i) => r.stmt s (do return s.rebuild (← Expr.transformAll r i.exprs) [])
  | s@(.forLoop _ d body) =>
    r.stmt s (do return s.rebuild (← Expr.transformAll r d.exprs) [← body.transformM r])
  | s@(.ifThenElse c t none) =>
    r.stmt s (do return s.rebuild [← c.transformM r] [← t.transformM r])
  | s@(.ifThenElse c t (some e)) =>
    r.stmt s (do return s.rebuild [← c.transformM r] [← t.transformM r, ← e.transformM r])
  | s@(.block ss) => r.stmt s (do return s.rebuild [] (← Stmt.transformAll r ss))

/-- Transforms statements in order. -/
def Stmt.transformAll (r : Transform m) : List Stmt → m (List (Transformed Stmt))
  | [] => pure []
  | s :: ss => do return (← s.transformM r) :: (← Stmt.transformAll r ss)

end

/-- The walk alone: transforms the parts of an expression, which is not offered itself. -/
def Expr.walkM (r : Transform m) (e : Expr) : m (Transformed Expr) := do
  return e.rebuild (← Expr.transformAll r e.children)

/-- The walk alone: transforms the parts of a statement, which is not offered itself. -/
def Stmt.walkM (r : Transform m) (s : Stmt) : m (Transformed Stmt) := do
  return s.rebuild (← Expr.transformAll r s.exprs) (← Stmt.transformAll r s.children)

/-- Transforms the body of a function, if it has one. A function with a changed body is a new
function and takes the identity that `newId` draws. -/
def Func.transformM (r : Transform m) (newId : m Nat) (f : Func) : m (Transformed Func) := do
  match f.body with
  | none => return .keep f
  | some body =>
    let out ← body.transformM r
    if out.changed then return .replace (f.withBody (← newId) out.value)
    else return .keep f

/-! ### The walk over the parts of a node -/

variable [LawfulMonad m]

/-- At every expression a transform is handed the walk. -/
theorem Expr.transformM_eq (r : Transform m) (e : Expr) :
    e.transformM r = r.expr e (e.walkM r) := by
  cases e <;> simp [Expr.transformM, Expr.walkM, Expr.transformAll, Expr.children]

/-- At every statement a transform is handed the walk. -/
theorem Stmt.transformM_eq (r : Transform m) (s : Stmt) :
    s.transformM r = r.stmt s (s.walkM r) := by
  cases s with
  | ifThenElse c t e =>
    cases e <;>
      simp [Stmt.transformM, Stmt.walkM, Expr.transformAll, Stmt.transformAll, Stmt.exprs,
        Stmt.children]
  | _ =>
    simp [Stmt.transformM, Stmt.walkM, Expr.transformAll, Stmt.transformAll, Stmt.exprs,
      Stmt.children]

end TensorIR
