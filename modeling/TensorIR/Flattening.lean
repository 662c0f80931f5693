import TensorIR.Flattening.Termination

/-! # Flattening

After flattening no index expression is nested in another one, every operand of a sum is an
indexed read or reads no tensor through index variables, and every tensor that a statement
passes to a call is a variable. Temporaries are assigned right before the statement that needs
them, within the same body.

The treatment of a single node is in `TensorIR.Flattening.Step`. Statements are flattened part
by part; what an expression leaves pending goes in front of its own statement.
-/

namespace TensorIR

/-- Actions of a flattener. After a failure its state is kept: what was drawn stays drawn, and
what was pending stays pending. -/
abbrev FlattenM := ExceptT Error (StateM Flattener)

/-- Flattens an expression. Assignments to the temporaries it reads are left pending. -/
def Expr.flatten (e : Expr) : FlattenM (Transformed Expr) :=
  ExceptT.mk fun st =>
    ((Flattening.flattenWithin e.weight e).run.run st).get
      (Flattening.flattenWithin_isSome (Nat.le_refl _) st)

/-- Binds an expression to a temporary unless it is scalar, and reads the temporary back. -/
def Expr.spill (a : Expr) : FlattenM (Transformed Expr) := Flattening.spill Expr.flatten a

namespace Flattening

/-- The tensor itself, if the expression reads all of one that is a variable: a call takes its
tensors whole. -/
def wholeTensor (e : Expr) : Expr :=
  match e with
  | .indexed _ t _ => if t.isVar then t else e
  | _ => e

/-- An actual of a call statement. A tensor that is not a variable is bound to a temporary. -/
def actual (a : Expr) : FlattenM (Transformed Expr) := do
  let out ← a.flatten
  if out.value.ty.isWhole && !out.value.isVar then
    let read ← out.value.spill
    return .replace (wholeTensor read.value)
  else return out

/-- The actuals of a call statement, in order. -/
def actuals : List Expr → FlattenM (List (Transformed Expr))
  | [] => pure []
  | a :: as => do return (← actual a) :: (← actuals as)

/-- Runs the treatment of one statement with nothing pending, and puts what it leaves pending in
front of its result. What was pending before is pending again afterwards, also after a failure,
and comes before anything the failed statement left. -/
def withOwnPending (act : FlattenM (Transformed Stmt)) : FlattenM (Transformed Stmt) :=
  ExceptT.mk fun st =>
    let (outer, own) := st.toSplicer.save
    match act.run.run { st with toSplicer := own } with
    | (.ok out, st') =>
      let (spliced, rest) := st'.toSplicer.splice out.value
      (.ok ⟨spliced.value, out.changed || spliced.changed⟩,
        { st' with toSplicer := rest.restore outer })
    | (.error e, st') => (.error e, { st' with toSplicer := st'.toSplicer.restore outer })

/-- Flattens every expression as a whole, and every statement with pending statements of its
own. -/
def transform : Transform FlattenM where
  expr e _ := e.flatten
  stmt s walk := withOwnPending <|
    match s with
    | .instr (.call _ _ as) => do return s.rebuild (← actuals as) []
    | _ => walk

end Flattening

/-- Flattens a statement. -/
def Stmt.flatten (s : Stmt) : FlattenM (Transformed Stmt) := s.transformM Flattening.transform

/-- Flattens the body of a function. -/
def Func.flatten (f : Func) : FlattenM (Transformed Func) :=
  f.transformM Flattening.transform (modifyGet (Flattener.onBuilder Builder.newId))

end TensorIR
