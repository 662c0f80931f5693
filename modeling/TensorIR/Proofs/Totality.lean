import TensorIR.Proofs.Statements

/-! # Flattening always ends

The recursion of flattening goes through nodes that it has just made, and nothing in its text says
that it comes to an end. This module looks at the recursion alone, with no bound on its depth and
no measure. It is a system of equations for an action that may go on for ever
(`Flattening.Recurses`), and an action that goes on for ever has no result. The least solution has
just the results of the runs that end; that every solution has a result says that all runs end.

**Key idea**: whatever satisfies the equations has every result that the recursion has within some
bound. The weight of an expression is always enough as a bound, so there is one solution only, and
it has a result from every state (`Flattening.Recurses.eq_total`). What a statement adds to its
expressions goes down the tree.

Main statement: `Flattening.recursion_ends`. Expressions, spilled expressions and statements of any
shape, with any types on their nodes, come to an end from every state, with a value or an error,
and it is the one that `Expr.flatten`, `Expr.spill` and `Stmt.flatten` give.
-/

namespace TensorIR

namespace Flattening

/-! ### The bare recursion -/

section

variable (flatten : Expr → BoundedM (Transformed Expr))

/-- Expressions are flattened by the recursion alone. From where it goes on for ever there is no
result. -/
def Recurses : Prop := ∀ e, flatten e = step flatten e

/-- An actual of a call statement, for any way of flattening expressions. -/
def actualBy (a : Expr) : BoundedM (Transformed Expr) := do
  let out ← flatten a
  if out.value.ty.isWhole && !out.value.isVar then
    let read ← spill flatten out.value
    return .replace (wholeTensor read.value)
  else return out

/-- Runs the treatment of one statement with nothing pending, as `withOwnPending` does. -/
def withOwnPendingBy (act : BoundedM (Transformed Stmt)) : BoundedM (Transformed Stmt) :=
  ExceptT.mk fun st =>
    let (outer, own) := st.toSplicer.save
    (act.run.run { st with toSplicer := own }).map fun
      | (.ok out, st') =>
        let (spliced, rest) := st'.toSplicer.splice out.value
        (.ok ⟨spliced.value, out.changed || spliced.changed⟩,
          { st' with toSplicer := rest.restore outer })
      | (.error e, st') => (.error e, { st' with toSplicer := st'.toSplicer.restore outer })

/-- The treatment of expressions and statements, for any way of flattening expressions. -/
def transformBy : Transform BoundedM where
  expr e _ := flatten e
  stmt s walk := withOwnPendingBy <|
    match s with
    | .instr (.call _ _ as) => do return s.rebuild (← as.mapM' (actualBy flatten)) []
    | _ => walk

end

/-! ### Expressions -/

section

variable {flatten : Expr → BoundedM (Transformed Expr)}

/-- Every result that the recursion has within a bound is one it has without. -/
theorem Recurses.flattenWithin_below (h : Recurses flatten) (d : Nat) (e : Expr) :
    Below (flattenWithin d e) (flatten e) := by
  induction d generalizing e with
  | zero => intro st r hr; cases hr
  | succ d ih =>
    rw [h e]
    exact step_below ih e

/-- The recursion always has a result, the one of `Expr.flatten`. -/
theorem Recurses.eq_total (h : Recurses flatten) : flatten = fun e => total e.flatten := by
  funext e
  refine ExceptT.ext (StateT.ext fun st => ?_)
  -- the weight is enough as a bound, so there is a result to agree with
  have hwithin : (flattenWithin e.weight e).run.run st = some (e.flatten.run.run st) :=
    flatten_below e st _ rfl
  exact h.flattenWithin_below e.weight e st _ hwithin

/-- Flattening itself is by the recursion. -/
theorem recurses_total : Recurses fun e => total e.flatten := by
  intro e
  refine ExceptT.ext (StateT.ext fun st => ?_)
  exact (step_flatten e st _ rfl).symm

end

/-! ### Statements -/

/-- Elements that are treated alike one by one are treated alike one after another. -/
private theorem mapM'_congr {α β : Type} {f g : α → BoundedM β} {as : List α}
    (h : ∀ a ∈ as, f a = g a) : as.mapM' f = as.mapM' g := by
  induction as with
  | nil => rfl
  | cons a as ih =>
    rw [List.mapM'_cons, List.mapM'_cons, h a (by simp), ih fun a' h' => h a' (by simp [h'])]

theorem total_actual (a : Expr) : total (actual a) = actualBy (fun e => total e.flatten) a := by
  unfold actual actualBy
  rw [total_bind]
  refine congrArg _ (funext fun out => ?_)
  split
  · rw [total_bind, Expr.spill, total_spill]
    rfl
  · rfl

/-- Setting aside what is pending is the same action, whether or not the treatment could go on for
ever. -/
theorem total_withOwnPending (act : FlattenM (Transformed Stmt)) :
    total (withOwnPending act) = withOwnPendingBy (total act) := rfl

theorem total_exprs (es : List Expr) :
    total (Expr.transformAll transform es) =
      Expr.transformAll (transformBy fun e => total e.flatten) es := by
  rw [transformExprs_eq_mapM', total_mapM', Expr.transformAll_eq_mapM']
  exact congrArg (es.mapM' ·)
    (funext fun e => (Expr.transformM_eq (transformBy fun e => total e.flatten) e).symm)

/-- A statement is the same action, whether or not the flattening of its expressions could go on
for ever. -/
theorem total_flatten (s : Stmt) :
    total s.flatten = s.transformM (transformBy fun e => total e.flatten) := by
  induction s using Stmt.children_induction with
  | step s ih =>
    -- the statements inside are the same actions already
    have hinner : total (Stmt.transformAll transform s.children) =
        Stmt.transformAll (transformBy fun e => total e.flatten) s.children := by
      rw [transformStmts_eq_mapM', total_mapM', Stmt.transformAll_eq_mapM']
      exact mapM'_congr ih
    have hwalk : total (s.walkM transform) =
        s.walkM (transformBy fun e => total e.flatten) := by
      unfold Stmt.walkM
      rw [total_bind, total_exprs]
      refine congrArg _ (funext fun outs => ?_)
      rw [total_bind, hinner]
      rfl
    rw [Stmt.transformM_eq]
    by_cases hcall : s.isCall = true
    · cases s with
      | instr i =>
        cases i with
        | call rs f as =>
          rw [flatten_call, total_withOwnPending, total_bind, actuals_eq_mapM', total_mapM',
            funext total_actual]
          rfl
        | _ => cases hcall
      | _ => cases hcall
    · rw [flatten_of_not_call (by simpa using hcall), total_withOwnPending, hwalk]
      refine congrArg withOwnPendingBy ?_
      split
      · exact absurd rfl hcall
      · rfl

/-- The equations of the recursion have a solution, and by any solution flattening comes to an end
from every state: whatever is flattened or spilled, there is a value or an error, the one that the
bounded definitions give. -/
theorem recursion_ends (st : Flattener) :
    (∃ flatten, Recurses flatten) ∧ ∀ flatten, Recurses flatten →
      (∀ e : Expr, (flatten e).run.run st = some (e.flatten.run.run st)) ∧
      (∀ a : Expr, (spill flatten a).run.run st = some (a.spill.run.run st)) ∧
      ∀ s : Stmt,
        (s.transformM (transformBy flatten)).run.run st = some (s.flatten.run.run st) := by
  refine ⟨⟨_, recurses_total⟩, fun flatten h => ?_⟩
  rw [h.eq_total]
  refine ⟨fun e => rfl, fun a => ?_, fun s => ?_⟩
  · rw [← total_spill]
    rfl
  · rw [← total_flatten]
    rfl

end Flattening

end TensorIR
