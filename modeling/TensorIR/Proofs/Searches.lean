import TensorIR.Proofs.TraversalOrder

/-! # Searches

A search that stops early finds what an exhaustive one finds, and tests no more than it has to.

**Key idea**: the flag that ends a search is looked at again and again on the way back through the
program, since the loops over parts run on. All these looks amount to one: from a search without an
answer, a traversal tests the sub-expressions in order up to the first match, and from one with an
answer it tests none (`Search.GoesThrough`). A question starts over from the seed, so it does not
matter what was asked before.
-/

namespace TensorIR

/-- The expression, if the node is one. -/
def Node.expr? : Node → Option Expr
  | expr e => some e
  | stmt _ => none

/-- The sub-expressions of a program at any depth, each before those inside it. -/
def Program.exprs (p : Program) : List Expr := p.preorder.filterMap Node.expr?

theorem Node.filterMap_preorder_expr (e : Expr) :
    (Node.expr e).preorder.filterMap expr? = e.nodes := by
  rw [preorder, List.filterMap_map]
  exact List.filterMap_some

theorem Stmt.filterMap_preorder (s : Stmt) :
    s.preorder.filterMap Node.expr? =
      s.exprs.flatMap Expr.nodes ++
        s.children.flatMap fun c => c.preorder.filterMap Node.expr? := by
  have hown : ((s.exprs.flatMap Expr.nodes).map Node.expr).filterMap Node.expr? =
      s.exprs.flatMap Expr.nodes := by
    rw [List.filterMap_map]
    exact List.filterMap_some
  rw [s.preorder_eq, List.filterMap_cons_none rfl, List.filterMap_append, hown,
    List.filterMap_flatMap]

namespace Search

/-! ### A question -/

section

variable {m : Type → Type} [Monad m] [LawfulMonad m] (test : Expr → m Bool)

theorem goesThrough_visitStmt (s : Stmt) :
    GoesThrough test (s.visitM (visitor test)) (s.preorder.filterMap Node.expr?) := by
  induction s using Stmt.children_induction with
  | step s ih =>
    have hwalk : GoesThrough test
        (do Expr.visitAll (visitor test) s.exprs; Stmt.visitAll (visitor test) s.children)
        (s.exprs.flatMap Expr.nodes ++
          s.children.flatMap fun c => c.preorder.filterMap Node.expr?) := by
      rw [Expr.visitAll_eq_forM, Stmt.visitAll_eq_forM]
      exact (GoesThrough.forM fun e _ => goesThrough_visitExpr test e).append (.forM ih)
    intro st
    rw [Stmt.visitM_eq, s.filterMap_preorder]
    generalize (do Expr.visitAll (visitor test) s.exprs; Stmt.visitAll (visitor test) s.children) =
      walk at hwalk
    -- a statement is passed over once there is an answer
    cases hs : st.found with
    | true => simp [visitor, hs]
    | false => simpa [visitor, hs] using hwalk st

theorem goesThrough_visit (p : Program) :
    GoesThrough test (p.visitM (visitor test)) p.exprs := by
  cases p with
  | expr e =>
    rw [Program.exprs, Program.preorder, Node.filterMap_preorder_expr]
    exact goesThrough_visitExpr test e
  | stmt s => exact goesThrough_visitStmt test s
  | func f =>
    show GoesThrough test (f.visitM _) ((f.body.elim [] Stmt.preorder).filterMap _)
    unfold Func.visitM
    cases f.body with
    | none => exact .nil
    | some body => exact goesThrough_visitStmt test body

/-- Asks about a program. -/
def ask : Program → StateT Search m Bool
  | .expr e => queryExpr test e
  | .stmt s => queryStmt test s
  | .func f => queryFunc test f

omit [LawfulMonad m] in
theorem ask_eq (p : Program) : ask test p = query (p.visitM (visitor test)) := by
  cases p <;> rfl

/-- A question is answered by the seed, or by the first sub-expression that satisfies the test. -/
theorem run_ask (p : Program) (s : Search) :
    (ask test p).run s =
      (fun found => (found, { s with found })) <$>
        if s.seed then pure true else p.exprs.anyM test := by
  have hvisit := goesThrough_visit test p s.reset
  rw [ask_eq]
  cases hs : s.seed with
  | true => simp_all [query, reset]
  | false => simp_all [query, reset]

end

/-! ### Counting the calls -/

/-- Tests the expression, and adds it to those that were tested. -/
def logged (test : Expr → Bool) (e : Expr) : StateM (List Expr) Bool := do
  modify (· ++ [e])
  return test e

/-- What is called up to and including the first match. -/
theorem run_anyM_logged (test : Expr → Bool) (es calls : List Expr) :
    (es.anyM (logged test)).run calls = (es.any test, calls ++ es.take (es.findIdx test + 1)) := by
  induction es generalizing calls with
  | nil =>
    rw [List.take_nil, List.append_nil]
    rfl
  | cons e es ih =>
    have hstep : ((e :: es).anyM (logged test)).run calls =
        if test e then (true, calls ++ [e]) else (es.anyM (logged test)).run (calls ++ [e]) := by
      rw [List.anyM_cons]
      show (if test e then pure true else es.anyM (logged test)).run (calls ++ [e]) = _
      cases test e <;> rfl
    rw [hstep]
    cases he : test e with
    | true => simp [he, List.findIdx_cons]
    | false => simp [he, List.findIdx_cons, ih]

/-! ### A search in use -/

/-- What a search can be told to do. -/
inductive Request where
  | reset
  /-- Goes through a program without starting over. -/
  | visit (p : Program)
  | ask (p : Program)

section

variable {m : Type → Type} [Monad m] (test : Expr → m Bool)

/-- Does what is asked. -/
def serve : Request → StateT Search m Unit
  | .reset => modify reset
  | .visit p => p.visitM (visitor test)
  | .ask p => discard (ask test p)

end

variable (test : Expr → Bool) (seed : Bool)

/-- A search that has been told to do all this, and the expressions it has tested. -/
def after (history : List Request) : Search × List Expr :=
  Prod.map Prod.snd id (((forM history (serve (logged test))).run (.start seed)).run [])

/-- Nothing that a search is told changes its seed. -/
theorem seed_serve (r : Request) (s : Search) (calls : List Expr) :
    (((serve (logged test) r).run s).run calls).1.2.seed = s.seed := by
  cases r with
  | reset => rfl
  | visit p =>
    show (((p.visitM (visitor (logged test))).run s).run calls).1.2.seed = s.seed
    rw [goesThrough_visit]
    cases s.found <;> rfl
  | ask p =>
    show (((ask (logged test) p).run s).run calls).1.2.seed = s.seed
    rw [run_ask, StateT.run_map]
    rfl

theorem seed_run (history : List Request) (s : Search) (calls : List Expr) :
    (((forM history (serve (logged test))).run s).run calls).1.2.seed = s.seed := by
  induction history generalizing s calls with
  | nil => rfl
  | cons r history ih =>
    rw [List.forM_cons, StateT.run_bind, StateT.run_bind]
    exact (ih _ _).trans (seed_serve test r s calls)

/-- Whatever a search was told before, it answers with its seed or with whether there is a
sub-expression that satisfies the test. It tests the sub-expressions in order up to and including
the first that does, all if none does, and none if the seed is true. -/
theorem ask_after (history : List Request) (p : Program) :
    let (s, calls) := after test seed history
    ((ask (logged test) p).run s).run calls =
      ((seed || p.exprs.any test, { s with found := seed || p.exprs.any test }),
        calls ++ if seed then [] else p.exprs.take (p.exprs.findIdx test + 1)) := by
  have hseed : (after test seed history).1.seed = seed := seed_run test history (.start seed) []
  generalize after test seed history = now at hseed
  obtain ⟨s, calls⟩ := now
  show ((ask (logged test) p).run s).run calls = _
  rw [run_ask, show s.seed = seed from hseed, StateT.run_map]
  cases seed with
  | true =>
    rw [if_pos rfl, if_pos rfl, List.append_nil]
    rfl
  | false =>
    rw [if_neg Bool.false_ne_true, if_neg Bool.false_ne_true, run_anyM_logged]
    rfl

end Search

end TensorIR
