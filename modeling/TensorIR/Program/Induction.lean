import TensorIR.Program

/-! # Induction over programs

Expressions contain lists of operands and blocks contain lists of statements, so the plain
recursors speak about lists as well. The principles here speak about expressions (or
statements) alone: for a list of parts one may assume the claim of each member. They stop at
callees: the body of a called function is not a part of the calling expression.
-/

namespace TensorIR

set_option linter.unusedSectionVars false

section Expr

variable {motive : Expr → Prop}
  (var : ∀ ty v, motive (.var ty v))
  (prim : ∀ ty op operands, (∀ e ∈ operands, motive e) → motive (.prim ty op operands))
  (indexed : ∀ ty tensor vars, motive tensor → motive (.indexed ty tensor vars))
  (indexExpr : ∀ ty vars body, motive body → motive (.indexExpr ty vars body))
  (neg : ∀ ty operand, motive operand → motive (.neg ty operand))
  (binary : ∀ ty op lhs rhs, motive lhs → motive rhs → motive (.binary ty op lhs rhs))

include var prim indexed indexExpr neg binary

mutual

/-- Induction over an expression and its parts. -/
@[elab_as_elim, induction_eliminator]
theorem Expr.induction : ∀ e, motive e
  | .var ty v => var ty v
  | .prim ty op operands => prim ty op operands (Expr.induction_mem operands)
  | .indexed ty tensor vars => indexed ty tensor vars (Expr.induction tensor)
  | .indexExpr ty vars body => indexExpr ty vars body (Expr.induction body)
  | .neg ty operand => neg ty operand (Expr.induction operand)
  | .binary ty op lhs rhs =>
    binary ty op lhs rhs (Expr.induction lhs) (Expr.induction rhs)

theorem Expr.induction_mem : ∀ (es : List Expr), ∀ e ∈ es, motive e
  | [], _, h => nomatch h
  | a :: as, e, h =>
    match List.mem_cons.1 h with
    | .inl h => h ▸ Expr.induction a
    | .inr h => Expr.induction_mem as e h

end

end Expr

section Stmt

variable {motive : Stmt → Prop}
  (instr : ∀ i, motive (.instr i))
  (forLoop : ∀ v domain body, motive body → motive (.forLoop v domain body))
  (ifThenElse : ∀ condition thenBody elseBody, motive thenBody → (∀ s ∈ elseBody, motive s) →
    motive (.ifThenElse condition thenBody elseBody))
  (block : ∀ stmts, (∀ s ∈ stmts, motive s) → motive (.block stmts))

include instr forLoop ifThenElse block

mutual

/-- Induction over a statement and the statements inside it. -/
@[elab_as_elim, induction_eliminator]
theorem Stmt.induction : ∀ s, motive s
  | .instr i => instr i
  | .forLoop v domain body => forLoop v domain body (Stmt.induction body)
  | .ifThenElse condition thenBody elseBody =>
    ifThenElse condition thenBody elseBody (Stmt.induction thenBody)
      (Stmt.induction_option elseBody)
  | .block stmts => block stmts (Stmt.induction_mem stmts)

theorem Stmt.induction_mem : ∀ (ss : List Stmt), ∀ s ∈ ss, motive s
  | [], _, h => nomatch h
  | a :: as, s, h =>
    match List.mem_cons.1 h with
    | .inl h => h ▸ Stmt.induction a
    | .inr h => Stmt.induction_mem as s h

theorem Stmt.induction_option : ∀ (o : Option Stmt), ∀ s ∈ o, motive s
  | none, _, h => nomatch h
  | some a, _, h => Option.some.inj h ▸ Stmt.induction a

end

end Stmt

end TensorIR
