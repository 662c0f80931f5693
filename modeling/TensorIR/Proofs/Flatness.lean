import TensorIR.Flatness
import TensorIR.Proofs.Nodes

/-! # What the check for flatness decides

Flatness is a property of nodes: of the expressions, that no index expression lies inside another
one and that every read fits its tensor; of the call statements, that they pass tensors as
variables. The check accepts a statement exactly if it is flat (`Stmt.verifyFlat_eq_ok_iff`).

**Key idea**: the check stops at the first violation, but what it stops at is the head of the list
of all violations (`Stmt.violations`), which is a plain function of the statement. So a visit notes
the head of a list, and visits one after another note the head of the lists joined.
-/

namespace TensorIR

/-! ### Flatness -/

namespace Expr

/-- No node is an index expression. -/
def IndexExprFree (e : Expr) : Prop := e.Everywhere fun n => n.isIndexExpr = false

section

variable {ty : Ty}

@[simp] theorem indexExprFree_var {v : Var} : (Expr.var ty v).IndexExprFree :=
  everywhere_var.2 rfl

@[simp] theorem indexExprFree_prim {op : Prim} {es : List Expr} :
    (Expr.prim ty op es).IndexExprFree ↔ ∀ e ∈ es, e.IndexExprFree :=
  everywhere_prim.trans (and_iff_right rfl)

@[simp] theorem indexExprFree_indexed {t : Expr} {vs : List IndexVar} :
    (Expr.indexed ty t vs).IndexExprFree ↔ t.IndexExprFree :=
  everywhere_indexed.trans (and_iff_right rfl)

@[simp] theorem not_indexExprFree_indexExpr {vs : List IndexVar} {b : Expr} :
    ¬ (Expr.indexExpr ty vs b).IndexExprFree := fun h => by cases Everywhere.root h

@[simp] theorem indexExprFree_neg {a : Expr} :
    (Expr.neg ty a).IndexExprFree ↔ a.IndexExprFree :=
  everywhere_neg.trans (and_iff_right rfl)

@[simp] theorem indexExprFree_binary {op : BinaryOp} {a b : Expr} :
    (Expr.binary ty op a b).IndexExprFree ↔ a.IndexExprFree ∧ b.IndexExprFree :=
  everywhere_binary.trans (and_iff_right rfl)

theorem IndexExprFree.isIndexExpr {e : Expr} (h : e.IndexExprFree) : e.isIndexExpr = false :=
  Everywhere.root h

end

/-- What flatness asks of a single node. -/
def FlatNode : Expr → Prop
  | .indexExpr _ _ b => b.IndexExprFree
  | .indexed _ t vs => t.isIndexExpr = false ∧ vs.length = t.ty.order
  | _ => True

/-- Every node is as flatness asks. -/
def Flat (e : Expr) : Prop := e.Everywhere FlatNode

end Expr

namespace Stmt

/-- If the statement is a call, the tensors it passes are variables. -/
def PassesVars (s : Stmt) : Prop :=
  match s with
  | .instr (.call _ _ as) => ∀ a ∈ as, a.ty.isWhole = true → a.isVar = true
  | _ => True

theorem passesVars_iff {s : Stmt} :
    s.PassesVars ↔
      (s.callee?.isSome = true → ∀ a ∈ s.exprs, a.ty.isWhole = true → a.isVar = true) := by
  unfold PassesVars callee?
  split <;> simp [exprs, Instr.exprs]

/-- The expressions of the statement itself satisfy `q`, and the tensors that it passes to a call
are variables. -/
def Consists (q : Expr → Prop) (s : Stmt) : Prop := (∀ e ∈ s.exprs, q e) ∧ s.PassesVars

theorem consists_block {q : Expr → Prop} (ss : List Stmt) : (block ss).Consists q :=
  ⟨by simp [exprs], trivial⟩

theorem consists_varDecl {q : Expr → Prop} (v : Var) : (varDecl v).Consists q :=
  ⟨by simp [exprs, Instr.exprs], trivial⟩

/-- All expressions are flat, and calls pass tensors as variables. -/
def Flat (s : Stmt) : Prop := s.Everywhere (Consists Expr.Flat)

end Stmt

/-! ### The list of violations -/

namespace Expr

/-- The violation at the node itself, if there is one. -/
def violation? (inside : Bool) (e : Expr) : Option Error :=
  match e with
  | .indexExpr _ _ _ => if inside then some (.nestedIndexExpr e.text) else none
  | .indexed _ t vs =>
    if t.isIndexExpr then some (.nestedIndexExpr e.text)
    else if vs.length != t.ty.order then some (.indexArityMismatch e.text t.ty.order vs.length)
    else none
  | _ => none

mutual

/-- The violations in an expression, in evaluation order, each node before its parts. The flag
says whether the expression stands inside an index expression. -/
def violations (inside : Bool) : Expr → List Error
  | .var _ _ => []
  | .prim _ _ es => violationsAll inside es
  | e@(.indexed _ t _) => (e.violation? inside).toList ++ t.violations inside
  | e@(.indexExpr _ _ b) => (e.violation? inside).toList ++ b.violations true
  | .neg _ a => a.violations inside
  | .binary _ _ a b => a.violations inside ++ b.violations inside

/-- The violations in several expressions, in order. -/
def violationsAll (inside : Bool) : List Expr → List Error
  | [] => []
  | e :: es => e.violations inside ++ violationsAll inside es

end

theorem violationsAll_eq (inside : Bool) (es : List Expr) :
    violationsAll inside es = es.flatMap (violations inside) := by
  induction es with
  | nil => rfl
  | cons e es ih => simp [violationsAll, ih]

/-- The violations of the parts come after the one of the node. -/
theorem violations_eq (inside : Bool) (e : Expr) :
    e.violations inside = (e.violation? inside).toList ++
      e.children.flatMap (violations (inside || e.isIndexExpr)) := by
  cases e <;> simp [violations, violation?, children, isIndexExpr, violationsAll_eq]

/-- There is no violation exactly if the expression is flat and, inside an index expression, has
no index expression in it. -/
theorem violations_eq_nil_iff {e : Expr} {inside : Bool} :
    e.violations inside = [] ↔ e.Flat ∧ (inside = true → e.IndexExprFree) := by
  unfold Flat
  induction e generalizing inside with
  | var ty v => simp [violations, FlatNode]
  | prim ty op es ih =>
    simp only [violations, violationsAll_eq, List.flatMap_eq_nil_iff, everywhere_prim, FlatNode,
      indexExprFree_prim, true_and]
    constructor
    · intro h
      exact ⟨fun e he => ((ih e he).1 (h e he)).1, fun hi e he => ((ih e he).1 (h e he)).2 hi⟩
    · rintro ⟨hflat, hfree⟩ e he
      exact (ih e he).2 ⟨hflat e he, fun hi => hfree hi e he⟩
  | indexed ty t vs ih =>
    simp only [violations, violation?, List.append_eq_nil_iff, ih, everywhere_indexed, FlatNode,
      indexExprFree_indexed]
    by_cases hi : t.isIndexExpr = true <;> by_cases hl : vs.length = t.ty.order <;> simp [hi, hl]
  | indexExpr ty vs b ih =>
    simp only [violations, violation?, List.append_eq_nil_iff, ih, everywhere_indexExpr, FlatNode,
      not_indexExprFree_indexExpr]
    cases inside <;> simp [and_comm]
  | neg ty a ih => simp [violations, ih, FlatNode]
  | binary ty op a b iha ihb =>
    simp only [violations, List.append_eq_nil_iff, iha, ihb, everywhere_binary, FlatNode,
      indexExprFree_binary, true_and]
    tauto

end Expr

namespace Stmt

/-- The violation at the statement itself, if there is one. -/
def violation? (s : Stmt) : Option Error :=
  (FlatnessCheck.unspilled? s).map fun (callee, operand) =>
    .unspilledOperand callee.name operand.text

/-- The violations in a statement, in evaluation order: what a call passes, then what is in the
expressions, then what is in the statements inside. -/
def violations (s : Stmt) : List Error :=
  s.nodes.flatMap fun n => n.violation?.toList ++ n.exprs.flatMap (Expr.violations false)

theorem violations_eq (s : Stmt) :
    s.violations = s.violation?.toList ++
      (s.exprs.flatMap (Expr.violations false) ++ s.children.flatMap violations) := by
  unfold violations
  rw [nodes_eq, List.flatMap_cons, List.flatMap_assoc, List.append_assoc]

/-- A call has no violation of its own exactly if it passes tensors as variables. -/
theorem violation?_eq_none_iff {s : Stmt} : s.violation? = none ↔ s.PassesVars := by
  unfold violation? FlatnessCheck.unspilled? PassesVars
  split <;> simp

/-- There is no violation exactly if the statement is flat. -/
theorem violations_eq_nil_iff {s : Stmt} : s.violations = [] ↔ s.Flat := by
  simp only [violations, Flat, Everywhere, Consists, List.flatMap_eq_nil_iff,
    List.append_eq_nil_iff, Option.toList_eq_nil_iff, violation?_eq_none_iff,
    Expr.violations_eq_nil_iff, Bool.false_eq_true, false_implies, and_true]
  exact forall₂_congr fun n _ => and_comm

end Stmt

/-! ### The check finds the first violation -/

namespace FlatnessCheck

/-- The check after it has met violations, in order. -/
def noting (c : FlatnessCheck) (vs : List Error) : FlatnessCheck :=
  { c with violation := c.violation.or vs.head? }

theorem noting_append (c : FlatnessCheck) (us vs : List Error) :
    c.noting (us ++ vs) = (c.noting us).noting vs := by
  simp [noting, List.head?_append, Option.or_assoc]

theorem noting_of_violation {c : FlatnessCheck} (h : c.violation.isSome = true)
    (vs : List Error) : c.noting vs = c := by
  obtain ⟨e, he⟩ := Option.isSome_iff_exists.1 h
  cases c
  cases he
  rfl

/-- Inside an index expression or outside, the visit notes the given violations. -/
def Notes (inside : Bool) (act : StateM FlatnessCheck Unit) (vs : List Error) : Prop :=
  ∀ c, decide (0 < c.depth) = inside → act.run c = ((), c.noting vs)

variable {inside : Bool}

theorem Notes.nil : Notes inside (pure ()) [] := by
  intro c _
  rw [noting, List.head?_nil, Option.or_none]
  rfl

theorem Notes.append {a b : StateM FlatnessCheck Unit} {us vs : List Error}
    (ha : Notes inside a us) (hb : Notes inside b vs) :
    Notes inside (do a; b) (us ++ vs) := by
  intro c hc
  rw [noting_append]
  show b.run (a.run c).2 = _
  rw [ha c hc]
  exact hb _ hc

theorem Notes.forM {α : Type} {f : α → StateM FlatnessCheck Unit} {us : α → List Error}
    {as : List α} (h : ∀ a ∈ as, Notes inside (f a) (us a)) :
    Notes inside (forM as f) (as.flatMap us) := by
  induction as with
  | nil => exact .nil
  | cons a as ih => exact (h a (by simp)).append (ih fun a' ha' => h a' (by simp [ha']))

/-- A node after the first violation is passed over. -/
theorem run_visitExpr_of_violation {e : Expr} {c : FlatnessCheck}
    (h : c.violation.isSome = true) : (e.visitM visitor).run c = ((), c) := by
  rw [Expr.visitM_eq]
  simp only [visitor, StateT.run_bind, StateT.run_get, pure_bind, h, if_true]
  rfl

/-- A node with a violation is reported, and its parts are passed over. -/
theorem noting_report (c : FlatnessCheck) (h : c.violation = none) (e : Error) (vs : List Error) :
    (report e).run c = ((), c.noting (e :: vs)) := by
  simp [report, noting, h]
  rfl

/-- A visit notes the violations of the node, then those of its parts. -/
theorem notes_visitExpr (inside : Bool) (e : Expr) :
    Notes inside (e.visitM visitor) (e.violations inside) := by
  induction e using Expr.children_induction generalizing inside with
  | step e ih =>
    intro c hc
    by_cases hv : c.violation.isSome = true
    · rw [run_visitExpr_of_violation hv, noting_of_violation hv]
    have hnone : c.violation = none := by simpa using hv
    have hwalk : ∀ inside, Notes inside (Expr.visitAll visitor e.children)
        (e.children.flatMap (Expr.violations inside)) := fun inside => by
      rw [Expr.visitAll_eq_forM]
      exact .forM fun c hc => ih c hc inside
    rw [Expr.visitM_eq, Expr.violations_eq]
    generalize Expr.visitAll visitor e.children = walk at hwalk
    cases e with
    | indexed ty t vs =>
      have h := hwalk inside c hc
      have hroot : (Expr.indexed ty t vs).isIndexExpr = false := rfl
      by_cases hi : t.isIndexExpr = true
      · simpa [visitor, hnone, hi, Expr.violation?] using noting_report c hnone _ _
      by_cases hl : vs.length = t.ty.order
      · simpa [visitor, hnone, hi, hl, Expr.violation?, hroot] using h
      · simpa [visitor, hnone, hi, hl, Expr.violation?] using noting_report c hnone _ _
    | indexExpr ty vs b =>
      by_cases hd : 0 < c.depth
      · have hinside : inside = true := by simpa [hd] using hc.symm
        simpa [visitor, hnone, hd, hinside, Expr.violation?] using noting_report c hnone _ _
      · have hinside : inside = false := by simpa [hd] using hc.symm
        -- the body is one level deeper, and the level is left again after it
        have hrun : (visitor.expr (.indexExpr ty vs b) walk).run c =
            let after := (walk.run { c with depth := c.depth + 1 }).2
            ((), { after with depth := after.depth - 1 }) := by
          simp [visitor, hnone, hd]
          rfl
        rw [hrun, hwalk true { c with depth := c.depth + 1 } (by simp)]
        simp [noting, hinside, Expr.violation?, Expr.isIndexExpr]
    | _ =>
      have h := hwalk inside c hc
      simpa [visitor, hnone, Expr.violation?, Expr.isIndexExpr] using h

/-- A visit notes what the statement passes, then what is in its parts. -/
theorem notes_visitStmt (s : Stmt) : Notes false (s.visitM visitor) s.violations := by
  induction s using Stmt.children_induction with
  | step s ih =>
    have hwalk : Notes false (do Expr.visitAll visitor s.exprs; Stmt.visitAll visitor s.children)
        (s.exprs.flatMap (Expr.violations false) ++ s.children.flatMap Stmt.violations) := by
      rw [Expr.visitAll_eq_forM, Stmt.visitAll_eq_forM]
      exact (Notes.forM fun e _ => notes_visitExpr false e).append (.forM ih)
    intro c hc
    rw [Stmt.visitM_eq, Stmt.violations_eq]
    by_cases hv : c.violation.isSome = true
    · rw [noting_of_violation hv]
      simp only [visitor, StateT.run_bind, StateT.run_get, pure_bind, hv, if_true]
      rfl
    have hnone : c.violation = none := by simpa using hv
    cases hu : unspilled? s with
    | none => simpa [visitor, hnone, hu, Stmt.violation?] using hwalk c hc
    | some p => simpa [visitor, hnone, hu, Stmt.violation?] using noting_report c hnone _ _

end FlatnessCheck

namespace Stmt

/-- The check finds the first violation. -/
theorem flatnessViolation?_eq (s : Stmt) : s.flatnessViolation? = s.violations.head? := by
  show ((s.visitM FlatnessCheck.visitor).run {}).2.violation = _
  rw [FlatnessCheck.notes_visitStmt s {} rfl]
  exact Option.none_or

/-- The check accepts exactly the flat statements. -/
theorem verifyFlat_eq_ok_iff {s : Stmt} : s.verifyFlat = .ok () ↔ s.Flat := by
  rw [← violations_eq_nil_iff, verifyFlat, flatnessViolation?_eq]
  cases s.violations <;> simp

end Stmt

/-- Whatever a check has met before, a query of a statement finds the first of its violations and
leaves the check as new. There is none exactly if the statement is flat, and the first one is what
failing on statements that are not flat fails with. -/
theorem FlatnessCheck.queryStmt_decides (s : Stmt) (c : FlatnessCheck) :
    (queryStmt s).run c = (s.violations.head?, {}) ∧
      (s.violations.head? = none ↔ s.Flat) ∧
      s.verifyFlat = s.violations.head?.elim (.ok ()) .error := by
  refine ⟨?_, ?_, ?_⟩
  · -- the query starts over, so the visit is one of a new check outside all index expressions
    have hvisit : (s.visitM visitor).run {} = ((), noting {} s.violations) :=
      notes_visitStmt s {} rfl
    show (((s.visitM visitor).run {}).2.violation,
      { ((s.visitM visitor).run {}).2 with violation := none }) = _
    rw [hvisit]
    rfl
  · rw [List.head?_eq_none_iff, Stmt.violations_eq_nil_iff]
  · rw [Stmt.verifyFlat, Stmt.flatnessViolation?_eq]
    cases s.violations <;> rfl

end TensorIR
