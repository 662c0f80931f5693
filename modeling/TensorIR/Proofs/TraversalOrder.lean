import TensorIR.Proofs.Sharing

/-! # The order of traversals

Visitors and transforms are written apart, but go through a program in one order: each node before
its parts, the operands of an expression and the expressions of a statement in the order of their
evaluation, and after them the statements inside the statement.

**Key idea**: what a traversal does on its way is an action at each node before the walk over its
parts (`Visitor.noting`, `Transform.noting`). In every monad that comes to the action at the nodes
of one list (`Program.visitM_noting`, `Program.transformM_noting`). Recording the nodes is one such
action; to reject some of them is another, which ends the traversal.
-/

namespace TensorIR

/-! ### The nodes of a program in order -/

/-- The expressions of an instruction with all that is inside them, in evaluation order. A map
evaluates its partial actuals first. -/
def Instr.nodes : Instr → List Expr
  | .assign _ e => e.nodes
  | .call _ _ as => as.flatMap Expr.nodes
  | .map _ _ target neighbors partials _ =>
    partials.flatMap Expr.nodes ++ target.nodes ++ neighbors.elim [] Expr.nodes
  | .fieldWrite target _ value => target.nodes ++ value.nodes
  | .tensorWrite tensor indices value =>
    tensor.nodes ++ indices.flatMap Expr.nodes ++ value.nodes
  | .store buffer index value => buffer.nodes ++ index.nodes ++ value.nodes
  | .pass | .varDecl _ => []

/-- The bounds of a loop with all that is inside them. -/
def LoopDomain.nodes : LoopDomain → List Expr
  | .dim _ => []
  | .range start stop => start.nodes ++ stop.nodes

mutual

/-- The statement, its expressions with all that is inside them, and then the statements inside it
in the same way. -/
def Stmt.preorder : Stmt → List Node
  | s@(.instr i) => .stmt s :: i.nodes.map .expr
  | s@(.forLoop _ d body) => .stmt s :: (d.nodes.map .expr ++ body.preorder)
  | s@(.ifThenElse c t none) => .stmt s :: (c.nodes.map .expr ++ t.preorder)
  | s@(.ifThenElse c t (some e)) => .stmt s :: (c.nodes.map .expr ++ t.preorder ++ e.preorder)
  | s@(.block ss) => .stmt s :: Stmt.preorderAll ss

/-- The same for several statements, in order. -/
def Stmt.preorderAll : List Stmt → List Node
  | [] => []
  | s :: ss => s.preorder ++ Stmt.preorderAll ss

end

theorem Instr.nodes_eq (i : Instr) : i.nodes = i.exprs.flatMap Expr.nodes := by
  cases i with
  | map rs f target neighbors partials red => cases neighbors <;> simp [nodes, exprs]
  | _ => simp [nodes, exprs]

theorem LoopDomain.nodes_eq (d : LoopDomain) : d.nodes = d.exprs.flatMap Expr.nodes := by
  cases d <;> simp [nodes, exprs]

theorem Stmt.preorderAll_eq (ss : List Stmt) : preorderAll ss = ss.flatMap preorder := by
  induction ss with
  | nil => rfl
  | cons s ss ih => rw [preorderAll, ih, List.flatMap_cons]

theorem Stmt.preorder_eq (s : Stmt) :
    s.preorder =
      .stmt s :: ((s.exprs.flatMap Expr.nodes).map .expr ++ s.children.flatMap preorder) := by
  cases s with
  | instr i => simp [preorder, exprs, children, Instr.nodes_eq]
  | forLoop v d body => simp [preorder, exprs, children, LoopDomain.nodes_eq]
  | ifThenElse c t e => cases e <;> simp [preorder, exprs, children]
  | block ss => simp [preorder, exprs, children, preorderAll_eq]

namespace Node

/-- The node with all that is inside it, each node before its parts. -/
def preorder : Node → List Node
  | expr e => e.nodes.map expr
  | stmt s => s.preorder

theorem preorder_eq (n : Node) : n.preorder = n :: n.parts.flatMap preorder := by
  cases n with
  | expr e => simp [preorder, parts, e.nodes_eq, List.flatMap_map, List.map_flatMap]
  | stmt s =>
    simp [preorder, parts, s.preorder_eq, List.flatMap_map, List.map_flatMap, List.flatMap_append]

end Node

/-- What can be gone through. -/
inductive Program where
  | expr (e : Expr)
  | stmt (s : Stmt)
  /-- Of a function, its body. -/
  | func (f : Func)

/-- The nodes of a program, each before its parts. A function without a body has none. -/
def Program.preorder : Program → List Node
  | .expr e => (Node.expr e).preorder
  | .stmt s => (Node.stmt s).preorder
  | .func f => f.body.elim [] Stmt.preorder

/-! ### Visits -/

section

variable {m : Type → Type} [Monad m]

/-- What a visitor does at a node, given the walk over its parts. -/
def Visitor.node (v : Visitor m) : Node → m Unit → m Unit
  | .expr e => v.expr e
  | .stmt s => v.stmt s

/-- Visits the node. -/
def Node.visitM (v : Visitor m) : Node → m Unit
  | expr e => e.visitM v
  | stmt s => s.visitM v

/-- Visits the program. -/
def Program.visitM (v : Visitor m) : Program → m Unit
  | expr e => e.visitM v
  | stmt s => s.visitM v
  | func f => f.visitM v

variable [LawfulMonad m]

/-- At every node a visitor is handed the visits of the parts. -/
theorem Node.visitM_eq (v : Visitor m) (n : Node) :
    n.visitM v = v.node n (forM n.parts (visitM v)) := by
  cases n with
  | expr e =>
    show e.visitM v = _
    rw [Expr.visitM_eq, Expr.visitAll_eq_forM, parts, List.forM_map]
    rfl
  | stmt s =>
    show s.visitM v = _
    rw [Stmt.visitM_eq, Expr.visitAll_eq_forM, Stmt.visitAll_eq_forM, parts, List.forM_append,
      List.forM_map, List.forM_map]
    rfl

/-- Acts at every node, and then goes on into its parts. -/
def Visitor.noting (note : Node → m Unit) : Visitor m where
  expr e walk := do note (.expr e); walk
  stmt s walk := do note (.stmt s); walk

/-- Transforms the program. -/
def Program.transformM (r : Transform m) (newId : m Nat) : Program → m (Transformed Program)
  | expr e => do
    let out ← e.transformM r
    return ⟨expr out.value, out.changed⟩
  | stmt s => do
    let out ← s.transformM r
    return ⟨stmt out.value, out.changed⟩
  | func f => do
    let out ← f.transformM r newId
    return ⟨func out.value, out.changed⟩

/-- Acts at every node, and then goes on into its parts. -/
def Transform.noting (note : Node → m Unit) : Transform m where
  expr e walk := do note (.expr e); walk
  stmt s walk := do note (.stmt s); walk

/-- One after another, elements are acted on and kept. -/
theorem Transformed.mapM'_keep {α : Type} {note : Node → m Unit} (nodes : α → List Node)
    {f : α → m (Transformed α)} {as : List α}
    (h : ∀ a ∈ as, f a = do forM (nodes a) note; return .keep a) :
    as.mapM' f = do forM (as.flatMap nodes) note; return as.map .keep := by
  induction as with
  | nil => simp
  | cons a as ih =>
    rw [List.mapM'_cons, h a (by simp), ih fun a' ha' => h a' (by simp [ha']), List.flatMap_cons,
      List.forM_append]
    simp

theorem Expr.transformM_noting (note : Node → m Unit) (e : Expr) :
    e.transformM (.noting note) = do
      forM (e.nodes.map Node.expr) note
      return .keep e := by
  induction e using children_induction with
  | step e ih =>
    have hkeep : e.rebuild (e.children.map .keep) = .keep e := by
      simp [rebuild, Transformed.anyChanged]
    have hparts := Transformed.mapM'_keep (fun e : Expr => e.nodes.map Node.expr) ih
    rw [transformM_eq, walkM, transformAll_eq_mapM', hparts, nodes_eq, List.map_cons,
      List.forM_cons, List.map_flatMap]
    simp [Transform.noting, hkeep]

theorem Stmt.transformM_noting (note : Node → m Unit) (s : Stmt) :
    s.transformM (.noting note) = do
      forM s.preorder note
      return .keep s := by
  induction s using children_induction with
  | step s ih =>
    have hexprs := Transformed.mapM'_keep (fun e : Expr => e.nodes.map Node.expr)
      fun e (_ : e ∈ s.exprs) => Expr.transformM_noting note e
    have hinner := Transformed.mapM'_keep preorder ih
    rw [transformM_eq, walkM, Expr.transformAll_eq_mapM', hexprs, transformAll_eq_mapM', hinner,
      preorder_eq, List.forM_cons, List.forM_append, List.map_flatMap]
    simp [Transform.noting, rebuild_keep]

/-- Whatever is done at the nodes, it is done in order, and the program is kept. -/
theorem Program.transformM_noting (note : Node → m Unit) (newId : m Nat) (p : Program) :
    p.transformM (.noting note) newId = do
      forM p.preorder note
      return .keep p := by
  cases p with
  | expr e =>
    rw [transformM, Expr.transformM_noting]
    simp [Transformed.keep, preorder, Node.preorder]
  | stmt s =>
    rw [transformM, Stmt.transformM_noting]
    simp [Transformed.keep, preorder, Node.preorder]
  | func f =>
    rw [transformM, Func.transformM, preorder]
    cases f.body with
    | none => simp [Transformed.keep]
    | some body =>
      simp only [Stmt.transformM_noting]
      simp [Transformed.keep]

end

/-! ### Recording and rejecting -/

/-- Adds the node to those that were met. -/
def Node.record (n : Node) : StateM (List Node) Unit := modify (· ++ [n])

/-- Records the node, and fails there if it is rejected. -/
def Node.check {ε : Type} (reject? : Node → Option ε) (n : Node) :
    ExceptT ε (StateM (List Node)) Unit := do
  n.record
  match reject? n with
  | some err => throw err
  | none => return

namespace Program

variable {ε : Type} (reject? : Node → Option ε) (p : Program)

/-- The nodes that are offered to a transform, in the order in which it meets them. The program is
kept, so no identity of a new function is ever drawn. -/
def transformed : List Node := ((p.transformM (.noting Node.record) (pure 0)).run []).2

end Program

end TensorIR
