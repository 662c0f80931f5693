import Mathlib.Data.List.Basic
import TensorIR.Program.Induction
import TensorIR.Search
import TensorIR.Transform

/-! # The nodes of a program

Most properties of programs say something about every node: that each node is well shaped, that
no node sums over an index. This module lists the nodes of an expression, and the expressions of
a statement with all that is inside it.

**Key idea**: a property of all nodes is one of the root and of all nodes of the parts
(`Expr.everywhere_iff`), so a proof goes down the tree without naming the constructors. Searching
an expression finds exactly what its list of nodes contains (`Expr.any_eq`).
-/

namespace TensorIR

/-! ### Nodes of an expression -/

namespace Expr

mutual

/-- The sub-expressions of an expression, each before those inside it. -/
def nodes : Expr → List Expr
  | e@(.var _ _) => [e]
  | e@(.prim _ _ es) => e :: nodesAll es
  | e@(.indexed _ t _) => e :: t.nodes
  | e@(.indexExpr _ _ b) => e :: b.nodes
  | e@(.neg _ a) => e :: a.nodes
  | e@(.binary _ _ a b) => e :: (a.nodes ++ b.nodes)

/-- The sub-expressions of several expressions, in order. -/
def nodesAll : List Expr → List Expr
  | [] => []
  | e :: es => e.nodes ++ nodesAll es

end

theorem nodesAll_eq (es : List Expr) : nodesAll es = es.flatMap nodes := by
  induction es with
  | nil => rfl
  | cons e es ih => simp [nodesAll, ih]

/-- The nodes are the root and the nodes of the parts. -/
theorem nodes_eq (e : Expr) : e.nodes = e :: e.children.flatMap nodes := by
  cases e <;> simp [nodes, children, nodesAll_eq]

/-- Every node satisfies `p`. -/
def Everywhere (p : Expr → Prop) (e : Expr) : Prop := ∀ n ∈ e.nodes, p n

instance (p : Expr → Prop) [DecidablePred p] (e : Expr) : Decidable (e.Everywhere p) :=
  inferInstanceAs (Decidable (∀ n ∈ e.nodes, p n))

section

variable {p q : Expr → Prop}

/-- A property of all nodes is one of the root and of all nodes of the parts. -/
theorem everywhere_iff {e : Expr} :
    e.Everywhere p ↔ p e ∧ ∀ c ∈ e.children, c.Everywhere p := by
  unfold Everywhere
  rw [nodes_eq, List.forall_mem_cons, List.forall_mem_flatMap]

theorem Everywhere.root {e : Expr} (h : e.Everywhere p) : p e := (everywhere_iff.1 h).1

theorem Everywhere.child {e c : Expr} (h : e.Everywhere p) (hc : c ∈ e.children) :
    c.Everywhere p :=
  (everywhere_iff.1 h).2 c hc

theorem Everywhere.imp {e : Expr} (h : e.Everywhere p) (hpq : ∀ n, p n → q n) :
    e.Everywhere q :=
  fun n hn => hpq n (h n hn)

@[simp] theorem everywhere_var {ty : Ty} {v : Var} :
    (Expr.var ty v).Everywhere p ↔ p (.var ty v) := by
  simp [everywhere_iff (e := .var ty v), children]

@[simp] theorem everywhere_prim {ty : Ty} {op : Prim} {es : List Expr} :
    (Expr.prim ty op es).Everywhere p ↔
      p (.prim ty op es) ∧ ∀ e ∈ es, e.Everywhere p := by
  simp [everywhere_iff (e := .prim ty op es), children]

@[simp] theorem everywhere_indexed {ty : Ty} {t : Expr} {vs : List IndexVar} :
    (Expr.indexed ty t vs).Everywhere p ↔ p (.indexed ty t vs) ∧ t.Everywhere p := by
  simp [everywhere_iff (e := .indexed ty t vs), children]

@[simp] theorem everywhere_indexExpr {ty : Ty} {vs : List IndexVar} {b : Expr} :
    (Expr.indexExpr ty vs b).Everywhere p ↔ p (.indexExpr ty vs b) ∧ b.Everywhere p := by
  simp [everywhere_iff (e := .indexExpr ty vs b), children]

@[simp] theorem everywhere_neg {ty : Ty} {a : Expr} :
    (Expr.neg ty a).Everywhere p ↔ p (.neg ty a) ∧ a.Everywhere p := by
  simp [everywhere_iff (e := .neg ty a), children]

@[simp] theorem everywhere_binary {ty : Ty} {op : BinaryOp} {a b : Expr} :
    (Expr.binary ty op a b).Everywhere p ↔
      p (.binary ty op a b) ∧ a.Everywhere p ∧ b.Everywhere p := by
  simp [everywhere_iff (e := .binary ty op a b), children]

end

/-- Induction from the parts of a node to the node. -/
theorem children_induction {motive : Expr → Prop}
    (step : ∀ e, (∀ c ∈ e.children, motive c) → motive e) (e : Expr) : motive e := by
  induction e with
  | var ty v => exact step _ (by simp [children])
  | prim ty op es ih => exact step (.prim ty op es) ih
  | indexed ty t vs ih => exact step _ (by simpa [children] using ih)
  | indexExpr ty vs b ih => exact step _ (by simpa [children] using ih)
  | neg ty a ih => exact step _ (by simpa [children] using ih)
  | binary ty op a b iha ihb => exact step _ (by simpa [children] using ⟨iha, ihb⟩)

/-- A node takes as many parts as it has. -/
theorem children_withChildren {e : Expr} {es : List Expr} (h : es.length = e.children.length) :
    (e.withChildren es).children = es := by
  cases e with
  | var ty v => rw [List.length_eq_zero_iff.1 h]; rfl
  | prim ty op as => rfl
  | binary ty op a b => obtain ⟨a', b', rfl⟩ := List.length_eq_two.1 h; rfl
  | _ => obtain ⟨a', rfl⟩ := List.length_eq_one_iff.1 h; rfl

end Expr

/-! ### Searching and listing agree -/

section

variable {m : Type → Type} [Monad m] (v : Visitor m)

/-- Expressions are visited one after another. -/
theorem Expr.visitAll_eq_forM (es : List Expr) : visitAll v es = forM es (visitM v) := by
  induction es with
  | nil => rfl
  | cons e es ih => rw [visitAll, ih, List.forM_cons]

/-- Statements are visited one after another. -/
theorem Stmt.visitAll_eq_forM (ss : List Stmt) : visitAll v ss = forM ss (visitM v) := by
  induction ss with
  | nil => rfl
  | cons s ss ih => rw [visitAll, ih, List.forM_cons]

end

namespace Search

variable {m : Type → Type} [Monad m] [LawfulMonad m] (test : Expr → m Bool)

/-- The visit tests the given expressions in order, up to the first that satisfies the test. It tests
none if there is an answer already. -/
def GoesThrough (act : StateT Search m Unit) (es : List Expr) : Prop :=
  ∀ s, act.run s =
    if s.found then pure ((), s) else (fun found => ((), { s with found })) <$> es.anyM test

variable {test}

theorem GoesThrough.nil : GoesThrough test (pure ()) [] := by
  rintro ⟨seed, _ | _⟩ <;> simp

/-- One list is gone through after the other, unless there is a match in the first. -/
theorem anyM_append (es fs : List Expr) :
    (es ++ fs).anyM test =
      (do if ← es.anyM test then pure true else fs.anyM test) := by
  induction es with
  | nil => simp
  | cons e es ih =>
    rw [List.cons_append, List.anyM_cons, List.anyM_cons, ih, bind_assoc]
    refine bind_congr fun found => ?_
    cases found <;> simp

theorem GoesThrough.append {a b : StateT Search m Unit} {es fs : List Expr}
    (ha : GoesThrough test a es) (hb : GoesThrough test b fs) :
    GoesThrough test (do a; b) (es ++ fs) := by
  intro s
  rw [StateT.run_bind, ha s, anyM_append]
  cases hs : s.found with
  | true => simpa [hs] using hb s
  | false =>
    simp only [Bool.false_eq_true, if_false, bind_map_left, map_bind]
    refine bind_congr fun found => ?_
    -- the second visit starts from what the first has found
    cases found with
    | true => simpa using hb ⟨s.seed, true⟩
    | false => simpa using hb ⟨s.seed, false⟩

theorem GoesThrough.forM {α : Type} {f : α → StateT Search m Unit} {nodes : α → List Expr}
    {as : List α} (h : ∀ a ∈ as, GoesThrough test (f a) (nodes a)) :
    GoesThrough test (forM as f) (as.flatMap nodes) := by
  induction as with
  | nil => exact .nil
  | cons a as ih =>
    rw [List.forM_cons, List.flatMap_cons]
    exact (h a (by simp)).append (ih fun a' ha' => h a' (by simp [ha']))

variable (test)

/-- A search goes through the nodes of an expression. -/
theorem goesThrough_visitExpr (e : Expr) :
    GoesThrough test (e.visitM (visitor test)) e.nodes := by
  induction e using Expr.children_induction with
  | step e ih =>
    have hwalk : GoesThrough test (Expr.visitAll (visitor test) e.children)
        (e.children.flatMap Expr.nodes) := by
      rw [Expr.visitAll_eq_forM]
      exact .forM ih
    intro s
    rw [Expr.visitM_eq, Expr.nodes_eq]
    generalize Expr.visitAll (visitor test) e.children = walk at hwalk
    -- the search has its answer before the node, finds it at the node, or goes on into its parts
    cases hs : s.found with
    | true => simp [visitor, hs]
    | false =>
      simp only [visitor, StateT.run_bind, StateT.run_get, pure_bind, hs, Bool.false_eq_true, if_false,
        StateT.run_monadLift, monadLift_self, bind_pure_comp, bind_map_left, List.anyM_cons,
        map_bind]
      refine bind_congr fun found => ?_
      cases found with
      | true => simp
      | false => simpa [hs] using hwalk s

end Search

namespace Expr

/-- A search finds an expression that satisfies the test exactly if some node does. -/
theorem any_eq (test : Expr → Bool) (e : Expr) : e.any test = e.nodes.any test := by
  have h := Search.goesThrough_visitExpr (m := Id) (fun e => pure (test e)) e (.start false)
  rw [List.anyM_pure] at h
  show (Id.run ((e.visitM (Search.visitor fun e => pure (test e))).run (.start false))).2.found = _
  rw [h]
  rfl

/-- The answer for an expression is the one for its root or for one of its parts. -/
theorem containsIndexed_eq (e : Expr) :
    e.containsIndexed = (e.isIndexed || e.isIndexExpr || e.children.any containsIndexed) := by
  have hparts : e.children.any containsIndexed
      = (e.children.flatMap nodes).any fun n => n.isIndexed || n.isIndexExpr := by
    rw [List.any_flatMap]
    exact congrArg _ (funext fun c => any_eq _ c)
  rw [hparts, containsIndexed, any_eq, nodes_eq, List.any_cons]

@[simp] theorem containsIndexed_var (ty : Ty) (v : Var) :
    (var ty v).containsIndexed = false := containsIndexed_eq _

@[simp] theorem containsIndexed_prim (ty : Ty) (op : Prim) (es : List Expr) :
    (prim ty op es).containsIndexed = es.any containsIndexed := containsIndexed_eq _

theorem any_containsIndexed_map {es : List Expr} {f : Expr → Expr}
    (h : ∀ e ∈ es, (f e).containsIndexed = e.containsIndexed) :
    (es.map f).any containsIndexed = es.any containsIndexed := by
  rw [List.any_map, Bool.eq_iff_iff, List.any_eq_true, List.any_eq_true]
  exact exists_congr fun e => and_congr_right fun he => by rw [Function.comp, h e he]

@[simp] theorem containsIndexed_indexed (ty : Ty) (t : Expr) (vs : List IndexVar) :
    (indexed ty t vs).containsIndexed = true := containsIndexed_eq _

@[simp] theorem containsIndexed_indexExpr (ty : Ty) (vs : List IndexVar) (b : Expr) :
    (indexExpr ty vs b).containsIndexed = true := containsIndexed_eq _

@[simp] theorem containsIndexed_neg (ty : Ty) (a : Expr) :
    (neg ty a).containsIndexed = a.containsIndexed := by
  rw [containsIndexed_eq]
  exact Bool.or_false _

@[simp] theorem containsIndexed_binary (ty : Ty) (op : BinaryOp) (a b : Expr) :
    (binary ty op a b).containsIndexed = (a.containsIndexed || b.containsIndexed) := by
  rw [containsIndexed_eq]
  exact congrArg (a.containsIndexed || ·) (Bool.or_false _)

/-- An expression reads no tensor through index variables if no node of it does. -/
theorem containsIndexed_eq_false_iff {e : Expr} :
    e.containsIndexed = false ↔
      e.Everywhere fun n => n.isIndexed = false ∧ n.isIndexExpr = false := by
  simp [containsIndexed, any_eq, Everywhere]

end Expr

/-! ### Expressions of a statement -/

namespace Stmt

mutual

/-- The expressions that a statement and the statements inside it evaluate. -/
def allExprs : Stmt → List Expr
  | .instr i => i.exprs
  | .forLoop _ d body => d.exprs ++ body.allExprs
  | .ifThenElse c t none => c :: t.allExprs
  | .ifThenElse c t (some e) => c :: (t.allExprs ++ e.allExprs)
  | .block ss => allExprsAll ss

/-- The expressions that several statements evaluate, in order. -/
def allExprsAll : List Stmt → List Expr
  | [] => []
  | s :: ss => s.allExprs ++ allExprsAll ss

end

theorem allExprsAll_eq (ss : List Stmt) : allExprsAll ss = ss.flatMap allExprs := by
  induction ss with
  | nil => rfl
  | cons s ss ih => simp [allExprsAll, ih]

/-- A statement evaluates its own expressions and those of the statements inside it. -/
theorem allExprs_eq (s : Stmt) : s.allExprs = s.exprs ++ s.children.flatMap allExprs := by
  cases s with
  | ifThenElse c t e => cases e <;> simp [allExprs, exprs, children]
  | _ => simp [allExprs, exprs, children, allExprsAll_eq]

/-- Every expression of the statement and of the statements inside it satisfies `p`. -/
def ForExprs (p : Expr → Prop) (s : Stmt) : Prop := ∀ e ∈ s.allExprs, p e

instance (p : Expr → Prop) [DecidablePred p] (s : Stmt) : Decidable (s.ForExprs p) :=
  inferInstanceAs (Decidable (∀ e ∈ s.allExprs, p e))

/-- A property of all expressions is one of the statement's own and of those inside. -/
theorem forExprs_iff {p : Expr → Prop} {s : Stmt} :
    s.ForExprs p ↔ (∀ e ∈ s.exprs, p e) ∧ ∀ c ∈ s.children, c.ForExprs p := by
  unfold ForExprs
  rw [allExprs_eq]
  simp only [List.mem_append, List.mem_flatMap]
  constructor
  · intro h
    exact ⟨fun e he => h e (.inl he), fun c hc e he => h e (.inr ⟨c, hc, he⟩)⟩
  · rintro ⟨h, hc⟩ e (he | ⟨c, hmem, he⟩)
    · exact h e he
    · exact hc c hmem e he

end Stmt

/-- Induction from the statements inside a statement to the statement. -/
theorem Stmt.children_induction {motive : Stmt → Prop}
    (step : ∀ s, (∀ c ∈ s.children, motive c) → motive s) (s : Stmt) : motive s := by
  induction s with
  | instr i => exact step _ (by simp [children])
  | forLoop v d body ih => exact step _ (by simpa [children] using ih)
  | ifThenElse c t e iht ihe => exact step _ (by simpa [children] using ⟨iht, ihe⟩)
  | block ss ih => exact step (.block ss) ih

/-! ### Statements of a statement -/

namespace Stmt

mutual

/-- The statement and those inside it, each before those inside it. -/
def nodes : Stmt → List Stmt
  | s@(.instr _) => [s]
  | s@(.forLoop _ _ body) => s :: body.nodes
  | s@(.ifThenElse _ t none) => s :: t.nodes
  | s@(.ifThenElse _ t (some e)) => s :: (t.nodes ++ e.nodes)
  | s@(.block ss) => s :: nodesAll ss

/-- The statements of several statements, in order. -/
def nodesAll : List Stmt → List Stmt
  | [] => []
  | s :: ss => s.nodes ++ nodesAll ss

end

theorem nodesAll_eq (ss : List Stmt) : nodesAll ss = ss.flatMap nodes := by
  induction ss with
  | nil => rfl
  | cons s ss ih => simp [nodesAll, ih]

/-- The nodes are the root and the nodes of the statements inside. -/
theorem nodes_eq (s : Stmt) : s.nodes = s :: s.children.flatMap nodes := by
  cases s with
  | ifThenElse c t e => cases e <;> simp [nodes, children]
  | _ => simp [nodes, children, nodesAll_eq]

theorem self_mem_nodes (s : Stmt) : s ∈ s.nodes := by
  rw [nodes_eq]
  exact List.mem_cons_self

theorem mem_nodes_of_child {s c n : Stmt} (hc : c ∈ s.children) (hn : n ∈ c.nodes) :
    n ∈ s.nodes := by
  rw [nodes_eq]
  exact List.mem_cons_of_mem _ (List.mem_flatMap.2 ⟨c, hc, hn⟩)

/-- The statement and every statement inside it satisfies `p`. -/
def Everywhere (p : Stmt → Prop) (s : Stmt) : Prop := ∀ n ∈ s.nodes, p n

instance (p : Stmt → Prop) [DecidablePred p] (s : Stmt) : Decidable (s.Everywhere p) :=
  inferInstanceAs (Decidable (∀ n ∈ s.nodes, p n))

section

variable {p q : Stmt → Prop} {s : Stmt} {ss : List Stmt}

/-- A property of all statements is one of the root and of all statements inside. -/
theorem everywhere_iff : s.Everywhere p ↔ p s ∧ ∀ c ∈ s.children, c.Everywhere p := by
  unfold Everywhere
  rw [nodes_eq, List.forall_mem_cons, List.forall_mem_flatMap]

theorem Everywhere.root (h : s.Everywhere p) : p s := (everywhere_iff.1 h).1

theorem Everywhere.child {c : Stmt} (h : s.Everywhere p) (hc : c ∈ s.children) :
    c.Everywhere p :=
  (everywhere_iff.1 h).2 c hc

@[simp] theorem everywhere_instr {i : Instr} : (Stmt.instr i).Everywhere p ↔ p (.instr i) := by
  simp [everywhere_iff (s := .instr i), children]

@[simp] theorem everywhere_block :
    (Stmt.block ss).Everywhere p ↔ p (.block ss) ∧ ∀ s ∈ ss, s.Everywhere p := by
  simp [everywhere_iff (s := .block ss), children]

/-- What every expression of the statement satisfies, every statement in it asks of its own. -/
theorem forExprs_iff_everywhere {p : Expr → Prop} :
    s.ForExprs p ↔ s.Everywhere fun n => ∀ e ∈ n.exprs, p e := by
  induction s using children_induction with
  | step s ih =>
    rw [forExprs_iff, everywhere_iff]
    exact and_congr_right fun _ => forall₂_congr ih

end

end Stmt

/-! ### Statements over other parts -/

/-- An instruction takes as many expressions as it has. -/
theorem Instr.exprs_withExprs {i : Instr} {es : List Expr} (h : es.length = i.exprs.length) :
    (i.withExprs es).exprs = es := by
  cases i with
  | assign v e =>
    obtain ⟨e', rfl⟩ := List.length_eq_one_iff.1 h
    rfl
  | call rs f as => rfl
  | map rs f t n ps red =>
    -- the partial actuals come first; what is left are the target and perhaps its neighbours
    rw [← List.take_append_drop ps.length es]
    simp only [exprs, List.length_append, List.length_cons] at h
    cases n with
    | none =>
      obtain ⟨t', ht'⟩ := List.length_eq_one_iff.1
        (show (es.drop ps.length).length = 1 by simp at h ⊢; omega)
      have hps : (es.take ps.length).length = ps.length := by simp; omega
      simp [withExprs, exprs, ht', hps]
    | some n =>
      obtain ⟨t', n', ht'⟩ := List.length_eq_two.1
        (show (es.drop ps.length).length = 2 by simp at h ⊢; omega)
      have hps : (es.take ps.length).length = ps.length := by simp; omega
      simp [withExprs, exprs, ht', hps]
  | fieldWrite t f e =>
    obtain ⟨t', e', rfl⟩ := List.length_eq_two.1 h
    rfl
  | tensorWrite t is e =>
    -- first the tensor, last the element, and any number of indices between them
    obtain _ | ⟨t', rest⟩ := es
    · cases h
    · have hne : rest ≠ [] := by
        rintro rfl
        simp [exprs] at h
      simp only [withExprs, List.getLast?_eq_some_getLast hne, exprs, List.dropLast_concat_getLast]
  | store b i e =>
    obtain ⟨b', i', e', rfl⟩ := List.length_eq_three.1 h
    rfl
  | pass => rw [List.length_eq_zero_iff.1 h]; rfl
  | varDecl v => rw [List.length_eq_zero_iff.1 h]; rfl

/-- A loop takes as many bounds as it has. -/
theorem LoopDomain.exprs_withExprs {d : LoopDomain} {es : List Expr}
    (h : es.length = d.exprs.length) : (d.withExprs es).exprs = es := by
  cases d with
  | dim d => rw [List.length_eq_zero_iff.1 h]; rfl
  | range start stop =>
    obtain ⟨start', stop', rfl⟩ := List.length_eq_two.1 h
    rfl

namespace Stmt

/-- The function that a call statement calls. -/
def callee? : Stmt → Option Func
  | .instr (.call _ f _) => some f
  | _ => none

variable {s : Stmt} {es : List Expr} {ss : List Stmt}

theorem exprs_withParts (hes : es.length = s.exprs.length) (hss : ss.length = s.children.length) :
    (s.withParts es ss).exprs = es := by
  cases s with
  | instr i => exact Instr.exprs_withExprs hes
  | forLoop v d body =>
    obtain ⟨body', rfl⟩ := List.length_eq_one_iff.1 hss
    exact LoopDomain.exprs_withExprs hes
  | ifThenElse c t e =>
    obtain ⟨c', rfl⟩ := List.length_eq_one_iff.1 hes
    cases e with
    | none => obtain ⟨t', rfl⟩ := List.length_eq_one_iff.1 hss; rfl
    | some e => obtain ⟨t', e', rfl⟩ := List.length_eq_two.1 hss; rfl
  | block ss => rw [List.length_eq_zero_iff.1 hes]; rfl

theorem children_withParts (hes : es.length = s.exprs.length)
    (hss : ss.length = s.children.length) : (s.withParts es ss).children = ss := by
  cases s with
  | instr i => rw [List.length_eq_zero_iff.1 hss]; rfl
  | forLoop v d body => obtain ⟨body', rfl⟩ := List.length_eq_one_iff.1 hss; rfl
  | ifThenElse c t e =>
    obtain ⟨c', rfl⟩ := List.length_eq_one_iff.1 hes
    cases e with
    | none => obtain ⟨t', rfl⟩ := List.length_eq_one_iff.1 hss; rfl
    | some e => obtain ⟨t', e', rfl⟩ := List.length_eq_two.1 hss; rfl
  | block ss => rfl

/-- A statement over other parts calls the same function. -/
theorem callee?_withParts (hes : es.length = s.exprs.length)
    (hss : ss.length = s.children.length) : (s.withParts es ss).callee? = s.callee? := by
  cases s with
  | instr i =>
    cases i with
    | assign v e => obtain ⟨e', rfl⟩ := List.length_eq_one_iff.1 hes; rfl
    | map rs f t n ps red =>
      simp only [withParts, Instr.withExprs]
      split <;> rfl
    | fieldWrite t f e => obtain ⟨t', e', rfl⟩ := List.length_eq_two.1 hes; rfl
    | tensorWrite t is e =>
      obtain _ | ⟨t', rest⟩ := es
      · cases hes
      · simp only [withParts, Instr.withExprs]
        split <;> rfl
    | store b i e => obtain ⟨b', i', e', rfl⟩ := List.length_eq_three.1 hes; rfl
    | _ => rfl
  | forLoop v d body => obtain ⟨body', rfl⟩ := List.length_eq_one_iff.1 hss; rfl
  | ifThenElse c t e =>
    obtain ⟨c', rfl⟩ := List.length_eq_one_iff.1 hes
    cases e with
    | none => obtain ⟨t', rfl⟩ := List.length_eq_one_iff.1 hss; rfl
    | some e => obtain ⟨t', e', rfl⟩ := List.length_eq_two.1 hss; rfl
  | block ss => rfl

/-- What a statement over other parts evaluates. -/
theorem forExprs_withParts {p : Expr → Prop} (hes : es.length = s.exprs.length)
    (hss : ss.length = s.children.length) :
    (s.withParts es ss).ForExprs p ↔ (∀ e ∈ es, p e) ∧ ∀ c ∈ ss, c.ForExprs p := by
  rw [forExprs_iff, exprs_withParts hes hss, children_withParts hes hss]

theorem forExprs_block {p : Expr → Prop} :
    (Stmt.block ss).ForExprs p ↔ ∀ s ∈ ss, s.ForExprs p := by
  simp [forExprs_iff (s := .block ss), exprs, children]

theorem forExprs_assign {p : Expr → Prop} {v : Var} {e : Expr} :
    (Stmt.assign v e).ForExprs p ↔ p e := by
  simp [forExprs_iff (s := .assign v e), exprs, Instr.exprs, children]

end Stmt

end TensorIR
