import TensorIR.Proofs.Actions
import TensorIR.Proofs.Rebuilding

/-! # Replacing chosen expressions

A *choice* says of every expression whether to go on into its parts, to keep it with all its parts,
or to put another in its place. The transform that does what is chosen replaces the topmost
expressions that are picked and leaves everything else as it is.

**Key idea**: what comes out is told twice and apart, once by the map that goes through every
kind of expression and statement and names what each of them keeps (`Expr.replaced`,
`Stmt.mapExprs`), and once by the list of the picked expressions (`Expr.picked`), of which one that
is replaced is what changes the nodes around it. Both are functions of the parts of a node
(`Expr.replaced_eq`, `Expr.picked_eq`), as the walk is, so they are compared node by node.
-/

namespace TensorIR

/-- What becomes of an expression. -/
inductive Choice where
  /-- It is not picked: its parts are offered next. -/
  | walk
  /-- It is picked and stays what it is. -/
  | keep
  /-- It is picked, and another takes its place. -/
  | put (e : Expr)

namespace Choice

/-- Does at every expression what is chosen, and nothing else. -/
def transform {m : Type → Type} [Monad m] (f : Expr → Choice) : Transform m where
  expr e walk :=
    match f e with
    | .walk => walk
    | .keep => return .keep e
    | .put e' => return .replace e'

/-- What stands for the expression, given what comes of the walk over its parts. -/
def resolve (e walked : Expr) : Choice → Expr
  | .walk => walked
  | .keep => e
  | .put e' => e'

/-- The expressions picked from an expression on, given those from its parts. -/
def pick (e : Expr) (inner : List Expr) : Choice → List Expr
  | .walk => inner
  | .keep | .put _ => [e]

/-- Whether the expression is not picked. -/
def isWalk : Choice → Bool
  | .walk => true
  | .keep | .put _ => false

theorem isWalk_iff {c : Choice} : c.isWalk = true ↔ c = .walk := by
  cases c <;> simp [isWalk]

/-- Whether another expression takes the place of this one. -/
def replaces : Choice → Bool
  | .put _ => true
  | .walk | .keep => false

end Choice

variable (f : Expr → Choice) {m : Type → Type} [Monad m] [LawfulMonad m]

/-! ### Expressions -/

namespace Expr

mutual

/-- The expression with others in the place of those that are picked. Every other node keeps all
it has but its parts. -/
def replaced : Expr → Expr
  | e@(.var _ _) => (f e).resolve e e
  | e@(.prim ty op es) => (f e).resolve e (.prim ty op (replacedAll es))
  | e@(.indexed ty t vs) => (f e).resolve e (.indexed ty t.replaced vs)
  | e@(.indexExpr ty vs b) => (f e).resolve e (.indexExpr ty vs b.replaced)
  | e@(.neg ty a) => (f e).resolve e (.neg ty a.replaced)
  | e@(.binary ty op a b) => (f e).resolve e (.binary ty op a.replaced b.replaced)

/-- The same for several expressions. -/
def replacedAll : List Expr → List Expr
  | [] => []
  | e :: es => e.replaced :: replacedAll es

end

mutual

/-- The picked expressions that are in no other, in order. -/
def picked : Expr → List Expr
  | e@(.var _ _) => (f e).pick e []
  | e@(.prim _ _ es) => (f e).pick e (pickedAll es)
  | e@(.indexed _ t _) => (f e).pick e t.picked
  | e@(.indexExpr _ _ b) => (f e).pick e b.picked
  | e@(.neg _ a) => (f e).pick e a.picked
  | e@(.binary _ _ a b) => (f e).pick e (a.picked ++ b.picked)

/-- The same for several expressions. -/
def pickedAll : List Expr → List Expr
  | [] => []
  | e :: es => e.picked ++ pickedAll es

end

/-- Whether a picked expression in it is replaced by another. -/
def touched (e : Expr) : Bool := (e.picked f).any fun n => (f n).replaces

theorem replacedAll_eq (es : List Expr) : replacedAll f es = es.map (replaced f) := by
  induction es with
  | nil => rfl
  | cons e es ih => rw [replacedAll, ih, List.map_cons]

theorem pickedAll_eq (es : List Expr) : pickedAll f es = es.flatMap (picked f) := by
  induction es with
  | nil => rfl
  | cons e es ih => rw [pickedAll, ih, List.flatMap_cons]

/-- An expression that is not picked is the same node over its parts. -/
theorem replaced_eq (e : Expr) :
    e.replaced f = (f e).resolve e (e.withChildren (e.children.map (replaced f))) := by
  cases e <;> simp [replaced, children, withChildren, replacedAll_eq]

/-- From an expression that is not picked, what is picked is picked from its parts. -/
theorem picked_eq (e : Expr) : e.picked f = (f e).pick e (e.children.flatMap (picked f)) := by
  cases e <;> simp [picked, children, pickedAll_eq]

theorem touched_of_walk {e : Expr} (h : f e = .walk) :
    e.touched f = e.children.any (touched f) := by
  unfold touched
  rw [picked_eq, h, Choice.pick, List.any_flatMap]

theorem touched_of_keep {e : Expr} (h : f e = .keep) : e.touched f = false := by
  unfold touched
  rw [picked_eq, h]
  simp [Choice.pick, Choice.replaces, h]

theorem touched_of_put {e e' : Expr} (h : f e = .put e') : e.touched f = true := by
  unfold touched
  rw [picked_eq, h]
  simp [Choice.pick, Choice.replaces, h]

/-- What comes of an expression: the one with others in the place of those that are picked. It is
marked as changed if one of these is another. -/
def outcome (e : Expr) : Transformed Expr := ⟨e.replaced f, e.touched f⟩

/-- The outcome for an expression that is not picked is the node put together over the outcomes for
its parts. -/
theorem outcome_of_walk {e : Expr} (h : f e = .walk)
    (hparts : ∀ c ∈ e.children, Transformed.Faithful c (c.outcome f)) :
    e.outcome f = e.rebuild (e.children.map (outcome f)) := by
  have hvalue : (e.rebuild (e.children.map (outcome f))).value = e.replaced f := by
    rw [value_rebuild (Transformed.forall₂_faithful_map hparts), replaced_eq, h]
    simp [Transformed.values, Choice.resolve, outcome, Function.comp_def]
  have hchanged : (e.rebuild (e.children.map (outcome f))).changed = e.touched f := by
    rw [changed_rebuild, touched_of_walk f h, Transformed.anyChanged, List.any_map]
    rfl
  rw [outcome, ← hvalue, ← hchanged]

/-- The outcome for an expression that is kept. -/
theorem outcome_of_keep {e : Expr} (h : f e = .keep) : e.outcome f = .keep e := by
  rw [outcome, touched_of_keep f h, replaced_eq, h]
  rfl

/-- The outcome for an expression in whose place another is put. -/
theorem outcome_of_put {e e' : Expr} (h : f e = .put e') : e.outcome f = .replace e' := by
  rw [outcome, touched_of_put f h, replaced_eq, h]
  rfl

/-- An expression in which nothing is replaced is itself what comes of it. -/
theorem faithful_outcome (e : Expr) : Transformed.Faithful e (e.outcome f) := by
  induction e using children_induction with
  | step e ih =>
    cases h : f e with
    | walk =>
      rw [outcome_of_walk f h ih]
      exact faithful_rebuild _ _
    | keep =>
      rw [outcome_of_keep f h]
      exact Transformed.Faithful.keep _
    | put e' =>
      rw [outcome_of_put f h]
      exact Transformed.Faithful.replace _ _

/-- The transform comes to the outcome. -/
theorem transformM_choice (e : Expr) :
    e.transformM (Choice.transform f : Transform m) = pure (e.outcome f) := by
  induction e using children_induction with
  | step e ih =>
    rw [transformM_eq, walkM, transformAll_eq_mapM', Action.mapM'_eq_pure ih, pure_bind]
    cases h : f e with
    | walk =>
      rw [outcome_of_walk f h fun c _ => faithful_outcome f c]
      simp only [Choice.transform, h]
    | keep =>
      rw [outcome_of_keep f h]
      simp only [Choice.transform, h]
    | put e' =>
      rw [outcome_of_put f h]
      simp only [Choice.transform, h]

end Expr

/-! ### Statements and functions -/

section

variable (g : Expr → Expr)

/-- The instruction over other expressions; all else it keeps. -/
def Instr.mapExprs : Instr → Instr
  | .assign v e => .assign v (g e)
  | .call rs callee es => .call rs callee (es.map g)
  | .map rs function target neighbors partials red =>
    .map rs function (g target) (neighbors.map g) (partials.map g) red
  | .fieldWrite target field value => .fieldWrite (g target) field (g value)
  | .tensorWrite tensor indices value => .tensorWrite (g tensor) (indices.map g) (g value)
  | .store buffer index value => .store (g buffer) (g index) (g value)
  | .pass => .pass
  | .varDecl v => .varDecl v

/-- The domain over other bounds. -/
def LoopDomain.mapExprs : LoopDomain → LoopDomain
  | .dim d => .dim d
  | .range start stop => .range (g start) (g stop)

mutual

/-- The statement over other expressions; all else it keeps. -/
def Stmt.mapExprs : Stmt → Stmt
  | .instr i => .instr (i.mapExprs g)
  | .forLoop v d body => .forLoop v (d.mapExprs g) body.mapExprs
  | .ifThenElse c t none => .ifThenElse (g c) t.mapExprs none
  | .ifThenElse c t (some e) => .ifThenElse (g c) t.mapExprs (some e.mapExprs)
  | .block ss => .block (mapExprsAll ss)

/-- The same for several statements. -/
def Stmt.mapExprsAll : List Stmt → List Stmt
  | [] => []
  | s :: ss => s.mapExprs :: Stmt.mapExprsAll ss

end

theorem Stmt.mapExprsAll_eq (ss : List Stmt) : mapExprsAll g ss = ss.map (mapExprs g) := by
  induction ss with
  | nil => rfl
  | cons s ss ih => rw [mapExprsAll, ih, List.map_cons]

theorem Instr.mapExprs_eq (i : Instr) : i.mapExprs g = i.withExprs (i.exprs.map g) := by
  cases i with
  | map rs function target neighbors partials red =>
    cases neighbors <;> simp [mapExprs, exprs, withExprs]
  | tensorWrite tensor indices value => simp [mapExprs, exprs, withExprs]
  | _ => rfl

theorem LoopDomain.mapExprs_eq (d : LoopDomain) : d.mapExprs g = d.withExprs (d.exprs.map g) := by
  cases d <;> rfl

/-- A statement over other expressions is the same statement over them and over the statements
inside it over theirs. -/
theorem Stmt.mapExprs_eq (s : Stmt) :
    s.mapExprs g = s.withParts (s.exprs.map g) (s.children.map (mapExprs g)) := by
  cases s with
  | instr i => simp [mapExprs, withParts, exprs, Instr.mapExprs_eq]
  | forLoop v d body => simp [mapExprs, withParts, exprs, children, LoopDomain.mapExprs_eq]
  | ifThenElse c t e => cases e <;> rfl
  | block ss => simp [mapExprs, withParts, children, mapExprsAll_eq]

end

namespace Stmt

/-- The statement with others in the place of the expressions that are picked. -/
def replaced (s : Stmt) : Stmt := s.mapExprs (Expr.replaced f)

/-- Whether a picked expression in it, or in a statement inside it, is replaced by another. -/
def touched (s : Stmt) : Bool := s.allExprs.any (Expr.touched f)

theorem replaced_eq (s : Stmt) :
    s.replaced f = s.withParts (s.exprs.map (Expr.replaced f)) (s.children.map (replaced f)) :=
  mapExprs_eq _ s

theorem touched_eq (s : Stmt) :
    s.touched f = (s.exprs.any (Expr.touched f) || s.children.any (touched f)) := by
  unfold touched
  rw [allExprs_eq, List.any_append, List.any_flatMap]

/-- What comes of a statement. -/
def outcome (s : Stmt) : Transformed Stmt := ⟨s.replaced f, s.touched f⟩

/-- The outcome for a statement is the statement put together over the outcomes for its
expressions and for the statements inside it. -/
theorem outcome_eq {s : Stmt} (hinner : ∀ c ∈ s.children, Transformed.Faithful c (c.outcome f)) :
    s.outcome f = s.rebuild (s.exprs.map (Expr.outcome f)) (s.children.map (outcome f)) := by
  have hvalue : (s.rebuild (s.exprs.map (Expr.outcome f)) (s.children.map (outcome f))).value =
      s.replaced f := by
    rw [value_rebuild (Transformed.forall₂_faithful_map fun e _ => Expr.faithful_outcome f e)
      (Transformed.forall₂_faithful_map hinner), replaced_eq]
    simp [Transformed.values, outcome, Expr.outcome, Function.comp_def]
  have hchanged :
      (s.rebuild (s.exprs.map (Expr.outcome f)) (s.children.map (outcome f))).changed =
        s.touched f := by
    rw [changed_rebuild, touched_eq, Transformed.anyChanged, Transformed.anyChanged, List.any_map,
      List.any_map]
    rfl
  rw [outcome, ← hvalue, ← hchanged]

/-- A statement in which nothing is replaced is itself what comes of it. -/
theorem faithful_outcome (s : Stmt) : Transformed.Faithful s (s.outcome f) := by
  induction s using children_induction with
  | step s ih =>
    rw [outcome_eq f ih]
    exact faithful_rebuild _ _ _

/-- The transform comes to the outcome. -/
theorem transformM_choice (s : Stmt) :
    s.transformM (Choice.transform f : Transform m) = pure (s.outcome f) := by
  induction s using children_induction with
  | step s ih =>
    rw [transformM_eq, outcome_eq f fun c _ => faithful_outcome f c]
    unfold walkM
    rw [Expr.transformAll_eq_mapM', Action.mapM'_eq_pure fun e _ => Expr.transformM_choice f e,
      transformAll_eq_mapM', Action.mapM'_eq_pure ih]
    simp only [Choice.transform, pure_bind]

end Stmt

namespace Func

/-- Whether a picked expression in the body, if there is one, is replaced by another. -/
def touched (fn : Func) : Bool := fn.body.any (Stmt.touched f)

/-- The function with others in the place of the picked expressions of its body, under another
identity. It keeps its name, its kind, its arguments and its results. -/
def replaced (fn : Func) (id : Nat) : Func :=
  { fn with id := id, body := fn.body.map (Stmt.replaced f) }

/-- Only a function with a touched body is another, and takes a new identity. -/
theorem transformM_choice (newId : m Nat) (fn : Func) :
    fn.transformM (Choice.transform f) newId =
      if fn.touched f then (fun id => .replace (fn.replaced f id)) <$> newId
      else pure (.keep fn) := by
  unfold Func.transformM touched replaced
  cases fn.body with
  | none => simp
  | some body =>
    simp only [Stmt.transformM_choice, pure_bind, Stmt.outcome, Option.any_some, Option.map_some,
      withBody]
    split <;> simp [*]

end Func

end TensorIR
