import Mathlib.Data.List.DropRight
import TensorIR.Proofs.LooseVars
import TensorIR.Proofs.Nodes

/-! # Where index variables occur

Every index variable of an indexed read is an *occurrence*. An occurrence is bound if it lies in
the body of an index expression with the variable among its result variables; in another place
the same variable may well be free.

**Key idea**: whether an occurrence is bound depends on the way down to it, whether it is the
first depends on all that came before. The two are told apart: occurrences carry the variables
bound around them, and of the free ones the first of each variable is kept (`List.eraseDups`).
The collector works on both at once, with the bound variables around the current node on a
stack, and still finds just that (`FreeIndexVars.finish_after`). The stack is as it was after each
visit, so visits in a row go on from one another.
-/

namespace TensorIR

/-- The use of an index variable by an indexed read. -/
structure Occurrence where
  var : IndexVar
  /-- The result variables of the index expressions in whose bodies the read stands. -/
  binders : List IndexVar

namespace Occurrence

/-- The occurrence with an index expression put around it. -/
def under (vs : List IndexVar) (o : Occurrence) : Occurrence :=
  { o with binders := o.binders ++ vs }

/-- Neither reduced over nor bound. -/
def isFree (o : Occurrence) : Bool := o.var.isFree && !o.binders.contains o.var

theorem isFree_under (vs : List IndexVar) (o : Occurrence) :
    (o.under vs).isFree = (!vs.contains o.var && o.isFree) := by
  by_cases h : o.var ∈ o.binders <;> by_cases h' : o.var ∈ vs <;>
    simp [isFree, under, h, h']

/-- The variables that occur free, each listed once, by its first free occurrence. -/
def freeVars (os : List Occurrence) : List IndexVar :=
  ((os.filter Occurrence.isFree).map Occurrence.var).eraseDups

end Occurrence

/-! ### Lists without repetitions -/

theorem eraseDups_concat {α : Type} [BEq α] [LawfulBEq α] (as : List α) (a : α) :
    (as ++ [a]).eraseDups = as.eraseDups ++ if as.contains a then [] else [a] := by
  rw [List.eraseDups_append]
  by_cases h : a ∈ as <;> simp [List.removeAll, h, List.eraseDups_cons]

/-- Repetitions may be left out before the members are replaced as well as after. -/
theorem eraseDups_map_eraseDups {α β : Type} [BEq α] [LawfulBEq α] [BEq β] [LawfulBEq β]
    (f : α → β) (as : List α) : (as.eraseDups.map f).eraseDups = (as.map f).eraseDups := by
  induction as using List.reverseRecOn with
  | nil => rfl
  | append_singleton as a ih =>
    have hcontains : (as.eraseDups.map f).contains (f a) = (as.map f).contains (f a) := by
      rw [Bool.eq_iff_iff]
      simp
    rw [eraseDups_concat, List.map_append, List.map_append, List.map_singleton, eraseDups_concat,
      ← ih, ← hcontains]
    by_cases h : a ∈ as
    · -- what `a` is replaced by stands for `a` further in front
      have hmem : f a ∈ as.eraseDups.map f := List.mem_map_of_mem (List.mem_eraseDups.2 h)
      simp [h, hmem]
    · rw [if_neg (by simpa using h), List.map_singleton, eraseDups_concat]

/-! ### Occurrences in programs -/

namespace Expr

mutual

/-- The occurrences of index variables, in evaluation order: those in the tensor that is read
before those of the read. -/
def occurrences : Expr → List Occurrence
  | .var _ _ => []
  | .prim _ _ es => occurrencesAll es
  | .indexed _ t vs => t.occurrences ++ vs.map (⟨·, []⟩)
  | .indexExpr _ vs b => b.occurrences.map (·.under vs)
  | .neg _ a => a.occurrences
  | .binary _ _ a b => a.occurrences ++ b.occurrences

/-- The occurrences in several expressions, in order. -/
def occurrencesAll : List Expr → List Occurrence
  | [] => []
  | e :: es => e.occurrences ++ occurrencesAll es

end

theorem occurrencesAll_eq (es : List Expr) : occurrencesAll es = es.flatMap occurrences := by
  induction es with
  | nil => rfl
  | cons e es ih => simp [occurrencesAll, ih]

/-- The free occurrences are the loose uses without a reduction. -/
theorem filter_loose (e : Expr) :
    e.loose.filter IndexVar.isFree =
      (e.occurrences.filter Occurrence.isFree).map Occurrence.var := by
  induction e with
  | var ty v => rfl
  | prim ty op es ih =>
    rw [loose, occurrences, looseAll_eq, occurrencesAll_eq, List.filter_flatMap,
      List.filter_flatMap, List.map_flatMap]
    exact List.flatMap_congr ih
  | indexed ty t vs ih =>
    rw [loose, occurrences, List.filter_append, List.filter_append, List.map_append, ih,
      List.filter_map, List.map_map]
    congr 1
    -- nothing is bound around the variables of the read itself
    have hvar : Occurrence.isFree ∘ (⟨·, []⟩ : IndexVar → Occurrence) = IndexVar.isFree := by
      funext v
      simp [Occurrence.isFree]
    rw [hvar]
    exact (List.map_id _).symm
  | indexExpr ty vs b ih =>
    calc (b.loose.filter fun v => v.isFree && !vs.contains v).filter IndexVar.isFree
        = (b.loose.filter IndexVar.isFree).filter fun v => !vs.contains v := by
          rw [List.filter_filter, List.filter_filter]
          congr 1
          funext v
          cases v.isFree <;> simp
      _ = ((b.occurrences.filter Occurrence.isFree).filter
            fun o => !vs.contains o.var).map Occurrence.var := by
          rw [ih, List.filter_map]
          rfl
      _ = ((b.occurrences.map (·.under vs)).filter Occurrence.isFree).map Occurrence.var := by
          rw [List.filter_map, List.map_map, List.filter_filter]
          congr 2
          funext o
          exact (o.isFree_under vs).symm
  | neg ty a ih => exact ih
  | binary ty op a b iha ihb =>
    rw [loose, occurrences, List.filter_append, List.filter_append, List.map_append, iha, ihb]

end Expr

/-! ### Collecting -/

namespace FreeIndexVars

/-- Uses that nothing binds are added to what was found, each at its first use. -/
theorem foldl_use_eraseDups (us found : List IndexVar) :
    us.foldl use ⟨[], found.eraseDups⟩ = ⟨[], (found ++ us.filter IndexVar.isFree).eraseDups⟩ := by
  induction us generalizing found with
  | nil => simp
  | cons u us ih =>
    have huse : use ⟨[], found.eraseDups⟩ u =
        ⟨[], (found ++ if u.isFree then [u] else []).eraseDups⟩ := by
      by_cases hf : u.isFree = true
      · by_cases hu : u ∈ found <;>
          simp [use, hf, hu, eraseDups_concat]
      · simp [use, hf]
    rw [List.foldl_cons, huse, ih]
    by_cases hf : u.isFree = true
    · rw [if_pos hf, List.filter_cons_of_pos hf, List.append_assoc, List.singleton_append]
    · rw [if_neg hf, List.filter_cons_of_neg hf, List.append_nil]

/-- Visiting a statement notes the loose uses of its expressions. -/
theorem run_visitStmt (s : Stmt) (c : FreeIndexVars) :
    (visitStmt s).run c = ((), (s.allExprs.flatMap Expr.loose).foldl use c) := by
  induction s using Stmt.children_induction generalizing c with
  | step s ih =>
    unfold visitStmt
    rw [Stmt.visitM_eq, Expr.visitAll_eq_forM, Stmt.visitAll_eq_forM]
    show (forM s.children visitStmt).run ((forM s.exprs (Expr.visitM visitor)).run c).2 = _
    rw [run_forM_use fun e _ => run_visitM e, run_forM_use ih, Stmt.allExprs_eq,
      List.flatMap_append, List.foldl_append, List.flatMap_assoc]

/-- What a collector can be asked. -/
inductive Request where
  | expr (e : Expr)
  | stmt (s : Stmt)
  | reset
  | finish

namespace Request

/-- Does what is asked. -/
def serve : Request → StateM FreeIndexVars Unit
  | expr e => visitExpr e
  | stmt s => visitStmt s
  | reset => FreeIndexVars.reset
  | finish => do discard FreeIndexVars.finish

/-- Whether a program is shown to the collector. -/
def isVisit : Request → Bool
  | expr _ | stmt _ => true
  | reset | finish => false

/-- The expressions that are shown, in the order in which they are evaluated. -/
def exprs : Request → List Expr
  | expr e => [e]
  | stmt s => s.allExprs
  | reset | finish => []

/-- Showing a program notes the loose uses of its expressions. -/
theorem run_serve_of_isVisit {r : Request} (h : r.isVisit = true) (c : FreeIndexVars) :
    (r.serve.run c).2 = (r.exprs.flatMap Expr.loose).foldl use c := by
  cases r with
  | expr e =>
    rw [exprs, List.flatMap_singleton]
    exact congrArg Prod.snd (run_visitM e c)
  | stmt s => exact congrArg Prod.snd (run_visitStmt s c)
  | reset => cases h
  | finish => cases h

end Request

/-- A new collector after the given requests. -/
def after (rs : List Request) : FreeIndexVars := rs.foldl (fun c r => (r.serve.run c).2) {}

/-- The expressions that were shown since the last request to start over or to finish. -/
def shown (rs : List Request) : List Expr := (rs.rtakeWhile Request.isVisit).flatMap Request.exprs

/-- After any requests, nothing is bound, and what was found is what occurs free in the expressions
shown since the last request to start over or to finish. -/
theorem after_eq (rs : List Request) :
    after rs = ⟨[], Occurrence.freeVars ((shown rs).flatMap Expr.occurrences)⟩ := by
  induction rs using List.reverseRecOn with
  | nil => rfl
  | append_singleton rs r ih =>
    have hstep : after (rs ++ [r]) = (r.serve.run (after rs)).2 := by
      unfold after
      rw [List.foldl_append]
      rfl
    rw [hstep, ih]
    by_cases hr : r.isVisit = true
    · have hshown : shown (rs ++ [r]) = shown rs ++ r.exprs := by
        rw [shown, List.rtakeWhile_concat_pos _ _ _ hr, List.flatMap_append]
        simp [shown]
      have hfree : (r.exprs.flatMap Expr.loose).filter IndexVar.isFree =
          ((r.exprs.flatMap Expr.occurrences).filter Occurrence.isFree).map Occurrence.var := by
        rw [List.filter_flatMap, List.filter_flatMap, List.map_flatMap]
        exact List.flatMap_congr fun e _ => e.filter_loose
      unfold Occurrence.freeVars
      rw [Request.run_serve_of_isVisit hr, foldl_use_eraseDups, hfree, hshown, List.flatMap_append,
        List.filter_append, List.map_append]
    · have hshown : shown (rs ++ [r]) = [] := by
        rw [shown, List.rtakeWhile_concat_neg _ _ _ hr]
        rfl
      rw [hshown]
      -- starting over and finishing both leave nothing found
      cases r with
      | expr e => exact absurd rfl hr
      | stmt s => exact absurd rfl hr
      | reset => rfl
      | finish => rfl

/-- Whatever a collector was asked before, it finishes with the variables that occur free in what
it was shown since it last started over or finished, each once, in the order of their first free
occurrences; and nothing is bound between requests. -/
theorem finish_after (rs : List Request) :
    (finish.run (after rs)).1 = Occurrence.freeVars ((shown rs).flatMap Expr.occurrences) ∧
      (after rs).bound = [] := by
  rw [after_eq]
  exact ⟨rfl, rfl⟩

end FreeIndexVars

/-- The free index variables are the loose uses without a reduction, each at its first use. -/
theorem Expr.freeIndexVars_eq_eraseDups (e : Expr) :
    e.freeIndexVars = (e.loose.filter IndexVar.isFree).eraseDups := by
  rw [freeIndexVars_eq]
  exact congrArg FreeIndexVars.vars (FreeIndexVars.foldl_use_eraseDups e.loose [])

end TensorIR
