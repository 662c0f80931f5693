import TensorIR.Proofs.Flatness
import TensorIR.Proofs.Statements

/-! # Properties of the outcomes of flattening

A property of a flattened program that can be seen at its single statements is settled by how
flattening treats single expressions (`Flattening.reaches_of_treats`).

**Key idea**: a call treats its actuals, any other statement its expressions, and nothing else is
done to a statement itself. What waits in front of it is assignments to temporaries. So if all
treatments of expressions bind values with a property `q` to temporaries, the outcome consists of
such assignments and of the statements over what became of their expressions.
-/

namespace TensorIR

/-! ### The treatment of the expressions of a statement -/

/-- The treatment of an expression that a statement evaluates itself. -/
def Stmt.treat (s : Stmt) (e : Expr) : FlattenM (Transformed Expr) :=
  if s.isCall then Flattening.actual e else e.flatten

/-- Treats the expressions of a statement, then flattens the statements inside. -/
def Stmt.flattenParts (s : Stmt) : FlattenM (Transformed Stmt) := do
  return s.rebuild (← s.exprs.mapM' s.treat) (← s.children.mapM' Stmt.flatten)

/-- A statement is flattened part by part. -/
theorem Stmt.flatten_eq (s : Stmt) : s.flatten = Flattening.withOwnPending s.flattenParts := by
  by_cases hcall : s.isCall = true
  · obtain ⟨rs, f, as, rfl⟩ : ∃ rs f as, s = .call rs f as := by
      unfold isCall at hcall
      split at hcall
      · exact ⟨_, _, _, rfl⟩
      · cases hcall
    rw [Flattening.flatten_call, Flattening.actuals_eq_mapM']
    rfl
  · have hcall' : s.isCall = false := by simpa using hcall
    have htreat : s.treat = Expr.flatten := by
      funext e
      rw [treat, if_neg hcall]
    rw [Flattening.flatten_of_not_call hcall', walkM, flattenParts,
      Flattening.transformExprs_eq_mapM', Flattening.transformStmts_eq_mapM', htreat]

/-- The treatment of an expression keeps it unless it says otherwise. -/
theorem Stmt.faithful_treat {s : Stmt} {e : Expr} {st st' : Flattener} {out : Transformed Expr}
    (h : (s.treat e).run.run st = (.ok out, st')) : Transformed.Faithful e out := by
  unfold treat at h
  split at h
  · exact (Flattening.actualRun_of_run h).1
  · exact Flattens.faithful h

/-! ### What waits -/

/-- What waits are assignments to temporaries, of values that satisfy `q`. -/
def Flattener.Pends (q : Expr → Prop) (st : Flattener) : Prop :=
  ∀ s ∈ st.pending, ∃ tmp value, s = .assign tmp value ∧ q value

namespace Flattener

variable {q : Expr → Prop} {st : Flattener}

theorem pends_own : st.own.Pends q := by
  rintro s ⟨⟩

theorem Pends.of_pending_eq {st' : Flattener} (h : st.Pends q)
    (heq : st'.pending = st.pending) : st'.Pends q := by
  unfold Pends
  rwa [heq]

theorem Pends.bindTemporary {value : Expr} (h : st.Pends q) (hv : q value) :
    (st.bindTemporary value).2.Pends q := by
  refine Flattener.forall_pending_bindTemporary.2 ⟨h, ?_⟩
  exact ⟨_, _, rfl, hv⟩

/-- An index expression is bound as it is, and can be passed as the temporary. -/
theorem Pends.hoist_indexExpr {a : Expr} (h : st.Pends q) (hi : a.isIndexExpr = true) (ha : q a) :
    (st.hoist a).2.Pends q ∧ ∃ tmp, Flattening.wholeTensor (st.hoist a).1.value = .ofVar tmp := by
  cases a with
  | indexExpr ty rs b =>
    rw [TensorIR.hoist_indexExpr]
    exact ⟨h.bindTemporary ha, _, rfl⟩
  | _ => cases hi

/-- Whatever is hoisted, only assignments are added. -/
theorem Pends.hoist (h : st.Pends fun _ => True) (a : Expr) :
    (st.hoist a).2.Pends fun _ => True := by
  cases a using hoist_cases st with
  | built ty vs b heq | wrapped a _ _ heq | named a _ _ heq =>
    rw [heq]
    exact h.bindTemporary trivial
  | kept a _ _ heq => rwa [heq]

end Flattener

section

variable {a e x : Expr} {st st' : Flattener}

theorem SpillsTo.pends (h : SpillsTo a st x st') (hst : st.Pends fun _ => True) :
    st'.Pends fun _ => True := by
  cases h with
  | @copied vs b =>
    have hst' : Flattener.Pends (fun _ => True) { st with toBuilder := b } := hst
    exact hst'.hoist _
  | hoisted _ => exact hst.hoist _

theorem Settles.pends (h : Settles a st x st') (hst : st.Pends fun _ => True) :
    st'.Pends fun _ => True := by
  cases h with
  | read _ => exact hst
  | spilled _ hspill => exact hspill.pends hst

/-- What an expression leaves waiting are assignments. -/
theorem FlattensTo.pends (h : FlattensTo e st x st') (hst : st.Pends fun _ => True) :
    st'.Pends fun _ => True := by
  induction h with
  | var => exact hst
  | prim _ ih => exact ih.preserves (fun _ _ _ _ _ ⟨_, hpends⟩ => hpends) hst
  | indexed _ ih => exact ih hst
  | indexExpr _ ih => exact ih hst
  | neg _ ih => exact ih hst
  | product _ _ _ ihx ihy => exact ihy (ihx hst)
  | sum _ _ _ _ hxs _ hys ihx ihy => exact hys.pends (ihy (hxs.pends (ihx hst)))

theorem ActualTo.pends (h : ActualTo a st x st') (hst : st.Pends fun _ => True) :
    st'.Pends fun _ => True := by
  cases h with
  | kept hto _ => exact hto.pends hst
  | spilled hto _ _ hspill => exact hspill.pends (hto.pends hst)

end

/-! ### From expressions to statements -/

theorem Stmt.everywhere_after {p : Stmt → Prop} (hblock : ∀ ss, p (.block ss))
    {pending : List Stmt} {s : Stmt} :
    (s.after pending).Everywhere p ↔ (∀ s' ∈ pending, s'.Everywhere p) ∧ s.Everywhere p := by
  unfold Stmt.after
  split
  · next h => simp [List.isEmpty_iff.1 h]
  · rw [everywhere_block, and_iff_right (hblock _)]
    simp only [List.mem_append, List.mem_singleton, or_imp, forall_and, forall_eq]

namespace Flattening

/-- The treatment of an expression establishes `p` of its outcome, if temporaries are given values
that satisfy `q`, and gives them such values. -/
abbrev Treats (q : Expr → Prop) (act : FlattenM (Transformed Expr)) (p : Expr → Prop) : Prop :=
  Action.Establishes (Flattener.Pends q) act fun out => p out.value

theorem treats_trivial (s : Stmt) (e : Expr) :
    Treats (fun _ => True) (s.treat e) fun _ => True := by
  intro st out st' hrun hst
  unfold Stmt.treat at hrun
  split at hrun
  · exact ⟨(actualRun_of_run hrun).2.pends hst, trivial⟩
  · exact ⟨(Flattens.to hrun).pends hst, trivial⟩

/-- A statement and those inside it, flattened, are `p` everywhere. -/
def Reaches (p : Stmt → Prop) (s : Stmt) : Prop :=
  ∀ st out st', s.flatten.run.run st = (.ok out, st') → out.value.Everywhere p

section

variable {p : Stmt → Prop} {q : Expr → Prop} {r : Stmt → Expr → Prop} {s : Stmt}
  (hblock : ∀ ss, p (.block ss)) (hassign : ∀ tmp value, q value → p (.assign tmp value))

include hblock hassign

/-- One statement, given the statements inside it. -/
theorem reaches_step (hexpr : ∀ e ∈ s.exprs, Treats q (s.treat e) (r s))
    (hnode : ∀ xs ss, xs.length = s.exprs.length → ss.length = s.children.length →
      (∀ x ∈ xs, r s x) → p (s.withParts xs ss))
    (ih : ∀ c ∈ s.children, Reaches p c) : Reaches p s := by
  -- the expressions and the inner statements, each with what is known of its outcome
  have hexprs : Action.Establishes (Flattener.Pends q) (s.exprs.mapM' s.treat)
      (List.Forall₂ (fun e out => Transformed.Faithful e out ∧ r s out.value) s.exprs) :=
    Action.Establishes.mapM' fun e he st out st' hrun hst =>
      let ⟨hst', hr⟩ := hexpr e he st out st' hrun hst
      ⟨hst', Stmt.faithful_treat hrun, hr⟩
  have hinner : Action.Establishes (Flattener.Pends q) (s.children.mapM' Stmt.flatten)
      (List.Forall₂ (fun c out => Transformed.Faithful c out ∧ out.value.Everywhere p)
        s.children) :=
    Action.Establishes.mapM' fun c hc st out st' hrun hst =>
      let hto := stmtRun_of_run hrun
      ⟨hst.of_pending_eq hto.2.pending_eq, hto.1, ih c hc st out st' hrun⟩
  intro st out st' hrun
  rw [Stmt.flatten_eq, run_withOwnPending] at hrun
  rcases hact : s.flattenParts.run.run st.own with ⟨_ | mid, st₁⟩
  · rw [hact] at hrun
    cases hrun
  rw [hact] at hrun
  cases hrun
  have hmid : Action.Establishes (Flattener.Pends q) s.flattenParts
      fun mid => mid.value.Everywhere p :=
    hexprs.bind fun outs houts => hinner.bind fun inner hin =>
      Action.Establishes.pure (Stmt.everywhere_rebuild houts hin hnode)
  obtain ⟨hpending, heverywhere⟩ := hmid _ _ _ hact Flattener.pends_own
  refine (Stmt.everywhere_after hblock).2 ⟨fun s' hs' => ?_, heverywhere⟩
  obtain ⟨tmp, value, rfl, hq⟩ := hpending s' hs'
  exact Stmt.everywhere_instr.2 (hassign tmp value hq)

/-- If every statement over its treated expressions is `p`, and so are the assignments to
temporaries, the flattened statement is `p` everywhere. -/
theorem reaches_of_treats (hexpr : ∀ n ∈ s.nodes, ∀ e ∈ n.exprs, Treats q (n.treat e) (r n))
    (hnode : ∀ n ∈ s.nodes, ∀ xs ss, xs.length = n.exprs.length →
      ss.length = n.children.length → (∀ x ∈ xs, r n x) → p (n.withParts xs ss)) :
    Reaches p s := by
  induction s using Stmt.children_induction with
  | step s ih =>
    refine reaches_step hblock hassign (hexpr s s.self_mem_nodes) (hnode s s.self_mem_nodes)
      fun c hc => ih c hc (fun n hn => ?_) fun n hn => ?_
    · exact hexpr n (Stmt.mem_nodes_of_child hc hn)
    · exact hnode n (Stmt.mem_nodes_of_child hc hn)

end

end Flattening

/-! ### What flattened statements consist of -/

namespace Stmt

/-- An expression that satisfies `q`, and is a variable if the statement passes it as a tensor. -/
def Takes (q : Expr → Prop) (s : Stmt) (x : Expr) : Prop :=
  q x ∧ (s.isCall = true → x.ty.isWhole = true → x.isVar = true)

variable {q : Expr → Prop} {s : Stmt}

theorem consists_withParts {xs : List Expr} {ss : List Stmt} (hxs : xs.length = s.exprs.length)
    (hss : ss.length = s.children.length) (h : ∀ x ∈ xs, s.Takes q x) :
    (s.withParts xs ss).Consists q := by
  unfold Consists
  rw [passesVars_iff, exprs_withParts hxs hss, callee?_withParts hxs hss, ← isCall_eq]
  exact ⟨fun x hx => (h x hx).1, fun hcall x hx => (h x hx).2 hcall⟩

/-- A treatment that makes `q` of every expression, and variables of the tensors that are passed,
makes it so everywhere. -/
theorem reaches_consists
    (h : ∀ n ∈ s.nodes, ∀ e ∈ n.exprs, Flattening.Treats q (n.treat e) (n.Takes q)) :
    Flattening.Reaches (Consists q) s :=
  Flattening.reaches_of_treats consists_block
    (fun tmp value hvalue => ⟨by simpa [exprs, Instr.exprs] using hvalue, trivial⟩) h
    fun _ _ _ _ hxs hss hx => consists_withParts hxs hss hx

end Stmt

end TensorIR
