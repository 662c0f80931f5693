import TensorIR.Proofs.Structure

/-! # Flattening statements

What a successful run of the flattener does to a statement, told by the structure of the statement
(`StmtFlattensTo`).

**Key idea**: a statement starts with nothing pending and leaves pending what was pending before
it, so the temporaries that its own expressions need are all that is put in front of it
(`Stmt.after`). The statements inside it see to their own.
-/

namespace TensorIR

/-- The statement behind others, in one block; by itself if there are none. -/
def Stmt.after (pending : List Stmt) (s : Stmt) : Stmt :=
  if pending.isEmpty then s else .block (pending ++ [s])

theorem Stmt.forExprs_after {p : Expr → Prop} {pending : List Stmt} {s : Stmt} :
    (s.after pending).ForExprs p ↔ (∀ s' ∈ pending, s'.ForExprs p) ∧ s.ForExprs p := by
  unfold Stmt.after
  split
  · next h => simp [List.isEmpty_iff.1 h]
  · rw [forExprs_block]
    simp [or_imp, forall_and]

/-- A splice puts all that is pending in front of its statement. -/
theorem Splicer.splice_eq (sp : Splicer) (s : Stmt) :
    sp.splice s = (⟨s.after sp.pending, !sp.pending.isEmpty⟩, {}) := by
  obtain ⟨pending⟩ := sp
  unfold splice Stmt.after
  split
  · next h =>
    obtain rfl := List.isEmpty_iff.1 h
    rfl
  · next h => simp [h, Transformed.replace]

/-- The flattener that a statement starts with: nothing is pending. -/
def Flattener.own (st : Flattener) : Flattener := { st with toSplicer := {} }

/-- The flattener that a statement leaves: what was pending before it is pending again. -/
def Flattener.resume (st outer : Flattener) : Flattener := { st with toSplicer := outer.toSplicer }

/-- What waits once a temporary is bound is what waited before, and its assignment. -/
theorem Flattener.pending_bindTemporary (value : Expr) (st : Flattener) :
    (st.bindTemporary value).2.pending =
      st.pending ++ [.assign (st.bindTemporary value).1 value] := rfl

theorem Flattener.forall_pending_bindTemporary {p : Stmt → Prop} {value : Expr} {st : Flattener} :
    (∀ s ∈ (st.bindTemporary value).2.pending, p s) ↔
      (∀ s ∈ st.pending, p s) ∧ p (.assign (st.bindTemporary value).1 value) := by
  rw [pending_bindTemporary]
  simp only [List.mem_append, List.mem_singleton, or_imp, forall_and, forall_eq]

namespace Flattening

/-- A statement's treatment starts with nothing pending. What it leaves pending goes in front of
the outcome, and what was pending before is pending again. -/
theorem run_withOwnPending (act : FlattenM (Transformed Stmt)) (st : Flattener) :
    (withOwnPending act).run.run st =
      match act.run.run st.own with
      | (.ok out, st') =>
        (.ok ⟨out.value.after st'.pending, out.changed || !st'.pending.isEmpty⟩, st'.resume st)
      | (.error e, st') => (.error e, { st' with toSplicer := st'.toSplicer.restore st.pending }) := by
  show (match act.run.run st.own with
    | (.ok out, st') => _
    | (.error e, st') => _) = _
  rcases act.run.run st.own with ⟨_ | out, st'⟩
  · rfl
  · dsimp only
    rw [Splicer.splice_eq]
    show (_, { st' with toSplicer := ⟨st.pending ++ []⟩ }) = _
    rw [List.append_nil]
    rfl

end Flattening

/-- Whether the statement is a call. -/
def Stmt.isCall : Stmt → Bool
  | .instr (.call _ _ _) => true
  | _ => false

theorem Stmt.isCall_eq (s : Stmt) : s.isCall = s.callee?.isSome := by
  cases s with
  | instr i => cases i <;> rfl
  | _ => rfl

namespace Flattening

/-- A call treats its actuals in its own way. -/
theorem flatten_call (rs : List Var) (f : Func) (as : List Expr) :
    (Stmt.call rs f as).flatten =
      withOwnPending do return (Stmt.call rs f as).rebuild (← actuals as) [] :=
  Stmt.transformM_eq _ _

/-- Every other statement is walked. -/
theorem flatten_of_not_call {s : Stmt} (h : s.isCall = false) :
    s.flatten = withOwnPending (s.walkM transform) := by
  refine (Stmt.transformM_eq _ _).trans ?_
  show withOwnPending _ = _
  congr 1
  split
  · cases h
  · rfl

end Flattening

/-- What is left of an actual of a call. -/
inductive ActualTo (a : Expr) (st : Flattener) : Expr → Flattener → Prop
  | kept {x st'} : FlattensTo a st x st' → (x.ty.isWhole = true → x.isVar = true) →
    ActualTo a st x st'
  /-- A tensor that is not a variable is spilled, and the temporary is passed as a whole. -/
  | spilled {a' st₁ x st'} : FlattensTo a st a' st₁ → a'.ty.isWhole = true → a'.isVar = false →
    SpillsTo a' st₁ x st' → ActualTo a st (Flattening.wholeTensor x) st'

/-- Flattening `s` from `st` makes `s'` of it and leaves `st'`, told by the structure of `s`. -/
inductive StmtFlattensTo : Stmt → Flattener → Stmt → Flattener → Prop
  | call {rs f as st xs st'} : Flattening.Threads ActualTo as st.own xs st' →
    StmtFlattensTo (.call rs f as) st ((Stmt.call rs f xs).after st'.pending) (st'.resume st)
  | parts {s st xs st₁ ss st'} : s.isCall = false →
    Flattening.Threads FlattensTo s.exprs st.own xs st₁ →
    Flattening.Threads StmtFlattensTo s.children st₁ ss st' →
    StmtFlattensTo s st ((s.withParts xs ss).after st'.pending) (st'.resume st)

/-- A statement leaves pending what was pending before it. -/
theorem StmtFlattensTo.pending_eq {s s' : Stmt} {st st' : Flattener}
    (h : StmtFlattensTo s st s' st') : st'.pending = st.pending := by
  cases h <;> rfl

theorem Flattening.Threads.pending_eq {ss ss' : List Stmt} {st st' : Flattener}
    (h : Threads StmtFlattensTo ss st ss' st') : st'.pending = st.pending :=
  h.preserves (I := fun st₁ => st₁.pending = st.pending)
    (fun _ _ _ _ _ hr hst => hr.pending_eq.trans hst) rfl

namespace Flattening

/-! ### Several elements -/

theorem actuals_eq_mapM' (as : List Expr) : actuals as = as.mapM' actual := by
  induction as with
  | nil => rfl
  | cons a as ih =>
    rw [List.mapM'_cons, ← ih]
    rfl

/-- Expressions are flattened one after another. -/
theorem transformExprs_eq_mapM' (es : List Expr) :
    Expr.transformAll transform es = es.mapM' Expr.flatten :=
  (Expr.transformAll_eq_mapM' transform es).trans
    (congrArg (es.mapM' ·) (funext fun e => Expr.transformM_eq transform e))

/-- Statements are flattened one after another. -/
theorem transformStmts_eq_mapM' (ss : List Stmt) :
    Stmt.transformAll transform ss = ss.mapM' Stmt.flatten :=
  Stmt.transformAll_eq_mapM' transform ss

/-- A successful treatment of several elements is one of each, one after another. -/
theorem threads_of_mapM'_flattenM {α β : Type} {f : α → FlattenM β} {as : List α} {bs : List β}
    {st st' : Flattener} (h : (as.mapM' f).run.run st = (.ok bs, st')) :
    Threads (fun a st b st' => (f a).run.run st = (.ok b, st')) as st bs st' := by
  have hrun : (as.mapM' fun a => total (f a)).run.run st = some (.ok bs, st') := by
    rw [← total_mapM']
    exact congrArg some h
  exact (threads_of_mapM' hrun).imp fun _ _ _ _ _ h => Option.some.inj h

/-! ### Reading the structure off a run -/

theorem spills_of_spill {a : Expr} {st st' : Flattener} {out : Transformed Expr}
    (h : a.spill.run.run st = (.ok out, st')) : Spills Flattens a st out st' := by
  have hrun : (spill (fun e => total e.flatten) a).run.run st = some (.ok out, st') := by
    rw [← total_spill]
    exact congrArg some h
  exact (spills_of_run hrun).imp fun _ _ _ _ h => Option.some.inj h

/-- An actual of a call is flattened. A tensor that has not become a variable is spilled, and what
it is read back from is passed. -/
theorem actual_runs {a : Expr} {st st' : Flattener} {out : Transformed Expr}
    (h : (actual a).run.run st = (.ok out, st')) :
    (Flattens a st out st' ∧ (out.value.ty.isWhole = true → out.value.isVar = true)) ∨
      ∃ mid st₁ back, Flattens a st mid st₁ ∧ mid.value.ty.isWhole = true ∧
        mid.value.isVar = false ∧ mid.value.spill.run.run st₁ = (.ok back, st') ∧
        out = .replace (wholeTensor back.value) := by
  unfold actual at h
  obtain ⟨mid, st₁, hmid, h⟩ := Action.run_bind_ok.1 h
  by_cases hw : (mid.value.ty.isWhole && !mid.value.isVar) = true
  · rw [if_pos hw] at h
    obtain ⟨back, st₂, hback, h⟩ := Action.run_bind_ok.1 h
    obtain ⟨rfl, rfl⟩ := Action.run_pure_ok.1 h
    obtain ⟨hwhole, hvar⟩ := Bool.and_eq_true_iff.1 hw
    exact .inr ⟨mid, st₁, back, hmid, hwhole, by simpa using hvar, hback, rfl⟩
  · rw [if_neg hw] at h
    obtain ⟨rfl, rfl⟩ := Action.run_pure_ok.1 h
    exact .inl ⟨hmid, by simpa using hw⟩

theorem actual_cases {a : Expr} {st st' : Flattener} {out : Transformed Expr}
    (h : (actual a).run.run st = (.ok out, st')) :
    (Flattens a st out st' ∧ (out.value.ty.isWhole = true → out.value.isVar = true)) ∨
      ∃ mid st₁ back, Flattens a st mid st₁ ∧ mid.value.ty.isWhole = true ∧
        mid.value.isVar = false ∧ Spills Flattens mid.value st₁ back st' ∧
        out = .replace (wholeTensor back.value) := by
  refine (actual_runs h).imp_right ?_
  rintro ⟨mid, st₁, back, hflat, hwhole, hvar, hback, hout⟩
  exact ⟨mid, st₁, back, hflat, hwhole, hvar, spills_of_spill hback, hout⟩

/-- Successful runs on an actual of a call. -/
def ActualRun (a : Expr) (st : Flattener) (out : Transformed Expr) (st' : Flattener) :
    Prop :=
  Transformed.Faithful a out ∧ ActualTo a st out.value st'

theorem actualRun_of_run {a : Expr} {st st' : Flattener} {out : Transformed Expr}
    (h : (actual a).run.run st = (.ok out, st')) : ActualRun a st out st' := by
  obtain ⟨hflat, hvar⟩ | ⟨mid, st₁, back, hflat, hwhole, hvar, hspill, rfl⟩ := actual_cases h
  · exact ⟨hflat.faithful, .kept hflat.to hvar⟩
  · refine ⟨Transformed.Faithful.replace _ _, ?_⟩
    exact .spilled hflat.to hwhole hvar (spillsTo_of_spills hflat.settled hspill)

/-- Successful runs on a statement. -/
def StmtRun (s : Stmt) (st : Flattener) (out : Transformed Stmt) (st' : Flattener) : Prop :=
  Transformed.Faithful s out ∧ StmtFlattensTo s st out.value st'

/-- A statement put behind what it left pending. -/
private theorem stmtRun_of_own {s : Stmt} {act : FlattenM (Transformed Stmt)} {st st' : Flattener}
    {out : Transformed Stmt} (h : (withOwnPending act).run.run st = (.ok out, st'))
    (hact : ∀ mid st₁, act.run.run st.own = (.ok mid, st₁) →
      Transformed.Faithful s mid ∧
        StmtFlattensTo s st (mid.value.after st₁.pending) (st₁.resume st)) :
    StmtRun s st out st' := by
  rw [run_withOwnPending] at h
  rcases hrun : act.run.run st.own with ⟨_ | mid, st₁⟩
  · rw [hrun] at h
    cases h
  · rw [hrun] at h
    cases h
    obtain ⟨hfaithful, hto⟩ := hact mid st₁ hrun
    refine ⟨fun hc => ?_, hto⟩
    -- nothing was put in front if the statement was not changed
    simp only [Bool.or_eq_false_iff, Bool.not_eq_false'] at hc
    show mid.value.after st₁.pending = s
    rw [Stmt.after, if_pos hc.2]
    exact hfaithful hc.1

/-- One statement, given the runs on the statements inside it. -/
private theorem stmtRun_step {s : Stmt}
    (ih : ∀ c ∈ s.children, ∀ st out st',
      c.flatten.run.run st = (.ok out, st') → StmtRun c st out st')
    {st st' : Flattener} {out : Transformed Stmt} (h : s.flatten.run.run st = (.ok out, st')) :
    StmtRun s st out st' := by
  have hwalk : s.isCall = false → ∀ mid st₁, (s.walkM transform).run.run st.own = (.ok mid, st₁) →
      Transformed.Faithful s mid ∧
        StmtFlattensTo s st (mid.value.after st₁.pending) (st₁.resume st) := by
    intro hcall mid st₁ hrun
    unfold Stmt.walkM at hrun
    obtain ⟨outs, st₂, houts, hrun⟩ := Action.run_bind_ok.1 hrun
    obtain ⟨inner, st₃, hinner, hrun⟩ := Action.run_bind_ok.1 hrun
    obtain ⟨rfl, rfl⟩ := Action.run_pure_ok.1 hrun
    rw [transformExprs_eq_mapM'] at houts
    rw [transformStmts_eq_mapM'] at hinner
    have houts' : Threads Flattens s.exprs _ outs st₂ := threads_of_mapM'_flattenM houts
    have hinner' : Threads StmtRun s.children st₂ inner st₃ :=
      (threads_of_mapM'_flattenM hinner).imp ih
    refine ⟨Stmt.faithful_rebuild _ _ _, ?_⟩
    rw [Stmt.value_rebuild (houts'.forall₂ fun _ _ _ _ _ h => h.faithful)
      (hinner'.forall₂ fun _ _ _ _ _ h => h.1)]
    exact .parts hcall (houts'.map fun _ _ _ _ _ h => h.to) (hinner'.map fun _ _ _ _ _ h => h.2)
  by_cases hcall : s.isCall = true
  · cases s with
    | instr i =>
      cases i with
      | call rs f as =>
        rw [flatten_call] at h
        apply stmtRun_of_own h
        intro mid st₁ hrun
        obtain ⟨outs, st₂, houts, hrun⟩ := Action.run_bind_ok.1 hrun
        obtain ⟨rfl, rfl⟩ := Action.run_pure_ok.1 hrun
        rw [actuals_eq_mapM'] at houts
        have houts' : Threads ActualRun as _ outs st₂ :=
          (threads_of_mapM'_flattenM houts).imp fun _ _ _ _ _ h => actualRun_of_run h
        refine ⟨Stmt.faithful_rebuild _ _ _, ?_⟩
        rw [Stmt.value_rebuild (s := .call rs f as) (houts'.forall₂ fun _ _ _ _ _ h => h.1) .nil]
        exact .call (houts'.map fun _ _ _ _ _ h => h.2)
      | _ => cases hcall
    | _ => cases hcall
  · rw [Bool.not_eq_true] at hcall
    rw [flatten_of_not_call hcall] at h
    exact stmtRun_of_own h (hwalk hcall)

end Flattening

theorem Flattening.stmtRun_of_run {s : Stmt} {st st' : Flattener} {out : Transformed Stmt}
    (h : s.flatten.run.run st = (.ok out, st')) : StmtRun s st out st' :=
  Stmt.children_induction (motive := fun s => ∀ st out st',
    s.flatten.run.run st = (.ok out, st') → StmtRun s st out st')
    (fun _ ih _ _ _ h => stmtRun_step ih h) s st out st' h

/-- Every successful run on a statement follows its structure. -/
theorem Stmt.flattensTo_of_run {s : Stmt} {st st' : Flattener} {out : Transformed Stmt}
    (h : s.flatten.run.run st = (.ok out, st')) : StmtFlattensTo s st out.value st' :=
  (Flattening.stmtRun_of_run h).2

end TensorIR
