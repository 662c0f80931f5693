import TensorIR.Proofs.Passing

/-! # The types of what is passed

A tensor that a call statement passes is bound to a temporary unless it is a variable. The
temporary has the dimensions and the components of the tensor, but not always its type: a column
that is not given by an index expression comes back as a row (`Stmt.flatten_call_types_iff`).

**Key idea**: an index expression is bound as it is, with the type on its node. Anything else is
copied first, component by component, and the type of the copy is put together from the kind of
the components and the dimensions, which is all of the type but the orientation.
-/

namespace TensorIR

/-- The type without orientation: a column becomes a row. -/
def Ty.asRow : Ty → Ty
  | .tensor t => .tensor { t with column := false }
  | ty => ty

/-- What is built over the dimensions of a tensor, of components of its kind, has its type but for
the orientation. -/
theorem Ty.ofDims_eq_asRow {ty : Ty} (h : ty.isTensor = true) :
    Ty.ofDims (ty.componentTy.component?.getD .float) ty.dims = ty.asRow := by
  cases ty with
  | tensor t => rfl
  | _ => cases h

/-- The type of the temporary to which a flattened tensor is bound. -/
def Expr.temporaryTy (m : Expr) : Ty := if m.isIndexExpr then m.ty else m.ty.asRow

/-- What is passed has the type of the flattened actual: it is the flattened actual itself, or the
temporary to which that is bound has its type. -/
def Contour.KeepsType (c : Contour) : Prop :=
  c.Passable ∨ c.isBuild = true ∨ c.ty.asRow = c.ty

instance : DecidablePred Contour.KeepsType := fun _ => inferInstanceAs (Decidable (_ ∨ _ ∨ _))

namespace Flattening

/-! ### Actuals -/

/-- An actual after it has been flattened, and what is passed in its place. -/
structure Actual where
  flattened : Expr
  passed : Expr

/-- A flattened actual that may not be passed is spilled, and what it is read back from is passed as
a whole. -/
inductive Passes (a : Expr) (st : Flattener) : Actual → Flattener → Prop
  | kept {out st'} : Flattens a st out st' → out.value.Passable →
    Passes a st ⟨out.value, out.value⟩ st'
  | spilled {out st₁ back st'} : Flattens a st out st₁ → ¬ out.value.Passable →
    out.value.spill.run.run st₁ = (.ok back, st') →
    Passes a st ⟨out.value, wholeTensor back.value⟩ st'

/-- A spilled tensor is passed as the temporary that it is bound to. -/
theorem wholeTensor_of_spillsTo {m x : Expr} {st st' : Flattener} (hw : m.ty.isWhole = true)
    (h : SpillsTo m st x st') :
    ∃ tmp, wholeTensor x = .ofVar tmp ∧ tmp.ty = m.temporaryTy := by
  unfold Expr.temporaryTy
  cases h with
  | copied _ hie hvs =>
    -- the copy is built over new variables, one for each dimension
    have hdims := domain_indexVars none m.ty.dims st.toBuilder
    rw [hvs] at hdims
    rw [if_neg (by simp [hie]), ← Ty.ofDims_eq_asRow (Bool.and_eq_true_iff.1 hw).1, ← hdims]
    unfold Expr.copyAt
    rw [hoist_indexExpr]
    exact ⟨_, rfl, rfl⟩
  | hoisted hie =>
    -- a tensor that is not copied is an index expression already
    rw [if_pos (hie hw)]
    cases m with
    | indexExpr ty rs b =>
      rw [hoist_indexExpr]
      exact ⟨_, rfl, rfl⟩
    | _ => cases hie hw

namespace Passes

variable {a : Expr} {p : Actual} {st st' : Flattener}

/-- An actual that is treated successfully has been flattened and passed. -/
theorem of_run {out : Transformed Expr} (h : (actual a).run.run st = (.ok out, st')) :
    ∃ m, Passes a st ⟨m, out.value⟩ st' := by
  obtain ⟨hflat, hvar⟩ | ⟨mid, st₁, back, hflat, hwhole, hvar, hback, rfl⟩ := actual_runs h
  · exact ⟨_, .kept hflat hvar⟩
  · exact ⟨_, .spilled hflat (by simp [Expr.Passable, hwhole, hvar]) hback⟩

theorem contour (h : Passes a st p st') : p.flattened.contour = a.flatContour := by
  cases h with
  | kept hrun _ => exact hrun.to.contour
  | spilled hrun _ _ => exact hrun.to.contour

theorem passed_eq (h : Passes a st p st') (hp : p.flattened.Passable) :
    p.passed = p.flattened := by
  cases h with
  | kept _ _ => rfl
  | spilled _ hnot _ => exact absurd hp hnot

theorem exists_temporary (h : Passes a st p st') (hp : ¬ p.flattened.Passable) :
    ∃ tmp, p.passed = .ofVar tmp ∧ tmp.ty = p.flattened.temporaryTy := by
  cases h with
  | kept _ hok => exact absurd hok hp
  | spilled hrun hnot hspill =>
    exact wholeTensor_of_spillsTo (Classical.not_imp.1 hnot).1
      (spillsTo_of_spills hrun.settled (spills_of_spill hspill))

/-- Whether what is passed has the type of the flattened actual shows in the contour. -/
theorem ty_eq_iff (h : Passes a st p st') :
    p.passed.ty = p.flattened.ty ↔ a.flatContour.KeepsType := by
  rw [← h.contour]
  unfold Contour.KeepsType
  rw [Expr.passable_contour, Expr.isBuild_contour, Expr.ty_contour]
  by_cases hp : p.flattened.Passable
  · exact iff_of_true (congrArg Expr.ty (h.passed_eq hp)) (.inl hp)
  · obtain ⟨tmp, hpassed, hty⟩ := h.exists_temporary hp
    rw [hpassed, Expr.ty_ofVar, hty, Expr.temporaryTy]
    cases p.flattened.isIndexExpr <;> simp [hp]

end Passes

/-! ### Calls -/

section

variable {rs : List Var} {f : Func} {as : List Expr} {ps : List Actual} {st st' : Flattener}

/-- Actuals that are treated successfully one after another have been flattened and passed. -/
theorem passes_of_threads {outs : List (Transformed Expr)}
    (h : Threads (fun a st out st' => (actual a).run.run st = (.ok out, st')) as st outs st') :
    ∃ ps, Threads Passes as st ps st' ∧ ps.map Actual.passed = Transformed.values outs := by
  induction h with
  | nil => exact ⟨[], .nil, rfl⟩
  | cons ha _ ih =>
    obtain ⟨m, hm⟩ := Passes.of_run ha
    obtain ⟨ps, hps, hvalues⟩ := ih
    exact ⟨_ :: ps, .cons hm hps, congrArg (_ :: ·) hvalues⟩

/-- A flattened call passes its actuals in order, behind what they have left pending. -/
theorem passes_of_flatten_call {out : Transformed Stmt}
    (h : (Stmt.call rs f as).flatten.run.run st = (.ok out, st')) :
    ∃ ps own, Threads Passes as st.own ps own ∧
      out.value = (Stmt.call rs f (ps.map Actual.passed)).after own.pending := by
  rw [flatten_call, run_withOwnPending] at h
  rcases hrun : (do return (Stmt.call rs f as).rebuild (← actuals as) [] :
    FlattenM (Transformed Stmt)).run.run st.own with ⟨_ | mid, _⟩
  · rw [hrun] at h
    cases h
  · rw [hrun] at h
    cases h
    obtain ⟨outs, own, houts, hmid⟩ := Action.run_bind_ok.1 hrun
    obtain ⟨rfl, rfl⟩ := Action.run_pure_ok.1 hmid
    rw [actuals_eq_mapM'] at houts
    have hthreads := threads_of_mapM'_flattenM houts
    have hfaithful : List.Forall₂ Transformed.Faithful as outs :=
      hthreads.forall₂ fun _ _ _ _ _ h => (actualRun_of_run h).1
    obtain ⟨ps, hps, hvalues⟩ := passes_of_threads hthreads
    refine ⟨ps, own, hps, ?_⟩
    show ((Stmt.call rs f as).rebuild outs []).value.after _ = _
    rw [Stmt.value_rebuild (s := .call rs f as) hfaithful .nil, hvalues]
    rfl

end

end Flattening

/-- A flattened call passes every actual as it is when flattened, or as a temporary if it is a
tensor and no variable. The temporary has the dimensions and components of the flattened actual,
and its orientation as well if that is an index expression. So all types are kept exactly if no
column that is no index expression has to be passed. -/
theorem Stmt.flatten_call_types_iff {rs : List Var} {f : Func} {as : List Expr}
    {st st' : Flattener} {out : Transformed Stmt}
    (h : (Stmt.call rs f as).flatten.run.run st = (.ok out, st')) :
    ∃ ps own, Flattening.Threads Flattening.Passes as st.own ps own ∧
      out.value = (Stmt.call rs f (ps.map Flattening.Actual.passed)).after own.pending ∧
      (∀ p ∈ ps, p.flattened.Passable → p.passed = p.flattened) ∧
      (∀ p ∈ ps, ¬ p.flattened.Passable →
        ∃ tmp, p.passed = .ofVar tmp ∧ tmp.ty = p.flattened.temporaryTy) ∧
      ((∀ p ∈ ps, p.passed.ty = p.flattened.ty) ↔ ∀ a ∈ as, a.flatContour.KeepsType) := by
  obtain ⟨ps, own, hps, hvalue⟩ := Flattening.passes_of_flatten_call h
  have hall : List.Forall₂ (fun a p => ∃ st st', Flattening.Passes a st p st') as ps :=
    hps.forall₂ fun _ _ st _ st' hp => ⟨st, st', hp⟩
  refine ⟨ps, own, hps, hvalue, fun p hp => ?_, fun p hp => ?_, forall_iff_of_forall₂ ?_⟩
  · obtain ⟨_, _, _, _, hpasses⟩ := exists_of_mem_right hall hp
    exact hpasses.passed_eq
  · obtain ⟨_, _, _, _, hpasses⟩ := exists_of_mem_right hall hp
    exact hpasses.exists_temporary
  · exact hall.imp fun _ _ ⟨_, _, hpasses⟩ => hpasses.ty_eq_iff

/-- `-a`, for a tensor of the given type. -/
def Expr.negated (ty : Ty) : Expr := .negOf (.ofVar ⟨0, "a", ty⟩)

/-- `x = g(e)`, for an actual of the given type. -/
def Stmt.passing (ty : Ty) (e : Expr) : Stmt :=
  .call [⟨1, "x", .float⟩] ⟨4, "g", .external, [⟨2, "p", ty⟩], [⟨3, "q", .float⟩], none⟩ [e]

/-- A row is passed with its type. -/
theorem Stmt.flatten_passing_row :
    ∃ out st', (passing (.vector 3) (.negated (.vector 3))).flatten.run.run (.ofFresh ⟨5, {}⟩) =
        (.ok out, st') ∧
      ∃ ps own, Flattening.Threads Flattening.Passes [.negated (.vector 3)]
          (Flattener.ofFresh ⟨5, {}⟩).own ps own ∧
        ∀ p ∈ ps, p.passed.ty = p.flattened.ty := by
  obtain ⟨out, st', hrun⟩ : ∃ out st', (passing (.vector 3) (.negated (.vector 3))).flatten.run.run
      (.ofFresh ⟨5, {}⟩) = (.ok out, st') := ⟨_, _, rfl⟩
  obtain ⟨ps, own, hps, -, -, -, htypes⟩ := flatten_call_types_iff hrun
  exact ⟨out, st', hrun, ps, own, hps, htypes.2 (by decide)⟩

/-- A column is passed as a row: the temporary for it has another type. -/
theorem Stmt.flatten_passing_column :
    let column : Ty := .tensor ⟨.float, [.range 3], true⟩
    ∃ out st' tmp value,
      (passing column (.negated column)).flatten.run.run (.ofFresh ⟨5, {}⟩) = (.ok out, st') ∧
        (Expr.negated column).flatten.run.run (.ofFresh ⟨5, {}⟩) =
          (.ok (.keep (.negated column)), .ofFresh ⟨5, {}⟩) ∧
        out.value = .block [.assign tmp value, passing column (.ofVar tmp)] ∧
        tmp.ty = .vector 3 ∧ tmp.ty ≠ (Expr.negated column).ty := by
  refine ⟨_, _, _, _, rfl, rfl, rfl, rfl, ?_⟩
  decide

end TensorIR
