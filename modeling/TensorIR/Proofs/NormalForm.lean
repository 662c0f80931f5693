import TensorIR.Proofs.Outcomes

/-! # The normal form of flattening

An expression is *normal* if none of its nodes is of a kind that flattening does something about.
Flattening leaves only normal statements, whatever it is given, and it leaves normal statements as
they are, as long as the operands of sums are scalar (`Stmt.flatten_normal`).

**Key idea**: what is normal is told by the nodes alone, what is settled by what flattening asks
when it comes to a node. The two differ only in tensor operands of sums, on which flattening fails
(`Expr.settled_iff_normal`).
-/

namespace TensorIR

/-! ### Normal expressions -/

namespace Expr

/-- A negation, or a binary operation, whose operands can all be read through `vs`: each of them is
scalar, or a tensor with one dimension for each variable. -/
def Distributes (vs : List IndexVar) : Expr → Prop
  | .neg _ a => a.readable vs = true
  | .binary _ _ a b => a.readable vs = true ∧ b.readable vs = true
  | _ => False

instance (vs : List IndexVar) : DecidablePred (Distributes vs)
  | .neg _ _ => inferInstanceAs (Decidable (_ = _))
  | .binary _ _ _ _ => inferInstanceAs (Decidable (_ ∧ _))
  | .var _ _ | .prim _ _ _ | .indexed _ _ _ | .indexExpr _ _ _ =>
    inferInstanceAs (Decidable False)

/-- No node reads a tensor through index variables, and none is an index expression. -/
def Unindexed (e : Expr) : Prop := e.Everywhere fun n => n.isIndexed = false ∧ n.isIndexExpr = false

instance : DecidablePred Unindexed := fun e => inferInstanceAs (Decidable (e.Everywhere _))

/-- What is asked of a single node: an indexed read reads neither an index expression nor an
operation that distributes, and an operand of a sum is an indexed read or has none in it. -/
def NormalNode : Expr → Prop
  | .indexed _ t vs => t.isIndexExpr = false ∧ ¬ t.Distributes vs
  | .binary _ op a b =>
    op.isSum = true → (a.isIndexed = true ∨ a.Unindexed) ∧ (b.isIndexed = true ∨ b.Unindexed)
  | _ => True

instance : DecidablePred NormalNode
  | .indexed _ _ _ => inferInstanceAs (Decidable (_ ∧ _))
  | .binary _ _ _ _ => inferInstanceAs (Decidable (_ → _))
  | .var _ _ | .prim _ _ _ | .indexExpr _ _ _ | .neg _ _ => inferInstanceAs (Decidable True)

/-- Every node is as it should be. -/
def Normal (e : Expr) : Prop := e.Everywhere NormalNode

instance : DecidablePred Normal := fun e => inferInstanceAs (Decidable (e.Everywhere _))

/-- A sum of scalars, or no sum. -/
def ScalarSum : Expr → Prop
  | .binary _ op a b => op.isSum = true → a.ty.isScalar = true ∧ b.ty.isScalar = true
  | _ => True

instance : DecidablePred ScalarSum
  | .binary _ _ _ _ => inferInstanceAs (Decidable (_ → _))
  | .var _ _ | .prim _ _ _ | .indexed _ _ _ | .indexExpr _ _ _ | .neg _ _ =>
    inferInstanceAs (Decidable True)

/-- The operands of all sums are scalar. -/
def ScalarSums (e : Expr) : Prop := e.Everywhere ScalarSum

instance : DecidablePred ScalarSums := fun e => inferInstanceAs (Decidable (e.Everywhere _))

theorem ScalarSums.child {e c : Expr} (h : e.ScalarSums) (hc : c ∈ e.children) : c.ScalarSums :=
  Everywhere.child h hc

/-- There is a distributed form exactly of what distributes. -/
theorem distributeIndex?_eq_none_iff {t : Expr} {vs : List IndexVar} :
    t.distributeIndex? vs = none ↔ ¬ t.Distributes vs := by
  cases t with
  | neg ty a =>
    rw [distributeIndex?_neg]
    by_cases hr : a.readable vs = true <;> simp [hr, Distributes]
  | binary ty op a b =>
    rw [distributeIndex?_binary]
    by_cases hr : (a.readable vs && b.readable vs) = true
    · rw [if_pos hr]
      simp [Distributes, Bool.and_eq_true_iff.1 hr]
    · rw [if_neg hr]
      simpa [Distributes] using hr
  | _ => simp [distributeIndex?, Distributes]

/-- A settled operand need not be looked at for its type. -/
theorem OperandSettled.normal {a : Expr} (h : a.OperandSettled) :
    a.isIndexed = true ∨ a.Unindexed :=
  h.imp_right fun ⟨hc, _⟩ => containsIndexed_eq_false_iff.1 hc

theorem operandSettled_of_normal {a : Expr} (h : a.isIndexed = true ∨ a.Unindexed)
    (hs : a.ty.isScalar = true) : a.OperandSettled :=
  h.imp_right fun hp => ⟨containsIndexed_eq_false_iff.2 hp, by simp [Ty.isWhole, hs]⟩

theorem SettledNode.normal {n : Expr} (h : n.SettledNode) : n.NormalNode := by
  cases n with
  | indexed ty t vs => exact ⟨h.1, distributeIndex?_eq_none_iff.1 h.2⟩
  | binary ty op a b => exact fun hop => ⟨(h hop).1.normal, (h hop).2.normal⟩
  | _ => trivial

theorem settledNode_of_normal {n : Expr} (h : n.NormalNode) (hs : n.ScalarSum) :
    n.SettledNode := by
  cases n with
  | indexed ty t vs => exact ⟨h.1, distributeIndex?_eq_none_iff.2 h.2⟩
  | binary ty op a b =>
    intro hop
    obtain ⟨ha, hb⟩ := h hop
    obtain ⟨hsa, hsb⟩ := hs hop
    exact ⟨operandSettled_of_normal ha hsa, operandSettled_of_normal hb hsb⟩
  | _ => trivial

theorem Settled.normal {e : Expr} (h : e.Settled) : e.Normal :=
  Everywhere.imp h fun _ => SettledNode.normal

/-- Where the operands of sums are scalar, normal is the same as settled. -/
theorem settled_iff_normal {e : Expr} (hs : e.ScalarSums) : e.Settled ↔ e.Normal :=
  ⟨Settled.normal, fun h n hn => settledNode_of_normal (h n hn) (hs n hn)⟩

end Expr

/-! ### Flattening makes statements normal -/

/-- What is bound to a temporary is settled if the hoisted expression is. -/
theorem Flattener.Pends.hoist_settled {a : Expr} {st : Flattener} (h : st.Pends Expr.Settled)
    (ha : a.Settled) : (st.hoist a).2.Pends Expr.Settled := by
  cases a using hoist_cases st with
  | built ty vs b heq | named a _ _ heq =>
    rw [heq]
    exact h.bindTemporary ha
  | wrapped a _ _ heq =>
    rw [heq]
    exact h.bindTemporary (Expr.everywhere_indexExpr.2 ⟨trivial, ha⟩)
  | kept a _ _ heq => rwa [heq]

namespace Flattening

/-- A run that keeps what waits settled. -/
abbrev KeepsSettled (st st' : Flattener) : Prop :=
  st.Pends Expr.Settled → st'.Pends Expr.Settled

/-- The runs that a step calls for, with what they leave waiting. -/
abbrev SettledRun (e : Expr) (st : Flattener) (out : Transformed Expr) (st' : Flattener) : Prop :=
  Flattens e st out st' ∧ KeepsSettled st st'

theorem keepsSettled_spills {a : Expr} {st st' : Flattener} {out : Transformed Expr}
    (h : Spills SettledRun a st out st') (ha : a.Settled) : KeepsSettled st st' := by
  intro hst
  cases h with
  | lifted hw hi hv hr => exact (hr.2 hst).hoist_settled hr.1.settled
  | hoisted hw => exact hst.hoist_settled ha

theorem keepsSettled_operand {a : Expr} {st st' : Flattener} {out : Transformed Expr}
    (h : Operand SettledRun a st out st') : KeepsSettled st st' := by
  intro hst
  cases h with
  | read hr hi => exact hr.2 hst
  | spilled hr hi hspill => exact keepsSettled_spills hspill hr.1.settled (hr.2 hst)

end Flattening

section

variable {e : Expr} {st st' : Flattener} {out : Transformed Expr}

/-- What an expression leaves waiting are assignments of settled values. -/
theorem Flattens.keepsSettled (h : Flattens e st out st') : Flattening.KeepsSettled st st' := by
  refine Flattening.flattens_induction (P := fun _ st _ st' => Flattening.KeepsSettled st st')
    ?_ h
  intro e st out st' hstep hst
  cases hstep with
  | sum hop hsa hsb hx hy =>
    exact Flattening.keepsSettled_operand hy (Flattening.keepsSettled_operand hx hst)
  | inlined hr hv hl => exact hr.2 hst
  | distributed hr hi hd hr' => exact hr'.2 (hr.2 hst)
  | kept hr hi hd => exact hr.2 hst
  | parts hs hi hthreads => exact hthreads.preserves (fun _ _ _ _ _ h => h.2) hst

end

namespace Stmt

theorem treats_settled (s : Stmt) (e : Expr) :
    Flattening.Treats Expr.Settled (s.treat e) (s.Takes Expr.Settled) := by
  intro st out st' hrun hst
  unfold treat at hrun
  by_cases hcall : s.isCall = true
  · rw [if_pos hcall] at hrun
    obtain ⟨hflat, hvar⟩ | ⟨mid, st₁, back, hflat, hwhole, _, hspill, rfl⟩ :=
      Flattening.actual_cases hrun
    · exact ⟨hflat.keepsSettled hst, hflat.settled, fun _ => hvar⟩
    · -- the tensor that is passed is the temporary that holds it
      suffices hpassed : st'.Pends Expr.Settled ∧
          ∃ tmp, Flattening.wholeTensor back.value = .ofVar tmp by
        obtain ⟨hst', tmp, htmp⟩ := hpassed
        refine ⟨hst', ?_⟩
        show s.Takes Expr.Settled (Flattening.wholeTensor back.value)
        rw [htmp]
        exact ⟨Flattening.settled_ofVar tmp, fun _ _ => rfl⟩
      have hst₁ := hflat.keepsSettled hst
      cases hspill with
      | lifted _ _ _ hr =>
        exact (hr.keepsSettled hst₁).hoist_indexExpr (hr.isIndexExpr rfl) hr.settled
      | hoisted hi => exact hst₁.hoist_indexExpr (hi hwhole) hflat.settled
  · rw [if_neg hcall] at hrun
    have hflat : Flattens e st out st' := hrun
    exact ⟨hflat.keepsSettled hst, hflat.settled, fun h => absurd h hcall⟩

/-- Everything in a flattened statement is settled, and calls pass variables. -/
theorem consists_settled_of_flatten {s : Stmt} {st st' : Flattener} {out : Transformed Stmt}
    (h : s.flatten.run.run st = (.ok out, st')) : out.value.Everywhere (Consists Expr.Settled) :=
  reaches_consists (fun n _ e _ => n.treats_settled e) st out st' h

end Stmt

/-! ### Flattening leaves settled expressions alone -/

namespace Flattening

section

variable {f : Expr → BoundedM (Transformed Expr)} {a b : Expr}

/-- Scalars without indexed reads are not spilled. -/
theorem spill_of_plain (hc : a.containsIndexed = false) (hs : a.ty.isScalar = true) :
    spill f a = pure (.keep a) := by
  unfold spill
  rw [if_neg (by simp [Ty.isWhole, hs])]
  refine ExceptT.ext (StateT.ext fun st => ?_)
  show some (Except.ok (st.hoist a).1, (st.hoist a).2) = some (Except.ok (.keep a), st)
  rw [hoist_of_plain hc hs]

theorem sumOperand_of_settled (hf : f a = pure (.keep a)) (ha : a.OperandSettled)
    (hs : a.ty.isScalar = true) : sumOperand f a = pure (.keep a) := by
  unfold sumOperand
  rw [hf, pure_bind, Transformed.value_keep]
  by_cases hi : a.isIndexed = true
  · rw [if_pos hi]
  · obtain ⟨hc, _⟩ := ha.resolve_left hi
    rw [if_neg hi, spill_of_plain hc hs, pure_bind]
    rfl

theorem requireScalar_of_isScalar {op : BinaryOp} (hs : a.ty.isScalar = true) :
    requireScalar op a = (pure () : BoundedM Unit) := by
  unfold requireScalar
  rw [if_pos hs]

theorem sum_of_settled {ty : Ty} {op : BinaryOp} (ha : f a = pure (.keep a))
    (hb : f b = pure (.keep b)) (hop : a.OperandSettled ∧ b.OperandSettled)
    (hs : a.ty.isScalar = true ∧ b.ty.isScalar = true) :
    sum f (.binary ty op a b) op a b = pure (.keep (.binary ty op a b)) := by
  unfold sum
  rw [requireScalar_of_isScalar hs.1, pure_bind, requireScalar_of_isScalar hs.2, pure_bind,
    sumOperand_of_settled ha hop.1 hs.1, pure_bind, sumOperand_of_settled hb hop.2 hs.2, pure_bind,
    rebuild_keep _ (by simp)]

theorem indexedRead_of_settled {ty : Ty} {vs : List IndexVar} (ha : f a = pure (.keep a))
    (hi : a.isIndexExpr = false) (hd : a.distributeIndex? vs = none) :
    indexedRead f (.indexed ty a vs) a vs = pure (.keep (.indexed ty a vs)) := by
  unfold indexedRead
  rw [ha, pure_bind, Transformed.value_keep, hd]
  cases a with
  | indexExpr => cases hi
  | _ => exact congrArg pure (rebuild_keep _ (by simp))

/-- A step on a settled node does nothing if nothing happens to its parts. -/
theorem step_of_settled {e : Expr} (he : e.Settled) (hs : e.ScalarSums)
    (hf : ∀ c ∈ e.children, f c = pure (.keep c)) : step f e = pure (.keep e) := by
  have hparts : (do return e.rebuild (← all f e.children)) =
      (pure (.keep e) : BoundedM (Transformed Expr)) := by
    rw [all_eq_mapM', Action.mapM'_eq_pure hf, pure_bind, rebuild_keep]
    simp
  unfold step
  split
  · exact sum_of_settled (hf _ (by simp [Expr.children])) (hf _ (by simp [Expr.children]))
      (he.root rfl) (hs.root rfl)
  · exact sum_of_settled (hf _ (by simp [Expr.children])) (hf _ (by simp [Expr.children]))
      (he.root rfl) (hs.root rfl)
  · exact indexedRead_of_settled (hf _ (by simp [Expr.children])) he.root.1 he.root.2
  · exact hparts

/-- What one step does whatever the state, flattening does. -/
theorem flatten_eq_pure_of_step {e : Expr} {out : Transformed Expr}
    (h : step (fun e => total e.flatten) e = pure out) : e.flatten = pure out := by
  refine ExceptT.ext (StateT.ext fun st => ?_)
  have hstep := step_flatten e st _ rfl
  rw [h] at hstep
  exact (Option.some.inj hstep).symm

end

end Flattening

/-- Flattening a settled expression with scalar sums succeeds, and does nothing. -/
theorem Expr.Settled.flatten_eq {e : Expr} (h : e.Settled) (hs : e.ScalarSums) :
    e.flatten = pure (.keep e) := by
  induction e using Expr.children_induction with
  | step e ih =>
    refine Flattening.flatten_eq_pure_of_step (Flattening.step_of_settled h hs fun c hc => ?_)
    rw [ih c hc (h.child hc) (hs.child hc)]
    rfl

/-! ### Statements -/

namespace Stmt

variable {s : Stmt}

/-- With nothing pending, nothing is put in front. -/
theorem withOwnPending_pure (out : Transformed Stmt) :
    Flattening.withOwnPending (pure out) = pure out := by
  refine ExceptT.ext (StateT.ext fun st => ?_)
  show (Flattening.withOwnPending (pure out)).run.run st = _
  rw [Flattening.run_withOwnPending]
  show (Except.ok (⟨out.value, out.changed || false⟩ : Transformed Stmt), st) = (Except.ok out, st)
  rw [Bool.or_false]

theorem treat_eq {e : Expr} (he : e.Settled) (hs : e.ScalarSums)
    (hvar : s.isCall = true → e.ty.isWhole = true → e.isVar = true) :
    s.treat e = pure (.keep e) := by
  unfold treat
  by_cases hcall : s.isCall = true
  · rw [if_pos hcall, Flattening.actual, he.flatten_eq hs, pure_bind, Transformed.value_keep,
      if_neg]
    simpa using hvar hcall
  · rw [if_neg hcall, he.flatten_eq hs]

/-- Flattening a settled statement with scalar sums succeeds, and does nothing. -/
theorem flatten_eq_keep (h : s.Everywhere (Consists fun e => e.Settled ∧ e.ScalarSums)) :
    s.flatten = pure (.keep s) := by
  induction s using children_induction with
  | step s ih =>
    obtain ⟨hexprs, hpasses⟩ := h.root
    have htreat : ∀ e ∈ s.exprs, s.treat e = pure (.keep e) := fun e he =>
      treat_eq (hexprs e he).1 (hexprs e he).2 fun hcall =>
        passesVars_iff.1 hpasses (s.isCall_eq ▸ hcall) e he
    have hinner : ∀ c ∈ s.children, c.flatten = pure (.keep c) := fun c hc => ih c hc (h.child hc)
    rw [Stmt.flatten_eq, flattenParts, Action.mapM'_eq_pure htreat, pure_bind,
      Action.mapM'_eq_pure hinner, pure_bind, rebuild_keep, withOwnPending_pure]

/-- All expressions are normal, and calls pass tensors as variables. -/
def Normal (s : Stmt) : Prop := s.Everywhere (Consists Expr.Normal)

instance : DecidablePred PassesVars
  | .instr (.call _ _ as) =>
    inferInstanceAs (Decidable (∀ a ∈ as, a.ty.isWhole = true → a.isVar = true))
  | .instr (.assign _ _) | .instr (.map _ _ _ _ _ _) | .instr (.fieldWrite _ _ _)
  | .instr (.tensorWrite _ _ _) | .instr (.store _ _ _) | .instr .pass | .instr (.varDecl _)
  | .forLoop _ _ _ | .ifThenElse _ _ _ | .block _ => inferInstanceAs (Decidable True)

instance (q : Expr → Prop) [DecidablePred q] : DecidablePred (Consists q) := fun s =>
  inferInstanceAs (Decidable ((∀ e ∈ s.exprs, q e) ∧ s.PassesVars))

instance : DecidablePred Normal := fun s => inferInstanceAs (Decidable (s.Everywhere _))

/-- The operands of all sums are scalar. -/
def ScalarSums (s : Stmt) : Prop := s.ForExprs Expr.ScalarSums

instance : DecidablePred ScalarSums := fun s => inferInstanceAs (Decidable (s.ForExprs _))

theorem Consists.imp {p q : Expr → Prop} (h : s.Consists p) (hpq : ∀ e ∈ s.exprs, p e → q e) :
    s.Consists q :=
  ⟨fun e he => hpq e he (h.1 e he), h.2⟩

/-- Flattening leaves only normal statements. A statement in which the operands of sums are scalar
comes back as it is, with no name drawn, exactly if it is normal. -/
theorem flatten_normal (s : Stmt) :
    (∀ st out st', s.flatten.run.run st = (.ok out, st') → out.value.Normal) ∧
      (s.ScalarSums → ∀ st, (∃ st', s.flatten.run.run st = (.ok (.keep s), st') ∧
        st'.names = st.names) ↔ s.Normal) := by
  have hnormal : ∀ st out st', s.flatten.run.run st = (.ok out, st') → out.value.Normal :=
    fun st out st' h n hn => (consists_settled_of_flatten h n hn).imp fun _ _ => Expr.Settled.normal
  refine ⟨hnormal, fun hs st => ⟨?_, fun h => ?_⟩⟩
  · rintro ⟨st', hrun, -⟩
    exact hnormal st _ st' hrun
  · have hsettled : s.Everywhere (Consists fun e => e.Settled ∧ e.ScalarSums) := fun n hn =>
      (h n hn).imp fun e he hnorm =>
        have hsums : e.ScalarSums := forExprs_iff_everywhere.1 hs n hn e he
        ⟨(Expr.settled_iff_normal hsums).2 hnorm, hsums⟩
    rw [flatten_eq_keep hsettled]
    exact ⟨st, rfl, rfl⟩

/-- `x = (i: a{i} * b{i}); y = f(x, a{r} + c);` with `r` a sum variable. -/
def keptCall : Stmt :=
  let i : IndexVar := ⟨0, "i", .range 3, none⟩
  let r : IndexVar := ⟨1, "r", .range 3, some .sum⟩
  let a : Expr := .ofVar ⟨2, "a", .vector 3⟩
  let b : Expr := .ofVar ⟨3, "b", .vector 3⟩
  let c : Expr := .ofVar ⟨4, "c", .float⟩
  let x : Var := ⟨5, "x", .vector 3⟩
  let y : Var := ⟨6, "y", .float⟩
  let f : Func := ⟨7, "f", .external, [x, ⟨8, "s", .float⟩], [y], none⟩
  .block [.assign x (.build [i] (.binaryOf .mul (a.index [i]) (b.index [i]))),
    .call [y] f [.ofVar x, .binaryOf .add (a.index [r]) c]]

theorem flatten_keptCall :
    keptCall.ScalarSums ∧ keptCall.Normal ∧ ∃ st', keptCall.flatten.run.run (.ofFresh ⟨9, {}⟩) =
      (.ok (.keep keptCall), st') ∧ st'.names = {} := by
  refine ⟨by decide, by decide, ?_⟩
  exact ((flatten_normal keptCall).2 (by decide) _).2 (by decide)

end Stmt

end TensorIR
