import TensorIR.Proofs.Shape
import TensorIR.Proofs.Statements

/-! # Flattening well-shaped statements

Flattening a well-shaped statement succeeds, whatever the state of the flattener: no operand of a
sum turns out not to be scalar, no read has the wrong number of variables, and nothing is copied
that is no tensor. What comes out is well-shaped again, with all the temporaries it needs.

**Key idea**: a flattened expression fits where the expression stood (`Ty.Fits`): it has the same
type, or it was a read that became a scalar body. Together with well-shaped pending statements
this is an invariant of every step (`Flattening.succeeds_step`), and no step that keeps it can
fail.
-/

namespace TensorIR

/-- Every statement that waits is well-shaped. -/
def Flattener.WellShaped (st : Flattener) : Prop := ∀ s ∈ st.pending, s.WellShaped

namespace Flattening

/-- From every state with well-shaped pending statements, the action succeeds if it comes to an
end; the pending statements are well-shaped still, and the result satisfies `p`. -/
def Succeeds {α : Type} (act : BoundedM α) (p : α → Prop) : Prop :=
  ∀ st r, st.WellShaped → act.run.run st = some r →
    ∃ a st', r = (.ok a, st') ∧ st'.WellShaped ∧ p a

namespace Succeeds

variable {α β : Type} {p : α → Prop} {q : β → Prop}

theorem pure {a : α} (h : p a) : Succeeds (pure a) p := by
  intro st r hst hr
  cases hr
  exact ⟨a, st, rfl, hst, h⟩

theorem modifyGet {f : Flattener → α × Flattener}
    (h : ∀ st : Flattener, st.WellShaped → (f st).2.WellShaped ∧ p (f st).1) :
    Succeeds (modifyGet f : BoundedM α) p := by
  intro st r hst hr
  cases hr
  exact ⟨(f st).1, (f st).2, rfl, (h st hst).1, (h st hst).2⟩

theorem bind {act : BoundedM α} {k : α → BoundedM β} (h : Succeeds act p)
    (hk : ∀ a, p a → Succeeds (k a) q) : Succeeds (act >>= k) q := by
  intro st r hst hr
  rw [run_bind] at hr
  cases hact : act.run.run st with
  | none => rw [hact] at hr; cases hr
  | some r₁ =>
    obtain ⟨a, st₁, rfl, hst₁, ha⟩ := h st r₁ hst hact
    rw [hact] at hr
    exact hk a ha st₁ r hst₁ hr

theorem imp {act : BoundedM α} {q : α → Prop} (h : Succeeds act p) (hpq : ∀ a, p a → q a) :
    Succeeds act q := by
  intro st r hst hr
  obtain ⟨a, st', hr', hst', ha⟩ := h st r hst hr
  exact ⟨a, st', hr', hst', hpq a ha⟩

theorem mapM' {R : α → β → Prop} {f : α → BoundedM β} {as : List α}
    (h : ∀ a ∈ as, Succeeds (f a) (R a)) : Succeeds (as.mapM' f) (List.Forall₂ R as) := by
  induction as with
  | nil => exact Succeeds.pure .nil
  | cons a as ih =>
    apply (h a (by simp)).bind
    intro b hb
    apply (ih fun a' h' => h a' (by simp [h'])).bind
    intro bs hbs
    exact Succeeds.pure (.cons hb hbs)

end Succeeds

/-- The outcome fits where `e` stood. -/
def KeepsShape (e : Expr) (out : Transformed Expr) : Prop :=
  out.value.WellShaped ∧ e.ty.Fits out.value.ty

/-! ### Hoisting and copying -/

theorem wellShaped_bindTemporary {value : Expr} {st : Flattener} (hst : st.WellShaped)
    (h : value.WellShaped) : (st.bindTemporary value).2.WellShaped := by
  refine Flattener.forall_pending_bindTemporary.2 ⟨hst, ?_⟩
  exact Stmt.forExprs_assign.2 h

/-- Hoisting a scalar, or an index expression, leaves a scalar behind. -/
theorem wellShaped_hoist {a : Expr} (h : a.WellShaped)
    (hty : a.ty.isScalar = true ∨ a.isIndexExpr = true) (st : Flattener) :
    (st.WellShaped → (st.hoist a).2.WellShaped) ∧
      (st.hoist a).1.value.WellShaped ∧ (st.hoist a).1.value.ty.isScalar = true := by
  -- what is bound is an index expression, and it is read through its result variables
  have hread : ∀ (ty : Ty) (vs : List IndexVar) (b : Expr),
      (Expr.indexExpr ty vs b).WellShaped →
      (st.WellShaped → (st.bindTemporary (.indexExpr ty vs b)).2.WellShaped) ∧
        ((Expr.ofVar (st.bindTemporary (.indexExpr ty vs b)).1).index vs).WellShaped ∧
        ((Expr.ofVar (st.bindTemporary (.indexExpr ty vs b)).1).index vs).ty.isScalar = true := by
    intro ty vs b hw
    obtain ⟨⟨_, htensor, hdims⟩, _⟩ := Expr.everywhere_indexExpr.1 hw
    have hscalar := Ty.isScalar_componentTy_of_isTensor htensor
    refine ⟨fun hst => wellShaped_bindTemporary hst hw, ?_, hscalar⟩
    exact (Expr.WellShaped.ofVar _).index hscalar hdims.symm
  cases a using Flattener.hoist_cases st with
  | built ty vs b heq =>
    rw [heq]
    exact hread ty vs b h
  | wrapped a _ hi heq =>
    have hs : a.ty.isScalar = true := hty.resolve_right (by simp [hi])
    rw [heq]
    exact hread _ _ _ (h.build hs _)
  | named a hc hs _ =>
    have hi : a.isIndexExpr = false := (Expr.containsIndexed_eq_false_iff.1 hc).root.2
    rw [hs, hi] at hty
    simp at hty
  | kept a _ hs heq =>
    rw [heq]
    exact ⟨fun hst => hst, h, hs⟩

/-- Fresh index variables range over the given dimensions. -/
theorem domain_indexVars (red : Option Reduction) (ds : List Dim) (b : Builder) :
    ((Builder.indexVars red ds).run b).1.map IndexVar.domain = ds := by
  induction ds generalizing b with
  | nil => rfl
  | cons d ds ih =>
    show d :: ((Builder.indexVars red ds).run ((Builder.indexVar d red).run b).2).1.map _ = _
    rw [ih]

/-- Copying a tensor makes a well-shaped index expression of the same dimensions. -/
theorem succeeds_copy {a : Expr} (h : a.WellShaped) (ht : a.ty.isTensor = true) :
    Succeeds (build (Builder.elementwise .copy a))
      fun whole => whole.WellShaped ∧ whole.isIndexExpr = true := by
  refine Succeeds.bind (p := fun r => ∃ vs, r = .ok (.build vs (a.index vs)) ∧
    vs.map IndexVar.domain = a.ty.dims) (Succeeds.modifyGet fun st hst => ⟨hst, ?_⟩) ?_
  · refine ⟨((Builder.indexVars none a.ty.dims).run st.toBuilder).1, ?_, domain_indexVars _ _ _⟩
    show (((Builder.elementwise .copy a).run).run st.toBuilder).1 = _
    unfold Builder.elementwise
    rw [ht]
    rfl
  · rintro r ⟨vs, rfl, hvs⟩
    have hscalar := Ty.isScalar_componentTy_of_isTensor ht
    exact Succeeds.pure ⟨(h.index hscalar hvs).build hscalar vs, rfl⟩

/-! ### One step -/

theorem succeeds_requireScalar {op : BinaryOp} {a : Expr} (h : a.ty.isScalar = true) :
    Succeeds (requireScalar op a : BoundedM Unit) fun _ => True := by
  unfold requireScalar
  rw [h]
  exact Succeeds.pure trivial

/-- A node over parts that fit, changed or not. -/
theorem keepsShape_rebuild {e : Expr} {outs : List (Transformed Expr)} (h : e.WellShaped)
    (houts : List.Forall₂ KeepsShape e.children outs) : KeepsShape e (e.rebuild outs) := by
  refine ⟨?_, .inl (Expr.ty_rebuild e outs)⟩
  unfold Expr.rebuild
  split
  · refine Expr.wellShaped_withChildren h.root ?_ ?_
    · rw [Transformed.values, List.forall₂_map_right_iff]
      exact houts.imp fun _ _ h => h.2
    · intro b hb
      obtain ⟨out, hout, rfl⟩ := List.mem_map.1 hb
      obtain ⟨_, _, hk⟩ := exists_of_mem_right houts hout
      exact hk.1
  · exact h

section

variable {f : Expr → BoundedM (Transformed Expr)}
  (hf : ∀ e : Expr, e.WellShaped → Succeeds (f e) fun out =>
    KeepsShape e out ∧ (e.isIndexExpr = true → out.value.isIndexExpr = true))

include hf

theorem succeeds_spill {a : Expr} (h : a.WellShaped)
    (hty : a.ty.isScalar = true ∨ a.ty.isWhole = true) :
    Succeeds (spill f a) fun out => out.value.WellShaped ∧ out.value.ty.isScalar = true := by
  unfold spill
  split
  · next hw =>
    simp only [Bool.and_eq_true, Bool.not_eq_true'] at hw
    have ht : a.ty.isTensor = true := by
      have hwhole := hw.1
      unfold Ty.isWhole at hwhole
      exact (Bool.and_eq_true_iff.1 hwhole).1
    -- the copy is flattened itself before it is hoisted, and stays an index expression
    refine (succeeds_copy h ht).bind fun whole ⟨hwhole, hi⟩ => ?_
    refine (hf whole hwhole).bind fun out ⟨hout, hi'⟩ => ?_
    refine Succeeds.bind (Succeeds.modifyGet fun st hst => ?_) fun read hread => Succeeds.pure hread
    obtain ⟨hst', hread⟩ := wellShaped_hoist hout.1 (.inr (hi' hi)) st
    exact ⟨hst' hst, hread⟩
  · next hw =>
    have hty' : a.ty.isScalar = true ∨ a.isIndexExpr = true := by
      rcases hty with hs | hwhole
      · exact .inl hs
      · exact .inr (by simpa [hwhole] using hw)
    apply Succeeds.modifyGet
    intro st hst
    obtain ⟨hst', hread⟩ := wellShaped_hoist h hty' st
    exact ⟨hst' hst, hread⟩

theorem succeeds_sumOperand {a : Expr} (h : a.WellShaped) (hs : a.ty.isScalar = true) :
    Succeeds (sumOperand f a) fun out =>
      out.value.WellShaped ∧ out.value.ty.isScalar = true := by
  refine (hf a h).bind fun out ⟨⟨hw, hfit⟩, _⟩ => ?_
  have hs' : out.value.ty.isScalar = true := hfit.isScalar_eq.trans hs
  split
  · exact Succeeds.pure ⟨hw, hs'⟩
  · exact (succeeds_spill hf hw (.inl hs')).bind fun read hread => Succeeds.pure hread

theorem succeeds_all {es : List Expr} (h : ∀ e ∈ es, e.WellShaped) :
    Succeeds (all f es) fun outs => List.Forall₂ KeepsShape es outs := by
  rw [all_eq_mapM']
  exact Succeeds.mapM' fun e he => (hf e (h e he)).imp fun _ hout => hout.1

/-- Both operands of a sum are scalar, and stay so. -/
theorem succeeds_sum {ty : Ty} {op : BinaryOp} {a b : Expr} (hop : op.isSum = true)
    (h : (Expr.binary ty op a b).WellShaped) :
    Succeeds (sum f (.binary ty op a b) op a b) (KeepsShape (.binary ty op a b)) := by
  obtain ⟨hty, ha, hb⟩ := Expr.everywhere_binary.1 h
  obtain ⟨hsa, hsb⟩ := (Expr.shapeOk_sum hop).1 hty
  apply (succeeds_requireScalar hsa).bind
  intro _ _
  apply (succeeds_requireScalar hsb).bind
  intro _ _
  apply (succeeds_sumOperand hf ha hsa).bind
  intro x hx
  refine (succeeds_sumOperand hf hb hsb).bind fun y hy => Succeeds.pure ?_
  refine keepsShape_rebuild h (.cons ⟨hx.1, ?_⟩ (.cons ⟨hy.1, ?_⟩ .nil))
  · exact .of_isScalar hsa hx.2
  · exact .of_isScalar hsb hy.2

/-- A read fits the dimensions of its tensor, so it may be inlined or distributed. -/
theorem succeeds_indexedRead {ty : Ty} {t : Expr} {vs : List IndexVar}
    (h : (Expr.indexed ty t vs).WellShaped) :
    Succeeds (indexedRead f (.indexed ty t vs) t vs) (KeepsShape (.indexed ty t vs)) := by
  obtain ⟨⟨hty, hdims⟩, ht⟩ := Expr.everywhere_indexed.1 h
  refine (hf t ht).bind fun out ⟨⟨hw, hfit⟩, _⟩ => ?_
  have hdims' : vs.map IndexVar.domain = out.value.ty.dims := hdims.trans hfit.dims_eq.symm
  split
  · next rty rs body heq =>
    -- inlined: there are as many result variables as variables of the read, over the same dimensions
    rw [heq] at hw hdims'
    obtain ⟨hbody, hscalar, hsame, hlen⟩ := Expr.WellShaped.readBody hw hdims'
    rw [hlen, beq_self_eq_true]
    refine Succeeds.pure ⟨?_, .of_isScalar hty ?_⟩
    · exact Expr.WellShaped.substitute hbody (Renaming.keepsDomains_ofPairs hsame)
    · show (body.substitute _).value.ty.isScalar = true
      rwa [Expr.ty_substitute]
  · split
    · next d hd =>
      -- distributed: a scalar again, to be flattened once more
      obtain ⟨hdw, hds⟩ := hw.distributeIndex? hdims' hd
      refine (hf d hdw).bind fun out' ⟨⟨hw', hfit'⟩, _⟩ => Succeeds.pure ⟨hw', ?_⟩
      exact .of_isScalar hty (hfit'.isScalar_eq.trans hds)
    · exact Succeeds.pure (keepsShape_rebuild h (.cons ⟨hw, hfit⟩ .nil))

/-- One step on a well-shaped node succeeds, and keeps shapes. -/
theorem succeeds_step {e : Expr} (h : e.WellShaped) :
    Succeeds (step f e) fun out =>
      KeepsShape e out ∧ (e.isIndexExpr = true → out.value.isIndexExpr = true) := by
  unfold step
  split
  · exact (succeeds_sum hf rfl h).imp fun out hout => ⟨hout, fun hi => by cases hi⟩
  · exact (succeeds_sum hf rfl h).imp fun out hout => ⟨hout, fun hi => by cases hi⟩
  · exact (succeeds_indexedRead hf h).imp fun out hout => ⟨hout, fun hi => by cases hi⟩
  · refine (succeeds_all hf fun c hc => h.child hc).bind fun outs houts => Succeeds.pure ?_
    refine ⟨keepsShape_rebuild h houts, fun hi => ?_⟩
    -- a rebuilt index expression is one over another body
    cases e with
    | indexExpr ty vs b =>
      obtain ⟨out, _, _, hnil, rfl⟩ := List.forall₂_cons_left_iff.1 houts
      cases hnil
      unfold Expr.rebuild
      split <;> rfl
    | _ => cases hi

end

theorem succeeds_flattenWithin (d : Nat) {e : Expr} (h : e.WellShaped) :
    Succeeds (flattenWithin d e) fun out =>
      KeepsShape e out ∧ (e.isIndexExpr = true → out.value.isIndexExpr = true) := by
  induction d generalizing e with
  | zero => intro st r _ hr; cases hr
  | succ d ih => exact succeeds_step (fun e => ih) h

theorem succeeds_flatten {e : Expr} (h : e.WellShaped) :
    Succeeds (total e.flatten) fun out =>
      KeepsShape e out ∧ (e.isIndexExpr = true → out.value.isIndexExpr = true) :=
  fun st r hst hr => succeeds_flattenWithin e.weight h st r hst (flatten_below e st r hr)

/-! ### Statements -/

/-- The actual of a call: a tensor that is bound to a temporary is passed as that variable. -/
theorem succeeds_actual {a : Expr} (h : a.WellShaped) :
    Succeeds (total (actual a)) fun out => out.value.WellShaped := by
  unfold actual
  rw [total_bind]
  refine (succeeds_flatten h).bind fun out ⟨⟨hw, _⟩, _⟩ => ?_
  by_cases hwhole : (out.value.ty.isWhole && !out.value.isVar) = true
  · rw [if_pos hwhole, total_bind, Expr.spill, total_spill]
    have hty : out.value.ty.isWhole = true := (Bool.and_eq_true_iff.1 hwhole).1
    apply (succeeds_spill (fun e => succeeds_flatten) hw (.inr hty)).bind
    intro read hread
    refine Succeeds.pure ?_
    show (wholeTensor read.value).WellShaped
    unfold wholeTensor
    split
    · next ty t vs heq =>
      split
      · exact (heq ▸ hread.1 : (Expr.indexed ty t vs).WellShaped).child (by simp [Expr.children])
      · exact hread.1
    · exact hread.1
  · rw [if_neg hwhole]
    exact Succeeds.pure hw

/-- The actuals of a call. -/
theorem succeeds_actuals {as : List Expr} (h : ∀ a ∈ as, a.WellShaped) :
    Succeeds (total (actuals as)) (List.Forall₂ (fun _ out => out.value.WellShaped) as) := by
  rw [actuals_eq_mapM', total_mapM']
  exact Succeeds.mapM' fun a ha => succeeds_actual (h a ha)

/-- The expressions of any other statement. -/
theorem succeeds_exprs {es : List Expr} (h : ∀ e ∈ es, e.WellShaped) :
    Succeeds (total (Expr.transformAll transform es))
      (List.Forall₂ (fun _ out => out.value.WellShaped) es) := by
  rw [transformExprs_eq_mapM', total_mapM']
  exact Succeeds.mapM' fun e he => (succeeds_flatten (h e he)).imp fun _ hout => hout.1.1

/-- A statement over well-shaped parts. -/
theorem wellShaped_rebuild {s : Stmt} {outs : List (Transformed Expr)}
    {inner : List (Transformed Stmt)} (h : s.WellShaped)
    (houts : List.Forall₂ (fun _ out => out.value.WellShaped) s.exprs outs)
    (hinner : List.Forall₂ (fun _ out => out.value.WellShaped) s.children inner) :
    (s.rebuild outs inner).value.WellShaped := by
  unfold Stmt.rebuild
  split
  · refine (Stmt.forExprs_withParts ?_ ?_).2 ⟨?_, ?_⟩
    · simpa [Transformed.values] using houts.length_eq.symm
    · simpa [Transformed.values] using hinner.length_eq.symm
    · intro e he
      obtain ⟨out, hout, rfl⟩ := List.mem_map.1 he
      obtain ⟨_, _, hw⟩ := exists_of_mem_right houts hout
      exact hw
    · intro c hc
      obtain ⟨out, hout, rfl⟩ := List.mem_map.1 hc
      obtain ⟨_, _, hw⟩ := exists_of_mem_right hinner hout
      exact hw
  · exact h

/-- Flattening the statement succeeds from every state, and what was pending before is all that
is pending afterwards. -/
def Progresses (s : Stmt) : Prop :=
  ∀ st : Flattener, ∃ out st', s.flatten.run.run st = (.ok out, st') ∧
    st'.pending = st.pending ∧ out.value.WellShaped

theorem progresses_of_succeeds {s : Stmt} {act : FlattenM (Transformed Stmt)}
    (hact : s.flatten = withOwnPending act)
    (h : Succeeds (total act) fun out => out.value.WellShaped) : Progresses s := by
  intro st
  -- the statement starts with nothing pending
  obtain ⟨out, st₁, hrun, hst₁, hout⟩ := h st.own (act.run.run st.own)
    (fun s hs => by cases hs) rfl
  rw [hact, run_withOwnPending, hrun]
  exact ⟨_, _, rfl, rfl, Stmt.forExprs_after.2 ⟨hst₁, hout⟩⟩

/-- The other way round: the pending statements are those from before, so they are well-shaped
still. -/
theorem Progresses.succeeds {s : Stmt} (h : Progresses s) :
    Succeeds (total s.flatten) fun out => out.value.WellShaped := by
  intro st r hst hr
  obtain ⟨out, st', hrun, hpending, hout⟩ := h st
  cases hr
  refine ⟨out, st', hrun, ?_, hout⟩
  unfold Flattener.WellShaped
  rw [hpending]
  exact hst

/-- The statements inside a statement. -/
theorem succeeds_stmts {ss : List Stmt} (h : ∀ s ∈ ss, Progresses s) :
    Succeeds (total (Stmt.transformAll transform ss))
      (List.Forall₂ (fun _ out => out.value.WellShaped) ss) := by
  rw [transformStmts_eq_mapM', total_mapM']
  exact Succeeds.mapM' fun s hs => (h s hs).succeeds

/-- One statement, given the progress of the statements inside it. -/
theorem progresses_step {s : Stmt} (h : s.WellShaped) (ih : ∀ c ∈ s.children, Progresses c) :
    Progresses s := by
  obtain ⟨hexprs, _⟩ := Stmt.forExprs_iff.1 h
  have hwalk : Succeeds (total (s.walkM transform)) fun out => out.value.WellShaped := by
    unfold Stmt.walkM
    rw [total_bind]
    apply (succeeds_exprs hexprs).bind
    intro outs houts
    rw [total_bind]
    refine (succeeds_stmts ih).bind fun inner hinner => Succeeds.pure ?_
    exact wellShaped_rebuild h houts hinner
  by_cases hcall : s.isCall = true
  · cases s with
    | instr i =>
      cases i with
      | call rs f as =>
        refine progresses_of_succeeds (flatten_call rs f as) ?_
        rw [total_bind]
        refine (succeeds_actuals hexprs).bind fun outs houts => Succeeds.pure ?_
        exact wellShaped_rebuild h houts .nil
      | _ => cases hcall
    | _ => cases hcall
  · exact progresses_of_succeeds (flatten_of_not_call (by simpa using hcall)) hwalk

end Flattening

/-- Every well-shaped statement makes progress. -/
theorem Flattening.progresses {s : Stmt} (h : s.WellShaped) : Progresses s := by
  revert h
  refine Stmt.children_induction (motive := fun s => s.WellShaped → Progresses s) ?_ s
  intro s ih h
  exact progresses_step h fun c hc => ih c hc ((Stmt.forExprs_iff.1 h).2 c hc)

/-- Flattening a well-shaped statement succeeds from every state of the flattener, and its
outcome, with every assignment to a temporary, is well-shaped. -/
theorem Stmt.flatten_wellShaped {s : Stmt} (h : s.WellShaped) (st : Flattener) :
    ∃ out st', s.flatten.run.run st = (.ok out, st') ∧ out.value.WellShaped := by
  obtain ⟨out, st', hrun, _, hout⟩ := Flattening.progresses h st
  exact ⟨out, st', hrun, hout⟩

/-- `y = (i: (j: -a{j}){i} + b{i})`, a sum with a read of an index expression. -/
def Stmt.negatedSum : Stmt :=
  let i : IndexVar := ⟨0, "i", .range 3, none⟩
  let j : IndexVar := ⟨1, "j", .range 3, none⟩
  let a : Expr := .ofVar ⟨2, "a", .vector 3⟩
  let b : Expr := .ofVar ⟨3, "b", .vector 3⟩
  .assign ⟨4, "y", .vector 3⟩
    (.build [i] (.binaryOf .add ((Expr.build [j] (a.index [j]).negOf).index [i]) (b.index [i])))

/-- A sum that needs a temporary is flattened, and stays well-shaped. -/
theorem Stmt.flatten_negatedSum :
    negatedSum.WellShaped ∧ ∃ out st', negatedSum.flatten.run.run (.ofFresh ⟨5, {}⟩) = (.ok out, st')
      ∧ out.value.WellShaped :=
  ⟨by decide, flatten_wellShaped (by decide) _⟩

end TensorIR
