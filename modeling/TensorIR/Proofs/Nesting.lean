import TensorIR.Proofs.Outcomes
import TensorIR.Proofs.Simulation

/-! # Flattening removes nesting

Flattening takes index expressions out of the tensors of indexed reads, however deep they are
nested there, and out of the actuals of calls. A well-shaped statement that nests them in no
other place passes the check for flatness once it is flattened (`Stmt.flatten_verifies`).

**Key idea**: a place (`Place`) says which index expressions may stand there: any, those that are
not scalar, or none. Flattening leaves in each place only what it admits, with nothing nested
inside any more (`Expr.Shallow`). A read of such a tensor goes down to its index expressions and
takes their bodies, so at an indexed read, where most is admitted, nothing is left.
-/

namespace TensorIR

/-! ### Places -/

/-- Where an expression stands, as far as nesting is concerned. -/
inductive Place where
  /-- By itself in a statement other than a call. -/
  | whole
  /-- The tensor of an indexed read, or an actual of a call statement. -/
  | tensor
  /-- Further down in such a tensor, with nothing but negations and products above that are no
  scalars. -/
  | operand
  /-- Anywhere else. -/
  | inner

namespace Place

/-- Whether an index expression of the given type may stand there. -/
def admits : Place → Ty → Bool
  | .whole, _ | .tensor, _ => true
  | .operand, ty => !ty.isScalar
  | .inner, _ => false

/-- Where the operands of a negation or product of the given type stand. -/
def below : Place → Ty → Place
  | .tensor, ty | .operand, ty => if ty.isScalar then .inner else .operand
  | .whole, _ | .inner, _ => .inner

/-- Where the operands of a binary operation of the given type stand. -/
def belowBinary (p : Place) (ty : Ty) (op : BinaryOp) : Place :=
  if op.isSum then .inner else p.below ty

/-- Below a place only expressions are admitted that are no scalars. -/
theorem below_eq (p : Place) (ty : Ty) : p.below ty = .inner ∨ p.below ty = .operand := by
  cases p <;> simp [below]

theorem belowBinary_eq (p : Place) (ty : Ty) (op : BinaryOp) :
    p.belowBinary ty op = .inner ∨ p.belowBinary ty op = .operand := by
  unfold belowBinary
  split
  · exact .inl rfl
  · exact p.below_eq ty

end Place

namespace Expr

mutual

/-- Whether every index expression stands where it may, if the expression stands at `p`. -/
def placed (p : Place) : Expr → Bool
  | .var _ _ => true
  | .prim _ _ es => placedAll .inner es
  | .indexed _ t _ => t.placed .tensor
  | .indexExpr ty _ b => p.admits ty && b.placed .inner
  | .neg ty a => a.placed (p.below ty)
  | .binary ty op a b => a.placed (p.belowBinary ty op) && b.placed (p.belowBinary ty op)

/-- Whether that is so in each of several expressions that stand at `p`. -/
def placedAll (p : Place) : List Expr → Bool
  | [] => true
  | e :: es => e.placed p && placedAll p es

end

theorem placedAll_eq (p : Place) (es : List Expr) : placedAll p es = es.all (placed p) := by
  induction es with
  | nil => rfl
  | cons e es ih => rw [placedAll, ih, List.all_cons]

end Expr

/-- Where the expressions of a statement stand. -/
def Stmt.place (s : Stmt) : Place := if s.isCall then .tensor else .whole

/-- Every index expression stands where flattening can deal with it. -/
def Stmt.Placed (s : Stmt) : Prop :=
  s.Everywhere fun n => ∀ e ∈ n.exprs, e.placed n.place = true

instance (s : Stmt) : Decidable s.Placed := inferInstanceAs (Decidable (s.Everywhere _))

namespace Expr

/-! ### What is left at a place -/

/-- At `p` stand index expressions that are admitted there, and none inside them or elsewhere. -/
def Shallow (p : Place) : Expr → Prop
  | .indexExpr ty _ b => p.admits ty = true ∧ b.IndexExprFree
  | .neg ty a => a.Shallow (p.below ty)
  | .binary ty op a b => a.Shallow (p.belowBinary ty op) ∧ b.Shallow (p.belowBinary ty op)
  | e => e.IndexExprFree

/-- Without index expressions, nothing stands where it may not. -/
theorem IndexExprFree.shallow {e : Expr} (h : e.IndexExprFree) (p : Place) : e.Shallow p := by
  induction e generalizing p with
  | indexExpr ty vs b _ => exact absurd h not_indexExprFree_indexExpr
  | neg ty a ih => exact ih (indexExprFree_neg.1 h) _
  | binary ty op a b iha ihb =>
    obtain ⟨ha, hb⟩ := indexExprFree_binary.1 h
    exact ⟨iha ha _, ihb hb _⟩
  | _ => exact h

/-- Where no index expression is admitted, none is left. -/
theorem shallow_inner {e : Expr} : e.Shallow .inner ↔ e.IndexExprFree := by
  refine ⟨fun h => ?_, fun h => h.shallow _⟩
  have hbinary : ∀ ty op, Place.belowBinary .inner ty op = .inner := by
    intro ty op
    unfold Place.belowBinary
    split <;> rfl
  induction e with
  | indexExpr ty vs b _ => cases h.1
  | neg ty a ih => exact indexExprFree_neg.2 (ih h)
  | binary ty op a b iha ihb =>
    obtain ⟨ha, hb⟩ := h
    rw [hbinary] at ha hb
    exact indexExprFree_binary.2 ⟨iha ha, ihb hb⟩
  | _ => exact h

/-- Without dimensions, nothing is left where only index expressions are admitted that have
some. -/
theorem Shallow.indexExprFree_of_dims {e : Expr} {p : Place} (h : e.Shallow p)
    (hp : p = .inner ∨ p = .operand) (hw : e.WellShaped) (hdims : e.ty.dims = []) :
    e.IndexExprFree := by
  induction e generalizing p with
  | indexExpr ty vs b _ =>
    rcases hp with rfl | rfl
    · exact shallow_inner.1 h
    · -- a tensor without dimensions is a scalar
      obtain ⟨⟨_, htensor, _⟩, _⟩ := everywhere_indexExpr.1 hw
      have hadmits : ty.isScalar = false := by simpa [Place.admits] using h.1
      cases ty with
      | tensor t =>
        rw [Ty.isScalar] at hadmits
        simp_all [ty, Ty.dims]
      | _ => cases htensor
  | neg ty a ih =>
    obtain ⟨hty, hwa⟩ := everywhere_neg.1 hw
    exact indexExprFree_neg.2 (ih h (p.below_eq ty) hwa (hty.symm.trans hdims))
  | binary ty op a b iha ihb =>
    obtain ⟨hok, hwa, hwb⟩ := everywhere_binary.1 hw
    obtain ⟨hda, hdb⟩ := dims_of_binary hok hdims
    exact indexExprFree_binary.2 ⟨iha h.1 (p.belowBinary_eq ty op) hwa hda,
      ihb h.2 (p.belowBinary_eq ty op) hwb hdb⟩
  | _ => exact h

/-- Of a well-shaped expression, that is all that flatness asks. -/
theorem Shallow.flat {e : Expr} {p : Place} (h : e.Shallow p) (hw : e.WellShaped) : e.Flat := by
  unfold Flat
  induction e generalizing p with
  | var ty v => exact everywhere_var.2 trivial
  | prim ty op es ih =>
    refine everywhere_prim.2 ⟨trivial, fun e he => ?_⟩
    exact ih e he ((indexExprFree_prim.1 h e he).shallow p) (hw.child he)
  | indexed ty t vs ih =>
    have ht : t.IndexExprFree := indexExprFree_indexed.1 h
    obtain ⟨⟨_, hdims⟩, hwt⟩ := everywhere_indexed.1 hw
    have hlen : vs.length = t.ty.order := by
      rw [Ty.order, ← hdims, List.length_map]
    exact everywhere_indexed.2 ⟨⟨ht.isIndexExpr, hlen⟩, ih (ht.shallow p) hwt⟩
  | indexExpr ty vs b ih =>
    exact everywhere_indexExpr.2 ⟨h.2, ih (h.2.shallow p) (everywhere_indexExpr.1 hw).2⟩
  | neg ty a ih => exact everywhere_neg.2 ⟨trivial, ih h (everywhere_neg.1 hw).2⟩
  | binary ty op a b iha ihb =>
    obtain ⟨_, hwa, hwb⟩ := everywhere_binary.1 hw
    exact everywhere_binary.2 ⟨trivial, iha h.1 hwa, ihb h.2 hwb⟩

/-! ### Reads -/

/-- Renaming index variables makes no index expression. -/
theorem IndexExprFree.substitute {e : Expr} (h : e.IndexExprFree) (ρ : Renaming) :
    (e.substitute ρ).value.IndexExprFree :=
  Everywhere.substitute (R := fun _ _ => True) h (fun _ _ _ => trivial)
    fun n ρ _ hn => (isIndexExpr_substitute ρ n).trans hn

/-- An operand of an operation on components takes part in a read of the result. -/
theorem readable_of_broadcasts {ty : Ty} {a : Expr} {vs : List IndexVar}
    (h : ty.Broadcasts a.ty) (hvs : vs.map IndexVar.domain = ty.dims) : a.readable vs = true := by
  rcases h with hs | ⟨htensor, hdims⟩
  · simp [readable, hs]
  · have hlen : a.ty.order = vs.length := by
      rw [Ty.order, hdims, ← hvs, List.length_map]
    simp [readable, htensor, hlen]

/-- What an operand below a place contributes to a read. -/
theorem indexExprFree_operandAt {a : Expr} {p : Place} {vs : List IndexVar} (h : a.Shallow p)
    (hp : p = .inner ∨ p = .operand) (hw : a.WellShaped)
    (hr : a.ty.isScalar = false → (a.readAt vs a.ty.componentTy).IndexExprFree) :
    (a.operandAt vs).IndexExprFree :=
  operandAt_of (fun hs => h.indexExprFree_of_dims hp hw (Ty.dims_of_isScalar hs)) hr

/-- A read of a well-shaped tensor leaves none of its index expressions. -/
theorem Shallow.readAt {t : Expr} {p : Place} {vs : List IndexVar} (h : t.Shallow p)
    (hw : t.WellShaped) (hvs : vs.map IndexVar.domain = t.ty.dims) (ty : Ty) :
    (t.readAt vs ty).IndexExprFree := by
  induction t generalizing p ty with
  | indexExpr rty rs b _ =>
    obtain ⟨_, _, _, hlen⟩ := hw.readBody hvs
    rw [readAt_indexExpr hlen]
    exact h.2.substitute _
  | neg nty a ih =>
    obtain ⟨hdims, hwa⟩ := everywhere_neg.1 hw
    have ha : a.Shallow (p.below nty) := h
    have hvs' : vs.map IndexVar.domain = a.ty.dims := hvs.trans hdims
    by_cases hr : a.readable vs = true
    · rw [readAt_neg hr, indexExprFree_neg]
      exact indexExprFree_operandAt ha (p.below_eq nty) hwa fun _ => ih ha hwa hvs' _
    · -- the read stays, but then the tensor is of a type without dimensions
      have hnil : a.ty.dims = [] := by
        cases hty : a.ty with
        | tensor t =>
          refine absurd (readable_of_broadcasts (.inr ⟨?_, rfl⟩) hvs') hr
          rw [hty]
          rfl
        | _ => rfl
      rw [Expr.readAt, if_neg hr, indexExprFree_indexed, indexExprFree_neg]
      exact ha.indexExprFree_of_dims (p.below_eq nty) hwa hnil
  | binary bty op a b iha ihb =>
    obtain ⟨hok, hwa, hwb⟩ := everywhere_binary.1 hw
    obtain ⟨hda, hdb⟩ := dims_of_shapeOk_binary hok
    obtain ⟨hba, hbb⟩ := broadcasts_of_shapeOk_binary hok
    have hr : (a.readable vs && b.readable vs) = true := by
      rw [readable_of_broadcasts hba hvs, readable_of_broadcasts hbb hvs]
      rfl
    rw [readAt_binary hr, indexExprFree_binary]
    have hp := p.belowBinary_eq bty op
    exact ⟨indexExprFree_operandAt h.1 hp hwa fun hs => iha h.1 hwa (hvs.trans (hda hs).symm) _,
      indexExprFree_operandAt h.2 hp hwb fun hs => ihb h.2 hwb (hvs.trans (hdb hs).symm) _⟩
  | _ => exact indexExprFree_indexed.2 h

end Expr

/-! ### Hoisting -/

/-- What is hoisted leaves no index expression in its place. -/
theorem Flattening.indexExprFree_hoist (a : Expr) (st : Flattener) :
    (st.hoist a).1.value.IndexExprFree := by
  cases a using Flattener.hoist_cases st with
  | built ty vs b h | wrapped a _ _ h =>
    rw [h]
    exact Expr.indexExprFree_indexed.2 Expr.indexExprFree_var
  | named a _ _ h =>
    rw [h]
    exact Expr.indexExprFree_var
  | kept a hc _ h =>
    rw [h]
    exact (Expr.containsIndexed_eq_false_iff.1 hc).imp fun _ h => h.2

section

variable {a x : Expr} {st st' : Flattener}

theorem Settles.indexExprFree (h : Settles a st x st') (ha : a.IndexExprFree) :
    x.IndexExprFree := by
  cases h with
  | read _ => exact ha
  | spilled _ hspill => cases hspill <;> exact Flattening.indexExprFree_hoist _ _

/-- What is bound to a temporary for an operand of a sum is flat. -/
theorem Settles.pends_flat (h : Settles a st x st') (ha : a.IndexExprFree) (hw : a.WellShaped)
    (hs : a.ty.isScalar = true) (hst : st.Pends Expr.Flat) : st'.Pends Expr.Flat := by
  cases h with
  | read _ => exact hst
  | spilled _ hspill =>
    cases hspill with
    | copied hwhole => exact absurd hwhole (by simp [Ty.isWhole, hs])
    | hoisted _ =>
      cases a using Flattener.hoist_cases st with
      | built => cases ha.isIndexExpr
      | wrapped a _ _ heq =>
        rw [heq]
        exact hst.bindTemporary (Expr.everywhere_indexExpr.2 ⟨ha, (ha.shallow .inner).flat hw⟩)
      | named a _ hs' _ =>
        rw [hs] at hs'
        cases hs'
      | kept a _ _ heq => rwa [heq]

end

/-! ### Flattened expressions -/

namespace FlattensTo

variable {e x : Expr} {p : Place} {st st' : Flattener}

/-- Where only index expressions stood that may, none are nested any more. -/
theorem shallow (h : FlattensTo e st x st') (hw : e.WellShaped) (hp : e.placed p = true) :
    x.Shallow p := by
  induction h generalizing p with
  | var => exact Expr.indexExprFree_var
  | @prim _ _ es _ xs _ _ ih =>
    rw [Expr.placed, Expr.placedAll_eq, List.all_eq_true] at hp
    have hxs : List.Forall₂ (fun _ x => x.IndexExprFree) es xs :=
      ih.forall₂ fun e he _ _ _ ⟨_, hx⟩ =>
        Expr.shallow_inner.1 (hx (hw.child he) (hp e he))
    refine Expr.indexExprFree_prim.2 fun x hx => ?_
    obtain ⟨_, _, hfree⟩ := exists_of_mem_right hxs hx
    exact hfree
  | indexed ht ih =>
    obtain ⟨⟨_, hdims⟩, hwt⟩ := Expr.everywhere_indexed.1 hw
    obtain ⟨hwx, hfit⟩ := ht.wellShaped hwt
    exact ((ih hwt hp).readAt hwx (hdims.trans hfit.dims_eq.symm) _).shallow p
  | indexExpr _ ih =>
    obtain ⟨hadmits, hb⟩ := Bool.and_eq_true_iff.1 hp
    exact ⟨hadmits, Expr.shallow_inner.1 (ih (Expr.everywhere_indexExpr.1 hw).2 hb)⟩
  | neg _ ih => exact ih (Expr.everywhere_neg.1 hw).2 hp
  | product _ _ _ ihx ihy =>
    obtain ⟨_, hwa, hwb⟩ := Expr.everywhere_binary.1 hw
    obtain ⟨ha, hb⟩ := Bool.and_eq_true_iff.1 hp
    exact ⟨ihx hwa ha, ihy hwb hb⟩
  | sum hop _ _ _ hxs _ hys ihx ihy =>
    obtain ⟨_, hwa, hwb⟩ := Expr.everywhere_binary.1 hw
    rw [Expr.placed, Place.belowBinary, if_pos hop] at hp
    obtain ⟨ha, hb⟩ := Bool.and_eq_true_iff.1 hp
    have hx := hxs.indexExprFree (Expr.shallow_inner.1 (ihx hwa ha))
    have hy := hys.indexExprFree (Expr.shallow_inner.1 (ihy hwb hb))
    exact ⟨hx.shallow _, hy.shallow _⟩

/-- What is bound to temporaries is flat. -/
theorem pends_flat (h : FlattensTo e st x st') (hw : e.WellShaped) (hp : e.placed p = true)
    (hst : st.Pends Expr.Flat) : st'.Pends Expr.Flat := by
  induction h generalizing p with
  | var => exact hst
  | prim _ ih =>
    rw [Expr.placed, Expr.placedAll_eq, List.all_eq_true] at hp
    exact ih.preserves (fun e he _ _ _ ⟨_, hpends⟩ => hpends (hw.child he) (hp e he)) hst
  | indexed _ ih => exact ih (Expr.everywhere_indexed.1 hw).2 hp hst
  | indexExpr _ ih =>
    exact ih (Expr.everywhere_indexExpr.1 hw).2 (Bool.and_eq_true_iff.1 hp).2 hst
  | neg _ ih => exact ih (Expr.everywhere_neg.1 hw).2 hp hst
  | product _ _ _ ihx ihy =>
    obtain ⟨_, hwa, hwb⟩ := Expr.everywhere_binary.1 hw
    obtain ⟨ha, hb⟩ := Bool.and_eq_true_iff.1 hp
    exact ihy hwb hb (ihx hwa ha hst)
  | sum hop hsa hsb hx hxs hy hys ihx ihy =>
    obtain ⟨_, hwa, hwb⟩ := Expr.everywhere_binary.1 hw
    rw [Expr.placed, Place.belowBinary, if_pos hop] at hp
    obtain ⟨ha, hb⟩ := Bool.and_eq_true_iff.1 hp
    obtain ⟨hwx, hfx⟩ := hx.wellShaped hwa
    obtain ⟨hwy, hfy⟩ := hy.wellShaped hwb
    have hx' := hxs.pends_flat (Expr.shallow_inner.1 (hx.shallow hwa ha)) hwx
      (hfx.isScalar_eq.trans hsa) (ihx hwa ha hst)
    exact hys.pends_flat (Expr.shallow_inner.1 (hy.shallow hwb hb)) hwy
      (hfy.isScalar_eq.trans hsb) (ihy hwb hb hx')

end FlattensTo

/-! ### Actuals -/

/-- A tensor that a call does not pass as it is, is bound to a temporary as a flat index
expression, and the temporary is passed. -/
theorem SpillsTo.passed {a x : Expr} {p : Place} {st st' : Flattener} (h : SpillsTo a st x st')
    (hwhole : a.ty.isWhole = true) (hw : a.WellShaped) (ha : a.Shallow p)
    (hst : st.Pends Expr.Flat) :
    st'.Pends Expr.Flat ∧ ∃ tmp, Flattening.wholeTensor x = .ofVar tmp := by
  cases h with
  | @copied vs b _ _ hv =>
    have hdims : vs.map IndexVar.domain = a.ty.dims := by
      simpa [hv] using Flattening.domain_indexVars none a.ty.dims st.toBuilder
    have hbody : (a.readAt vs a.ty.componentTy).IndexExprFree := ha.readAt hw hdims _
    have hscalar := Ty.isScalar_componentTy_of_isTensor (Bool.and_eq_true_iff.1 hwhole).1
    have hread := (Expr.WellShaped.readAt hw hdims hscalar).1
    have hcopy : (a.copyAt vs).Flat :=
      Expr.everywhere_indexExpr.2 ⟨hbody, (hbody.shallow .inner).flat hread⟩
    have hst' : Flattener.Pends Expr.Flat { st with toBuilder := b } := hst
    exact hst'.hoist_indexExpr rfl hcopy
  | hoisted hi => exact hst.hoist_indexExpr (hi hwhole) (ha.flat hw)

/-- A flattened actual is flat, and a variable if it is a tensor that is no scalar. -/
theorem ActualTo.flat {a x : Expr} {st st' : Flattener} (h : ActualTo a st x st')
    (hw : a.WellShaped) (hp : a.placed .tensor = true) (hst : st.Pends Expr.Flat) :
    st'.Pends Expr.Flat ∧ x.Flat ∧ (x.ty.isWhole = true → x.isVar = true) := by
  cases h with
  | kept hto hvar =>
    exact ⟨hto.pends_flat hw hp hst, (hto.shallow hw hp).flat (hto.wellShaped hw).1, hvar⟩
  | spilled hto hwhole _ hspill =>
    obtain ⟨hst', tmp, hx⟩ :=
      hspill.passed hwhole (hto.wellShaped hw).1 (hto.shallow hw hp) (hto.pends_flat hw hp hst)
    rw [hx]
    exact ⟨hst', Expr.everywhere_var.2 trivial, fun _ => rfl⟩

/-! ### Statements -/

namespace Stmt

theorem treats_placed {s : Stmt} {e : Expr} (hw : e.WellShaped)
    (hp : e.placed s.place = true) :
    Flattening.Treats Expr.Flat (s.treat e) (s.Takes Expr.Flat) := by
  intro st out st' hrun hst
  unfold treat at hrun
  unfold place at hp
  by_cases hcall : s.isCall = true
  · rw [if_pos hcall] at hrun hp
    obtain ⟨hst', hflat, hvar⟩ := (Flattening.actualRun_of_run hrun).2.flat hw hp hst
    exact ⟨hst', hflat, fun _ => hvar⟩
  · rw [if_neg hcall] at hrun hp
    have hto := Flattens.to hrun
    exact ⟨hto.pends_flat hw hp hst, (hto.shallow hw hp).flat (hto.wellShaped hw).1,
      fun h => absurd h hcall⟩

/-- A well-shaped statement with index expressions only in places where flattening can deal with
them is flattened from every state, and what comes out passes the check for flatness. -/
theorem flatten_verifies {s : Stmt} (hw : s.WellShaped) (hp : s.Placed) (st : Flattener) :
    ∃ out st', s.flatten.run.run st = (.ok out, st') ∧ out.value.verifyFlat = .ok () := by
  obtain ⟨out, st', hrun, _, _⟩ := Flattening.progresses hw st
  have hws : ∀ n ∈ s.nodes, ∀ e ∈ n.exprs, e.WellShaped := forExprs_iff_everywhere.1 hw
  have hreach : Flattening.Reaches (Consists Expr.Flat) s :=
    reaches_consists fun n hn e he => treats_placed (hws n hn e he) (hp n hn e he)
  exact ⟨out, st', hrun, verifyFlat_eq_ok_iff.2 (hreach st out st' hrun)⟩

/-- `y = (i: (j: (k: a{k}){j} + b{j}){i} * (-(k: b{k})){i}); r = f(-(k: a{k}) * y);`, with index
expressions in every place where they may stand. -/
def nestedReads : Stmt :=
  let i : IndexVar := ⟨0, "i", .range 3, none⟩
  let j : IndexVar := ⟨1, "j", .range 3, none⟩
  let k : IndexVar := ⟨2, "k", .range 3, none⟩
  let a : Expr := .ofVar ⟨3, "a", .vector 3⟩
  let b : Expr := .ofVar ⟨4, "b", .vector 3⟩
  let y : Var := ⟨5, "y", .vector 3⟩
  let r : Var := ⟨6, "r", .float⟩
  let f : Func := ⟨7, "f", .external, [⟨8, "x", .vector 3⟩], [⟨9, "r", .float⟩], none⟩
  let copy (t : Expr) : Expr := .build [k] (t.index [k])
  let sum : Expr := .build [j] (.binaryOf .add ((copy a).index [j]) (b.index [j]))
  .block [
    .assign y (.build [i] (.binaryOf .mul (sum.index [i]) ((copy b).negOf.index [i]))),
    .call [r] f [.binaryOf .mul (copy a).negOf (.ofVar y)]]

/-- An index expression in an index expression in an index expression, and one in an actual. -/
theorem flatten_verifies_nestedReads :
    nestedReads.WellShaped ∧ nestedReads.Placed ∧
      ∃ out st', nestedReads.flatten.run.run (.ofFresh ⟨10, {}⟩) = (.ok out, st') ∧
        out.value.verifyFlat = .ok () :=
  ⟨by decide, by decide, flatten_verifies (by decide) (by decide) _⟩

end Stmt

end TensorIR
