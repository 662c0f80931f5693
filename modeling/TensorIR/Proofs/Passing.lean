import TensorIR.Proofs.Normalization
import TensorIR.Proofs.Progress
import TensorIR.Proofs.Simulation

/-! # What calls pass

A back end takes a tensor from a call as a bare variable only. Of the call statements the pipeline
sees to that: what they pass is spilled, and checked afterwards. A call within an expression is
flattened like any other operation, operand by operand, and is not looked at by the check. So it
passes what its actuals are flattened to, and that is good enough only sometimes
(`Pipeline.run_passesWhole_iff`).

**Key idea**: whether a flattened actual may be passed shows in its *contour*, which is what is
left of an expression without its variables and index variables, and without anything below a read.
Flattening acts on contours alone, so those of the flattened actuals are known before anything is
run (`Expr.flatContour`).
-/

namespace TensorIR

/-! ### Contours -/

/-- What can be seen of an expression from outside: kinds and types of nodes down to the reads. -/
inductive Contour where
  | var (ty : Ty)
  /-- An operation. The flag says whether its operands read tensors through index variables. -/
  | prim (ty : Ty) (reads : Bool)
  | read (ty : Ty)
  /-- An index expression with so many result variables. -/
  | build (ty : Ty) (arity : Nat) (body : Contour)
  | neg (ty : Ty) (operand : Contour)
  | binary (ty : Ty) (lhs rhs : Contour)

namespace Contour

def ty : Contour → Ty
  | .var ty | .prim ty _ | .read ty | .build ty _ _ | .neg ty _ | .binary ty _ _ => ty

def isVar : Contour → Bool
  | .var _ => true
  | _ => false

def isRead : Contour → Bool
  | .read _ => true
  | _ => false

def isBuild : Contour → Bool
  | .build _ _ _ => true
  | _ => false

/-- Whether a tensor is read or built through index variables. -/
def reads : Contour → Bool
  | .var _ => false
  | .prim _ reads => reads
  | .read _ | .build _ _ _ => true
  | .neg _ a => a.reads
  | .binary _ a b => a.reads || b.reads

/-- Whether an operand takes part in a read through `n` variables. -/
def readable (n : Nat) (a : Contour) : Bool :=
  a.ty.isScalar || (a.ty.isTensor && a.ty.order == n)

/-- The type of a readable operand when it is read. -/
def readTy (a : Contour) : Ty := if a.ty.isScalar then a.ty else a.ty.componentTy

/-- A read of the given type through `n` variables: inlined, distributed, or kept. -/
def readAt (n : Nat) : Ty → Contour → Contour
  | ty, .build _ arity b => if arity = n then b else .read ty
  | ty, .neg _ a =>
    if a.readable n then
      .neg a.readTy (if a.ty.isScalar then a else readAt n a.ty.componentTy a)
    else .read ty
  | ty, .binary _ a b =>
    if a.readable n && b.readable n then
      .binary a.readTy (if a.ty.isScalar then a else readAt n a.ty.componentTy a)
        (if b.ty.isScalar then b else readAt n b.ty.componentTy b)
    else .read ty
  | ty, _ => .read ty

/-- An operand of a sum once it is settled: in place, or read back from a temporary. -/
def settled (a : Contour) : Contour :=
  if a.isRead then a
  else if a.ty.isWhole && !a.isBuild then .read (.scalar (a.ty.componentTy.component?.getD .float))
  else if a.isBuild then .read a.ty.componentTy
  else if a.reads then .read (.scalar (a.ty.component?.getD .float))
  else if a.ty.isScalar then a
  else .var a.ty

end Contour

namespace Expr

/-- The contour of an expression. -/
def contour : Expr → Contour
  | .var ty _ => .var ty
  | .prim ty _ es => .prim ty (es.any containsIndexed)
  | .indexed ty _ _ => .read ty
  | .indexExpr ty vs b => .build ty vs.length b.contour
  | .neg ty a => .neg ty a.contour
  | .binary ty _ a b => .binary ty a.contour b.contour

mutual

/-- The contour of an expression once it is flattened. -/
def flatContour : Expr → Contour
  | .var ty _ => .var ty
  | .prim ty _ es => .prim ty (flatReads es)
  | .indexed ty t vs => t.flatContour.readAt vs.length ty
  | .indexExpr ty vs b => .build ty vs.length b.flatContour
  | .neg ty a => .neg ty a.flatContour
  | .binary ty op a b =>
    if op.isSum then .binary ty a.flatContour.settled b.flatContour.settled
    else .binary ty a.flatContour b.flatContour

/-- Whether any of the expressions reads a tensor through index variables once it is flattened. -/
def flatReads : List Expr → Bool
  | [] => false
  | e :: es => e.flatContour.reads || flatReads es

end

@[simp] theorem ty_contour (e : Expr) : e.contour.ty = e.ty := by
  cases e <;> rfl

@[simp] theorem isVar_contour (e : Expr) : e.contour.isVar = e.isVar := by
  cases e <;> rfl

@[simp] theorem isRead_contour (e : Expr) : e.contour.isRead = e.isIndexed := by
  cases e <;> rfl

@[simp] theorem isBuild_contour (e : Expr) : e.contour.isBuild = e.isIndexExpr := by
  cases e <;> rfl

@[simp] theorem readable_contour (vs : List IndexVar) (e : Expr) :
    e.contour.readable vs.length = e.readable vs := by
  unfold Contour.readable readable
  rw [ty_contour]

@[simp] theorem readTy_contour (e : Expr) : e.contour.readTy = e.readTy := by
  unfold Contour.readTy readTy
  rw [ty_contour]

@[simp] theorem reads_contour (e : Expr) : e.contour.reads = e.containsIndexed := by
  induction e with
  | neg ty a ih => simpa [contour, Contour.reads] using ih
  | binary ty op a b iha ihb => simp [contour, Contour.reads, iha, ihb]
  | _ => simp [contour, Contour.reads]

/-- Renaming index variables cannot be seen from outside. -/
theorem contour_substitute (ρ : Renaming) (e : Expr) :
    (e.substitute ρ).value.contour = e.contour := by
  induction e generalizing ρ with
  | var ty v => rfl
  | prim ty op es _ =>
    rw [value_substitute_prim]
    simp [contour, List.any_map, Function.comp_def, containsIndexed_substitute]
  | indexed ty t vs _ => rw [value_substitute_indexed, contour, contour]
  | indexExpr ty vs b ih => rw [value_substitute_indexExpr, contour, contour, ih]
  | neg ty a ih => rw [value_substitute_neg, contour, contour, ih]
  | binary ty op a b iha ihb => rw [value_substitute_binary, contour, contour, iha, ihb]

/-- Nor can more be seen of a read than its tensor shows. -/
theorem contour_readAt (vs : List IndexVar) (t : Expr) (ty : Ty) :
    (t.readAt vs ty).contour = t.contour.readAt vs.length ty := by
  have hoperand : ∀ a : Expr, (a.readAt vs a.ty.componentTy).contour =
      a.contour.readAt vs.length a.ty.componentTy → (a.operandAt vs).contour =
        if a.ty.isScalar then a.contour else a.contour.readAt vs.length a.ty.componentTy := by
    intro a ha
    unfold operandAt
    split
    · rfl
    · exact ha
  induction t generalizing ty with
  | indexExpr rty rs b _ =>
    by_cases hl : rs.length = vs.length
    · rw [readAt_indexExpr hl, contour_substitute, contour, Contour.readAt, if_pos hl]
    · rw [readAt, if_neg hl, contour, contour, Contour.readAt, if_neg hl]
  | neg nty a ih =>
    by_cases hr : a.readable vs = true
    · rw [readAt_neg hr, contour, contour, hoperand a (ih _), Contour.readAt, readable_contour,
        if_pos hr, readTy_contour, ty_contour]
    · rw [readAt, if_neg hr, contour, contour, Contour.readAt, readable_contour, if_neg hr]
  | binary bty op a b iha ihb =>
    by_cases hr : (a.readable vs && b.readable vs) = true
    · rw [readAt_binary hr, contour, contour, hoperand a (iha _), hoperand b (ihb _),
        Contour.readAt, readable_contour, readable_contour, if_pos hr, readTy_contour, ty_contour,
        ty_contour]
    · rw [readAt, if_neg hr, contour, contour, Contour.readAt, readable_contour, readable_contour,
        if_neg hr]
  | _ => rfl

/-- Expressions with the foreseen contours read tensors if that was foreseen. -/
theorem any_containsIndexed_of_contours {es xs : List Expr}
    (h : List.Forall₂ (fun e x => x.contour = e.flatContour) es xs) :
    xs.any containsIndexed = flatReads es := by
  induction h with
  | nil => rfl
  | cons hx _ ih => rw [List.any_cons, flatReads, ih, ← hx, reads_contour]

end Expr

section

variable {a e x : Expr} {st st' : Flattener}

/-- What is left of a settled operand, seen from outside. -/
theorem Settles.contour (h : Settles a st x st') : x.contour = a.contour.settled := by
  unfold Contour.settled
  rw [Expr.isRead_contour, Expr.ty_contour, Expr.isBuild_contour, Expr.reads_contour]
  cases h with
  | read hi => rw [if_pos hi]
  | spilled hi hspill =>
    rw [if_neg (by simp [hi])]
    cases hspill with
    | copied hw hie hvs =>
      rw [if_pos (by simp [hw, hie]), Expr.copyAt, hoist_indexExpr]
      rfl
    | hoisted hw =>
      rw [if_neg (by simpa using hw)]
      cases a using Flattener.hoist_cases st with
      | built ty rs b heq =>
        rw [heq]
        rfl
      | wrapped a hc hie heq =>
        rw [heq, hie, if_neg Bool.false_ne_true, if_pos hc]
        rfl
      | named a hc hs heq =>
        have hie : a.isIndexExpr = false := (Expr.containsIndexed_eq_false_iff.1 hc).root.2
        rw [heq, hie, hc, hs]
        rfl
      | kept a hc hs heq =>
        have hie : a.isIndexExpr = false := (Expr.containsIndexed_eq_false_iff.1 hc).root.2
        rw [heq, hie, hc, hs]
        rfl

/-- Flattened expressions have the contour that was foreseen. -/
theorem FlattensTo.contour (h : FlattensTo e st x st') : x.contour = e.flatContour := by
  induction h with
  | var => rfl
  | prim _ ih =>
    rw [Expr.contour, Expr.flatContour]
    exact congrArg _ <| Expr.any_containsIndexed_of_contours <|
      ih.forall₂ fun _ _ _ _ _ ⟨_, hx⟩ => hx
  | indexed _ ih => rw [Expr.contour_readAt, ih, Expr.flatContour]
  | indexExpr _ ih => rw [Expr.contour, ih, Expr.flatContour]
  | neg _ ih => rw [Expr.contour, ih, Expr.flatContour]
  | product hop _ _ ihx ihy =>
    rw [Expr.contour, ihx, ihy, Expr.flatContour, if_neg (by simp [hop])]
  | sum hop _ _ _ hxs _ hys ihx ihy =>
    rw [Expr.contour, hxs.contour, hys.contour, ihx, ihy, Expr.flatContour, if_pos hop]

end

/-! ### Calls -/

/-- A tensor of more than one component may be passed as a bare variable only. -/
def Expr.Passable (a : Expr) : Prop := a.ty.isWhole = true → a.isVar = true

/-- The same, seen from outside. -/
def Contour.Passable (c : Contour) : Prop := c.ty.isWhole = true → c.isVar = true

instance : DecidablePred Expr.Passable := fun _ => inferInstanceAs (Decidable (_ → _))

instance : DecidablePred Contour.Passable := fun _ => inferInstanceAs (Decidable (_ → _))

namespace Expr

/-- What a call passes. -/
def actuals : Expr → List Expr
  | .prim _ (.call _) as => as
  | _ => []

/-- All that is passed by calls in the expression satisfies `p`. -/
def Calls (p : Expr → Prop) (e : Expr) : Prop := e.Everywhere fun n => ∀ a ∈ n.actuals, p a

/-- Calls in the expression pass tensors as variables. -/
def PassesWhole (e : Expr) : Prop := e.Calls Passable

/-- Calls in the expression pass tensors as variables once their actuals are flattened. -/
def LandsWhole (e : Expr) : Prop := e.Calls fun a => a.flatContour.Passable

instance : DecidablePred PassesWhole := fun e =>
  inferInstanceAs (Decidable (e.Everywhere fun n => ∀ a ∈ n.actuals, a.Passable))

instance : DecidablePred LandsWhole := fun e =>
  inferInstanceAs (Decidable (e.Everywhere fun n => ∀ a ∈ n.actuals, a.flatContour.Passable))

theorem passable_contour {a : Expr} : a.contour.Passable ↔ a.Passable := by
  unfold Contour.Passable Passable
  rw [ty_contour, isVar_contour]

section

variable {p : Expr → Prop} {ty : Ty} {a b t : Expr} {vs : List IndexVar}

@[simp] theorem calls_var {v : Var} : (var ty v).Calls p := by
  simp [Calls, actuals]

theorem calls_prim {op : Prim} {es : List Expr} :
    (prim ty op es).Calls p ↔
      (∀ a ∈ (prim ty op es).actuals, p a) ∧ ∀ e ∈ es, e.Calls p :=
  everywhere_prim

@[simp] theorem calls_indexed : (indexed ty t vs).Calls p ↔ t.Calls p := by
  simp [Calls, actuals]

@[simp] theorem calls_indexExpr : (indexExpr ty vs b).Calls p ↔ b.Calls p := by
  simp [Calls, actuals]

@[simp] theorem calls_neg : (neg ty a).Calls p ↔ a.Calls p := by
  simp [Calls, actuals]

@[simp] theorem calls_binary {op : BinaryOp} :
    (binary ty op a b).Calls p ↔ a.Calls p ∧ b.Calls p := by
  simp [Calls, actuals]

/-- Renaming index variables changes nothing for calls. -/
theorem passesWhole_substitute (ρ : Renaming) (e : Expr) :
    (e.substitute ρ).value.PassesWhole ↔ e.PassesWhole := by
  unfold PassesWhole
  induction e generalizing ρ with
  | var ty v => rfl
  | prim ty op es ih =>
    have hpassed : ∀ a : Expr, (a.substitute ρ).value.Passable ↔ a.Passable := by
      intro a
      rw [← passable_contour, contour_substitute, passable_contour]
    rw [value_substitute_prim, calls_prim, calls_prim, List.forall_mem_map]
    refine and_congr ?_ (forall₂_congr fun e he => ih e he ρ)
    cases op with
    | call f => exact List.forall_mem_map.trans (forall₂_congr fun a _ => hpassed a)
    | _ => exact Iff.rfl
  | indexed ty t vs ih => rw [value_substitute_indexed, calls_indexed, calls_indexed, ih]
  | indexExpr ty vs b ih => rw [value_substitute_indexExpr, calls_indexExpr, calls_indexExpr, ih]
  | neg ty a ih => rw [value_substitute_neg, calls_neg, calls_neg, ih]
  | binary ty op a b iha ihb =>
    rw [value_substitute_binary, calls_binary, calls_binary, iha, ihb]

/-- Reading a tensor through index variables loses no call and makes none. -/
theorem passesWhole_readAt (vs : List IndexVar) (t : Expr) (ty : Ty) :
    (t.readAt vs ty).PassesWhole ↔ t.PassesWhole := by
  refine readAt_induction (P := fun t _ x => x.PassesWhole ↔ t.PassesWhole) ?_ ?_ ?_ ?_ t ty
  · intro ty rty rs b _
    rw [passesWhole_substitute]
    exact calls_indexExpr.symm
  · intro ty nty a _ ih
    have hoperand : (a.operandAt vs).PassesWhole ↔ a.PassesWhole :=
      operandAt_of (P := fun x => x.PassesWhole ↔ a.PassesWhole) (fun _ => Iff.rfl) ih
    exact calls_neg.trans (hoperand.trans calls_neg.symm)
  · intro ty bty op a b _ _ iha ihb
    have hlhs : (a.operandAt vs).PassesWhole ↔ a.PassesWhole :=
      operandAt_of (P := fun x => x.PassesWhole ↔ a.PassesWhole) (fun _ => Iff.rfl) iha
    have hrhs : (b.operandAt vs).PassesWhole ↔ b.PassesWhole :=
      operandAt_of (P := fun x => x.PassesWhole ↔ b.PassesWhole) (fun _ => Iff.rfl) ihb
    exact calls_binary.trans ((and_congr hlhs hrhs).trans calls_binary.symm)
  · intro ty t
    exact calls_indexed

end

end Expr

/-! ### Calls in what is left and in what waits -/

/-- Calls in the statements that wait pass tensors as variables. -/
def Flattener.PassesWhole (st : Flattener) : Prop :=
  ∀ s ∈ st.pending, s.ForExprs Expr.PassesWhole

section

variable {a e x : Expr} {st st' : Flattener}

theorem Flattener.passesWhole_own (st : Flattener) : st.own.PassesWhole := by
  rintro s ⟨⟩

theorem Flattener.passesWhole_bindTemporary {value : Expr} :
    (st.bindTemporary value).2.PassesWhole ↔ st.PassesWhole ∧ value.PassesWhole :=
  forall_pending_bindTemporary.trans (and_congr_right fun _ => Stmt.forExprs_assign)

/-- A hoisted expression stays, or waits in the assignment to its temporary. -/
theorem Flattener.passesWhole_hoist (a : Expr) (st : Flattener) :
    (st.hoist a).2.PassesWhole ∧ (st.hoist a).1.value.PassesWhole ↔
      st.PassesWhole ∧ a.PassesWhole := by
  -- the temporary is read back, with or without index variables
  have hvar : ∀ v : Var, (Expr.ofVar v).PassesWhole := fun v => Expr.calls_var
  have hread : ∀ (v : Var) vs, ((Expr.ofVar v).index vs).PassesWhole := fun v vs =>
    Expr.calls_indexed.2 (hvar v)
  cases a using hoist_cases st with
  | built ty rs b h =>
    rw [h, passesWhole_bindTemporary]
    exact and_iff_left (hread _ _)
  | wrapped a _ _ h =>
    rw [h, passesWhole_bindTemporary]
    exact (and_iff_left (hread _ _)).trans (and_congr_right fun _ => Expr.calls_indexExpr)
  | named a _ _ h =>
    rw [h]
    exact (and_iff_left (hvar _)).trans passesWhole_bindTemporary
  | kept a _ _ h =>
    rw [h]
    exact Iff.rfl

theorem SpillsTo.passesWhole_iff (h : SpillsTo a st x st') :
    st'.PassesWhole ∧ x.PassesWhole ↔ st.PassesWhole ∧ a.PassesWhole := by
  cases h with
  | hoisted _ => exact Flattener.passesWhole_hoist a st
  | @copied vs b _ _ _ =>
    have hcopy : (a.copyAt vs).PassesWhole ↔ a.PassesWhole :=
      Expr.calls_indexExpr.trans (Expr.passesWhole_readAt vs a _)
    exact (Flattener.passesWhole_hoist _ _).trans (and_congr_right fun _ => hcopy)

theorem Settles.passesWhole_iff (h : Settles a st x st') :
    st'.PassesWhole ∧ x.PassesWhole ↔ st.PassesWhole ∧ a.PassesWhole := by
  cases h with
  | read _ => exact Iff.rfl
  | spilled _ hspill => exact hspill.passesWhole_iff

/-- The calls in what is left of an expression and in what it leaves waiting are its own calls over
flattened actuals. -/
theorem FlattensTo.passesWhole_iff (h : FlattensTo e st x st') :
    st'.PassesWhole ∧ x.PassesWhole ↔ st.PassesWhole ∧ e.LandsWhole := by
  induction h with
  | var => exact and_congr_right fun _ => iff_of_true Expr.calls_var Expr.calls_var
  | @prim ty op es _ xs _ hthreads ih =>
    have hparts := ih.and_iff fun _ _ _ _ _ ⟨_, hx⟩ => hx
    -- what is passed may be passed if that was foreseen
    have hpassed : (∀ x ∈ (Expr.prim ty op xs).actuals, x.Passable) ↔
        ∀ e ∈ (Expr.prim ty op es).actuals, e.flatContour.Passable := by
      cases op with
      | call f =>
        refine (forall_iff_of_forall₂ (hthreads.forall₂ fun e _ _ x _ hr => ?_))
        rw [← Expr.passable_contour, hr.contour]
      | _ => exact iff_of_true (by simp [Expr.actuals]) (by simp [Expr.actuals])
    unfold Expr.PassesWhole Expr.LandsWhole at *
    rw [Expr.calls_prim, Expr.calls_prim, and_left_comm, hparts, hpassed, and_left_comm]
  | indexed _ ih =>
    rw [Expr.passesWhole_readAt, ih]
    exact and_congr_right fun _ => Expr.calls_indexed.symm
  | indexExpr _ ih =>
    exact (and_congr_right fun _ => Expr.calls_indexExpr).trans
      (ih.trans (and_congr_right fun _ => Expr.calls_indexExpr.symm))
  | neg _ ih =>
    exact (and_congr_right fun _ => Expr.calls_neg).trans
      (ih.trans (and_congr_right fun _ => Expr.calls_neg.symm))
  | product _ _ _ ihx ihy =>
    exact (and_congr_right fun _ => Expr.calls_binary).trans
      ((Flattening.and_threads ihx ihy).trans (and_congr_right fun _ => Expr.calls_binary.symm))
  | sum _ _ _ _ hxs _ hys ihx ihy =>
    have hx := hxs.passesWhole_iff.trans ihx
    have hy := hys.passesWhole_iff.trans ihy
    exact (and_congr_right fun _ => Expr.calls_binary).trans
      ((Flattening.and_threads hx hy).trans (and_congr_right fun _ => Expr.calls_binary.symm))

/-- An actual of a call statement may be spilled on top of that. -/
theorem ActualTo.passesWhole_iff (h : ActualTo a st x st') :
    st'.PassesWhole ∧ x.PassesWhole ↔ st.PassesWhole ∧ a.LandsWhole := by
  cases h with
  | kept hx _ => exact hx.passesWhole_iff
  | @spilled a' st₁ x _ hx _ _ hspill =>
    have hwhole : (Flattening.wholeTensor x).PassesWhole ↔ x.PassesWhole := by
      unfold Flattening.wholeTensor
      split
      · split
        · exact Expr.calls_indexed.symm
        · exact Iff.rfl
      · exact Iff.rfl
    rw [hwhole, hspill.passesWhole_iff, hx.passesWhole_iff]

/-- The calls within the expressions of a flattened statement are its own over flattened actuals. -/
theorem StmtFlattensTo.passesWhole_iff {s s' : Stmt} (h : StmtFlattensTo s st s' st') :
    s'.ForExprs Expr.PassesWhole ↔ s.ForExprs Expr.LandsWhole := by
  induction s using Stmt.children_induction generalizing s' st st' with
  | step s ih =>
    -- what is put in front, and the statement over its new parts
    have hafter : ∀ (xs : List Expr) (ss : List Stmt) (st₁ : Flattener),
        xs.length = s.exprs.length → ss.length = s.children.length →
        (((s.withParts xs ss).after st₁.pending).ForExprs Expr.PassesWhole ↔
          (st₁.PassesWhole ∧ ∀ x ∈ xs, x.PassesWhole) ∧
            ∀ s' ∈ ss, s'.ForExprs Expr.PassesWhole) := by
      intro xs ss st₁ hxs hss
      rw [Stmt.forExprs_after, Stmt.forExprs_withParts hxs hss, ← and_assoc]
      exact Iff.rfl
    rw [Stmt.forExprs_iff (p := Expr.LandsWhole)]
    cases h with
    | @call rs f as _ xs st₁ hthreads =>
      have hactuals := hthreads.and_iff fun a _ _ _ _ hr => hr.passesWhole_iff
      have hcall := hafter xs [] st₁ hthreads.length_eq rfl
      rw [and_iff_left (by simp), hactuals, and_iff_right st.passesWhole_own] at hcall
      exact hcall.trans (and_iff_left (by simp [Stmt.children])).symm
    | @parts _ _ xs st₁ ss st₂ _ hexprs hstmts =>
      have hown := hexprs.and_iff fun e _ _ _ _ hr => hr.passesWhole_iff
      have hinner := forall_iff_of_forall₂ <| hstmts.forall₂ fun c hc _ _ _ hr => ih c hc hr
      -- the statements inside leave pending what the expressions left
      have hpending : st₂.PassesWhole ↔ st₁.PassesWhole := by
        unfold Flattener.PassesWhole
        rw [hstmts.pending_eq]
      rw [hafter _ _ _ hexprs.length_eq hstmts.length_eq, hpending, hown, hinner,
        and_iff_right st.passesWhole_own]

end

/-! ### Lowering and declarations -/

namespace Stmt

/-- A call of `norm` or `dot` is lowered to an inner product, and its actuals become the factors. -/
theorem forExprs_calls_of_intrinsic {p : Expr → Prop} {s : Stmt} {b b' : Builder}
    {out : Transformed Stmt} (hs : ¬ s.LoweredNode) (h : s.lower.run.run b = (.ok out, b')) :
    out.value.ForExprs (Expr.Calls p) ↔ s.ForExprs (Expr.Calls p) := by
  have hsource : s.ForExprs (Expr.Calls p) ↔ ∀ e ∈ s.exprs, e.Calls p := by
    obtain ⟨rs, f, as, rfl, _⟩ := lower_of_not_loweredNode hs
    rw [forExprs_iff]
    exact and_iff_left (by simp [children])
  have hproduct : ∀ vs x y, (Lowering.product vs x y).Calls p ↔ x.Calls p ∧ y.Calls p := by
    intro vs x y
    simp [Lowering.product, Expr.build, Expr.binaryOf, Expr.index]
  obtain ⟨_, hto⟩ := lower_intrinsic hs h
  generalize out.value = s' at hto
  rw [hsource]
  cases hto with
  | norm heq _ =>
    rw [heq, forExprs_block]
    simp [hproduct, ForExprs, allExprs, Instr.exprs, Expr.ofVar]
  | dot heq _ _ =>
    rw [heq, forExprs_assign, hproduct]
    simp

/-- Any other statement keeps its expressions over the lowered statements inside it. -/
theorem forExprs_calls_rebuild {p : Expr → Prop} {s : Stmt} {inner : List (Transformed Stmt)}
    (h : List.Forall₂ (fun c out => Transformed.Faithful c out ∧
      (out.value.ForExprs (Expr.Calls p) ↔ c.ForExprs (Expr.Calls p))) s.children inner) :
    (s.rebuild (s.exprs.map .keep) inner).value.ForExprs (Expr.Calls p) ↔
      s.ForExprs (Expr.Calls p) := by
  have hkept : List.Forall₂ Transformed.Faithful s.exprs (s.exprs.map .keep) :=
    Transformed.forall₂_faithful_map fun e _ => Transformed.Faithful.keep e
  have hvalues : Transformed.values (s.exprs.map .keep) = s.exprs := by
    simp [Transformed.values, Function.comp_def]
  have hlength : (Transformed.values inner).length = s.children.length := by
    rw [Transformed.values, List.length_map, h.length_eq]
  have hstmts : (∀ s' ∈ Transformed.values inner, s'.ForExprs (Expr.Calls p)) ↔
      ∀ c ∈ s.children, c.ForExprs (Expr.Calls p) := by
    rw [Transformed.values, List.forall_mem_map]
    exact forall_iff_of_forall₂ (h.imp fun _ _ h => h.2)
  rw [value_rebuild hkept (h.imp fun _ _ h => h.1), hvalues, forExprs_withParts rfl hlength,
    hstmts, ← forExprs_iff]

/-- Lowering puts no calls in expressions and takes none out. -/
theorem forExprs_calls_of_lower {p : Expr → Prop} {s : Stmt} {b b' : Builder}
    {out : Transformed Stmt} (h : s.lower.run.run b = (.ok out, b')) :
    out.value.ForExprs (Expr.Calls p) ↔ s.ForExprs (Expr.Calls p) := by
  suffices hlower : Action.Establishes (fun _ => True) s.lower fun out =>
      (out.value.ForExprs (Expr.Calls p) ↔ s.ForExprs (Expr.Calls p)) from
    (hlower b out b' h trivial).2
  clear h
  induction s using children_induction with
  | step s ih =>
    by_cases hs : s.LoweredNode
    · have hinner : Action.Establishes (fun _ => True) (s.children.mapM' Stmt.lower)
          (List.Forall₂ (fun c out => Transformed.Faithful c out ∧
            (out.value.ForExprs (Expr.Calls p) ↔ c.ForExprs (Expr.Calls p))) s.children) :=
        Action.Establishes.mapM' fun c hc b out b' hrun _ =>
          ⟨trivial, faithful_lower hrun, (ih c hc b out b' hrun trivial).2⟩
      rw [lower_of_loweredNode hs]
      exact hinner.bind fun inner hin => Action.Establishes.pure (forExprs_calls_rebuild hin)
    · exact fun b out b' hrun _ => ⟨trivial, forExprs_calls_of_intrinsic hs hrun⟩

end Stmt

/-- Declarations have no expressions. -/
theorem DeclaresTo.allExprs {known known' : Declared} {ss : List Stmt}
    {out : Transformed (List Stmt)} (h : DeclaresTo known ss out known') :
    out.value.flatMap Stmt.allExprs = ss.flatMap Stmt.allExprs := by
  induction h with
  | nil => rfl
  | varDecl _ ih =>
    rw [List.flatMap_cons, List.flatMap_cons, ih]
  | block _ _ ihi ihr =>
    rw [List.flatMap_cons, List.flatMap_cons, ihr, Stmt.allExprs, Stmt.allExprs,
      Stmt.allExprsAll_eq, Stmt.allExprsAll_eq, ihi]
  | @ordinary known s _ _ _ _ _ ih =>
    have hdecls : ∀ vs : List Var, (vs.map Stmt.varDecl).flatMap Stmt.allExprs = [] := by
      intro vs
      rw [List.flatMap_map]
      exact List.flatMap_eq_nil_iff.2 fun v _ => rfl
    rw [Stmt.declared, List.flatMap_append, List.flatMap_append, hdecls, ih]
    simp

theorem Stmt.allExprs_declare (s : Stmt) (known : Declared) :
    (s.declare.run known).1.value.allExprs = s.allExprs := by
  obtain ⟨out, known', hout⟩ := exists_declaresTo known [s]
  have hall := hout.allExprs
  rw [List.flatMap_singleton] at hall
  obtain ⟨x, hrun, hx | ⟨_, rfl⟩⟩ := run_declare hout
  · rw [hrun, ← hall, hx, List.flatMap_singleton]
  · rw [hrun, ← hall]
    show (Stmt.block out.value).allExprs = _
    rw [allExprs, allExprsAll_eq]

/-! ### Well-shaped programs -/

/-- In a well-shaped program an actual may be passed once it is flattened exactly if it may be
passed as it is. -/
theorem FlattensTo.passable_iff {a x : Expr} {st st' : Flattener} (h : FlattensTo a st x st')
    (ha : a.WellShaped) : x.Passable ↔ a.Passable := by
  have hfits : a.ty.Fits x.ty := (h.wellShaped ha).2
  rcases hfits with hty | ⟨hsa, hsx⟩
  · cases h with
    | @indexed ty t vs _ x _ _ =>
      -- a read is scalar
      have hscalar : ty.isScalar = true := ha.root.1
      have hread : ∀ e : Expr, e.ty = ty → e.Passable := by
        intro e he hw
        rw [he, Ty.isWhole, hscalar] at hw
        simp at hw
      exact iff_of_true (hread _ hty) (hread _ rfl)
    | _ => exact Iff.rfl
  · have hscalar : ∀ e : Expr, e.ty.isScalar = true → e.Passable := by
      intro e he hw
      rw [Ty.isWhole, he] at hw
      simp at hw
    exact iff_of_true (hscalar x hsx) (hscalar a hsa)

namespace Expr.WellShaped

variable {e : Expr}

theorem passable_flatContour (h : e.WellShaped) : e.flatContour.Passable ↔ e.Passable := by
  have hst : (Flattener.ofFresh ⟨0, {}⟩).WellShaped := by
    rintro s ⟨⟩
  -- flattening comes to an end and does not fail
  obtain ⟨out, st', hrun, _, _⟩ := Flattening.succeeds_flatten h _ _ hst rfl
  have hto := Flattens.to hrun
  rw [← hto.contour, passable_contour, hto.passable_iff h]

theorem landsWhole_iff (h : e.WellShaped) : e.LandsWhole ↔ e.PassesWhole := by
  unfold LandsWhole PassesWhole Calls
  induction e using children_induction with
  | step e ih =>
    rw [everywhere_iff, everywhere_iff]
    have hactuals : ∀ a ∈ e.actuals, a ∈ e.children := by
      intro a ha
      unfold actuals at ha
      split at ha
      · exact ha
      · cases ha
    refine and_congr (forall₂_congr fun a ha => ?_) (forall₂_congr fun c hc => ih c hc (h.child hc))
    exact passable_flatContour (h.child (hactuals a ha))

end Expr.WellShaped

/-! ### The pipeline -/

/-- Calls pass tensors as variables, be they statements or within expressions. -/
def Stmt.PassesWhole (s : Stmt) : Prop := s.Everywhere PassesVars ∧ s.ForExprs Expr.PassesWhole

instance : DecidablePred Stmt.PassesWhole := fun _ => inferInstanceAs (Decidable (_ ∧ _))

namespace Func

/-- Every call in the body passes tensors as variables. -/
def PassesWhole (f : Func) : Prop := ∀ body ∈ f.body, body.PassesWhole

instance : DecidablePred PassesWhole := fun f =>
  inferInstanceAs (Decidable (∀ body ∈ f.body, body.PassesWhole))

/-- Every call within an expression of the body passes tensors as variables once its actuals are
flattened. -/
def LandsWhole (f : Func) : Prop := ∀ body ∈ f.body, body.ForExprs Expr.LandsWhole

instance : DecidablePred LandsWhole := fun f =>
  inferInstanceAs (Decidable (∀ body ∈ f.body, body.ForExprs Expr.LandsWhole))

/-- In a well-shaped function flattening does nothing for the calls within expressions. -/
theorem landsWhole_iff {f : Func} (h : ∀ body ∈ f.body, body.WellShaped) :
    f.LandsWhole ↔ ∀ body ∈ f.body, body.ForExprs Expr.PassesWhole := by
  unfold LandsWhole
  refine forall₂_congr fun body hbody => forall₂_congr fun e he => ?_
  exact Expr.WellShaped.landsWhole_iff (h body hbody e he)

end Func

namespace Pipeline

variable {config : Config} {f : Func} {out : Transformed Func} {st st' : Fresh}

theorem forExprs_calls_of_lowerStage {p : Expr → Prop} {body : Stmt} {lowered : Transformed Stmt}
    (h : (lowerStage config body).run.run st = (.ok lowered, st')) :
    lowered.value.ForExprs (Expr.Calls p) ↔ body.ForExprs (Expr.Calls p) := by
  unfold lowerStage at h
  split at h
  · have hout : (body.lower.run.run (.ofFresh st)).1 = .ok lowered := congrArg Prod.fst h
    obtain ⟨b, hrun⟩ := Action.exists_run_ok hout
    exact Stmt.forExprs_calls_of_lower hrun
  · obtain ⟨rfl, _⟩ := Action.run_pure_ok.1 h
    exact Iff.rfl

theorem allExprs_declaredBody (config : Config) (f : Func) (body : Stmt) :
    (declaredBody config f body).allExprs = body.allExprs := by
  unfold declaredBody
  split
  · exact body.allExprs_declare _
  · rfl

/-- With verification on, whatever the function and the state: calls in the outcome of a run pass
tensors as variables exactly if the calls within the expressions of the function do so once their
actuals are flattened. -/
theorem run_passesWhole_iff (hverify : config.verify = true)
    (h : (run config f).run.run st = (.ok out, st')) : out.value.PassesWhole ↔ f.LandsWhole := by
  cases hbody : f.body with
  | none =>
    rw [run_of_body_eq_none hbody] at h
    obtain ⟨rfl, _⟩ := Action.run_pure_ok.1 h
    unfold Func.PassesWhole Func.LandsWhole
    simp [hbody]
  | some body =>
    obtain ⟨lowered, flat, st₁, st₂, hlow, hflatten, hg⟩ := run_ok hbody h
    obtain ⟨⟨fl, fl', hrun⟩, _⟩ := flatten_ok hflatten
    -- the check looks at call statements
    have hstmts : (declaredBody config f flat.value).Everywhere Stmt.PassesVars := by
      obtain ⟨body', hg', hflat, _⟩ := accepts_of_run hbody hverify h
      have hsame : body' = declaredBody config f flat.value :=
        Option.some.inj (hg'.body_eq.symm.trans hg.body_eq)
      intro n hn
      exact (Stmt.verifyFlat_eq_ok_iff.1 hflat n (hsame ▸ hn)).2
    have hexprs : (declaredBody config f flat.value).ForExprs Expr.PassesWhole ↔
        body.ForExprs Expr.LandsWhole :=
      calc (declaredBody config f flat.value).ForExprs Expr.PassesWhole
        _ ↔ flat.value.ForExprs Expr.PassesWhole := by
          unfold Stmt.ForExprs
          rw [allExprs_declaredBody]
        _ ↔ lowered.value.ForExprs Expr.LandsWhole :=
          (Stmt.flattensTo_of_run hrun).passesWhole_iff
        _ ↔ body.ForExprs Expr.LandsWhole := forExprs_calls_of_lowerStage hlow
    unfold Func.PassesWhole Func.LandsWhole
    rw [hg.body_eq, hbody]
    simp only [Option.mem_some_iff, forall_eq']
    exact (and_iff_right hstmts).trans hexprs

/-- `x = g(actual);` for parameters `a` and `b`, a result `x` and an external function `g`. -/
def applied (actual : Var → Var → Expr) : Func :=
  let a : Var := ⟨0, "a", .vector 3⟩
  let b : Var := ⟨1, "b", .vector 3⟩
  let x : Var := ⟨2, "x", .float⟩
  let g : Func := ⟨5, "g", .external, [⟨3, "p", .vector 3⟩], [⟨4, "q", .float⟩], none⟩
  ⟨6, "f", .internal, [a, b], [x], some (.assign x (.callOf g [actual a b]))⟩

/-- `x = g(a);` -/
def appliedToVar : Func := applied fun a _ => .ofVar a

theorem run_appliedToVar :
    ({} : Config).verify = true ∧
      (run {} appliedToVar).run.run ⟨7, {}⟩ = (.ok (.keep appliedToVar), ⟨7, {}⟩) ∧
      appliedToVar.LandsWhole ∧ (appliedToVar.PassesWhole ↔ appliedToVar.LandsWhole) := by
  have hrun : (run {} appliedToVar).run.run ⟨7, {}⟩ = (.ok (.keep appliedToVar), ⟨7, {}⟩) := rfl
  exact ⟨rfl, hrun, by decide, run_passesWhole_iff rfl hrun⟩

/-- `x = g(a * b);` -/
def appliedToProduct : Func :=
  applied fun a b => .binaryOf .mul (.ofVar a) (.ofVar b)

/-- A run with verification on that succeeds, and leaves `a * b` to be passed. -/
theorem run_appliedToProduct :
    ({} : Config).verify = true ∧
      (run {} appliedToProduct).run.run ⟨7, {}⟩ = (.ok (.keep appliedToProduct), ⟨7, {}⟩) ∧
      ¬ appliedToProduct.PassesWhole :=
  ⟨rfl, rfl, by decide⟩

end Pipeline

end TensorIR
