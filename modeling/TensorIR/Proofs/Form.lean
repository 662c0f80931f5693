import TensorIR.Proofs.LooseVars
import TensorIR.Proofs.Structure

/-! # The form of a flattened expression

What flattening makes of an expression depends on the state of the flattener only in the
temporaries it draws. This module computes it up to the names of variables, with no state.

**Key idea**: no decision of flattening looks at a variable, only at types, at the kinds of nodes
and at index variables. So everything it does commutes with making variables anonymous
(`Expr.blank`), and `Expr.form` follows the rules of `FlattensTo` with anonymous temporaries.
-/

namespace TensorIR

namespace Expr

/-! ### Anonymous variables -/

mutual

/-- The expression with its variables made anonymous. -/
def blank : Expr → Expr
  | .var ty _ => .var ty ⟨0, "", ty⟩
  | .prim ty op es => .prim ty op (blankAll es)
  | .indexed ty t vs => .indexed ty t.blank vs
  | .indexExpr ty vs b => .indexExpr ty vs b.blank
  | .neg ty a => .neg ty a.blank
  | .binary ty op a b => .binary ty op a.blank b.blank

/-- Several expressions with their variables made anonymous. -/
def blankAll : List Expr → List Expr
  | [] => []
  | e :: es => e.blank :: blankAll es

end

theorem blankAll_eq (es : List Expr) : blankAll es = es.map blank := by
  induction es with
  | nil => rfl
  | cons e es ih => rw [blankAll, ih, List.map_cons]

theorem blank_prim (ty : Ty) (op : Prim) (es : List Expr) :
    (prim ty op es).blank = .prim ty op (es.map blank) := by
  rw [blank, blankAll_eq]

@[simp] theorem ty_blank (e : Expr) : e.blank.ty = e.ty := by
  cases e <;> rfl

@[simp] theorem isIndexed_blank (e : Expr) : e.blank.isIndexed = e.isIndexed := by
  cases e <;> rfl

@[simp] theorem isIndexExpr_blank (e : Expr) : e.blank.isIndexExpr = e.isIndexExpr := by
  cases e <;> rfl

@[simp] theorem readable_blank (vs : List IndexVar) (e : Expr) :
    e.blank.readable vs = e.readable vs := by
  unfold readable
  rw [ty_blank]

@[simp] theorem readTy_blank (e : Expr) : e.blank.readTy = e.readTy := by
  unfold readTy
  rw [ty_blank]

@[simp] theorem blank_blank (e : Expr) : e.blank.blank = e.blank := by
  induction e with
  | var ty v => rfl
  | prim ty op es ih =>
    rw [blank_prim, blank_prim, List.map_map]
    exact congrArg _ (List.map_congr_left fun e he => ih e he)
  | indexed ty t vs ih => rw [blank, blank, ih]
  | indexExpr ty vs b ih => rw [blank, blank, ih]
  | neg ty a ih => rw [blank, blank, ih]
  | binary ty op a b iha ihb => rw [blank, blank, iha, ihb]

@[simp] theorem loose_blank (e : Expr) : e.blank.loose = e.loose := by
  induction e with
  | var ty v => rfl
  | prim ty op es ih =>
    rw [blank_prim, loose, loose, looseAll_eq, looseAll_eq, List.flatMap_map]
    exact List.flatMap_congr fun e he => ih e he
  | indexed ty t vs ih => rw [blank, loose, loose, ih]
  | indexExpr ty vs b ih => rw [blank, loose, loose, ih]
  | neg ty a ih => rw [blank, loose, loose, ih]
  | binary ty op a b iha ihb => rw [blank, loose, loose, iha, ihb]

@[simp] theorem freeIndexVars_blank (e : Expr) : e.blank.freeIndexVars = e.freeIndexVars := by
  rw [freeIndexVars_eq, freeIndexVars_eq, loose_blank]

@[simp] theorem containsIndexed_blank (e : Expr) :
    e.blank.containsIndexed = e.containsIndexed := by
  induction e with
  | var ty v => rfl
  | prim ty op es ih =>
    rw [blank_prim, containsIndexed_prim, containsIndexed_prim, any_containsIndexed_map ih]
  | indexed ty t vs ih => rw [blank, containsIndexed_indexed, containsIndexed_indexed]
  | indexExpr ty vs b ih => rw [blank, containsIndexed_indexExpr, containsIndexed_indexExpr]
  | neg ty a ih => rw [blank, containsIndexed_neg, containsIndexed_neg, ih]
  | binary ty op a b iha ihb => rw [blank, containsIndexed_binary, containsIndexed_binary, iha, ihb]

/-- Renaming index variables and making variables anonymous commute. -/
theorem blank_substitute (ρ : Renaming) (e : Expr) :
    (e.substitute ρ).value.blank = (e.blank.substitute ρ).value := by
  induction e generalizing ρ with
  | var ty v => rfl
  | prim ty op es ih =>
    rw [value_substitute_prim, blank_prim, blank_prim, value_substitute_prim, List.map_map,
      List.map_map]
    exact congrArg _ (List.map_congr_left fun e he => ih e he ρ)
  | indexed ty t vs ih =>
    rw [value_substitute_indexed, blank, blank, value_substitute_indexed, ih]
  | indexExpr ty vs b ih =>
    rw [value_substitute_indexExpr, blank, blank, value_substitute_indexExpr, ih]
  | neg ty a ih => rw [value_substitute_neg, blank, blank, value_substitute_neg, ih]
  | binary ty op a b iha ihb =>
    rw [value_substitute_binary, blank, blank, value_substitute_binary, iha, ihb]

theorem blank_operandAt {vs : List IndexVar} {a : Expr}
    (h : a.ty.isScalar = false →
      (a.readAt vs a.ty.componentTy).blank = a.blank.readAt vs a.ty.componentTy) :
    (a.operandAt vs).blank = a.blank.operandAt vs := by
  unfold operandAt
  rw [ty_blank]
  split
  · rfl
  · next hs => exact h (by simpa using hs)

/-- Reading a tensor and making variables anonymous commute. -/
theorem blank_readAt (vs : List IndexVar) (t : Expr) (ty : Ty) :
    (t.readAt vs ty).blank = t.blank.readAt vs ty := by
  induction t generalizing ty with
  | var tty v => rfl
  | prim tty op es _ => rfl
  | indexed tty t us _ => rfl
  | indexExpr rty rs b _ =>
    by_cases hl : rs.length = vs.length
    · rw [readAt_indexExpr hl, blank_substitute, blank, readAt_indexExpr hl]
    · rw [readAt, if_neg hl, blank, blank, readAt, if_neg hl]
  | neg nty a ih =>
    by_cases hr : a.readable vs = true
    · rw [readAt_neg hr, blank, blank, readAt_neg ((readable_blank vs a).trans hr), readTy_blank,
        blank_operandAt fun _ => ih _]
    · rw [readAt, if_neg hr, blank, blank, readAt, if_neg (by rwa [readable_blank])]
  | binary bty op a b iha ihb =>
    by_cases hr : (a.readable vs && b.readable vs) = true
    · rw [readAt_binary hr, blank, blank, readAt_binary (by rwa [readable_blank, readable_blank]),
        readTy_blank, blank_operandAt fun _ => iha _, blank_operandAt fun _ => ihb _]
    · rw [readAt, if_neg hr, blank, blank, readAt, if_neg (by rwa [readable_blank, readable_blank])]

/-- The read of a temporary, up to the temporary. -/
theorem blank_index_temporary (value : Expr) (vs : List IndexVar) (st : Flattener) :
    ((Expr.ofVar (st.bindTemporary value).1).index vs).blank =
      .indexed value.ty.componentTy (.var value.ty ⟨0, "", value.ty⟩) vs := rfl

/-- What is left of a hoisted expression is the same from every state, up to the temporary. -/
theorem blank_hoist (a : Expr) (st st' : Flattener) :
    (st.hoist a).1.value.blank = (st'.hoist a.blank).1.value.blank := by
  -- the temporary has the type of what it holds, and is read through the same variables
  have hbuild : ∀ e : Expr, e.ty = a.ty → e.freeIndexVars = a.freeIndexVars →
      ((Expr.ofVar (st.bindTemporary (.build a.freeIndexVars a)).1).index a.freeIndexVars).blank =
        ((Expr.ofVar (st'.bindTemporary (.build e.freeIndexVars e)).1).index
          e.freeIndexVars).blank := by
    intro e hty hfree
    rw [blank_index_temporary, blank_index_temporary, hfree, ty_build, ty_build, hty]
  unfold Flattener.hoist
  rw [containsIndexed_blank, ty_blank]
  by_cases hc : a.containsIndexed = true
  · rw [if_pos hc, if_pos hc]
    cases a with
    | indexExpr ty vs b => rfl
    | _ => exact hbuild _ (ty_blank _) (freeIndexVars_blank _)
  · rw [if_neg hc, if_neg hc]
    split
    · exact (blank_blank a).symm
    · show Expr.var a.ty ⟨0, "", a.ty⟩ = Expr.var a.blank.ty ⟨0, "", a.blank.ty⟩
      rw [ty_blank]

/-! ### The form -/

/-- What is left of a settled operand of a sum, up to the temporary. A tensor that would be copied
is not accounted for: the copy is read through index variables that are new each time. -/
def settledForm (a : Expr) : Expr :=
  if a.isIndexed then a else (Flattener.hoist a (.ofFresh ⟨0, {}⟩)).1.value.blank

mutual

/-- What flattening makes of an expression, up to variables. -/
def form : Expr → Expr
  | .var ty _ => .var ty ⟨0, "", ty⟩
  | .prim ty op es => .prim ty op (formAll es)
  | .indexed ty t vs => t.form.readAt vs ty
  | .indexExpr ty vs b => .indexExpr ty vs b.form
  | .neg ty a => .neg ty a.form
  | .binary ty op a b =>
    if op.isSum then .binary ty op a.form.settledForm b.form.settledForm
    else .binary ty op a.form b.form

/-- What flattening makes of several expressions, up to variables. -/
def formAll : List Expr → List Expr
  | [] => []
  | e :: es => e.form :: formAll es

end

theorem formAll_eq (es : List Expr) : formAll es = es.map form := by
  induction es with
  | nil => rfl
  | cons e es ih => rw [formAll, ih, List.map_cons]

end Expr

/-! ### Flattened expressions have their form -/

namespace Expr

/-- A flattened operand of a sum is not copied. -/
def Uncopied (a : Expr) : Prop := a.isIndexed = true ∨ (a.ty.isWhole = true → a.isIndexExpr = true)

/-- No flattened operand of the node is copied, from whatever state it is flattened. -/
def CopiesNone : Expr → Prop
  | .binary _ op a b => op.isSum = true →
    (∀ st x st', FlattensTo a st x st' → x.Uncopied) ∧
      ∀ st y st', FlattensTo b st y st' → y.Uncopied
  | _ => True

end Expr

/-- The form of what is left of an operand that is not copied. -/
theorem Settles.blank {a x : Expr} {st st' : Flattener} (h : Settles a st x st')
    (hw : a.Uncopied) : x.blank = a.blank.settledForm := by
  unfold Expr.settledForm
  rw [Expr.isIndexed_blank]
  cases h with
  | read hi => rw [if_pos hi]
  | spilled hi hspill =>
    rw [if_neg (by simp [hi])]
    cases hspill with
    | copied hwhole hie => exact absurd (hw.resolve_left (by simp [hi]) hwhole) (by simp [hie])
    | hoisted _ => exact Expr.blank_hoist a st _

/-- Expressions are flattened to their form if no operand of a sum is copied. -/
theorem FlattensTo.blank_of_copiesNone {e x : Expr} {st st' : Flattener}
    (h : FlattensTo e st x st') (he : e.Everywhere Expr.CopiesNone) : x.blank = e.form := by
  induction h with
  | var => rfl
  | prim _ ih =>
    obtain ⟨_, hes⟩ := Expr.everywhere_prim.1 he
    have hblank := ih.forall₂ fun e hmem _ _ _ ⟨_, hx⟩ => (hx (hes e hmem)).symm
    rw [Expr.blank_prim, Expr.form, Expr.formAll_eq, map_eq_map_of_forall₂ hblank]
  | indexed _ ih => rw [Expr.blank_readAt, Expr.form, ih (Expr.everywhere_indexed.1 he).2]
  | indexExpr _ ih => rw [Expr.blank, Expr.form, ih (Expr.everywhere_indexExpr.1 he).2]
  | neg _ ih => rw [Expr.blank, Expr.form, ih (Expr.everywhere_neg.1 he).2]
  | product hop _ _ ihx ihy =>
    obtain ⟨_, ha, hb⟩ := Expr.everywhere_binary.1 he
    rw [Expr.blank, Expr.form, if_neg (by simp [hop]), ihx ha, ihy hb]
  | sum hop _ _ hx hxs hy hys ihx ihy =>
    obtain ⟨hnone, ha, hb⟩ := Expr.everywhere_binary.1 he
    obtain ⟨hux, huy⟩ := hnone hop
    rw [Expr.blank, Expr.form, if_pos hop, ← ihx ha, ← ihy hb, hxs.blank (hux _ _ _ hx),
      hys.blank (huy _ _ _ hy)]

end TensorIR
