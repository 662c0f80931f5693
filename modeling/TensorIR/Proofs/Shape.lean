import TensorIR.Flattening.Step
import TensorIR.Proofs.LooseVars

/-! # Shapes

A program is *well-shaped* when the types of its nodes fit together as far as flattening relies
on it: index variables range over the dimensions that they read or build, and the operands of
arithmetic are scalar or have the dimensions of the result.

**Key idea**: being well-shaped asks of each node something about its own type and the types of
its parts, and about the dimensions of a part rather than its whole type. So a part may be put in
the place of another as soon as it *fits*: it has the same type, or both are scalar
(`Ty.Fits`). Everything flattening does to a node puts fitting parts in.
-/

namespace TensorIR

/-! ### Types that fit -/

namespace Ty

theorem dims_of_isScalar {ty : Ty} (h : ty.isScalar = true) : ty.dims = [] := by
  cases ty with
  | tensor t => simpa [isScalar, dims] using h
  | _ => rfl

/-- A type that can stand where `old` stood: the same one, or another scalar type for a scalar
type. -/
def Fits (old new : Ty) : Prop := new = old ∨ (old.isScalar = true ∧ new.isScalar = true)

namespace Fits

variable {a b : Ty}

theorem refl (a : Ty) : Fits a a := .inl rfl

theorem isScalar_eq (h : Fits a b) : b.isScalar = a.isScalar := by
  rcases h with rfl | ⟨ha, hb⟩
  · rfl
  · rw [ha, hb]

theorem dims_eq (h : Fits a b) : b.dims = a.dims := by
  rcases h with rfl | ⟨ha, hb⟩
  · rfl
  · rw [dims_of_isScalar ha, dims_of_isScalar hb]

/-- Scalar types may be exchanged for one another. -/
theorem of_isScalar (ha : a.isScalar = true) (hb : b.isScalar = true) : Fits a b := .inr ⟨ha, hb⟩

end Fits

/-- The type of an operand of an operation applied to every component: scalar, or a tensor with
the dimensions of the result. -/
def Broadcasts (ty operand : Ty) : Prop :=
  operand.isScalar = true ∨ (operand.isTensor = true ∧ operand.dims = ty.dims)

instance (ty operand : Ty) : Decidable (ty.Broadcasts operand) :=
  inferInstanceAs (Decidable (_ ∨ _))

theorem Broadcasts.fits {ty a b : Ty} (h : Broadcasts ty a) (hab : Fits a b) :
    Broadcasts ty b := by
  rcases hab with rfl | ⟨_, hb⟩
  · exact h
  · exact .inl hb

end Ty

/-! ### Well-shaped expressions and statements -/

namespace Expr

/-- What is asked of a single node. -/
def ShapeOk : Expr → Prop
  | .var _ _ | .prim _ _ _ => True
  | .indexed ty t vs => ty.isScalar = true ∧ vs.map IndexVar.domain = t.ty.dims
  | .indexExpr ty vs b =>
    b.ty.isScalar = true ∧ ty.isTensor = true ∧ ty.dims = vs.map IndexVar.domain
  | .neg ty a => ty.dims = a.ty.dims
  | .binary ty op a b =>
    if op.isSum then a.ty.isScalar = true ∧ b.ty.isScalar = true
    else ty.Broadcasts a.ty ∧ ty.Broadcasts b.ty

instance : DecidablePred ShapeOk
  | .var _ _ | .prim _ _ _ => inferInstanceAs (Decidable True)
  | .indexed _ _ _ => inferInstanceAs (Decidable (_ ∧ _))
  | .indexExpr _ _ _ => inferInstanceAs (Decidable (_ ∧ _ ∧ _))
  | .neg _ _ => inferInstanceAs (Decidable (_ = _))
  | .binary _ op a b =>
    inferInstanceAs (Decidable (if op.isSum then a.ty.isScalar = true ∧ b.ty.isScalar = true else _))

/-- Every node has the shape it should. -/
def WellShaped (e : Expr) : Prop := e.Everywhere ShapeOk

instance (e : Expr) : Decidable e.WellShaped := inferInstanceAs (Decidable (e.Everywhere _))

end Expr

/-- Every expression is well-shaped. -/
def Stmt.WellShaped (s : Stmt) : Prop := s.ForExprs Expr.WellShaped

instance (s : Stmt) : Decidable s.WellShaped := inferInstanceAs (Decidable (s.ForExprs _))

namespace Expr

theorem shapeOk_sum {ty : Ty} {op : BinaryOp} {a b : Expr} (hop : op.isSum = true) :
    (binary ty op a b).ShapeOk ↔ a.ty.isScalar = true ∧ b.ty.isScalar = true := by
  simp only [ShapeOk, if_pos hop]

theorem shapeOk_product {ty : Ty} {op : BinaryOp} {a b : Expr} (hop : ¬ op.isSum = true) :
    (binary ty op a b).ShapeOk ↔ ty.Broadcasts a.ty ∧ ty.Broadcasts b.ty := by
  simp only [ShapeOk, if_neg hop]

/-- Either operand of a binary operation is one of an operation applied to every component. -/
theorem broadcasts_of_shapeOk_binary {ty : Ty} {op : BinaryOp} {a b : Expr}
    (h : (binary ty op a b).ShapeOk) : ty.Broadcasts a.ty ∧ ty.Broadcasts b.ty := by
  by_cases hop : op.isSum = true
  · obtain ⟨ha, hb⟩ := (shapeOk_sum hop).1 h
    exact ⟨.inl ha, .inl hb⟩
  · exact (shapeOk_product hop).1 h

/-- A node over fitting parts is as well-shaped as before. -/
theorem shapeOk_withChildren {e : Expr} {es : List Expr} (h : e.ShapeOk)
    (hes : List.Forall₂ (fun a b => Ty.Fits a.ty b.ty) e.children es) :
    (e.withChildren es).ShapeOk := by
  cases e with
  | var ty v => cases hes; trivial
  | prim ty op as => trivial
  | indexed ty t vs =>
    obtain ⟨t', _, hfit, hnil, rfl⟩ := List.forall₂_cons_left_iff.1 hes
    cases hnil
    exact ⟨h.1, h.2.trans hfit.dims_eq.symm⟩
  | indexExpr ty vs b =>
    obtain ⟨b', _, hfit, hnil, rfl⟩ := List.forall₂_cons_left_iff.1 hes
    cases hnil
    exact ⟨hfit.isScalar_eq.trans h.1, h.2⟩
  | neg ty a =>
    obtain ⟨a', _, hfit, hnil, rfl⟩ := List.forall₂_cons_left_iff.1 hes
    cases hnil
    exact Eq.trans h hfit.dims_eq.symm
  | binary ty op a b =>
    obtain ⟨a', _, hfita, hes', rfl⟩ := List.forall₂_cons_left_iff.1 hes
    obtain ⟨b', _, hfitb, hnil, rfl⟩ := List.forall₂_cons_left_iff.1 hes'
    cases hnil
    by_cases hop : op.isSum = true
    · rw [shapeOk_sum hop] at h
      exact (shapeOk_sum hop).2 ⟨hfita.isScalar_eq.trans h.1, hfitb.isScalar_eq.trans h.2⟩
    · rw [shapeOk_product hop] at h
      exact (shapeOk_product hop).2 ⟨h.1.fits hfita, h.2.fits hfitb⟩

/-- A well-shaped node over well-shaped parts that fit is well-shaped. -/
theorem wellShaped_withChildren {e : Expr} {es : List Expr} (h : e.ShapeOk)
    (hfit : List.Forall₂ (fun a b => Ty.Fits a.ty b.ty) e.children es)
    (hes : ∀ b ∈ es, b.WellShaped) : (e.withChildren es).WellShaped := by
  refine everywhere_iff.2 ⟨shapeOk_withChildren h hfit, ?_⟩
  rw [children_withChildren hfit.length_eq.symm]
  exact hes

end Expr

/-! ### Renaming index variables -/

namespace Renaming

/-- New names range over the same dimensions as the old ones. -/
def KeepsDomains (ρ : Renaming) : Prop := ∀ v w, ρ v = some w → w.domain = v.domain

theorem KeepsDomains.apply {ρ : Renaming} (h : ρ.KeepsDomains) (v : IndexVar) :
    (ρ.apply v).domain = v.domain := by
  unfold Renaming.apply
  cases hv : ρ v with
  | none => rfl
  | some w => exact h v w hv

/-- Pairs of result variables and the variables of a read keep domains if the read fits. -/
theorem keepsDomains_ofPairs {rs vs : List IndexVar}
    (h : rs.map IndexVar.domain = vs.map IndexVar.domain) :
    (ofPairs (rs.zip vs)).KeepsDomains := by
  intro v w hvw
  have hmem := mem_of_ofPairs hvw
  have hsame : List.Forall₂ (fun r v => r.domain = v.domain) rs vs := by
    have := (List.forall₂_eq_eq_eq (α := Dim)).symm ▸ h
    rwa [List.forall₂_map_left_iff, List.forall₂_map_right_iff] at this
  exact (List.forall₂_zip hsame hmem).symm

end Renaming

namespace Expr

/-- Renaming index variables within their domains changes no shape. -/
theorem WellShaped.substitute {e : Expr} {ρ : Renaming} (h : e.WellShaped)
    (hρ : ρ.KeepsDomains) : (e.substitute ρ).value.WellShaped := by
  refine Everywhere.substitute h hρ fun n ρ hρ hn => ?_
  cases n with
  | var ty v => exact hn
  | prim ty op es => rw [value_substitute_prim]; trivial
  | indexed ty t vs =>
    obtain ⟨hty, hdims⟩ := hn
    rw [value_substitute_indexed]
    refine ⟨hty, ?_⟩
    rw [ty_substitute, List.map_map, ← hdims]
    exact List.map_congr_left fun v _ => Renaming.KeepsDomains.apply hρ v
  | indexExpr ty vs b =>
    rw [value_substitute_indexExpr]
    simpa only [ShapeOk, ty_substitute] using hn
  | neg ty a =>
    rw [value_substitute_neg]
    simpa only [ShapeOk, ty_substitute] using hn
  | binary ty op a b =>
    rw [value_substitute_binary]
    simpa only [ShapeOk, ty_substitute] using hn

/-! ### The nodes that flattening makes -/

/-- A read of a tensor through variables that range over its dimensions. -/
theorem WellShaped.index {t : Expr} {vs : List IndexVar} (h : t.WellShaped)
    (hty : t.ty.componentTy.isScalar = true) (hvs : vs.map IndexVar.domain = t.ty.dims) :
    (t.index vs).WellShaped :=
  everywhere_indexed.2 ⟨⟨hty, hvs⟩, h⟩

/-- An index expression over a scalar body. -/
theorem WellShaped.build {b : Expr} (h : b.WellShaped) (hb : b.ty.isScalar = true)
    (vs : List IndexVar) : (Expr.build vs b).WellShaped :=
  everywhere_indexExpr.2 ⟨⟨hb, rfl, rfl⟩, h⟩

theorem WellShaped.ofVar (v : Var) : (Expr.ofVar v).WellShaped := everywhere_var.2 trivial

/-- An index expression is read with one variable for each of its result variables, over the same
dimension, and its body is scalar. -/
theorem WellShaped.readBody {rty : Ty} {rs vs : List IndexVar} {b : Expr}
    (h : (indexExpr rty rs b).WellShaped) (hvs : vs.map IndexVar.domain = rty.dims) :
    b.WellShaped ∧ b.ty.isScalar = true ∧ rs.map IndexVar.domain = vs.map IndexVar.domain ∧
      rs.length = vs.length := by
  obtain ⟨⟨hs, _, hrs⟩, hb⟩ := everywhere_indexExpr.1 h
  have hsame : rs.map IndexVar.domain = vs.map IndexVar.domain := hrs.symm.trans hvs.symm
  exact ⟨hb, hs, hsame, by simpa using congrArg List.length hsame⟩

/-- An operand that takes part in a read with one variable for each dimension of the result. -/
private theorem wellShaped_operand {ty : Ty} {a a' : Expr} {vs : List IndexVar}
    (ha : a.WellShaped) (hty : ty.Broadcasts a.ty) (hvs : vs.map IndexVar.domain = ty.dims)
    (h : (if a.ty.isScalar then some a
      else if a.ty.isTensor && a.ty.order == vs.length then some (a.index vs)
      else none) = some a') : a'.WellShaped ∧ a'.ty.isScalar = true := by
  split at h
  · next hs =>
    cases h
    exact ⟨ha, hs⟩
  · next hs =>
    split at h
    · cases h
      obtain hscalar | ⟨htensor, hdims⟩ := hty
      · exact absurd hscalar hs
      · have hc := Ty.isScalar_componentTy_of_isTensor htensor
        exact ⟨ha.index hc (hvs.trans hdims.symm), hc⟩
    · cases h

/-- A distributed read is well-shaped and scalar. -/
theorem WellShaped.distributeIndex? {t d : Expr} {vs : List IndexVar} (h : t.WellShaped)
    (hvs : vs.map IndexVar.domain = t.ty.dims) (hd : t.distributeIndex? vs = some d) :
    d.WellShaped ∧ d.ty.isScalar = true := by
  cases t with
  | neg ty a =>
    obtain ⟨a', ha', rfl⟩ := Option.map_eq_some_iff.1 hd
    obtain ⟨hty, ha⟩ := everywhere_neg.1 h
    -- an operand that is neither scalar nor a tensor cannot be distributed over
    have hbroad : ty.Broadcasts a.ty := by
      cases hs : a.ty.isScalar with
      | true => exact .inl hs
      | false =>
        cases htensor : a.ty.isTensor with
        | true => exact .inr ⟨htensor, hty.symm⟩
        | false => simp [hs, htensor] at ha'
    obtain ⟨hw, hs⟩ := wellShaped_operand ha hbroad hvs ha'
    exact ⟨everywhere_neg.2 ⟨rfl, hw⟩, hs⟩
  | binary ty op a b =>
    obtain ⟨a', ha', hd⟩ := Option.bind_eq_some_iff.1 hd
    obtain ⟨b', hb', rfl⟩ := Option.map_eq_some_iff.1 hd
    obtain ⟨hty, ha, hb⟩ := everywhere_binary.1 h
    obtain ⟨hba, hbb⟩ := broadcasts_of_shapeOk_binary hty
    obtain ⟨hwa, hsa⟩ := wellShaped_operand ha hba hvs ha'
    obtain ⟨hwb, hsb⟩ := wellShaped_operand hb hbb hvs hb'
    refine ⟨everywhere_binary.2 ⟨?_, hwa, hwb⟩, hsa⟩
    by_cases hop : op.isSum = true
    · exact (shapeOk_sum hop).2 ⟨hsa, hsb⟩
    · exact (shapeOk_product hop).2 ⟨.inl hsa, .inl hsb⟩
  | _ => cases hd

end Expr

end TensorIR
