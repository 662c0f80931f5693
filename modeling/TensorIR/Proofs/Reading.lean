import TensorIR.Proofs.Form
import TensorIR.Proofs.RenamedValues

/-! # The value of a read

Reading a settled tensor through index variables (`Expr.readAt`) gives the component of the tensor
at the places of the variables, provided that none of the variables is captured on the way
(`Expr.CaptureFreeAt`).

**Key idea**: a read follows the tensor down negations and operations, which act on components,
and stops at an index expression, where it renames index variables, or at a tensor that is read as
it is. So the only thing that can go wrong goes wrong at the index expressions it stops at.
-/

namespace TensorIR

namespace Expr

variable {vs : List IndexVar}

/-! ### Shapes -/

/-- The operands of an operation on components are scalar, or have the dimensions of the result. -/
theorem dims_of_shapeOk_binary {ty : Ty} {op : BinaryOp} {a b : Expr}
    (h : (binary ty op a b).ShapeOk) :
    (a.ty.isScalar = false → a.ty.dims = ty.dims) ∧
      (b.ty.isScalar = false → b.ty.dims = ty.dims) := by
  obtain ⟨ha, hb⟩ := broadcasts_of_shapeOk_binary h
  exact ⟨fun hs => (ha.resolve_left (by simp [hs])).2,
    fun hs => (hb.resolve_left (by simp [hs])).2⟩

/-- If the result has no dimensions, neither have the operands. -/
theorem dims_of_binary {ty : Ty} {op : BinaryOp} {a b : Expr}
    (h : (binary ty op a b).ShapeOk) (hdims : ty.dims = []) : a.ty.dims = [] ∧ b.ty.dims = [] := by
  have hnone : ∀ c : Expr, (c.ty.isScalar = false → c.ty.dims = ty.dims) → c.ty.dims = [] := by
    intro c hc
    cases hs : c.ty.isScalar with
    | true => exact Ty.dims_of_isScalar hs
    | false => exact (hc hs).trans hdims
  obtain ⟨ha, hb⟩ := dims_of_shapeOk_binary h
  exact ⟨hnone a ha, hnone b hb⟩

/-- A part of a distributed read of scalar type. -/
theorem wellShaped_operandAt {a : Expr} (ha : a.WellShaped)
    (ih : a.ty.isScalar = false → (a.readAt vs a.ty.componentTy).WellShaped ∧
      (a.readAt vs a.ty.componentTy).ty.isScalar = true) :
    (a.operandAt vs).WellShaped ∧ (a.operandAt vs).ty.isScalar = true :=
  operandAt_of (P := fun x => x.WellShaped ∧ x.ty.isScalar = true) (fun hs => ⟨ha, hs⟩) ih

/-- A read of a well-shaped tensor is well-shaped and scalar. -/
theorem WellShaped.readAt {t : Expr} {ty : Ty} (h : t.WellShaped)
    (hvs : vs.map IndexVar.domain = t.ty.dims) (hty : ty.isScalar = true) :
    (t.readAt vs ty).WellShaped ∧ (t.readAt vs ty).ty.isScalar = true := by
  revert h hvs hty
  refine readAt_induction (P := fun t ty x => t.WellShaped → vs.map IndexVar.domain = t.ty.dims →
    ty.isScalar = true → x.WellShaped ∧ x.ty.isScalar = true) ?_ ?_ ?_ ?_ t ty
  · intro ty rty rs b _ h hvs _
    obtain ⟨hb, hscalar, hsame, _⟩ := h.readBody hvs
    exact ⟨WellShaped.substitute hb (Renaming.keepsDomains_ofPairs hsame), by rwa [ty_substitute]⟩
  · intro ty nty a hr ih h hvs _
    obtain ⟨hdims, ha⟩ := everywhere_neg.1 h
    obtain ⟨hw, hs⟩ := wellShaped_operandAt ha fun hs =>
      ih hs ha (hvs.trans hdims) (Ty.isScalar_componentTy_of_isTensor (isTensor_of_readable hr hs))
    refine ⟨everywhere_neg.2 ⟨?_, hw⟩, isScalar_readTy hr⟩
    show a.readTy.dims = (a.operandAt vs).ty.dims
    rw [Ty.dims_of_isScalar (isScalar_readTy hr), Ty.dims_of_isScalar hs]
  · intro ty bty op a b hra hrb iha ihb h hvs _
    obtain ⟨hok, ha, hb⟩ := everywhere_binary.1 h
    obtain ⟨hda, hdb⟩ := dims_of_shapeOk_binary hok
    obtain ⟨hwa, hsa⟩ := wellShaped_operandAt ha fun hs => iha hs ha (hvs.trans (hda hs).symm)
      (Ty.isScalar_componentTy_of_isTensor (isTensor_of_readable hra hs))
    obtain ⟨hwb, hsb⟩ := wellShaped_operandAt hb fun hs => ihb hs hb (hvs.trans (hdb hs).symm)
      (Ty.isScalar_componentTy_of_isTensor (isTensor_of_readable hrb hs))
    refine ⟨everywhere_binary.2 ⟨?_, hwa, hwb⟩, isScalar_readTy hra⟩
    by_cases hop : op.isSum = true
    · exact (shapeOk_sum hop).2 ⟨hsa, hsb⟩
    · exact (shapeOk_product hop).2 ⟨.inl hsa, .inl hsb⟩
  · intro ty t h hvs hty
    exact ⟨everywhere_indexed.2 ⟨⟨hty, hvs⟩, h⟩, hty⟩

/-! ### Reads that capture nothing -/

/-- Reading a settled tensor through `vs` captures none of them. -/
def CaptureFreeAt (vs : List IndexVar) : Expr → Prop
  | .indexExpr _ rs b => b.CaptureFree (.ofPairs (rs.zip vs))
  | .neg _ a => a.ty.isScalar = false → a.CaptureFreeAt vs
  | .binary _ _ a b =>
    (a.ty.isScalar = false → a.CaptureFreeAt vs) ∧ (b.ty.isScalar = false → b.CaptureFreeAt vs)
  | _ => True

instance CaptureFreeAt.decidable (vs : List IndexVar) : (t : Expr) → Decidable (t.CaptureFreeAt vs)
  | .indexExpr _ rs b => inferInstanceAs (Decidable (b.CaptureFree (.ofPairs (rs.zip vs))))
  | .neg _ a =>
    have := CaptureFreeAt.decidable vs a
    inferInstanceAs (Decidable (a.ty.isScalar = false → _))
  | .binary _ _ a b =>
    have := CaptureFreeAt.decidable vs a
    have := CaptureFreeAt.decidable vs b
    inferInstanceAs (Decidable ((a.ty.isScalar = false → _) ∧ (b.ty.isScalar = false → _)))
  | .var _ _ | .prim _ _ _ | .indexed _ _ _ => inferInstanceAs (Decidable True)

/-- What is captured does not depend on variables. -/
theorem captureFree_blank {e : Expr} {ρ : Renaming} : e.blank.CaptureFree ρ ↔ e.CaptureFree ρ := by
  induction e generalizing ρ with
  | var ty v => rfl
  | prim ty op es ih =>
    rw [blank_prim, CaptureFree, CaptureFree, captureFreeAll_iff, captureFreeAll_iff,
      List.forall_mem_map]
    exact forall₂_congr fun e he => ih e he
  | indexed ty t vs ih => exact ih
  | indexExpr ty vs b ih => rw [blank, CaptureFree, CaptureFree, loose_blank, ih]
  | neg ty a ih => exact ih
  | binary ty op a b iha ihb => rw [blank, CaptureFree, CaptureFree, iha, ihb]

theorem captureFreeAt_blank {t : Expr} : t.blank.CaptureFreeAt vs ↔ t.CaptureFreeAt vs := by
  induction t with
  | var ty v => rfl
  | prim ty op es _ =>
    rw [blank_prim]
    rfl
  | indexed ty t us _ => rfl
  | indexExpr ty rs b _ => exact captureFree_blank
  | neg ty a ih => rw [blank, CaptureFreeAt, CaptureFreeAt, ty_blank, ih]
  | binary ty op a b iha ihb =>
    rw [blank, CaptureFreeAt, CaptureFreeAt, ty_blank, ty_blank, iha, ihb]

theorem Over.captureFreeAt {p : Var → Prop} {q : IndexVar → Prop} {t : Expr} (h : t.Over p q)
    (hvs : ∀ v ∈ vs, ¬ q v) : t.CaptureFreeAt vs := by
  induction t with
  | indexExpr ty rs b _ =>
    refine (over_indexExpr.1 h).2.captureFree fun v w hw => hvs w ?_
    exact (List.of_mem_zip (Renaming.mem_of_ofPairs hw)).2
  | neg ty a ih => exact fun _ => ih (over_neg.1 h)
  | binary ty op a b iha ihb =>
    obtain ⟨ha, hb⟩ := over_binary.1 h
    exact ⟨fun _ => iha ha, fun _ => ihb hb⟩
  | _ => trivial

end Expr

/-! ### Places in range -/

namespace Interp

variable {β : Type} (I : Interp β)

/-- The index variables stand within their dimensions. -/
def InRange (ρ : IndexEnv) (vs : List IndexVar) : Prop := ∀ v ∈ vs, ρ v < I.size v.domain

variable {I} {ρ : IndexEnv} {Γ vs : List IndexVar}

theorem inBox_of_inRange (h : I.InRange ρ vs) :
    inBox I.size (vs.map IndexVar.domain) (vs.map ρ) = true := by
  induction vs with
  | nil => rfl
  | cons v vs ih =>
    rw [List.map_cons, List.map_cons, inBox, Bool.and_eq_true_iff, decide_eq_true_iff]
    exact ⟨h v (by simp), ih fun w hw => h w (by simp [hw])⟩

/-- Each index of a tuple within the dimensions of index variables is one of its variable. -/
theorem lt_of_mem_zip {is : List Nat} (hbox : inBox I.size (vs.map IndexVar.domain) is = true)
    {p : IndexVar × Nat} (hp : p ∈ vs.zip is) : p.2 < I.size p.1.domain := by
  induction vs generalizing is with
  | nil => cases hp
  | cons v vs ih =>
    cases is with
    | nil => cases hp
    | cons i is =>
      rw [List.map_cons, inBox, Bool.and_eq_true_iff, decide_eq_true_iff] at hbox
      rcases List.mem_cons.1 hp with rfl | hp
      · exact hbox.1
      · exact ih hbox.2 hp

/-- Result variables that are bound within the dimensions of a tensor are in range. -/
theorem InRange.bind {is : List Nat} (h : I.InRange ρ Γ)
    (hbox : inBox I.size (vs.map IndexVar.domain) is = true) :
    I.InRange (ρ.bind vs is) (Γ ++ vs) := by
  intro v hv
  unfold IndexEnv.bind
  cases hfind : (vs.zip is).reverse.find? fun p => p.1 == v with
  | some p =>
    have hpv : p.1 = v := by simpa using List.find?_some hfind
    rw [← hpv]
    exact lt_of_mem_zip hbox (List.mem_reverse.1 (List.mem_of_find?_eq_some hfind))
  | none =>
    -- a variable that is bound is found
    refine h v ((List.mem_append.1 hv).resolve_right fun hvs => ?_)
    have hlen : is.length = vs.length := by simpa using length_of_inBox hbox
    rw [← List.map_fst_zip (Nat.le_of_eq hlen.symm)] at hvs
    obtain ⟨p, hp, rfl⟩ := List.mem_map.1 hvs
    exact absurd (beq_self_eq_true p.1) (List.find?_eq_none.1 hfind p (List.mem_reverse.2 hp))

/-! ### The value of a read -/

variable {σ : Store β}

/-- An operation of scalar type on two numbers. -/
theorem eval_binary_scalar {ty : Ty} {op : BinaryOp} {x y : Expr} (h : ty.isScalar = true) :
    I.eval σ (.binary ty op x y) ρ =
      .scalar (op.apply ((I.eval σ x ρ).comp []) ((I.eval σ y ρ).comp [])) := by
  rw [eval, Ty.dims_of_isScalar h, Value.box_nil]
  unfold Value.compAt
  rw [ite_self, ite_self]

theorem eval_neg_scalar {ty : Ty} {x : Expr} (h : ty.isScalar = true) :
    I.eval σ (.neg ty x) ρ = .scalar (-(I.eval σ x ρ).comp []) := by
  rw [eval, Ty.dims_of_isScalar h, Value.box_nil]

/-- What an operand contributes to a distributed read. -/
theorem comp_operandAt {a : Expr} (ih : a.ty.isScalar = false →
      I.eval σ (a.readAt vs a.ty.componentTy) ρ = .scalar ((I.eval σ a ρ).comp (vs.map ρ))) :
    (I.eval σ (a.operandAt vs) ρ).comp [] = (I.eval σ a ρ).compAt a.ty (vs.map ρ) := by
  unfold Expr.operandAt Value.compAt
  cases hs : a.ty.isScalar with
  | true => rfl
  | false =>
    rw [if_neg (by simp), if_neg (by simp), ih hs]
    rfl

/-- Reading a settled tensor gives its component at the places of the variables. -/
theorem eval_readAt {t : Expr} {ty : Ty} (h : t.WellShaped) (hu : t.Unreduced)
    (hc : t.CaptureFreeAt vs) (hdims : vs.map IndexVar.domain = t.ty.dims)
    (hfree : ∀ v ∈ vs, v.isFree = true) (hρ : I.InRange ρ vs) :
    I.eval σ (t.readAt vs ty) ρ = .scalar ((I.eval σ t ρ).comp (vs.map ρ)) := by
  have hbox := inBox_of_inRange hρ
  revert h hu hc hdims
  refine Expr.readAt_induction (P := fun t _ x => t.WellShaped → t.Unreduced →
    t.CaptureFreeAt vs → vs.map IndexVar.domain = t.ty.dims →
      I.eval σ x ρ = .scalar ((I.eval σ t ρ).comp (vs.map ρ))) ?_ ?_ ?_ ?_ t ty
  · intro ty rty rs b hl h hu hc hdims
    obtain ⟨⟨hscalar, _, hrs⟩, hb⟩ := Expr.everywhere_indexExpr.1 h
    have hub := (Expr.over_indexExpr.1 hu).2
    have hν : ∀ v w, Renaming.ofPairs (rs.zip vs) v = some w → w.isFree = true :=
      fun v w hw => hfree w (List.of_mem_zip (Renaming.mem_of_ofPairs hw)).2
    have hbox' : inBox I.size rty.dims (vs.map ρ) = true := hdims ▸ hbox
    rw [eval, ← hrs, Value.comp_box hbox', Expr.Unreduced.reductionVars hub]
    -- renaming the body amounts to looking up its result variables where they are bound
    have hbody : I.eval σ (b.substitute (.ofPairs (rs.zip vs))).value ρ =
        I.eval σ b (ρ.bind rs (vs.map ρ)) :=
      eval_substitute I hc hub hν fun v _ => IndexEnv.bind_ofPairs
    rw [hbody]
    exact eval_scalar I hb hscalar σ _
  · intro ty nty a hr ih h hu hc hdims
    obtain ⟨hshape, ha⟩ := Expr.everywhere_neg.1 h
    have hua := Expr.over_neg.1 hu
    have hbox' : inBox I.size nty.dims (vs.map ρ) = true := hdims ▸ hbox
    rw [eval_neg_scalar (Expr.isScalar_readTy hr), eval, Value.comp_box hbox',
      comp_operandAt fun hs => ih hs ha hua (hc hs) (hdims.trans hshape)]
    unfold Value.compAt
    split
    · next hs =>
      -- the negation of a scalar is read through no variables
      have hnil : vs = [] := List.map_eq_nil_iff.1
        ((hdims.trans hshape).trans (Ty.dims_of_isScalar hs))
      rw [hnil]
      rfl
    · rfl
  · intro ty bty op a b hra hrb iha ihb h hu hc hdims
    obtain ⟨hok, ha, hb⟩ := Expr.everywhere_binary.1 h
    obtain ⟨hda, hdb⟩ := Expr.dims_of_shapeOk_binary hok
    obtain ⟨hua, hub⟩ := Expr.over_binary.1 hu
    have hbox' : inBox I.size bty.dims (vs.map ρ) = true := hdims ▸ hbox
    rw [eval_binary_scalar (Expr.isScalar_readTy hra), eval, Value.comp_box hbox',
      comp_operandAt fun hs => iha hs ha hua (hc.1 hs) (hdims.trans (hda hs).symm),
      comp_operandAt fun hs => ihb hs hb hub (hc.2 hs) (hdims.trans (hdb hs).symm)]
  · intro ty t _ _ _ _
    rw [eval]

end Interp

end TensorIR
