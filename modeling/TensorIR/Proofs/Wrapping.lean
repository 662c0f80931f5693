import TensorIR.Proofs.Nesting

/-! # Flattening a flat statement

A flat statement need not stay flat: an operand of a sum that is moved into an assignment to a
temporary is put in an index expression there, and may have one in it already. This module says
when that happens (`Stmt.flatten_flat_iff`), for statements that compute tensors component by
component: indexed reads, bodies of index expressions and operands of sums are scalar.

**Key idea**: in a flat expression no read is of an index expression, so flattening turns nothing
into one, and makes none inside another. Whatever stays of the expression is flat
(`FlattensTo.keeps`). Only what is moved can fail to be: an operand that has an index expression in
it without being one. Which operands do is a question about the form of the operand alone.
-/

namespace TensorIR

namespace Expr

/-! ### Flat expressions, component by component -/

/-- An indexed read is scalar, an index expression has a scalar body and one dimension for each
result variable, and a sum has scalar operands. -/
def ComponentNode : Expr → Prop
  | .indexed ty _ _ => ty.isScalar = true
  | .indexExpr ty vs b => b.ty.isScalar = true ∧ ty.dims = vs.map IndexVar.domain
  | .binary _ op a b => op.isSum = true → a.ty.isScalar = true ∧ b.ty.isScalar = true
  | _ => True

instance : DecidablePred ComponentNode
  | .var _ _ | .prim _ _ _ | .neg _ _ => inferInstanceAs (Decidable True)
  | .indexed _ _ _ => inferInstanceAs (Decidable (_ = _))
  | .indexExpr _ _ _ => inferInstanceAs (Decidable (_ ∧ _))
  | .binary _ _ _ _ => inferInstanceAs (Decidable (_ → _ ∧ _))

/-- Tensors are computed component by component. -/
def Componentwise (e : Expr) : Prop := e.Everywhere ComponentNode

instance (e : Expr) : Decidable e.Componentwise := inferInstanceAs (Decidable (e.Everywhere _))

/-- Flat and component by component. -/
def Tidy (e : Expr) : Prop := e.Everywhere fun n => n.FlatNode ∧ n.ComponentNode

theorem tidy_iff {e : Expr} : e.Tidy ↔ e.Flat ∧ e.Componentwise := by
  unfold Tidy Flat Componentwise Everywhere
  simp only [forall_and]

theorem Tidy.child {e c : Expr} (h : e.Tidy) (hc : c ∈ e.children) : c.Tidy :=
  Everywhere.child h hc

section

variable {a t : Expr} {vs : List IndexVar}

/-- Renaming index variables keeps expressions tidy. -/
theorem Tidy.substitute {e : Expr} (h : e.Tidy) (ρ : Renaming) :
    (e.substitute ρ).value.Tidy := by
  refine Everywhere.substitute (R := fun _ _ => True) h (fun _ _ _ => trivial) fun n ρ _ hn => ?_
  obtain ⟨hflat, hscalar⟩ := hn
  cases n with
  | var ty v => exact ⟨trivial, trivial⟩
  | prim ty op es => rw [value_substitute_prim]; exact ⟨trivial, trivial⟩
  | indexed ty t vs =>
    rw [value_substitute_indexed]
    refine ⟨⟨(isIndexExpr_substitute ρ t).trans hflat.1, ?_⟩, hscalar⟩
    rw [List.length_map, ty_substitute]
    exact hflat.2
  | indexExpr ty vs b =>
    rw [value_substitute_indexExpr]
    refine ⟨IndexExprFree.substitute hflat _, ?_⟩
    simpa only [ComponentNode, ty_substitute] using hscalar
  | neg ty a => rw [value_substitute_neg]; exact ⟨trivial, trivial⟩
  | binary ty op a b =>
    rw [value_substitute_binary]
    simpa only [FlatNode, ComponentNode, ty_substitute, true_and] using hscalar

/-- The read of a variable through one index variable for each dimension. -/
theorem tidy_index_ofVar {v : Var} (hvs : vs.length = v.ty.order)
    (hs : v.ty.componentTy.isScalar = true) : ((ofVar v).index vs).Tidy :=
  everywhere_indexed.2 ⟨⟨⟨rfl, hvs⟩, hs⟩, everywhere_var.2 ⟨trivial, trivial⟩⟩

/-- A tensor that takes part in a read has one dimension for each variable of the read. -/
theorem order_of_readable (h : a.readable vs = true) (hs : a.ty.isScalar = false) :
    vs.length = a.ty.order := by
  unfold readable at h
  rw [hs, Bool.false_or, Bool.and_eq_true_iff] at h
  exact (beq_iff_eq.1 h.2).symm

/-- What an operand contributes to a read is tidy and scalar. -/
theorem Tidy.operandAt (h : a.Tidy) (hr : a.readable vs = true)
    (hread : vs.length = a.ty.order → a.ty.componentTy.isScalar = true →
      (a.readAt vs a.ty.componentTy).Tidy ∧
        (a.readAt vs a.ty.componentTy).ty.isScalar = true) :
    (a.operandAt vs).Tidy ∧ (a.operandAt vs).ty.isScalar = true :=
  operandAt_of (P := fun x => x.Tidy ∧ x.ty.isScalar = true) (fun hs => ⟨h, hs⟩) fun hs =>
    hread (order_of_readable hr hs)
      (Ty.isScalar_componentTy_of_isTensor (isTensor_of_readable hr hs))

/-- A scalar read of a tidy tensor is tidy. -/
theorem Tidy.readAt {ty : Ty} (h : t.Tidy) (hvs : vs.length = t.ty.order)
    (hty : ty.isScalar = true) : (t.readAt vs ty).Tidy ∧ (t.readAt vs ty).ty.isScalar = true := by
  induction t generalizing ty with
  | indexExpr rty rs b _ =>
    -- there are as many result variables as dimensions, so the body is taken
    obtain ⟨⟨_, hb, hdims⟩, htidy⟩ := everywhere_indexExpr.1 h
    have hlen : rs.length = vs.length := by
      rw [hvs, Ty.order, Expr.ty, hdims, List.length_map]
    rw [readAt_indexExpr hlen, ty_substitute]
    exact ⟨Tidy.substitute htidy _, hb⟩
  | neg nty a ih =>
    have ha : a.Tidy := h.child (by simp [children])
    by_cases hr : a.readable vs = true
    · rw [readAt_neg hr]
      obtain ⟨htidy, _⟩ := ha.operandAt hr (ih ha)
      exact ⟨everywhere_neg.2 ⟨⟨trivial, trivial⟩, htidy⟩, isScalar_readTy hr⟩
    · rw [Expr.readAt, if_neg hr]
      exact ⟨everywhere_indexed.2 ⟨⟨⟨rfl, hvs⟩, hty⟩, h⟩, hty⟩
  | binary bty op a b iha ihb =>
    have ha : a.Tidy := h.child (by simp [children])
    have hb : b.Tidy := h.child (by simp [children])
    by_cases hr : (a.readable vs && b.readable vs) = true
    · rw [readAt_binary hr]
      obtain ⟨hra, hrb⟩ := Bool.and_eq_true_iff.1 hr
      obtain ⟨hat, hsa⟩ := ha.operandAt hra (iha ha)
      obtain ⟨hbt, hsb⟩ := hb.operandAt hrb (ihb hb)
      exact ⟨everywhere_binary.2 ⟨⟨trivial, fun _ => ⟨hsa, hsb⟩⟩, hat, hbt⟩, isScalar_readTy hra⟩
    · rw [Expr.readAt, if_neg hr]
      exact ⟨everywhere_indexed.2 ⟨⟨⟨rfl, hvs⟩, hty⟩, h⟩, hty⟩
  | _ => exact ⟨everywhere_indexed.2 ⟨⟨⟨rfl, hvs⟩, hty⟩, h⟩, hty⟩

/-- Reading a tensor without index expressions makes none. -/
theorem IndexExprFree.readAt (h : t.IndexExprFree) (ty : Ty) : (t.readAt vs ty).IndexExprFree := by
  revert h
  refine readAt_induction (P := fun t _ x => t.IndexExprFree → x.IndexExprFree) ?_ ?_ ?_ ?_ t ty
  · exact fun _ _ _ _ _ h => absurd h not_indexExprFree_indexExpr
  · intro ty nty a _ ih h
    have ha := indexExprFree_neg.1 h
    exact indexExprFree_neg.2 (operandAt_of (fun _ => ha) fun hs => ih hs ha)
  · intro ty bty op a b _ _ iha ihb h
    obtain ⟨ha, hb⟩ := indexExprFree_binary.1 h
    exact indexExprFree_binary.2 ⟨operandAt_of (fun _ => ha) fun hs => iha hs ha,
      operandAt_of (fun _ => hb) fun hs => ihb hs hb⟩
  · exact fun _ _ h => indexExprFree_indexed.2 h

/-- A read is an index expression only if it is of one. -/
theorem isIndexExpr_readAt (h : t.isIndexExpr = false) (ty : Ty) :
    (t.readAt vs ty).isIndexExpr = false := by
  cases t with
  | indexExpr => cases h
  | neg nty a => unfold Expr.readAt; split <;> rfl
  | binary bty op a b => unfold Expr.readAt; split <;> rfl
  | _ => rfl

end

/-! ### What may be hoisted -/

/-- Hoisting the operand of a sum leaves something flat: it stays where it is, is bound as it is,
or has no index expression in it that would come to lie in another one. -/
def Hoistable (a : Expr) : Prop := a.isIndexed = true ∨ a.isIndexExpr = true ∨ a.IndexExprFree

instance : DecidablePred IndexExprFree := fun e => inferInstanceAs (Decidable (e.Everywhere _))

instance : DecidablePred Hoistable := fun _ => inferInstanceAs (Decidable (_ ∨ _ ∨ _))

/-- The operands of a sum are flattened to what may be hoisted. -/
def HoistsFlat : Expr → Prop
  | .binary _ op a b => op.isSum = true → a.form.Hoistable ∧ b.form.Hoistable
  | _ => True

instance : DecidablePred HoistsFlat
  | .binary _ _ _ _ => inferInstanceAs (Decidable (_ → _ ∧ _))
  | .var _ _ | .prim _ _ _ | .indexed _ _ _ | .indexExpr _ _ _ | .neg _ _ =>
    inferInstanceAs (Decidable True)

theorem indexExprFree_blank {e : Expr} : e.blank.IndexExprFree ↔ e.IndexExprFree := by
  induction e with
  | var ty v => exact iff_of_true indexExprFree_var indexExprFree_var
  | prim ty op es ih =>
    rw [blank_prim, indexExprFree_prim, indexExprFree_prim, List.forall_mem_map]
    exact forall₂_congr ih
  | indexed ty t vs ih => rw [blank, indexExprFree_indexed, indexExprFree_indexed, ih]
  | indexExpr ty vs b _ => exact iff_of_false not_indexExprFree_indexExpr not_indexExprFree_indexExpr
  | neg ty a ih => rw [blank, indexExprFree_neg, indexExprFree_neg, ih]
  | binary ty op a b iha ihb =>
    rw [blank, indexExprFree_binary, indexExprFree_binary, iha, ihb]

theorem hoistable_blank {a : Expr} : a.blank.Hoistable ↔ a.Hoistable := by
  unfold Hoistable
  rw [isIndexed_blank, isIndexExpr_blank, indexExprFree_blank]

end Expr

/-! ### What stays is tidy -/

section

variable {a e x : Expr} {st st' : Flattener}

/-- A settled scalar operand is tidy. -/
theorem Settles.tidy (h : Settles a st x st') (ha : a.Tidy) (hs : a.ty.isScalar = true) :
    x.Tidy ∧ x.ty.isScalar = true := by
  cases h with
  | read _ => exact ⟨ha, hs⟩
  | spilled _ hspill =>
    cases hspill with
    | copied hw => exact absurd hw (by simp [Ty.isWhole, hs])
    | hoisted _ =>
      cases a using Flattener.hoist_cases st with
      | built ty rs b heq =>
        obtain ⟨⟨_, _, hdims⟩, _⟩ := Expr.everywhere_indexExpr.1 ha
        have hlen : rs.length = ty.order := by rw [Ty.order, hdims, List.length_map]
        have hcomponent : ty.componentTy.isScalar = true := Ty.isScalar_componentTy hs
        rw [heq]
        exact ⟨Expr.tidy_index_ofVar hlen hcomponent, hcomponent⟩
      | wrapped a _ _ heq =>
        have hlen : a.freeIndexVars.length = (Expr.build a.freeIndexVars a).ty.order :=
          (List.length_map _).symm
        rw [heq]
        exact ⟨Expr.tidy_index_ofVar hlen rfl, rfl⟩
      | named a _ hs' _ =>
        rw [hs] at hs'
        cases hs'
      | kept a _ _ heq =>
        rw [heq]
        exact ⟨ha, hs⟩

/-- What flattening a tidy expression keeps. -/
structure Expr.Keeps (e x : Expr) : Prop where
  tidy : x.Tidy
  fits : e.ty.Fits x.ty
  /-- Nothing else becomes an index expression. -/
  isIndexExpr : e.isIndexExpr = false → x.isIndexExpr = false
  /-- Nor does anything inside. -/
  free : e.IndexExprFree → x.IndexExprFree

/-- A tidy expression stays so when it is flattened. -/
theorem FlattensTo.keeps (h : FlattensTo e st x st') (he : e.Tidy) : e.Keeps x := by
  induction h with
  | var => exact ⟨he, .refl _, fun _ => rfl, id⟩
  | @prim _ _ es _ xs _ _ ih =>
    have hxs : List.Forall₂ (fun e x => e ∈ es ∧ e.Keeps x) es xs :=
      ih.forall₂ fun e hmem _ _ _ ⟨_, hx⟩ => ⟨hmem, hx (he.child hmem)⟩
    refine ⟨Expr.everywhere_prim.2 ⟨⟨trivial, trivial⟩, fun x hx => ?_⟩, .refl _, fun _ => rfl,
      fun hfree => Expr.indexExprFree_prim.2 fun x hx => ?_⟩
    · obtain ⟨_, _, _, hkeeps⟩ := exists_of_mem_right hxs hx
      exact hkeeps.tidy
    · obtain ⟨_, _, hmem, hkeeps⟩ := exists_of_mem_right hxs hx
      exact hkeeps.free (Expr.indexExprFree_prim.1 hfree _ hmem)
  | indexed _ ih =>
    obtain ⟨⟨⟨hie, hlen⟩, hty⟩, ht⟩ := Expr.everywhere_indexed.1 he
    have hx := ih ht
    have hlen' := hlen.trans (congrArg List.length hx.fits.dims_eq.symm)
    obtain ⟨htidy, hscalar⟩ := hx.tidy.readAt hlen' hty
    exact ⟨htidy, .of_isScalar hty hscalar,
      fun _ => Expr.isIndexExpr_readAt (hx.isIndexExpr hie) _,
      fun hfree => (hx.free (Expr.indexExprFree_indexed.1 hfree)).readAt _⟩
  | indexExpr _ ih =>
    obtain ⟨⟨hfree, hs, hdims⟩, hb⟩ := Expr.everywhere_indexExpr.1 he
    have hx := ih hb
    refine ⟨Expr.everywhere_indexExpr.2 ⟨⟨hx.free hfree, hx.fits.isScalar_eq.trans hs, hdims⟩,
      hx.tidy⟩, .refl _, id, fun h => absurd h Expr.not_indexExprFree_indexExpr⟩
  | neg _ ih =>
    have hx := ih (Expr.everywhere_neg.1 he).2
    exact ⟨Expr.everywhere_neg.2 ⟨⟨trivial, trivial⟩, hx.tidy⟩, .refl _, fun _ => rfl,
      fun h => Expr.indexExprFree_neg.2 (hx.free (Expr.indexExprFree_neg.1 h))⟩
  | product hop _ _ ihx ihy =>
    obtain ⟨_, ha, hb⟩ := Expr.everywhere_binary.1 he
    have hx := ihx ha
    have hy := ihy hb
    refine ⟨Expr.everywhere_binary.2 ⟨⟨trivial, fun hop' => ?_⟩, hx.tidy, hy.tidy⟩, .refl _,
      fun _ => rfl, fun h => ?_⟩
    · exact absurd hop' (by simp [hop])
    · obtain ⟨hfa, hfb⟩ := Expr.indexExprFree_binary.1 h
      exact Expr.indexExprFree_binary.2 ⟨hx.free hfa, hy.free hfb⟩
  | sum _ hsa hsb _ hxs _ hys ihx ihy =>
    obtain ⟨_, ha, hb⟩ := Expr.everywhere_binary.1 he
    have hx := ihx ha
    have hy := ihy hb
    obtain ⟨htx, hsx⟩ := hxs.tidy hx.tidy (hx.fits.isScalar_eq.trans hsa)
    obtain ⟨hty, hsy⟩ := hys.tidy hy.tidy (hy.fits.isScalar_eq.trans hsb)
    refine ⟨Expr.everywhere_binary.2 ⟨⟨trivial, fun _ => ⟨hsx, hsy⟩⟩, htx, hty⟩, .refl _,
      fun _ => rfl, fun h => ?_⟩
    obtain ⟨hfa, hfb⟩ := Expr.indexExprFree_binary.1 h
    exact Expr.indexExprFree_binary.2
      ⟨hxs.indexExprFree (hx.free hfa), hys.indexExprFree (hy.free hfb)⟩

/-- The scalar operands of sums are not copied. -/
theorem Expr.Tidy.copiesNone (he : e.Tidy) : e.Everywhere CopiesNone := by
  have huncopied : ∀ c : Expr, c.Tidy → c.ty.isScalar = true →
      ∀ st x st', FlattensTo c st x st' → x.Uncopied := by
    intro c hc hs st x st' hx
    have hs' : x.ty.isScalar = true := (hx.keeps hc).fits.isScalar_eq.trans hs
    exact .inr fun hw => absurd hw (by simp [Ty.isWhole, hs'])
  induction e with
  | binary ty op a b iha ihb =>
    obtain ⟨⟨_, hscalar⟩, ha, hb⟩ := everywhere_binary.1 he
    refine everywhere_binary.2 ⟨fun hop => ⟨?_, ?_⟩, iha ha, ihb hb⟩
    · exact huncopied a ha (hscalar hop).1
    · exact huncopied b hb (hscalar hop).2
  | var ty v => exact everywhere_var.2 trivial
  | prim ty op es ih => exact everywhere_prim.2 ⟨trivial, fun e h => ih e h (he.child h)⟩
  | indexed ty t vs ih => exact everywhere_indexed.2 ⟨trivial, ih (everywhere_indexed.1 he).2⟩
  | indexExpr ty vs b ih => exact everywhere_indexExpr.2 ⟨trivial, ih (everywhere_indexExpr.1 he).2⟩
  | neg ty a ih => exact everywhere_neg.2 ⟨trivial, ih (everywhere_neg.1 he).2⟩

/-! ### What is moved -/

/-- Every statement that waits is flat. -/
def Flattener.Flat (st : Flattener) : Prop := ∀ s ∈ st.pending, s.Flat

theorem Stmt.flat_assign {v : Var} {value : Expr} : (Stmt.assign v value).Flat ↔ value.Flat := by
  simp [Flat, Consists, PassesVars, exprs, Instr.exprs]

theorem Flattener.flat_bindTemporary {value : Expr} :
    (st.bindTemporary value).2.Flat ↔ st.Flat ∧ value.Flat :=
  forall_pending_bindTemporary.trans (and_congr_right fun _ => Stmt.flat_assign)

theorem Flattener.flat_own (st : Flattener) : st.own.Flat := by
  rintro s ⟨⟩

/-- What a scalar operand leaves waiting is flat exactly if the operand may be hoisted. -/
theorem Settles.flat_iff (h : Settles a st x st') (ha : a.Tidy) (hs : a.ty.isScalar = true) :
    st'.Flat ↔ st.Flat ∧ a.Hoistable := by
  have hflat : a.Flat := (Expr.tidy_iff.1 ha).1
  cases h with
  | read hi => exact (and_iff_left (.inl hi)).symm
  | spilled hi hspill =>
    cases hspill with
    | copied hw => exact absurd hw (by simp [Ty.isWhole, hs])
    | hoisted _ =>
      cases a using Flattener.hoist_cases st with
      | built ty rs b heq =>
        rw [heq, Flattener.flat_bindTemporary]
        exact and_congr_right fun _ => iff_of_true hflat (.inr (.inl rfl))
      | wrapped a _ hie heq =>
        -- the operand comes to lie in an index expression
        have hwrapped : (Expr.build a.freeIndexVars a).Flat ↔ a.IndexExprFree :=
          Expr.everywhere_indexExpr.trans (and_iff_left hflat)
        rw [heq, Flattener.flat_bindTemporary, hwrapped, Expr.Hoistable, hi, hie]
        simp
      | named a _ hs' _ =>
        rw [hs] at hs'
        cases hs'
      | kept a hc _ heq =>
        have hfree : a.IndexExprFree :=
          (Expr.containsIndexed_eq_false_iff.1 hc).imp fun _ h => h.2
        rw [heq]
        exact (and_iff_left (.inr (.inr hfree))).symm

/-- Several expressions, one after another. -/
theorem Flattening.Threads.flat_iff {R : Expr → Flattener → Expr → Flattener → Prop}
    {p : Expr → Prop} {es xs : List Expr} (h : Flattening.Threads R es st xs st')
    (hR : ∀ e ∈ es, ∀ st x st', R e st x st' → (st'.Flat ↔ st.Flat ∧ p e)) :
    st'.Flat ↔ st.Flat ∧ ∀ e ∈ es, p e := by
  induction h with
  | nil => simp
  | cons hr _ ih =>
    rw [ih fun e h => hR e (by simp [h]), hR _ (by simp) _ _ _ hr, and_assoc,
      List.forall_mem_cons]

/-- What a tidy expression leaves waiting is flat exactly if every operand of a sum in it may be
hoisted. -/
theorem FlattensTo.flat_iff (h : FlattensTo e st x st') (he : e.Tidy) :
    st'.Flat ↔ st.Flat ∧ e.Everywhere Expr.HoistsFlat := by
  induction h with
  | var => exact (and_iff_left (Expr.everywhere_var.2 trivial)).symm
  | prim _ ih =>
    rw [Expr.everywhere_prim, and_iff_right (show Expr.HoistsFlat (.prim _ _ _) from trivial)]
    exact ih.flat_iff fun e hmem _ _ _ ⟨_, hiff⟩ => hiff (he.child hmem)
  | indexed _ ih =>
    rw [ih (Expr.everywhere_indexed.1 he).2, Expr.everywhere_indexed]
    exact and_congr_right fun _ => (and_iff_right trivial).symm
  | indexExpr _ ih =>
    rw [ih (Expr.everywhere_indexExpr.1 he).2, Expr.everywhere_indexExpr]
    exact and_congr_right fun _ => (and_iff_right trivial).symm
  | neg _ ih =>
    rw [ih (Expr.everywhere_neg.1 he).2, Expr.everywhere_neg]
    exact and_congr_right fun _ => (and_iff_right trivial).symm
  | product hop _ _ ihx ihy =>
    obtain ⟨_, ha, hb⟩ := Expr.everywhere_binary.1 he
    rw [ihy hb, ihx ha, Expr.everywhere_binary, and_assoc]
    refine and_congr_right fun _ => (and_iff_right fun hop' => ?_).symm
    exact absurd hop' (by simp [hop])
  | @sum _ _ a b _ a' _ _ _ b' _ _ _ hop hsa hsb hx hxs hy hys ihx ihy =>
    have ha : a.Tidy := he.child (by simp [Expr.children])
    have hb : b.Tidy := he.child (by simp [Expr.children])
    have hkx := hx.keeps ha
    have hky := hy.keeps hb
    -- whether a flattened operand may be hoisted can be seen at its form
    have hfx : a'.Hoistable ↔ a.form.Hoistable := by
      rw [← Expr.hoistable_blank, hx.blank_of_copiesNone ha.copiesNone]
    have hfy : b'.Hoistable ↔ b.form.Hoistable := by
      rw [← Expr.hoistable_blank, hy.blank_of_copiesNone hb.copiesNone]
    rw [hys.flat_iff hky.tidy (hky.fits.isScalar_eq.trans hsb), ihy hb,
      hxs.flat_iff hkx.tidy (hkx.fits.isScalar_eq.trans hsa), ihx ha, hfx, hfy,
      Expr.everywhere_binary]
    constructor
    · rintro ⟨⟨⟨⟨hst, hea⟩, hha⟩, heb⟩, hhb⟩
      exact ⟨hst, fun _ => ⟨hha, hhb⟩, hea, heb⟩
    · rintro ⟨hst, hhoist, hea, heb⟩
      obtain ⟨hha, hhb⟩ := hhoist hop
      exact ⟨⟨⟨⟨hst, hea⟩, hha⟩, heb⟩, hhb⟩

/-- An actual that is a variable if it is passed as a tensor is one of these still. -/
theorem ActualTo.tidy (h : ActualTo a st x st') (ha : a.Tidy)
    (hv : a.ty.isWhole = true → a.isVar = true) :
    FlattensTo a st x st' ∧ (x.ty.isWhole = true → x.isVar = true) := by
  cases h with
  | kept hx hvar => exact ⟨hx, hvar⟩
  | @spilled a' _ _ _ hx hw hvar _ =>
    -- a tensor was one before, so it is a variable and has not changed
    have hwhole : a.ty.isWhole = true := by
      obtain hty | ⟨_, hs⟩ := (hx.keeps ha).fits
      · rwa [hty] at hw
      · simp [Ty.isWhole, hs] at hw
    cases a with
    | var ty v =>
      cases hx
      cases hvar
    | _ => cases hv hwhole

end

/-! ### Statements -/

namespace Stmt

/-- Every expression computes tensors component by component. -/
def Componentwise (s : Stmt) : Prop := s.ForExprs Expr.Componentwise

instance (s : Stmt) : Decidable s.Componentwise := inferInstanceAs (Decidable (s.ForExprs _))

/-- Every operand of a sum is flattened to what may be hoisted. -/
def HoistsFlat (s : Stmt) : Prop := s.ForExprs fun e => e.Everywhere Expr.HoistsFlat

instance (s : Stmt) : Decidable s.HoistsFlat := inferInstanceAs (Decidable (s.ForExprs _))

/-- What is put in front of a statement, and the statement over its new parts. -/
theorem flat_after {s : Stmt} {xs : List Expr} {ss : List Stmt} {st : Flattener}
    (hxs : xs.length = s.exprs.length) (hss : ss.length = s.children.length)
    (hx : ∀ x ∈ xs, s.Takes Expr.Flat x) :
    ((s.withParts xs ss).after st.pending).Flat ↔ st.Flat ∧ ∀ s' ∈ ss, s'.Flat := by
  have hnode : (s.withParts xs ss).Flat ↔ ∀ s' ∈ ss, s'.Flat := by
    rw [Flat, everywhere_iff, and_iff_right (consists_withParts hxs hss hx),
      children_withParts hxs hss]
    rfl
  exact (everywhere_after consists_block).trans (and_congr_right fun _ => hnode)

end Stmt

/-- A flat statement that goes component by component is flattened to a flat one exactly if the
operands of sums in it may be hoisted. -/
def StmtFlattensTo.StaysFlat (s : Stmt) : Prop :=
  ∀ s' st st', StmtFlattensTo s st s' st' → s.Flat → s.Componentwise → (s'.Flat ↔ s.HoistsFlat)

/-- One statement, given the statements inside it. -/
theorem StmtFlattensTo.staysFlat_step {s : Stmt} (ih : ∀ c ∈ s.children, StaysFlat c) :
    StaysFlat s := by
  intro s' st st' h hflat hscalar
  obtain ⟨hflats, hvars⟩ := hflat.root
  obtain ⟨hscalars, hinner⟩ := Stmt.forExprs_iff.1 hscalar
  have htidy : ∀ e ∈ s.exprs, e.Tidy := fun e he =>
    Expr.tidy_iff.2 ⟨hflats e he, hscalars e he⟩
  unfold Stmt.HoistsFlat
  rw [Stmt.forExprs_iff]
  cases h with
  | @call rs f as _ xs st₁ hthreads =>
    have hactuals := hthreads.imp fun a ha _ _ _ hr => hr.tidy (htidy a ha) (hvars a ha)
    have hiff := hactuals.flat_iff fun a ha _ _ _ hr => hr.1.flat_iff (htidy a ha)
    have htakes : List.Forall₂ (fun _ x => (Stmt.call rs f as).Takes Expr.Flat x) as xs :=
      hactuals.forall₂ fun a ha _ _ _ hr =>
        ⟨(Expr.tidy_iff.1 (hr.1.keeps (htidy a ha)).tidy).1, fun _ => hr.2⟩
    have hafter : ((Stmt.call rs f xs).after st₁.pending).Flat ↔
        st₁.Flat ∧ ∀ s' ∈ ([] : List Stmt), s'.Flat := by
      refine Stmt.flat_after (s := .call rs f as) hthreads.length_eq rfl fun x hx => ?_
      obtain ⟨_, _, htakes⟩ := exists_of_mem_right htakes hx
      exact htakes
    rw [hafter, and_iff_left (by simp), hiff, and_iff_right (Flattener.flat_own st)]
    exact (and_iff_left (by simp [Stmt.children])).symm
  | @parts _ _ xs st₁ ss st₂ hcall hexprs hstmts =>
    have hiff := hexprs.flat_iff fun e he _ _ _ hr => hr.flat_iff (htidy e he)
    have htakes : List.Forall₂ (fun _ x => s.Takes Expr.Flat x) s.exprs xs :=
      hexprs.forall₂ fun e he _ _ _ hr =>
        ⟨(Expr.tidy_iff.1 (hr.keeps (htidy e he)).tidy).1, fun h => absurd h (by simp [hcall])⟩
    have hiff' := forall_iff_of_forall₂ <| hstmts.forall₂ fun c hc _ s' _ hr =>
      ih c hc s' _ _ hr (hflat.child hc) (hinner c hc)
    -- the statements inside leave pending what the expressions left
    have hpending : st₂.Flat ↔ st₁.Flat := by
      unfold Flattener.Flat
      rw [hstmts.pending_eq]
    rw [Stmt.flat_after hexprs.length_eq hstmts.length_eq, hpending, hiff', hiff,
      and_iff_right (Flattener.flat_own st)]
    · rfl
    · intro x hx
      obtain ⟨_, _, htakes⟩ := exists_of_mem_right htakes hx
      exact htakes

namespace Stmt

/-- A flat statement that goes component by component passes the check for flatness after flattening
exactly if every operand of a sum in it is flattened to an indexed read, to an index expression, or
to something without index expressions. -/
theorem flatten_flat_iff {s : Stmt} {st st' : Flattener} {out : Transformed Stmt}
    (hs : s.Componentwise) (hflat : s.verifyFlat = .ok ())
    (h : s.flatten.run.run st = (.ok out, st')) :
    out.value.verifyFlat = .ok () ↔ s.HoistsFlat := by
  rw [verifyFlat_eq_ok_iff] at hflat ⊢
  exact children_induction (fun _ => StmtFlattensTo.staysFlat_step) s _ _ _
    (flattensTo_of_run h) hflat hs

/-- `for v in 3: x = (: a{r}) + c;`, where the index expression is an operand by itself. -/
def boundSum : Stmt :=
  let r : IndexVar := ⟨0, "r", .range 3, some .sum⟩
  let a : Expr := .ofVar ⟨1, "a", .vector 3⟩
  let c : Expr := .ofVar ⟨2, "c", .float⟩
  let x : Var := ⟨3, "x", .float⟩
  .forLoop ⟨4, "v", .int⟩ (.dim (.range 3)) (.assign x (.binaryOf .add (.build [] (a.index [r])) c))

theorem flatten_boundSum :
    boundSum.Componentwise ∧ boundSum.verifyFlat = .ok () ∧ boundSum.HoistsFlat ∧
      ∃ out st', boundSum.flatten.run.run (.ofFresh ⟨5, {}⟩) = (.ok out, st') ∧
        (out.value.verifyFlat = .ok () ↔ boundSum.HoistsFlat) := by
  refine ⟨by decide, rfl, by decide, _, _, rfl, ?_⟩
  exact flatten_flat_iff (by decide) rfl rfl

/-- `x = -(: a{r}) + c;`: the negation is wrapped with the index expression in it. -/
def negatedTotal : Stmt :=
  let r : IndexVar := ⟨0, "r", .range 3, some .sum⟩
  let a : Expr := .ofVar ⟨1, "a", .vector 3⟩
  let c : Expr := .ofVar ⟨2, "c", .float⟩
  .assign ⟨3, "x", .float⟩ (.binaryOf .add (Expr.build [] (a.index [r])).negOf c)

/-- A flat statement, component by component, whose outcome is not flat: `tmp0 = (: -(: a{r}));`. -/
theorem flatten_negatedTotal :
    negatedTotal.Componentwise ∧ negatedTotal.verifyFlat = .ok () ∧ ∃ out st',
      negatedTotal.flatten.run.run (.ofFresh ⟨4, {}⟩) = (.ok out, st') ∧
        out.value.verifyFlat = .error (.nestedIndexExpr "(: a{r})") :=
  ⟨by decide, rfl, _, _, rfl, rfl⟩

end Stmt

end TensorIR
