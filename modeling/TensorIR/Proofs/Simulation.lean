import TensorIR.Proofs.Progress
import TensorIR.Proofs.Reading
import TensorIR.Proofs.Scope

/-! # Flattened expressions keep their values

Once what is put in front of it has run, a flattened expression has the value that the expression
had before, in every interpretation and from every store (`FlattensTo.simulates`). There are two
provisos. Nothing may be moved out of the scope of its index variables (`Expr.Contained`), and no
index variable may be captured when a nested index expression is inlined (`Expr.Hygienic`).

**Key idea**: what is put in front only writes variables that nothing mentions yet, so the stores
before and after it agree below the counter, and expressions flattened one after another do not
disturb each other (`Interp.SimulatesAll.append`). That leaves one lemma for each kind of node,
and for the three ways an operand of a sum is settled.
-/

namespace TensorIR

/-! ### Shapes of flattened expressions -/

section

variable {a x : Expr} {st st' : Flattener}

theorem Settles.wellShaped (h : Settles a st x st') (ha : a.WellShaped)
    (hs : a.ty.isScalar = true) : x.WellShaped ∧ x.ty.isScalar = true := by
  cases h with
  | read _ => exact ⟨ha, hs⟩
  | spilled _ hspill =>
    cases hspill with
    | copied hw => exact absurd hw (by simp [Ty.isWhole, hs])
    | hoisted _ => exact (Flattening.wellShaped_hoist ha (.inl hs) st).2

/-- A flattened expression is well-shaped, and fits where the expression stood. -/
theorem FlattensTo.wellShaped {e : Expr} (h : FlattensTo e st x st') (he : e.WellShaped) :
    x.WellShaped ∧ e.ty.Fits x.ty := by
  induction h with
  | var => exact ⟨he, .refl _⟩
  | @prim _ _ es _ xs _ _ ih =>
    have hxs : List.Forall₂ (fun _ x => x.WellShaped) es xs :=
      ih.forall₂ fun e hmem _ _ _ ⟨_, hx⟩ => (hx (he.child hmem)).1
    refine ⟨Expr.everywhere_prim.2 ⟨trivial, fun x hx => ?_⟩, .refl _⟩
    obtain ⟨_, _, hw⟩ := exists_of_mem_right hxs hx
    exact hw
  | indexed _ ih =>
    obtain ⟨⟨hty, hdims⟩, hwt⟩ := Expr.everywhere_indexed.1 he
    obtain ⟨hw, hfit⟩ := ih hwt
    obtain ⟨hwr, hs⟩ := Expr.WellShaped.readAt hw (hdims.trans hfit.dims_eq.symm) hty
    exact ⟨hwr, .of_isScalar hty hs⟩
  | indexExpr _ ih =>
    obtain ⟨⟨hs, hty⟩, hwb⟩ := Expr.everywhere_indexExpr.1 he
    obtain ⟨hw, hfit⟩ := ih hwb
    exact ⟨Expr.everywhere_indexExpr.2 ⟨⟨hfit.isScalar_eq.trans hs, hty⟩, hw⟩, .refl _⟩
  | neg _ ih =>
    obtain ⟨hdims, hwa⟩ := Expr.everywhere_neg.1 he
    obtain ⟨hw, hfit⟩ := ih hwa
    exact ⟨Expr.everywhere_neg.2 ⟨Eq.trans hdims hfit.dims_eq.symm, hw⟩, .refl _⟩
  | @product _ op _ _ _ _ _ _ _ hop _ _ ihx ihy =>
    obtain ⟨hok, hwa, hwb⟩ := Expr.everywhere_binary.1 he
    have hop' : ¬ op.isSum = true := by simp [hop]
    obtain ⟨hba, hbb⟩ := (Expr.shapeOk_product hop').1 hok
    obtain ⟨hwx, hfx⟩ := ihx hwa
    obtain ⟨hwy, hfy⟩ := ihy hwb
    have hok' := (Expr.shapeOk_product (a := _) hop').2 ⟨hba.fits hfx, hbb.fits hfy⟩
    exact ⟨Expr.everywhere_binary.2 ⟨hok', hwx, hwy⟩, .refl _⟩
  | sum hop hsa hsb _ hxs _ hys ihx ihy =>
    obtain ⟨_, hwa, hwb⟩ := Expr.everywhere_binary.1 he
    obtain ⟨hwx, hfx⟩ := ihx hwa
    obtain ⟨hwy, hfy⟩ := ihy hwb
    obtain ⟨hwx', hsx⟩ := hxs.wellShaped hwx (hfx.isScalar_eq.trans hsa)
    obtain ⟨hwy', hsy⟩ := hys.wellShaped hwy (hfy.isScalar_eq.trans hsb)
    exact ⟨Expr.everywhere_binary.2 ⟨(Expr.shapeOk_sum hop).2 ⟨hsx, hsy⟩, hwx', hwy'⟩, .refl _⟩

end

/-! ### Expressions that keep their value -/

namespace Expr

/-- At a read, no variable of it is captured by what the tensor is flattened to. -/
def HygienicNode : Expr → Prop
  | .indexed _ t vs => t.form.CaptureFreeAt vs
  | _ => True

instance : DecidablePred HygienicNode
  | .indexed _ t vs => inferInstanceAs (Decidable (t.form.CaptureFreeAt vs))
  | .var _ _ | .prim _ _ _ | .indexExpr _ _ _ | .neg _ _ | .binary _ _ _ _ =>
    inferInstanceAs (Decidable True)

/-- No read captures an index variable. -/
def Hygienic (e : Expr) : Prop := e.Everywhere HygienicNode

instance (e : Expr) : Decidable e.Hygienic := inferInstanceAs (Decidable (e.Everywhere _))

/-- What is asked of an expression within index expressions over `Γ`, with identities below `n`,
for its value to be kept. -/
structure Tame (n : Nat) (Γ : List IndexVar) (e : Expr) : Prop where
  drawn : e.Drawn n
  scope : ∀ v ∈ Γ, v.id < n
  loose : e.LooseWithin Γ
  unreduced : e.Unreduced
  wellShaped : e.WellShaped
  contained : e.Contained Γ
  hygienic : e.Hygienic

namespace Tame

variable {n m : Nat} {Γ : List IndexVar} {ty : Ty}

theorem mono {e : Expr} (h : e.Tame n Γ) (hnm : n ≤ m) : e.Tame m Γ :=
  { h with
    drawn := h.drawn.mono hnm
    scope := fun v hv => Nat.lt_of_lt_of_le (h.scope v hv) hnm }

theorem prim {op : Prim} {es : List Expr} (h : (Expr.prim ty op es).Tame n Γ) :
    ∀ e ∈ es, e.Tame n Γ := fun e he =>
  { drawn := Over.child h.drawn he
    scope := h.scope
    loose := looseWithin_prim.1 h.loose e he
    unreduced := Over.child h.unreduced he
    wellShaped := Everywhere.child h.wellShaped he
    contained := containedAll_iff.1 h.contained e he
    hygienic := Everywhere.child h.hygienic he }

theorem indexed {t : Expr} {vs : List IndexVar} (h : (Expr.indexed ty t vs).Tame n Γ) :
    t.Tame n Γ :=
  { drawn := (over_indexed.1 h.drawn).2
    scope := h.scope
    loose := (looseWithin_indexed.1 h.loose).1
    unreduced := (over_indexed.1 h.unreduced).2
    wellShaped := (everywhere_indexed.1 h.wellShaped).2
    contained := h.contained
    hygienic := (everywhere_indexed.1 h.hygienic).2 }

theorem indexExpr {b : Expr} {vs : List IndexVar} (h : (Expr.indexExpr ty vs b).Tame n Γ) :
    b.Tame n (Γ ++ vs) :=
  { drawn := (over_indexExpr.1 h.drawn).2
    scope := fun v hv => (List.mem_append.1 hv).elim (h.scope v) ((over_indexExpr.1 h.drawn).1 v)
    loose := looseWithin_indexExpr.1 h.loose
    unreduced := (over_indexExpr.1 h.unreduced).2
    wellShaped := (everywhere_indexExpr.1 h.wellShaped).2
    contained := h.contained
    hygienic := (everywhere_indexExpr.1 h.hygienic).2 }

theorem neg {a : Expr} (h : (Expr.neg ty a).Tame n Γ) : a.Tame n Γ :=
  { drawn := over_neg.1 h.drawn
    scope := h.scope
    loose := looseWithin_neg.1 h.loose
    unreduced := over_neg.1 h.unreduced
    wellShaped := (everywhere_neg.1 h.wellShaped).2
    contained := h.contained
    hygienic := (everywhere_neg.1 h.hygienic).2 }

theorem binary {op : BinaryOp} {a b : Expr} (h : (Expr.binary ty op a b).Tame n Γ) :
    a.Tame n Γ ∧ b.Tame n Γ :=
  ⟨{ drawn := (over_binary.1 h.drawn).1
     scope := h.scope
     loose := (looseWithin_binary.1 h.loose).1
     unreduced := (over_binary.1 h.unreduced).1
     wellShaped := (everywhere_binary.1 h.wellShaped).2.1
     contained := h.contained.1
     hygienic := (everywhere_binary.1 h.hygienic).2.1 },
   { drawn := (over_binary.1 h.drawn).2
     scope := h.scope
     loose := (looseWithin_binary.1 h.loose).2
     unreduced := (over_binary.1 h.unreduced).2
     wellShaped := (everywhere_binary.1 h.wellShaped).2.2
     contained := h.contained.2.1
     hygienic := (everywhere_binary.1 h.hygienic).2.2 }⟩

end Tame

end Expr

/-! ### Values after what is pending -/

namespace Interp

variable {β : Type} (I : Interp β)

/-- The store that is left once everything pending has run. -/
def prepared (st : Flattener) (σ : Store β) : Store β := I.execAll st.pending σ

theorem prepared_bindTemporary (value : Expr) (st : Flattener) (σ : Store β) :
    I.prepared (st.bindTemporary value).2 σ =
      (I.prepared st σ).set (st.bindTemporary value).1 (I.value (I.prepared st σ) value) := by
  unfold prepared
  rw [Flattener.pending_bindTemporary, execAll_append]
  rfl

/-- A new temporary is not among the variables made before. -/
theorem agreeBelow_bindTemporary (value : Expr) (st : Flattener) (σ : Store β) :
    (I.prepared (st.bindTemporary value).2 σ).AgreeBelow st.nextId (I.prepared st σ) := by
  intro v hv
  rw [prepared_bindTemporary]
  refine if_neg ?_
  rintro rfl
  exact absurd hv (Nat.lt_irrefl _)

/-- A temporary holds what was bound to it. -/
theorem eval_temporary {value : Expr} (h : value.WellShaped) (st : Flattener) (σ : Store β)
    (ρ : IndexEnv) :
    I.eval (I.prepared (st.bindTemporary value).2 σ) (.ofVar (st.bindTemporary value).1) ρ =
      I.value (I.prepared st σ) value := by
  rw [prepared_bindTemporary, Expr.ofVar, eval, Store.set_self]
  exact fit_eval I h _ _

/-- Hoisting writes at most a new temporary. -/
theorem agreeBelow_hoist (a : Expr) (st : Flattener) (σ : Store β) :
    (I.prepared (st.hoist a).2 σ).AgreeBelow st.nextId (I.prepared st σ) := by
  cases a using Flattener.hoist_cases st with
  | built ty vs b h | wrapped a _ _ h | named a _ _ h =>
    rw [h]
    exact agreeBelow_bindTemporary I _ st σ
  | kept a _ _ h =>
    rw [h]
    exact .refl _ _

theorem agreeBelow_settles {a x : Expr} {st st' : Flattener} (h : Settles a st x st')
    (σ : Store β) : (I.prepared st' σ).AgreeBelow st.nextId (I.prepared st σ) := by
  cases h with
  | read _ => exact .refl _ _
  | spilled _ hspill =>
    cases hspill with
    | @copied vs b _ _ hv =>
      have hle := (Builder.id_indexVars a.ty.dims st.toBuilder).2
      rw [hv] at hle
      exact (agreeBelow_hoist I (a.copyAt vs) { st with toBuilder := b } σ).mono hle
    | hoisted _ => exact agreeBelow_hoist I a st σ

/-- Settling an operand keeps what was kept when it was flattened. -/
theorem agreeBelow_settled {a x : Expr} {st st₁ st' : Flattener} {σ : Store β}
    (hle : st.nextId ≤ st₁.nextId) (hxs : Settles a st₁ x st')
    (h : (I.prepared st₁ σ).AgreeBelow st.nextId (I.prepared st σ)) :
    (I.prepared st' σ).AgreeBelow st.nextId (I.prepared st σ) :=
  ((agreeBelow_settles I hxs σ).mono hle).trans h

/-- What is put in front of an expression leaves all variables as they were that existed before. -/
theorem agreeBelow_flattensTo {e x : Expr} {st st' : Flattener} (h : FlattensTo e st x st')
    (σ : Store β) : (I.prepared st' σ).AgreeBelow st.nextId (I.prepared st σ) := by
  induction h with
  | var => exact .refl _ _
  | @prim _ _ _ st _ _ _ ih =>
    refine (ih.of_le fun _ _ _ _ _ ⟨hr, _⟩ => hr.nextId_le).preserves
      (I := fun st₁ => (I.prepared st₁ σ).AgreeBelow st.nextId (I.prepared st σ)) ?_ (.refl _ _)
    rintro e _ st₁ x st₂ ⟨hle, _, hagree⟩ hst₁
    exact (hagree.mono hle).trans hst₁
  | indexed _ ih => exact ih
  | indexExpr _ ih => exact ih
  | neg _ ih => exact ih
  | product _ hx _ ihx ihy => exact (ihy.mono hx.nextId_le).trans ihx
  | sum _ _ _ hx hxs hy hys ihx ihy =>
    have hxa := agreeBelow_settled I hx.nextId_le hxs ihx
    have hyb := agreeBelow_settled I hy.nextId_le hys ihy
    exact (hyb.mono (Nat.le_trans hx.nextId_le hxs.nextId_le)).trans hxa

/-- After what was put in front of them, the flattened expressions `xs` have the values that `es`
had before, wherever the index variables `Γ` stand in their ranges. -/
structure SimulatesAll (Γ : List IndexVar) (es : List Expr) (st : Flattener) (xs : List Expr)
    (st' : Flattener) : Prop where
  nextId_le : st.nextId ≤ st'.nextId
  closed : st'.Closed
  drawn : ∀ x ∈ xs, x.Drawn st'.nextId
  agree : ∀ σ, (I.prepared st' σ).AgreeBelow st.nextId (I.prepared st σ)
  eval : ∀ σ ρ, I.InRange ρ Γ →
    xs.map (I.eval (I.prepared st' σ) · ρ) = es.map (I.eval (I.prepared st σ) · ρ)

/-- The same for a single expression. -/
abbrev Simulates (Γ : List IndexVar) (e : Expr) (st : Flattener) (x : Expr) (st' : Flattener) :
    Prop :=
  I.SimulatesAll Γ [e] st [x] st'

variable {I} {Γ : List IndexVar} {st st₁ st' : Flattener} {e x y a b : Expr} {ty : Ty}

theorem SimulatesAll.nil (h : st.Closed) : I.SimulatesAll Γ [] st [] st :=
  ⟨Nat.le_refl _, h, by simp, fun σ => .refl _ _, fun _ _ _ => rfl⟩

theorem Simulates.of_eval (hle : st.nextId ≤ st'.nextId) (hst : st'.Closed)
    (hx : x.Drawn st'.nextId)
    (hagree : ∀ σ, (I.prepared st' σ).AgreeBelow st.nextId (I.prepared st σ))
    (h : ∀ σ ρ, I.InRange ρ Γ → I.eval (I.prepared st' σ) x ρ = I.eval (I.prepared st σ) e ρ) :
    I.Simulates Γ e st x st' := by
  refine ⟨hle, hst, ?_, hagree, fun σ ρ hρ => ?_⟩
  · simpa using hx
  · rw [List.map_singleton, List.map_singleton, h σ ρ hρ]

theorem Simulates.eval_eq (h : I.Simulates Γ e st x st') (σ : Store β) {ρ : IndexEnv}
    (hρ : I.InRange ρ Γ) : I.eval (I.prepared st' σ) x ρ = I.eval (I.prepared st σ) e ρ :=
  List.singleton_inj.1 (h.eval σ ρ hρ)

/-- Expressions flattened one after another: what is put in front of the later ones does not
matter to the earlier ones, nor the other way round. -/
theorem SimulatesAll.append {es es' xs xs' : List Expr} (h : I.SimulatesAll Γ es st xs st₁)
    (h' : I.SimulatesAll Γ es' st₁ xs' st') (hes : ∀ e ∈ es', e.Drawn st.nextId) :
    I.SimulatesAll Γ (es ++ es') st (xs ++ xs') st' := by
  refine ⟨Nat.le_trans h.nextId_le h'.nextId_le, h'.closed, ?_, ?_, ?_⟩
  · intro x hx
    rcases List.mem_append.1 hx with hx | hx
    · exact (h.drawn x hx).mono h'.nextId_le
    · exact h'.drawn x hx
  · exact fun σ => ((h'.agree σ).mono h.nextId_le).trans (h.agree σ)
  · intro σ ρ hρ
    rw [List.map_append, List.map_append, ← h.eval σ ρ hρ, h'.eval σ ρ hρ]
    congr 1
    · exact List.map_congr_left fun x hx => eval_of_agreeBelow I (h.drawn x hx) (h'.agree σ) ρ
    · exact List.map_congr_left fun e he => eval_of_agreeBelow I (hes e he) (h.agree σ) ρ

/-- First flattened, then settled. -/
theorem Simulates.trans (h : I.Simulates Γ e st x st₁) (h' : I.Simulates Γ x st₁ y st') :
    I.Simulates Γ e st y st' :=
  ⟨Nat.le_trans h.nextId_le h'.nextId_le, h'.closed, h'.drawn,
    fun σ => ((h'.agree σ).mono h.nextId_le).trans (h.agree σ),
    fun σ ρ hρ => (h'.eval σ ρ hρ).trans (h.eval σ ρ hρ)⟩

/-! ### One lemma for each kind of node -/

theorem SimulatesAll.prim {op : Prim} {es xs : List Expr} (h : I.SimulatesAll Γ es st xs st') :
    I.Simulates Γ (.prim ty op es) st (.prim ty op xs) st' := by
  refine .of_eval h.nextId_le h.closed (Expr.over_prim.2 h.drawn) h.agree fun σ ρ hρ => ?_
  rw [Interp.eval, Interp.eval, evalAll_eq, evalAll_eq, h.eval σ ρ hρ]

theorem Simulates.neg (h : I.Simulates Γ a st x st') :
    I.Simulates Γ (.neg ty a) st (.neg ty x) st' := by
  refine .of_eval h.nextId_le h.closed (Expr.over_neg.2 (h.drawn x (by simp))) h.agree
    fun σ ρ hρ => ?_
  rw [Interp.eval, Interp.eval, h.eval_eq σ hρ]

theorem SimulatesAll.binary {op : BinaryOp} (h : I.SimulatesAll Γ [a, b] st [x, y] st')
    (ha : a.ty.Fits x.ty) (hb : b.ty.Fits y.ty) :
    I.Simulates Γ (.binary ty op a b) st (.binary ty op x y) st' := by
  have hdrawn : (Expr.binary ty op x y).Drawn st'.nextId :=
    Expr.over_binary.2 ⟨h.drawn x (by simp), h.drawn y (by simp)⟩
  refine .of_eval h.nextId_le h.closed hdrawn h.agree fun σ ρ hρ => ?_
  obtain ⟨hx, hy⟩ : I.eval (I.prepared st' σ) x ρ = I.eval (I.prepared st σ) a ρ ∧
      I.eval (I.prepared st' σ) y ρ = I.eval (I.prepared st σ) b ρ := by
    simpa using h.eval σ ρ hρ
  rw [Interp.eval, Interp.eval, hx, hy]
  unfold Value.compAt
  rw [ha.isScalar_eq, hb.isScalar_eq]

theorem Simulates.indexExpr {vs : List IndexVar} (h : I.Simulates (Γ ++ vs) b st x st')
    (hvs : ∀ v ∈ vs, v.id < st.nextId) (hb : b.Unreduced) (hx : x.Unreduced) :
    I.Simulates Γ (.indexExpr ty vs b) st (.indexExpr ty vs x) st' := by
  have hdrawn : (Expr.indexExpr ty vs x).Drawn st'.nextId := Expr.over_indexExpr.2
    ⟨fun v hv => Nat.lt_of_lt_of_le (hvs v hv) h.nextId_le, h.drawn x (by simp)⟩
  refine .of_eval h.nextId_le h.closed hdrawn h.agree fun σ ρ hρ => ?_
  rw [Interp.eval, Interp.eval, hb.reductionVars, hx.reductionVars]
  apply Value.box_congr
  intro is hbox
  exact congrArg (·.comp []) (h.eval_eq σ (hρ.bind hbox))

theorem Simulates.readAt {vs : List IndexVar} (h : I.Simulates Γ e st x st')
    (hvs : ∀ v ∈ vs, v ∈ Γ ∧ v.id < st.nextId ∧ v.isFree = true) (hw : x.WellShaped)
    (hu : x.Unreduced) (hc : x.CaptureFreeAt vs) (hdims : vs.map IndexVar.domain = x.ty.dims) :
    I.Simulates Γ (.indexed ty e vs) st (x.readAt vs ty) st' := by
  have hdrawn : (x.readAt vs ty).Drawn st'.nextId := Expr.Over.readAt
    (fun v hv => Nat.lt_of_lt_of_le (hvs v hv).2.1 h.nextId_le) (h.drawn x (by simp)) ty
  refine .of_eval h.nextId_le h.closed hdrawn h.agree fun σ ρ hρ => ?_
  rw [eval_readAt hw hu hc hdims (fun v hv => (hvs v hv).2.2) fun v hv => hρ v (hvs v hv).1,
    h.eval_eq σ hρ, Interp.eval]

/-! ### Hoisting -/

/-- Without free index variables and reductions, the places of the index variables do not
matter. -/
theorem eval_closed (hl : a.LooseWithin []) (hu : a.Unreduced) (σ : Store β) (ρ : IndexEnv) :
    I.eval σ a ρ = I.value σ a := by
  apply eval_congr I (.of_forall fun _ => rfl)
  intro v hv
  exact absurd (hl v hv (Expr.Over.of_mem_loose hu hv)) List.not_mem_nil

/-- An index expression over the free index variables of its body, at their places: the sum of the
body over its reductions. -/
theorem comp_wrapped {σ : Store β} {ρ : IndexEnv} (hρ : I.InRange ρ a.freeIndexVars) :
    (I.value σ (.build a.freeIndexVars a)).comp (a.freeIndexVars.map ρ) =
      sumOver I.size a.reductionVars (fun ρ => (I.eval σ a ρ).comp []) ρ := by
  unfold Interp.value Expr.build
  rw [Interp.eval, Value.comp_box (inBox_of_inRange hρ)]
  refine sumOver_congr (L := a.loose) (fun ρ ρ' h => ?_) fun v hv hred => ?_
  · exact congrArg (·.comp []) (eval_congr I (.of_forall fun _ => rfl) h)
  · -- what is not summed over is free, and stands again where it stood
    have hfree : v.isFree = true := by
      by_contra hf
      exact hred (Expr.mem_reductionVars.2 ⟨hv, by simpa using hf⟩)
    exact (IndexEnv.bind_of_mem (by simp) (Expr.mem_freeIndexVars.2 ⟨hv, hfree⟩)).trans
      IndexEnv.bind_self

/-- A scalar that may be moved has its value after it was hoisted. -/
theorem simulates_hoist (hw : a.WellShaped) (hs : a.ty.isScalar = true) (hu : a.Unreduced)
    (hl : a.LooseWithin Γ) (hm : a.Movable Γ) (hd : a.Drawn st.nextId)
    (hst : (st.hoist a).2.Closed) : I.Simulates Γ a st (st.hoist a).1.value (st.hoist a).2 := by
  have hdrawn : (st.hoist a).1.value.Drawn (st.hoist a).2.nextId :=
    Expr.Over.hoist (hd.mono (Flattener.nextId_le_hoist a st))
      ⟨fun _ _ hv => hv, fun _ _ _ hv => hv⟩
  cases a using Flattener.hoist_cases st with
  | built ty rs b h =>
    -- a scalar index expression is read through no variables
    obtain ⟨⟨_, _, hrs⟩, _⟩ := Expr.everywhere_indexExpr.1 hw
    have hnil : rs = [] := List.map_eq_nil_iff.1 (hrs.symm.trans (Ty.dims_of_isScalar hs))
    subst hnil
    rw [h] at hdrawn hst ⊢
    refine .of_eval (Nat.le_succ _) hst hdrawn (agreeBelow_bindTemporary I _ st) fun σ ρ _ => ?_
    rw [Transformed.value_replace, Expr.index, Interp.eval, eval_temporary I hw,
      eval_scalar I hw hs, eval_closed (Expr.closed_iff.1 hm.1) hu]
    rfl
  | wrapped a _ _ h =>
    rw [h] at hdrawn hst ⊢
    refine .of_eval (Nat.le_succ _) hst hdrawn (agreeBelow_bindTemporary I _ st)
      fun σ ρ hρ => ?_
    have hfree : I.InRange ρ a.freeIndexVars := fun v hv =>
      hρ v (hl v (Expr.mem_freeIndexVars.1 hv).1 (Expr.mem_freeIndexVars.1 hv).2)
    rw [Transformed.value_replace, Expr.index, Interp.eval, eval_temporary I (hw.build hs _),
      comp_wrapped hfree, hu.reductionVars]
    exact (eval_scalar I hw hs _ _).symm
  | named a _ hs' _ =>
    rw [hs] at hs'
    cases hs'
  | kept a _ _ h =>
    rw [h] at hdrawn hst ⊢
    exact .of_eval (Nat.le_refl _) hst hdrawn (fun σ => .refl _ _) fun σ ρ _ => rfl

/-- A tensor that is bound to a temporary, and passed as that variable. -/
theorem simulates_passed {rs : List IndexVar} (hw : (Expr.indexExpr ty rs b).WellShaped)
    (hu : (Expr.indexExpr ty rs b).Unreduced) (hl : (Expr.indexExpr ty rs b).LooseWithin [])
    (hst : st.Closed) :
    I.Simulates [] (.indexExpr ty rs b) st
      (Flattening.wholeTensor (st.hoist (.indexExpr ty rs b)).1.value)
      (st.hoist (.indexExpr ty rs b)).2 := by
  rw [hoist_indexExpr]
  refine .of_eval (Nat.le_succ _) ?_ ?_ (agreeBelow_bindTemporary I _ st) fun σ ρ _ => ?_
  · exact Flattener.closed_bindTemporary.2 ⟨hst, Expr.closed_iff.2 hl⟩
  · exact Expr.over_var.2 (Nat.lt_succ_self _)
  · rw [eval_closed hl hu]
    exact eval_temporary I hw st σ ρ

/-- The copy of a tensor has its value. -/
theorem eval_copyAt {vs : List IndexVar} (hw : a.WellShaped) (ht : a.ty.isTensor = true)
    (hu : a.Unreduced) (hl : a.LooseWithin []) (hc : a.CaptureFreeAt vs)
    (hdims : vs.map IndexVar.domain = a.ty.dims) (hfree : ∀ v ∈ vs, v.isFree = true)
    (hvs : vs.Nodup) (σ : Store β) (ρ : IndexEnv) : I.eval σ (a.copyAt vs) ρ = I.eval σ a ρ := by
  have hread : (a.readAt vs a.ty.componentTy).Unreduced := Expr.Over.readAt hfree hu _
  rw [Expr.copyAt, Interp.eval, hread.reductionVars, ← fit_eval I hw σ ρ, Value.fit_tensor ht,
    hdims]
  apply Value.box_congr
  intro is hbox
  rw [← hdims] at hbox
  have hrange : I.InRange (ρ.bind vs is) vs := InRange.bind (Γ := []) (by rintro v ⟨⟩) hbox
  have hlen : is.length = vs.length := by simpa using length_of_inBox hbox
  show (I.eval σ (a.readAt vs a.ty.componentTy) (ρ.bind vs is)).comp [] = _
  rw [eval_readAt hw hu hc hdims hfree hrange, IndexEnv.map_bind hvs hlen, eval_closed hl hu,
    eval_closed hl hu]
  rfl

end Interp

/-! ### Expressions -/

section

variable {β : Type} {I : Interp β} {Γ : List IndexVar} {st st' : Flattener} {a e x : Expr}

open Interp (Simulates SimulatesAll)

theorem Settles.simulates (h : Settles a st x st') (hw : a.WellShaped)
    (hs : a.ty.isScalar = true) (hu : a.Unreduced) (hl : a.LooseWithin Γ) (hm : a.Movable Γ)
    (hd : a.Drawn st.nextId) (hΓ : ∀ v ∈ Γ, v.id < st.nextId) (hst : st.Closed) :
    I.Simulates Γ a st x st' := by
  obtain ⟨hst', _⟩ := (h.closed_iff hd hΓ).2 ⟨hst, hl, hm⟩
  cases h with
  | read _ => exact .of_eval (Nat.le_refl _) hst hd (fun σ => .refl _ _) fun _ _ _ => rfl
  | spilled _ hspill =>
    cases hspill with
    | copied hwhole => exact absurd hwhole (by simp [Ty.isWhole, hs])
    | hoisted _ => exact Interp.simulates_hoist hw hs hu hl hm hd hst'

/-- An operand of a sum keeps its value when it is settled after it was flattened. -/
theorem FlattensTo.simulates_settled {y : Expr} {st₁ : Flattener} (hx : FlattensTo a st x st₁)
    (hxs : Settles x st₁ y st') (ha : a.Tame st.nextId Γ) (hs : a.ty.isScalar = true)
    (hm : a.form.Movable Γ) (hst : st.Closed) (hto : I.Simulates Γ a st x st₁) :
    I.Simulates Γ a st y st' ∧ y.ty.isScalar = true := by
  obtain ⟨hw, hfit⟩ := hx.wellShaped ha.wellShaped
  have hs' : x.ty.isScalar = true := hfit.isScalar_eq.trans hs
  obtain ⟨_, hl⟩ := (hx.closed_iff ha.loose ha.drawn ha.scope).2 ⟨hst, ha.contained⟩
  rw [← hx.blank ha.contained, Expr.movable_blank] at hm
  have hsettled : I.Simulates Γ x st₁ y st' := hxs.simulates hw hs'
    (hx.unreduced ha.unreduced) hl hm (hx.drawn ha.drawn) (ha.mono hx.nextId_le).scope hto.closed
  exact ⟨hto.trans hsettled, (hxs.wellShaped hw hs').2⟩

/-- Expressions treated one after another. -/
theorem Flattening.Threads.simulates {R : Expr → Flattener → Expr → Flattener → Prop}
    {es xs : List Expr} (h : Flattening.Threads R es st xs st')
    (hR : ∀ e ∈ es, ∀ st x st', R e st x st' → e.Tame st.nextId Γ → st.Closed →
      I.Simulates Γ e st x st')
    (hes : ∀ e ∈ es, e.Tame st.nextId Γ) (hst : st.Closed) : I.SimulatesAll Γ es st xs st' := by
  induction h with
  | nil => exact .nil hst
  | @cons e st x st₁ es xs st₂ hr _ ih =>
    have hhead : I.Simulates Γ e st x st₁ := hR e (by simp) _ _ _ hr (hes e (by simp)) hst
    have hes' : ∀ e ∈ es, e.Tame st₁.nextId Γ := fun e h =>
      (hes e (by simp [h])).mono hhead.nextId_le
    have htail : I.SimulatesAll Γ es st₁ xs st₂ :=
      ih (fun e h => hR e (by simp [h])) hes' hhead.closed
    exact SimulatesAll.append hhead htail fun e h => (hes e (by simp [h])).drawn

/-- Flattening a tame expression keeps its value. -/
theorem FlattensTo.simulates (h : FlattensTo e st x st') (he : e.Tame st.nextId Γ)
    (hst : st.Closed) : I.Simulates Γ e st x st' := by
  induction h generalizing Γ with
  | var => exact .of_eval (Nat.le_refl _) hst he.drawn (fun σ => .refl _ _) fun _ _ _ => rfl
  | prim _ ih =>
    have hall := ih.simulates (fun e _ st x st' ⟨_, hsim⟩ he hst => hsim he hst) he.prim hst
    exact hall.prim
  | @indexed ty t vs st x st' ht ih =>
    obtain ⟨⟨_, hdims⟩, hwt⟩ := Expr.everywhere_indexed.1 he.wellShaped
    obtain ⟨hw, hfit⟩ := ht.wellShaped hwt
    have hfree := (Expr.over_indexed.1 he.unreduced).1
    have hids := (Expr.over_indexed.1 he.drawn).1
    have hscope := (Expr.looseWithin_indexed.1 he.loose).2
    -- hygiene is asked of the form, which is the flattened tensor up to its temporaries
    have hc : x.CaptureFreeAt vs := by
      rw [← Expr.captureFreeAt_blank, ht.blank he.indexed.contained]
      exact (Expr.everywhere_indexed.1 he.hygienic).1
    exact (ih he.indexed hst).readAt (fun v hv => ⟨hscope v hv (hfree v hv), hids v hv,
      hfree v hv⟩) hw (ht.unreduced he.indexed.unreduced) hc (hdims.trans hfit.dims_eq.symm)
  | indexExpr hb ih =>
    have hu := he.indexExpr.unreduced
    exact (ih he.indexExpr hst).indexExpr (Expr.over_indexExpr.1 he.drawn).1 hu (hb.unreduced hu)
  | neg _ ih => exact (ih he.neg hst).neg
  | product _ hx hy ihx ihy =>
    obtain ⟨hta, htb⟩ := he.binary
    have ha := ihx hta hst
    have hb := ihy (htb.mono ha.nextId_le) ha.closed
    exact (ha.append hb (by simpa using htb.drawn)).binary (hx.wellShaped hta.wellShaped).2
      (hy.wellShaped htb.wellShaped).2
  | sum hop hsa hsb hx hxs hy hys ihx ihy =>
    obtain ⟨hta, htb⟩ := he.binary
    obtain ⟨hma, hmb⟩ := he.contained.2.2 hop
    obtain ⟨hxa, hsx⟩ := hx.simulates_settled hxs hta hsa hma hst (ihx hta hst)
    have htb₂ := htb.mono hxa.nextId_le
    obtain ⟨hyb, hsy⟩ := hy.simulates_settled hys htb₂ hsb hmb hxa.closed (ihy htb₂ hxa.closed)
    exact (hxa.append hyb (by simpa using htb.drawn)).binary (.of_isScalar hsa hsx)
      (.of_isScalar hsb hsy)

/-- An actual of a call that is bound to a temporary and passed as a whole. -/
theorem SpillsTo.simulates (h : SpillsTo a st x st') (hwhole : a.ty.isWhole = true)
    (hw : a.WellShaped) (hu : a.Unreduced) (hl : a.LooseWithin []) (hd : a.Drawn st.nextId)
    (hst : st.Closed) : I.Simulates [] a st (Flattening.wholeTensor x) st' := by
  cases h with
  | @copied vs b _ hie hv =>
    have ht : a.ty.isTensor = true := by
      simpa [Ty.isWhole] using (Bool.and_eq_true_iff.1 hwhole).1
    obtain ⟨hids, hle⟩ := Builder.id_indexVars a.ty.dims st.toBuilder
    have hdims := Flattening.domain_indexVars none a.ty.dims st.toBuilder
    have hnodup := Builder.nodup_indexVars a.ty.dims st.toBuilder
    rw [hv] at hids hle hdims hnodup
    have hfree : ∀ v ∈ vs, v.isFree = true := fun v hmem => (hids v hmem).1
    -- the variables of the copy are new
    have hc : a.CaptureFreeAt vs :=
      Expr.Over.captureFreeAt hd fun v hmem => Nat.not_lt.2 (hids v hmem).2.1
    have hs := Ty.isScalar_componentTy_of_isTensor ht
    obtain ⟨hwr, hsr⟩ := Expr.WellShaped.readAt hw hdims hs
    have hwcopy : (a.copyAt vs).WellShaped := Expr.everywhere_indexExpr.2 ⟨⟨hsr, rfl, rfl⟩, hwr⟩
    have hucopy : (a.copyAt vs).Unreduced :=
      Expr.over_indexExpr.2 ⟨hfree, Expr.Over.readAt hfree hu _⟩
    have hlread : (a.readAt vs a.ty.componentTy).LooseWithin ([] ++ vs) :=
      (Expr.looseWithin_readAt (fun v hv _ => List.mem_append_right _ hv) a _).2
        (hl.mono (by simp))
    have hlcopy : (a.copyAt vs).LooseWithin [] := Expr.looseWithin_indexExpr.2 hlread
    have hclosed : Flattener.Closed { st with toBuilder := b } := hst
    have hpassed := Interp.simulates_passed (I := I) hwcopy hucopy hlcopy hclosed
    refine .of_eval (Nat.le_trans hle hpassed.nextId_le) hpassed.closed
      (hpassed.drawn _ (List.mem_singleton_self _))
      (fun σ => (hpassed.agree σ).mono hle) fun σ ρ hρ => ?_
    exact (hpassed.eval_eq σ hρ).trans (Interp.eval_copyAt hw ht hu hl hc hdims hfree hnodup _ ρ)
  | hoisted hie =>
    cases a with
    | indexExpr ty rs b => exact Interp.simulates_passed hw hu hl hst
    | _ => cases hie hwhole

theorem ActualTo.simulates (h : ActualTo a st x st') (ha : a.Tame st.nextId [])
    (hst : st.Closed) : I.Simulates [] a st x st' := by
  cases h with
  | kept hx _ => exact hx.simulates ha hst
  | spilled hx hwhole _ hspill =>
    have hto := hx.simulates (I := I) ha hst
    obtain ⟨_, hl⟩ := (hx.closed_iff ha.loose ha.drawn ha.scope).2 ⟨hst, ha.contained⟩
    exact hto.trans (hspill.simulates hwhole (hx.wellShaped ha.wellShaped).1
      (hx.unreduced ha.unreduced) hl (hx.drawn ha.drawn) hto.closed)

end

end TensorIR
