import TensorIR.Proofs.Freshness
import TensorIR.Proofs.Semantics
import TensorIR.Proofs.Shape

/-! # What values depend on

The value of an expression depends on the variables that occur in it and on its loose index
variables (`Interp.eval_congr`). Well-shaped expressions of scalar type denote single numbers
(`Interp.eval_scalar`).

**Key idea**: what an index expression binds, and what it sums over, stands at the same places
whatever stood there before; so for its body only the other loose variables of the body count.
-/

namespace TensorIR

/-! ### Values -/

namespace Value

variable {β : Type} {size : Dim → Nat}

theorem box_congr {ds : List Dim} {f g : List Nat → Rat}
    (h : ∀ is, inBox size ds is = true → f is = g is) :
    (box size ds f : Value β) = box size ds g := by
  unfold box
  congr 1
  funext is
  by_cases hb : inBox size ds is = true
  · rw [if_pos hb, if_pos hb, h is hb]
  · rw [if_neg hb, if_neg hb]

theorem comp_box {ds : List Dim} {f : List Nat → Rat} {is : List Nat}
    (h : inBox size ds is = true) : (box size ds f : Value β).comp is = f is :=
  if_pos h

/-- Tensors are the same if they are the same within their dimensions. -/
theorem box_eq_iff {ds : List Dim} {f g : List Nat → Rat} :
    (box size ds f : Value β) = box size ds g ↔ ∀ is, inBox size ds is = true → f is = g is := by
  refine ⟨fun h is hbox => ?_, box_congr⟩
  have hcomp : (box size ds f : Value β).comp is = (box size ds g : Value β).comp is :=
    congrArg (·.comp is) h
  rwa [comp_box hbox, comp_box hbox] at hcomp

@[simp] theorem comp_scalar (r : Rat) : (scalar r : Value β).comp [] = r := rfl

/-- Without dimensions there is a single number. -/
theorem box_nil (f : List Nat → Rat) : (box size [] f : Value β) = scalar (f []) := by
  unfold box scalar
  congr 1
  funext is
  cases is <;> rfl

theorem fit_scalar {ty : Ty} (h : ty.isScalar = true) (v : Value β) :
    v.fit size ty = scalar (v.comp []) := by
  have hdims := Ty.dims_of_isScalar h
  cases ty with
  | scalar s => exact box_nil _
  | tensor t =>
    show box size (Ty.tensor t).dims v.comp = _
    rw [hdims, box_nil]
  | _ => cases h

theorem fit_tensor {ty : Ty} (h : ty.isTensor = true) (v : Value β) :
    v.fit size ty = box size ty.dims v.comp := by
  cases ty with
  | tensor t => rfl
  | _ => cases h

/-- A tensor over the dimensions of a type is of the type. -/
theorem fit_box (ty : Ty) (f : List Nat → Rat) :
    (box size ty.dims f : Value β).fit size ty = box size ty.dims f := by
  cases ty with
  | scalar _ => exact box_congr fun is hb => comp_box hb
  | tensor _ => exact box_congr fun is hb => comp_box hb
  | _ => rfl

theorem fit_fit (ty : Ty) (v : Value β) : (v.fit size ty).fit size ty = v.fit size ty := by
  cases ty with
  | scalar s => exact fit_box (.scalar s) _
  | tensor t => exact fit_box (.tensor t) _
  | _ => rfl

end Value

theorem length_of_inBox {size : Dim → Nat} {ds : List Dim} {is : List Nat}
    (h : inBox size ds is = true) : is.length = ds.length := by
  induction ds generalizing is with
  | nil =>
    cases is with
    | nil => rfl
    | cons i is => cases h
  | cons d ds ih =>
    cases is with
    | nil => cases h
    | cons i is =>
      unfold inBox at h
      rw [List.length_cons, List.length_cons, ih (Bool.and_eq_true_iff.1 h).2]

/-! ### Index environments -/

namespace IndexEnv

variable {ρ ρ' : IndexEnv} {vs : List IndexVar} {is : List Nat} {v : IndexVar}

/-- A variable among those bound has the same place whatever it was before. -/
theorem bind_of_mem (h : is.length = vs.length) (hv : v ∈ vs) :
    ρ.bind vs is v = ρ'.bind vs is v := by
  unfold bind
  cases hfind : (vs.zip is).reverse.find? fun p => p.1 == v with
  | some p => rfl
  | none =>
    rw [List.find?_eq_none] at hfind
    rw [← List.map_fst_zip (Nat.le_of_eq h.symm)] at hv
    obtain ⟨p, hp, rfl⟩ := List.mem_map.1 hv
    exact absurd (beq_self_eq_true p.1) (hfind p (List.mem_reverse.2 hp))

theorem bind_congr (h : ρ v = ρ' v) : ρ.bind vs is v = ρ'.bind vs is v := by
  unfold bind
  rw [h]

theorem bind_of_not_mem (hv : v ∉ vs) : ρ.bind vs is v = ρ v := by
  unfold bind
  cases hfind : (vs.zip is).reverse.find? fun p => p.1 == v with
  | none => rfl
  | some p =>
    have hpv : p.1 = v := by simpa using List.find?_some hfind
    have hmem := List.mem_reverse.1 (List.mem_of_find?_eq_some hfind)
    exact absurd (hpv ▸ (List.of_mem_zip hmem).1) hv

/-- The variables `vs` bound to the places of `us`, as a renaming would look them up. -/
theorem bind_map {us : List IndexVar} :
    ρ.bind vs (us.map ρ) v =
      match Renaming.ofPairs (vs.zip us) v with
      | some w => ρ w
      | none => ρ v := by
  unfold bind Renaming.ofPairs
  -- the places are found by the variables they belong to, just as the names are
  have hfst : (fun p : IndexVar × Nat => p.1 == v) ∘ Prod.map id ρ = fun p => p.1 == v := rfl
  rw [List.zip_map_right, ← List.map_reverse, List.find?_map, hfst]
  cases (vs.zip us).reverse.find? fun p => p.1 == v <;> rfl

theorem bind_ofPairs {us : List IndexVar} :
    ρ.bind vs (us.map ρ) v = ρ ((Renaming.ofPairs (vs.zip us)).apply v) := by
  rw [bind_map]
  unfold Renaming.apply
  cases Renaming.ofPairs (vs.zip us) v <;> rfl

/-- Variables bound to their own places stay where they are. -/
theorem bind_self : ρ.bind vs (vs.map ρ) v = ρ v := by
  rw [bind_map]
  cases hw : Renaming.ofPairs (vs.zip vs) v with
  | none => rfl
  | some w =>
    have hmem := Renaming.mem_of_ofPairs hw
    rw [List.zip_eq_zipWith, List.zipWith_self] at hmem
    obtain ⟨_, _, heq⟩ := List.mem_map.1 hmem
    cases heq
    rfl

/-- Distinct variables stand where they were bound. -/
theorem map_bind (hvs : vs.Nodup) (h : is.length = vs.length) : vs.map (ρ.bind vs is) = is := by
  have hfst : (vs.zip is).map Prod.fst = vs := List.map_fst_zip (Nat.le_of_eq h.symm)
  have hpair : ∀ p ∈ vs.zip is, ρ.bind vs is p.1 = p.2 := by
    intro p hp
    unfold bind
    cases hfind : (vs.zip is).reverse.find? fun q => q.1 == p.1 with
    | none =>
      rw [List.find?_eq_none] at hfind
      exact absurd (beq_self_eq_true p.1) (hfind p (List.mem_reverse.2 hp))
    | some q =>
      have hq : q.1 = p.1 := by simpa using List.find?_some hfind
      have hmem := List.mem_reverse.1 (List.mem_of_find?_eq_some hfind)
      rw [List.inj_on_of_nodup_map (hfst.symm ▸ hvs) hmem hp hq]
  have hmap := congrArg (List.map (ρ.bind vs is)) hfst
  rw [List.map_map] at hmap
  calc vs.map (ρ.bind vs is) = (vs.zip is).map fun p => ρ.bind vs is p.1 := hmap.symm
    _ = (vs.zip is).map Prod.snd := List.map_congr_left hpair
    _ = is := List.map_snd_zip (Nat.le_of_eq h)

theorem set_congr (h : ρ v = ρ' v) (w : IndexVar) (i : Nat) : ρ.set w i v = ρ'.set w i v := by
  unfold set
  rw [h]

end IndexEnv

/-- Sums agree if the summands do wherever the variables outside the sum stand in the same
places. -/
theorem sumOver_congr {size : Dim → Nat} {L rs : List IndexVar} {f g : IndexEnv → Rat}
    {ρ ρ' : IndexEnv} (hfg : ∀ ρ ρ', (∀ v ∈ L, ρ v = ρ' v) → f ρ = g ρ')
    (h : ∀ v ∈ L, v ∉ rs → ρ v = ρ' v) : sumOver size rs f ρ = sumOver size rs g ρ' := by
  induction rs generalizing ρ ρ' with
  | nil => exact hfg ρ ρ' fun v hv => h v hv (by simp)
  | cons r rs ih =>
    unfold sumOver
    congr 1
    apply List.map_congr_left
    intro i _
    apply ih
    intro v hv hrs
    by_cases hvr : v = r
    · subst hvr
      unfold IndexEnv.set
      rw [if_pos rfl, if_pos rfl]
    · refine IndexEnv.set_congr (h v hv ?_) r i
      simp [hvr, hrs]

theorem Expr.mem_reductionVars {e : Expr} {v : IndexVar} :
    v ∈ e.reductionVars ↔ v ∈ e.loose ∧ v.isFree = false := by
  unfold reductionVars
  rw [List.mem_dedup, List.mem_filter]
  simp

/-- A component of an index expression depends on the index variables that are loose in it, if its
body depends on those that are loose in the body. -/
theorem Expr.sumOver_reductionVars_congr {size : Dim → Nat} {ty : Ty} {vs : List IndexVar}
    {b : Expr} {is : List Nat} {f g : IndexEnv → Rat} {ρ ρ' : IndexEnv}
    (hlen : is.length = vs.length)
    (hfg : ∀ ρ ρ' : IndexEnv, (∀ v ∈ b.loose, ρ v = ρ' v) → f ρ = g ρ')
    (hρ : ∀ v ∈ (indexExpr ty vs b).loose, ρ v = ρ' v) :
    sumOver size b.reductionVars f (ρ.bind vs is) =
      sumOver size b.reductionVars g (ρ'.bind vs is) := by
  apply sumOver_congr hfg
  intro v hv hred
  by_cases hvs : v ∈ vs
  · exact IndexEnv.bind_of_mem hlen hvs
  · refine IndexEnv.bind_congr (hρ v (mem_loose_indexExpr.2 ⟨hv, ?_, hvs⟩))
    by_contra hf
    exact hred (mem_reductionVars.2 ⟨hv, by simpa using hf⟩)

theorem Expr.nodup_reductionVars (e : Expr) : e.reductionVars.Nodup := List.nodup_dedup _

/-- Without reductions there is nothing to sum over. -/
theorem Expr.Unreduced.reductionVars {e : Expr} (h : e.Unreduced) : e.reductionVars = [] := by
  rw [List.eq_nil_iff_forall_not_mem]
  intro v hv
  obtain ⟨hl, hf⟩ := mem_reductionVars.1 hv
  have hfree := Over.of_mem_loose h hl
  rw [hf] at hfree
  cases hfree

namespace Interp

variable {β : Type} (I : Interp β)

/-- The value of an expression depends on its variables and its loose index variables. -/
theorem eval_congr {σ σ' : Store β} {e : Expr} {ρ ρ' : IndexEnv}
    (hσ : e.Over (fun v => σ v = σ' v) fun _ => True) (hρ : ∀ v ∈ e.loose, ρ v = ρ' v) :
    I.eval σ e ρ = I.eval σ' e ρ' := by
  induction e generalizing ρ ρ' with
  | var ty v =>
    rw [eval, eval, show σ v = σ' v from Expr.over_var.1 hσ]
  | prim ty op es ih =>
    rw [eval, eval, evalAll_eq, evalAll_eq]
    congr 2
    exact List.map_congr_left fun e he => ih e he (hσ.child he)
      fun v hv => hρ v (Expr.mem_loose_prim.2 ⟨e, he, hv⟩)
  | indexed ty t vs ih =>
    simp only [Expr.loose, List.mem_append] at hρ
    rw [eval, eval, ih (Expr.over_indexed.1 hσ).2 fun v hv => hρ v (.inl hv),
      List.map_congr_left fun v hv => hρ v (.inr hv)]
  | indexExpr ty vs b ih =>
    rw [eval, eval]
    apply Value.box_congr
    intro is hbox
    have hlen : is.length = vs.length := by simpa using length_of_inBox hbox
    have hbody : ∀ ρ ρ' : IndexEnv, (∀ v ∈ b.loose, ρ v = ρ' v) →
        (I.eval σ b ρ).comp [] = (I.eval σ' b ρ').comp [] := fun _ _ h =>
      congrArg (·.comp []) (ih (Expr.over_indexExpr.1 hσ).2 h)
    exact Expr.sumOver_reductionVars_congr hlen hbody hρ
  | neg ty a ih =>
    rw [eval, eval, ih (Expr.over_neg.1 hσ) hρ]
  | binary ty op a b iha ihb =>
    simp only [Expr.loose, List.mem_append] at hρ
    rw [eval, eval, iha (Expr.over_binary.1 hσ).1 fun v hv => hρ v (.inl hv),
      ihb (Expr.over_binary.1 hσ).2 fun v hv => hρ v (.inr hv)]

/-- A well-shaped expression of scalar type denotes a single number. -/
theorem eval_scalar {e : Expr} (h : e.WellShaped) (hs : e.ty.isScalar = true) (σ : Store β)
    (ρ : IndexEnv) : I.eval σ e ρ = .scalar ((I.eval σ e ρ).comp []) := by
  have hdims := Ty.dims_of_isScalar hs
  cases e with
  | var ty v =>
    have hty : ty.isScalar = true := hs
    rw [eval, Value.fit_scalar hty]
    rfl
  | prim ty op es =>
    have hty : ty.isScalar = true := hs
    rw [eval, Value.fit_scalar hty]
    rfl
  | indexed ty t vs =>
    rw [eval]
    rfl
  | indexExpr ty vs b =>
    obtain ⟨⟨_, _, hvs⟩, _⟩ := Expr.everywhere_indexExpr.1 h
    rw [eval, ← hvs, show ty.dims = [] from hdims, Value.box_nil]
    rfl
  | neg ty a =>
    rw [eval, show ty.dims = [] from hdims, Value.box_nil]
    rfl
  | binary ty op a b =>
    rw [eval, show ty.dims = [] from hdims, Value.box_nil]
    rfl

/-- The value of a well-shaped expression is of its type. -/
theorem fit_eval {e : Expr} (h : e.WellShaped) (σ : Store β) (ρ : IndexEnv) :
    (I.eval σ e ρ).fit I.size e.ty = I.eval σ e ρ := by
  cases e with
  | var ty v =>
    rw [eval]
    exact Value.fit_fit ty _
  | prim ty op es =>
    rw [eval]
    exact Value.fit_fit ty _
  | indexed ty t vs =>
    obtain ⟨⟨hs, _⟩, _⟩ := Expr.everywhere_indexed.1 h
    rw [eval]
    exact Value.fit_scalar hs _
  | indexExpr ty vs b =>
    obtain ⟨⟨_, _, hvs⟩, _⟩ := Expr.everywhere_indexExpr.1 h
    rw [eval, ← hvs]
    exact Value.fit_box ty _
  | neg ty a =>
    rw [eval]
    exact Value.fit_box ty _
  | binary ty op a b =>
    rw [eval]
    exact Value.fit_box ty _

end Interp

/-! ### Stores that agree -/

/-- The stores hold the same in all variables with an identity below `n`. -/
def Store.AgreeBelow {β : Type} (n : Nat) (σ σ' : Store β) : Prop := ∀ v, v.id < n → σ v = σ' v

namespace Store.AgreeBelow

variable {β : Type} {n m : Nat} {σ σ' σ'' : Store β}

theorem refl (n : Nat) (σ : Store β) : σ.AgreeBelow n σ := fun _ _ => rfl

theorem trans (h : σ.AgreeBelow n σ') (h' : σ'.AgreeBelow n σ'') : σ.AgreeBelow n σ'' :=
  fun v hv => (h v hv).trans (h' v hv)

theorem mono (h : σ.AgreeBelow m σ') (hnm : n ≤ m) : σ.AgreeBelow n σ' :=
  fun v hv => h v (Nat.lt_of_lt_of_le hv hnm)

/-- The same value for the same variable. -/
theorem set (h : σ.AgreeBelow n σ') (v : Var) (x : Value β) :
    (σ.set v x).AgreeBelow n (σ'.set v x) := by
  intro w hw
  unfold Store.set
  rw [h w hw]

theorem setAll (h : σ.AgreeBelow n σ') (xs : List (Var × Value β)) :
    (σ.setAll xs).AgreeBelow n (σ'.setAll xs) := by
  induction xs generalizing σ σ' with
  | nil => exact h
  | cons x xs ih => exact ih (h.set x.1 x.2)

end Store.AgreeBelow

/-- An expression has the same value in stores that agree on all it mentions. -/
theorem Interp.eval_of_agreeBelow {β : Type} (I : Interp β) {n : Nat} {σ σ' : Store β} {e : Expr}
    (he : e.Drawn n) (h : σ.AgreeBelow n σ') (ρ : IndexEnv) : I.eval σ e ρ = I.eval σ' e ρ :=
  eval_congr I (Expr.Over.imp he (fun v hv => h v hv) fun _ _ => trivial) fun _ _ => rfl

end TensorIR
