import TensorIR.Proofs.Polynomials
import TensorIR.Proofs.Simulation
import TensorIR.Proofs.Sums

/-! # Sums that are put off

What flattening makes of an index expression over a polynomial, told by what it computes. The sums
of nested index expressions are put off to the index expression around them, except those of an
operand that is held by a temporary (`Interp.deferred`); there all reductions that have come
together are summed over at once (`FlattensTo.value_polynomial`).

**Key idea**: the number that is left of a polynomial only depends on where the loose index
variables of its form stand (`Interp.deferred_congr`). So it is followed through the flattened
polynomial by looking at these alone: renaming looks them up elsewhere, and a temporary is read
where the free ones among them stand.
-/

namespace TensorIR

namespace Interp

variable {β : Type} (I : Interp β)

/-- The number that a polynomial stands for. -/
def num (σ : Store β) (e : Expr) : IndexEnv → Rat := fun ρ => (I.eval σ e ρ).comp []

/-- What is left of an operand of a sum: `f` if it stays in place, and the sum of `f` if it is held
by a temporary. -/
def settled (a : Expr) (f : IndexEnv → Rat) : IndexEnv → Rat :=
  if a.form.isIndexed then f else sumOver I.size a.form.reductionVars f

/-- The number that is left of a polynomial when the sums of nested index expressions are put off:
a read of an index expression leaves the body, with the result variables where those of the read
stand. -/
def deferred (σ : Store β) : Expr → IndexEnv → Rat
  | .indexed _ (.indexExpr _ rs b) vs => fun ρ => deferred σ b (ρ.bind rs (vs.map ρ))
  | .neg _ a => fun ρ => -deferred σ a ρ
  | .binary _ op a b => fun ρ =>
    if op.isSum then op.apply (I.settled a (deferred σ a) ρ) (I.settled b (deferred σ b) ρ)
    else op.apply (deferred σ a ρ) (deferred σ b ρ)
  | e => I.num σ e

variable {I} {σ : Store β} {st st₁ st' : Flattener} {a b e x y z : Expr} {ty : Ty}

/-! ### Numbers -/

theorem num_neg (h : ty.dims = []) : I.num σ (.neg ty a) = fun ρ => -I.num σ a ρ := by
  funext ρ
  unfold num
  rw [eval, h, Value.box_nil]
  rfl

theorem num_binary {op : BinaryOp} (h : ty.dims = []) :
    I.num σ (.binary ty op a b) = fun ρ => op.apply (I.num σ a ρ) (I.num σ b ρ) := by
  funext ρ
  unfold num
  rw [eval, h, Value.box_nil, Value.comp_scalar]
  unfold Value.compAt
  rw [ite_self, ite_self]

theorem num_of_agreeBelow {n : Nat} {σ' : Store β} (he : e.Drawn n) (h : σ.AgreeBelow n σ') :
    I.num σ e = I.num σ' e :=
  funext fun ρ => congrArg (·.comp []) (eval_of_agreeBelow I he h ρ)

/-- Renaming the index variables of a flat polynomial amounts to looking them up where the new
names stand, whatever these are. -/
theorem num_substitute_flat (hx : x.isPolynomial false = true) {ν : Renaming} {ρ ρ' : IndexEnv}
    (hρ : ∀ v ∈ x.loose, ρ' v = ρ (ν.apply v)) :
    I.num σ (x.substitute ν).value ρ = I.num σ x ρ' := by
  suffices h : I.eval σ (x.substitute ν).value ρ = I.eval σ x ρ' from congrArg (·.comp []) h
  induction hx using Expr.polynomial_induction with
  | var ty vty v vs =>
    rw [Expr.value_substitute_indexed, eval, eval, List.map_map]
    congr 2
    exact List.map_congr_left fun v hv => (hρ v hv).symm
  | read ty rty rs b vs _ _ hn => cases hn
  | neg ty a _ ih => rw [Expr.value_substitute_neg, eval, eval, ih hρ]
  | binary ty op a b _ _ _ _ iha ihb =>
    simp only [Expr.loose, List.mem_append] at hρ
    rw [Expr.value_substitute_binary, eval, eval, Expr.ty_substitute, Expr.ty_substitute,
      iha fun v hv => hρ v (.inl hv), ihb fun v hv => hρ v (.inr hv)]

/-! ### What the number that is left depends on -/

theorem deferred_sum {op : BinaryOp} (hop : op.isSum = true) (ρ : IndexEnv) :
    I.deferred σ (.binary ty op a b) ρ =
      op.apply (I.settled a (I.deferred σ a) ρ) (I.settled b (I.deferred σ b) ρ) := by
  rw [deferred]
  exact if_pos hop

theorem deferred_product {op : BinaryOp} (hop : op.isSum = false) (ρ : IndexEnv) :
    I.deferred σ (.binary ty op a b) ρ =
      op.apply (I.deferred σ a ρ) (I.deferred σ b ρ) := by
  rw [deferred]
  exact if_neg (by simp [hop])

/-- An operand held by a temporary depends on where its free index variables stand. -/
theorem settled_congr {f : IndexEnv → Rat} {ρ ρ' : IndexEnv}
    (ha : a.form.isPolynomial false = true)
    (hf : ∀ ρ ρ' : IndexEnv, (∀ v ∈ a.form.loose, ρ v = ρ' v) → f ρ = f ρ')
    (h : ∀ v ∈ a.form.settledForm.loose, ρ v = ρ' v) : I.settled a f ρ = I.settled a f ρ' := by
  rw [Expr.loose_settledForm ha] at h
  unfold settled
  split
  · next hi =>
    rw [if_pos hi] at h
    exact hf ρ ρ' h
  · next hi =>
    rw [if_neg hi] at h
    refine sumOver_congr (L := a.form.loose) hf fun v hv hred => h v ?_
    -- what is not summed over is free
    refine Expr.mem_freeIndexVars.2 ⟨hv, ?_⟩
    by_contra hfree
    exact hred (Expr.mem_reductionVars.2 ⟨hv, by simpa using hfree⟩)

/-- What is left of a polynomial depends on where the loose index variables of its form stand. -/
theorem deferred_congr (he : e.isPolynomial true = true) (hw : e.WellShaped) {ρ ρ' : IndexEnv}
    (h : ∀ v ∈ e.form.loose, ρ v = ρ' v) : I.deferred σ e ρ = I.deferred σ e ρ' := by
  induction he using Expr.polynomial_induction generalizing ρ ρ' with
  | var ty vty v vs =>
    exact congrArg (·.comp []) (eval_congr I (e := .indexed ty (.var vty v) vs)
      (.of_forall fun _ => rfl) h)
  | read ty rty rs b vs _ hb _ ih =>
    obtain ⟨⟨_, hvs⟩, hwt⟩ := Expr.everywhere_indexed.1 hw
    obtain ⟨hwb, _, _, hlen⟩ := Expr.WellShaped.readBody hwt hvs
    rw [Expr.form, Expr.form, Expr.readAt_indexExpr hlen] at h
    apply ih hwb
    intro v hv
    rw [IndexEnv.bind_ofPairs, IndexEnv.bind_ofPairs]
    exact h _ (Expr.apply_mem_loose_substitute (Expr.isPolynomial_form hb hwb).1 _ hv)
  | neg ty a _ ih => exact congrArg (fun r => -r) (ih (Expr.everywhere_neg.1 hw).2 h)
  | binary ty op a b _ ha hb _ iha ihb =>
    obtain ⟨_, hwa, hwb⟩ := Expr.everywhere_binary.1 hw
    rw [Expr.form] at h
    by_cases hop : op.isSum = true
    · rw [if_pos hop] at h
      rw [deferred_sum hop, deferred_sum hop,
        settled_congr (Expr.isPolynomial_form ha hwa).1 (fun _ _ => iha hwa)
          fun v hv => h v (List.mem_append_left _ hv),
        settled_congr (Expr.isPolynomial_form hb hwb).1 (fun _ _ => ihb hwb)
          fun v hv => h v (List.mem_append_right _ hv)]
    · rw [if_neg hop] at h
      have hop' : op.isSum = false := by simpa using hop
      rw [deferred_product hop', deferred_product hop',
        iha hwa fun v hv => h v (List.mem_append_left _ hv),
        ihb hwb fun v hv => h v (List.mem_append_right _ hv)]

theorem deferred_of_agreeBelow {n : Nat} {σ' : Store β} (he : e.isPolynomial true = true)
    (hd : e.Drawn n) (h : σ.AgreeBelow n σ') : I.deferred σ e = I.deferred σ' e := by
  induction he using Expr.polynomial_induction with
  | var ty vty v vs => exact num_of_agreeBelow hd h
  | read ty rty rs b vs _ _ _ ih =>
    have hdb := (Expr.over_indexExpr.1 (Expr.over_indexed.1 hd).2).2
    rw [deferred, deferred, ih hdb]
  | neg ty a _ ih => rw [deferred, deferred, ih (Expr.over_neg.1 hd)]
  | binary ty op a b _ _ _ _ iha ihb =>
    obtain ⟨hda, hdb⟩ := Expr.over_binary.1 hd
    rw [deferred, deferred, iha hda, ihb hdb]

/-! ### Flattened operands -/

/-- An operand of a sum, followed from the number that is left of it. -/
theorem num_settles (hs : Settles x st₁ z st') (hx : x.isPolynomial false = true)
    (hw : x.WellShaped) (hscalar : x.ty.isScalar = true) (hform : x.blank = a.form)
    {f : IndexEnv → Rat}
    (hf : ∀ ρ : IndexEnv, (∀ v ∈ x.loose, ρ v < I.size v.domain) →
      I.num (I.prepared st₁ σ) x ρ = f ρ)
    {ρ : IndexEnv} (hρ : ∀ v ∈ z.loose, ρ v < I.size v.domain) :
    I.num (I.prepared st' σ) z ρ = I.settled a f ρ := by
  unfold settled
  rw [← hform, Expr.isIndexed_blank, Expr.reductionVars_blank]
  cases hs with
  | read hi =>
    rw [if_pos hi]
    exact hf ρ hρ
  | spilled hi hspill =>
    rw [if_neg (by simp [hi])]
    cases hspill with
    | copied hwhole => exact absurd hwhole (by simp [Ty.isWhole, hscalar])
    | hoisted _ =>
      obtain ⟨hc, hie⟩ := Expr.isPolynomial_shape hx
      rw [hoist_wrapped hc hie, Transformed.value_replace] at hρ ⊢
      -- the temporary is read where the free index variables stand
      have hfree : I.InRange ρ x.freeIndexVars := hρ
      unfold num
      rw [Expr.index, Interp.eval, eval_temporary I (hw.build hscalar _), Value.comp_scalar,
        comp_wrapped hfree]
      apply sumOver_congr_range
      intro ρ' hout hin
      apply hf ρ'
      intro v hv
      by_cases hvf : v.isFree = true
      · have hnot : v ∉ x.reductionVars := fun hmem => by
          simp [(Expr.mem_reductionVars.1 hmem).2] at hvf
        rw [hout v hnot]
        exact hfree v (Expr.mem_freeIndexVars.2 ⟨hv, hvf⟩)
      · exact hin v (Expr.mem_reductionVars.2 ⟨hv, by simpa using hvf⟩)

end Interp

/-! ### Flattened polynomials -/

section

variable {β : Type} {I : Interp β} {e x : Expr} {st st' : Flattener}

/-- What a polynomial is flattened to, up to variables. -/
theorem FlattensTo.polynomial (h : FlattensTo e st x st') (he : e.isPolynomial true = true)
    (hw : e.WellShaped) : x.blank = e.form ∧ x.isPolynomial false = true ∧
      x.LooseWithin e.freeIndexVars := by
  have hform := h.blank (Expr.contained_of_isPolynomial (Γ := []) he hw)
  refine ⟨hform, ?_, fun v hv => ?_⟩
  · rw [← Expr.isPolynomial_blank, hform]
    exact (Expr.isPolynomial_form he hw).1
  · rw [← Expr.loose_blank, hform] at hv
    exact Expr.looseWithin_form he hw (fun v hv hf => Expr.mem_freeIndexVars.2 ⟨hv, hf⟩) v hv

/-- An operand of a sum that is flattened and then settled, followed from the number that is left of
it. -/
theorem FlattensTo.num_settled {a z : Expr} {st₁ : Flattener} {σ : Store β}
    (hx : FlattensTo a st x st₁) (hxs : Settles x st₁ z st') (ha : a.isPolynomial true = true)
    (hw : a.WellShaped) (hs : a.ty.isScalar = true) {f : IndexEnv → Rat}
    (hf : ∀ ρ : IndexEnv, (∀ v ∈ x.loose, ρ v < I.size v.domain) →
      I.num (I.prepared st₁ σ) x ρ = f ρ)
    {ρ : IndexEnv} (hρ : ∀ v ∈ z.loose, ρ v < I.size v.domain) :
    I.num (I.prepared st' σ) z ρ = I.settled a f ρ := by
  obtain ⟨hform, hflat, _⟩ := hx.polynomial ha hw
  obtain ⟨hwx, hfit⟩ := hx.wellShaped hw
  exact Interp.num_settles hxs hflat hwx (hfit.isScalar_eq.trans hs) hform hf hρ

/-- Once what is pending has run, a flattened polynomial stands for the number that was left of
the polynomial. -/
theorem FlattensTo.num_eq_deferred (h : FlattensTo e st x st') (he : e.isPolynomial true = true)
    (hw : e.WellShaped) (hdims : e.ty.dims = []) (hd : e.Drawn st.nextId) (σ : Store β)
    {ρ : IndexEnv} (hρ : ∀ v ∈ x.loose, ρ v < I.size v.domain) :
    I.num (I.prepared st' σ) x ρ = I.deferred (I.prepared st σ) e ρ := by
  induction he using Expr.polynomial_induction generalizing st x st' ρ with
  | var ty vty v vs =>
    cases h with
    | indexed ht =>
      cases ht
      rfl
  | read ty rty rs b vs _ hb _ ih =>
    obtain ⟨⟨_, hvs⟩, hwt⟩ := Expr.everywhere_indexed.1 hw
    obtain ⟨hwb, hs, hsame, hlen⟩ := Expr.WellShaped.readBody hwt hvs
    have hdb := (Expr.over_indexExpr.1 (Expr.over_indexed.1 hd).2).2
    cases h with
    | indexed ht =>
      cases ht with
      | @indexExpr _ _ _ _ y _ hy =>
        obtain ⟨_, hflat, _⟩ := hy.polynomial hb hwb
        rw [Expr.readAt_indexExpr hlen] at hρ ⊢
        rw [Interp.num_substitute_flat hflat fun v _ => IndexEnv.bind_ofPairs]
        apply ih hy hwb (Ty.dims_of_isScalar hs) hdb
        intro v hv
        -- a variable of the body stands where its new name does, in the same dimension
        rw [IndexEnv.bind_ofPairs, ← (Renaming.keepsDomains_ofPairs hsame).apply v]
        exact hρ _ (Expr.apply_mem_loose_substitute hflat _ hv)
  | neg ty a _ ih =>
    obtain ⟨hty, hwa⟩ := Expr.everywhere_neg.1 hw
    replace hdims : ty.dims = [] := hdims
    cases h with
    | neg hx =>
      rw [Interp.num_neg hdims]
      exact congrArg (fun r => -r) (ih hx hwa (hty.symm.trans hdims) (Expr.over_neg.1 hd) hρ)
  | binary ty op a b _ ha hb _ iha ihb =>
    obtain ⟨hok, hwa, hwb⟩ := Expr.everywhere_binary.1 hw
    obtain ⟨hda, hdb⟩ : a.Drawn st.nextId ∧ b.Drawn st.nextId := Expr.over_binary.1 hd
    replace hdims : ty.dims = [] := hdims
    obtain ⟨hna, hnb⟩ := Expr.dims_of_binary hok hdims
    cases h with
    | @product _ _ _ _ _ x st₁ y _ hop hx hy =>
      -- what is put in front of the second factor does not matter to the first, nor the other way
      have hfirst : I.num (I.prepared st' σ) x ρ = I.deferred (I.prepared st σ) a ρ := by
        rw [Interp.num_of_agreeBelow (hx.drawn hda) (Interp.agreeBelow_flattensTo I hy σ)]
        exact iha hx hwa hna hda fun v hv => hρ v (List.mem_append_left _ hv)
      have hsecond : I.num (I.prepared st' σ) y ρ = I.deferred (I.prepared st σ) b ρ := by
        rw [← Interp.deferred_of_agreeBelow hb hdb (Interp.agreeBelow_flattensTo I hx σ)]
        exact ihb hy hwb hnb (hdb.mono hx.nextId_le) fun v hv => hρ v (List.mem_append_right _ hv)
      rw [Interp.num_binary hdims, Interp.deferred_product hop]
      exact congrArg₂ op.apply hfirst hsecond
    | @sum _ _ _ _ _ x st₁ z st₂ y st₃ w _ hop hsa hsb hx hxs hy hys =>
      have hle := Nat.le_trans hx.nextId_le hxs.nextId_le
      have hagreex := Interp.agreeBelow_settled I hx.nextId_le hxs
        (Interp.agreeBelow_flattensTo I hx σ)
      have hagreey := Interp.agreeBelow_settled I hy.nextId_le hys
        (Interp.agreeBelow_flattensTo I hy σ)
      have hfirst : I.num (I.prepared st' σ) z ρ =
          I.settled a (I.deferred (I.prepared st σ) a) ρ := by
        rw [Interp.num_of_agreeBelow (hxs.drawn (hx.drawn hda)) hagreey]
        exact hx.num_settled hxs ha hwa hsa (fun _ => iha hx hwa hna hda)
          fun v hv => hρ v (List.mem_append_left _ hv)
      have hsecond : I.num (I.prepared st' σ) w ρ =
          I.settled b (I.deferred (I.prepared st σ) b) ρ := by
        rw [← Interp.deferred_of_agreeBelow hb hdb hagreex]
        exact hy.num_settled hys hb hwb hsb (fun _ => ihb hy hwb hnb (hdb.mono hle))
          fun v hv => hρ v (List.mem_append_right _ hv)
      rw [Interp.num_binary hdims, Interp.deferred_sum hop]
      exact congrArg₂ op.apply hfirst hsecond

/-- A flattened index expression sums what is left of its body over all reductions that have come
together in it. -/
theorem FlattensTo.value_polynomial {ty : Ty} {rs : List IndexVar} {b : Expr}
    (h : FlattensTo (.indexExpr ty rs b) st x st') (hp : b.isPolynomial true = true)
    (hclosed : (Expr.indexExpr ty rs b).Closed) (hw : (Expr.indexExpr ty rs b).WellShaped)
    (hd : (Expr.indexExpr ty rs b).Drawn st.nextId) (σ : Store β) :
    I.value (I.prepared st' σ) x = .box I.size (rs.map IndexVar.domain) fun is =>
      sumOver I.size b.form.reductionVars (I.deferred (I.prepared st σ) b)
        (IndexEnv.bind (fun _ => 0) rs is) := by
  obtain ⟨⟨hs, _⟩, hwb⟩ := Expr.everywhere_indexExpr.1 hw
  cases h with
  | @indexExpr _ _ _ _ y _ hy =>
    obtain ⟨hform, _, hl⟩ := hy.polynomial hp hwb
    unfold Interp.value
    rw [Interp.eval, ← hform, Expr.reductionVars_blank]
    apply Value.box_congr
    intro is hbox
    apply sumOver_congr_range
    intro ρ hout hin
    refine hy.num_eq_deferred hp hwb (Ty.dims_of_isScalar hs) (Expr.over_indexExpr.1 hd).2 σ
      fun v hv => ?_
    by_cases hf : v.isFree = true
    · -- what is free in the body is bound, and within its dimension
      have hnot : v ∉ y.reductionVars := fun hmem => by
        simp [(Expr.mem_reductionVars.1 hmem).2] at hf
      have hmem : v ∈ rs := by
        have hb := (Expr.mem_freeIndexVars.1 (hl v hv hf)).1
        have hwithin := Expr.looseWithin_indexExpr.1 (Expr.closed_iff.1 hclosed) v hb hf
        simpa using hwithin
      rw [hout v hnot]
      exact Interp.InRange.bind (Γ := []) (by rintro v ⟨⟩) hbox v hmem
    · exact hin v (Expr.mem_reductionVars.2 ⟨hv, by simpa using hf⟩)

end

end TensorIR
