import Mathlib.Data.Finset.Dedup
import TensorIR.Proofs.Reading
import TensorIR.Proofs.Scope

/-! # Polynomials in components of tensors

A *polynomial* is a scalar put together by addition, subtraction, multiplication and negation from
reads of variables and of index expressions over polynomials. Flattening makes a flat polynomial
of it, one without nested index expressions, and everything it does on the way can be told from
the form of the expression (`Expr.form`).

**Key idea**: flattening moves sums. Inlining brings the reduction variables of a nested index
expression into the polynomial around it, and spilling takes those of an operand out of it. What
was taken out and what was brought in is the difference between the reduction variables before and
after (`Expr.beyond`), and `Expr.SumsKept` says where such moves do no harm.
-/

namespace TensorIR

namespace Expr

/-- Whether the expression is a polynomial, with index expressions inside or not. -/
def isPolynomial (nested : Bool) : Expr → Bool
  | .indexed _ (.var _ _) _ => true
  | .indexed _ (.indexExpr _ _ b) _ => nested && b.isPolynomial nested
  | .neg _ a => a.isPolynomial nested
  | .binary _ op a b => op != .div && (a.isPolynomial nested && b.isPolynomial nested)
  | _ => false

/-- Induction over a polynomial: down to reads of variables, through nested index expressions. -/
theorem polynomial_induction {nested : Bool}
    {P : (e : Expr) → e.isPolynomial nested = true → Prop}
    (var : ∀ ty vty v vs, P (.indexed ty (.var vty v) vs) rfl)
    (read : ∀ ty rty rs b vs h hb, nested = true → P b hb →
      P (.indexed ty (.indexExpr rty rs b) vs) h)
    (neg : ∀ ty a h, P a h → P (.neg ty a) h)
    (binary : ∀ ty op a b h ha hb, op ≠ .div → P a ha → P b hb → P (.binary ty op a b) h)
    {e : Expr} (he : e.isPolynomial nested = true) : P e he := by
  -- the body of an index expression is two levels down from a read of it
  suffices h : (∀ h, P e h) ∧ ∀ ty rs b, e = .indexExpr ty rs b → ∀ h, P b h from h.1 he
  clear he
  induction e with
  | var ty v => exact ⟨(fun h => nomatch h), fun _ _ _ h => nomatch h⟩
  | prim ty op es _ => exact ⟨(fun h => nomatch h), fun _ _ _ h => nomatch h⟩
  | indexed ty t vs ih =>
    refine ⟨fun h => ?_, fun _ _ _ h => nomatch h⟩
    cases t with
    | var vty v => exact var _ _ _ _
    | indexExpr rty rs b =>
      obtain ⟨hn, hb⟩ := Bool.and_eq_true_iff.1 h
      exact read _ _ _ _ _ h hb hn (ih.2 _ _ _ rfl hb)
    | _ => cases h
  | indexExpr ty rs b ih =>
    refine ⟨(fun h => nomatch h), fun _ _ _ h hb => ?_⟩
    cases h
    exact ih.1 hb
  | neg ty a ih => exact ⟨fun h => neg ty a h (ih.1 h), fun _ _ _ h => nomatch h⟩
  | binary ty op a b iha ihb =>
    refine ⟨fun h => ?_, fun _ _ _ h => nomatch h⟩
    obtain ⟨hop, hab⟩ := Bool.and_eq_true_iff.1 h
    obtain ⟨ha, hb⟩ := Bool.and_eq_true_iff.1 hab
    exact binary _ _ _ _ h ha hb (by simpa using hop) (iha.1 ha) (ihb.1 hb)

/-! ### Flat polynomials -/

/-- Variables do not matter. -/
theorem isPolynomial_blank (nested : Bool) :
    (e : Expr) → e.blank.isPolynomial nested = e.isPolynomial nested
  | .var _ _ => rfl
  | .prim ty op es => by rw [blank_prim]; rfl
  | .indexed _ (.var _ _) _ => rfl
  | .indexed _ (.prim ty op es) vs => by rw [blank, blank_prim]; rfl
  | .indexed _ (.indexed _ _ _) _ => rfl
  | .indexed _ (.indexExpr _ _ b) _ => congrArg (nested && ·) (isPolynomial_blank nested b)
  | .indexed _ (.neg _ _) _ => rfl
  | .indexed _ (.binary _ _ _ _) _ => rfl
  | .indexExpr _ _ _ => rfl
  | .neg _ a => isPolynomial_blank nested a
  | .binary _ op a b => by
    rw [blank, isPolynomial, isPolynomial, isPolynomial_blank nested a, isPolynomial_blank nested b]

theorem isPolynomial_substitute {x : Expr} (h : x.isPolynomial false = true) (ρ : Renaming) :
    (x.substitute ρ).value.isPolynomial false = true := by
  induction h using polynomial_induction with
  | var ty vty v vs =>
    rw [value_substitute_indexed]
    rfl
  | read ty rty rs b vs _ _ hn => cases hn
  | neg ty a _ ih =>
    rw [value_substitute_neg]
    exact ih
  | binary ty op a b _ _ _ hop iha ihb =>
    rw [value_substitute_binary, isPolynomial, iha, ihb]
    simpa using hop

/-- In a flat polynomial nothing hides a new name. -/
theorem apply_mem_loose_substitute {x : Expr} (h : x.isPolynomial false = true) (ρ : Renaming)
    {v : IndexVar} (hv : v ∈ x.loose) : ρ.apply v ∈ (x.substitute ρ).value.loose := by
  induction h using polynomial_induction with
  | var ty vty w vs =>
    rw [value_substitute_indexed]
    exact List.mem_append_right _ (List.mem_map.2 ⟨v, hv, rfl⟩)
  | read ty rty rs b vs _ _ hn => cases hn
  | neg ty a _ ih =>
    rw [value_substitute_neg]
    exact ih hv
  | binary ty op a b _ _ _ _ iha ihb =>
    rw [value_substitute_binary]
    rcases List.mem_append.1 hv with hv | hv
    · exact List.mem_append_left _ (iha hv)
    · exact List.mem_append_right _ (ihb hv)

/-- A polynomial reads tensors through index variables, and is no index expression. -/
theorem isPolynomial_shape {nested : Bool} {e : Expr} (h : e.isPolynomial nested = true) :
    e.containsIndexed = true ∧ e.isIndexExpr = false := by
  induction h using polynomial_induction with
  | var => exact ⟨containsIndexed_indexed _ _ _, rfl⟩
  | read => exact ⟨containsIndexed_indexed _ _ _, rfl⟩
  | neg ty a _ ih => exact ⟨by rw [containsIndexed_neg, ih.1], rfl⟩
  | binary ty op a b _ _ _ _ iha _ =>
    exact ⟨by rw [containsIndexed_binary, iha.1, Bool.true_or], rfl⟩

/-- An operand of a sum is settled to the read of a temporary unless it is a read already. -/
theorem isPolynomial_settledForm {x : Expr} (h : x.isPolynomial false = true) :
    x.settledForm.isPolynomial false = true := by
  unfold settledForm
  split
  · exact h
  · obtain ⟨hc, hi⟩ := isPolynomial_shape h
    rw [hoist_wrapped hc hi]
    rfl

/-- A temporary is read through free index variables only. -/
theorem loose_settledForm {x : Expr} (h : x.isPolynomial false = true) :
    x.settledForm.loose = if x.isIndexed then x.loose else x.freeIndexVars := by
  unfold settledForm
  split
  · rfl
  · obtain ⟨hc, hi⟩ := isPolynomial_shape h
    rw [hoist_wrapped hc hi]
    rfl

/-- The read of a temporary stays within what the operand was within. -/
theorem LooseWithin.settledForm {Γ : List IndexVar} {x : Expr} (h : x.LooseWithin Γ)
    (hx : x.isPolynomial false = true) : x.settledForm.LooseWithin Γ := by
  intro v hv hf
  rw [loose_settledForm hx] at hv
  split at hv
  · exact h v hv hf
  · exact h v (mem_freeIndexVars.1 hv).1 hf

/-- What flattening makes of a polynomial is flat, and as scalar as the polynomial. -/
theorem isPolynomial_form {e : Expr} (h : e.isPolynomial true = true) (hw : e.WellShaped) :
    e.form.isPolynomial false = true ∧ (e.ty.isScalar = true → e.form.ty.isScalar = true) := by
  induction h using polynomial_induction with
  | var => exact ⟨rfl, fun hs => hs⟩
  | read ty rty rs b vs _ _ _ ih =>
    obtain ⟨⟨hty, hdims⟩, hwt⟩ := everywhere_indexed.1 hw
    obtain ⟨hwb, hs, _, hlen⟩ := WellShaped.readBody hwt hdims
    obtain ⟨hflat, hscalar⟩ := ih hwb
    rw [form, form, readAt_indexExpr hlen, ty_substitute]
    exact ⟨isPolynomial_substitute hflat _, fun _ => hscalar hs⟩
  | neg ty a _ ih => exact ⟨(ih (everywhere_neg.1 hw).2).1, fun hs => hs⟩
  | binary ty op a b _ _ _ hop iha ihb =>
    obtain ⟨_, hwa, hwb⟩ := everywhere_binary.1 hw
    have ha := (iha hwa).1
    have hb := (ihb hwb).1
    rw [form]
    split
    · refine ⟨?_, fun hs => hs⟩
      rw [isPolynomial, isPolynomial_settledForm ha, isPolynomial_settledForm hb]
      simpa using hop
    · refine ⟨?_, fun hs => hs⟩
      rw [isPolynomial, ha, hb]
      simpa using hop

/-- No operand of a sum becomes an index expression, and none is a tensor. -/
theorem contained_of_isPolynomial {e : Expr} {Γ : List IndexVar}
    (h : e.isPolynomial true = true) (hw : e.WellShaped) : e.Contained Γ := by
  induction h using polynomial_induction generalizing Γ with
  | var => trivial
  | read ty rty rs b vs _ _ _ ih =>
    exact ih (everywhere_indexExpr.1 (everywhere_indexed.1 hw).2).2
  | neg ty a _ ih => exact ih (everywhere_neg.1 hw).2
  | binary ty op a b _ ha hb _ iha ihb =>
    obtain ⟨hok, hwa, hwb⟩ := everywhere_binary.1 hw
    -- scalars that are no index expressions may be moved
    have hmove : ∀ a : Expr, a.isPolynomial true = true → a.WellShaped → a.ty.isScalar = true →
        a.form.Movable Γ := by
      intro a ha hwa hs
      obtain ⟨hflat, hscalar⟩ := isPolynomial_form ha hwa
      refine (movable_of_not_indexExpr (isPolynomial_shape hflat).2).2 (.inr ?_)
      simp [Ty.isWhole, hscalar hs]
    refine ⟨iha hwa, ihb hwb, fun hop => ?_⟩
    obtain ⟨hsa, hsb⟩ := (shapeOk_sum hop).1 hok
    exact ⟨hmove a ha hwa hsa, hmove b hb hwb hsb⟩

/-- Flattening a polynomial brings in no free index variables. -/
theorem looseWithin_form {e : Expr} {Γ : List IndexVar} (h : e.isPolynomial true = true)
    (hw : e.WellShaped) (hl : e.LooseWithin Γ) : e.form.LooseWithin Γ := by
  induction h using polynomial_induction generalizing Γ with
  | var => exact hl
  | read ty rty rs b vs _ _ _ ih =>
    obtain ⟨hlt, hvs⟩ := looseWithin_indexed.1 hl
    rw [form, looseWithin_readAt hvs, form, looseWithin_indexExpr]
    exact ih (everywhere_indexExpr.1 (everywhere_indexed.1 hw).2).2 (looseWithin_indexExpr.1 hlt)
  | neg ty a _ ih => exact ih (everywhere_neg.1 hw).2 hl
  | binary ty op a b _ ha hb _ iha ihb =>
    obtain ⟨_, hwa, hwb⟩ := everywhere_binary.1 hw
    obtain ⟨hla, hlb⟩ := looseWithin_binary.1 hl
    rw [form]
    split
    · exact looseWithin_binary.2 ⟨(iha hwa hla).settledForm (isPolynomial_form ha hwa).1,
        (ihb hwb hlb).settledForm (isPolynomial_form hb hwb).1⟩
    · exact looseWithin_binary.2 ⟨iha hwa hla, ihb hwb hlb⟩

/-! ### Reductions that are moved -/

/-- The reduction variables of `e` that `x` has not. -/
def beyond (e x : Expr) : List IndexVar := e.reductionVars.filter fun v => v ∉ x.reductionVars

section

variable {e x y a b : Expr} {v : IndexVar}

theorem mem_beyond : v ∈ e.beyond x ↔ v ∈ e.reductionVars ∧ v ∉ x.reductionVars := by
  unfold beyond
  rw [List.mem_filter, decide_eq_true_iff]

theorem nodup_beyond : (e.beyond x).Nodup := e.nodup_reductionVars.filter _

theorem reductionVars_blank (e : Expr) : e.blank.reductionVars = e.reductionVars := by
  unfold reductionVars
  rw [loose_blank]

theorem mem_reductionVars_binary {ty : Ty} {op : BinaryOp} :
    v ∈ (Expr.binary ty op a b).reductionVars ↔ v ∈ a.reductionVars ∨ v ∈ b.reductionVars := by
  rw [mem_reductionVars, mem_reductionVars, mem_reductionVars, loose, List.mem_append, or_and_right]

/-- What is taken out of `a`, or brought into it, when it becomes `x`, does not occur in `b`, nor in
what that becomes. -/
def Apart (a x b y : Expr) : Prop :=
  ∀ v ∈ a.beyond x ++ x.beyond a, v ∉ b.reductionVars ∧ v ∉ y.reductionVars

instance (a x b y : Expr) : Decidable (Apart a x b y) := inferInstanceAs (Decidable (∀ v ∈ _, _))

theorem Apart.swap (h : Apart a x b y) : Apart x a y b := by
  intro v hv
  exact (h v (List.mem_append.2 (List.mem_append.1 hv).symm)).symm

/-- What is taken out of `a`, or brought into it, when it becomes `x` is what is taken out of `b`,
or brought into it, when that becomes `y`. -/
def Alike (a x b y : Expr) : Prop :=
  (a.beyond x).toFinset = (b.beyond y).toFinset ∧ (x.beyond a).toFinset = (y.beyond b).toFinset

instance (a x b y : Expr) : Decidable (Alike a x b y) := inferInstanceAs (Decidable (_ ∧ _))

theorem Alike.swap (h : Alike a x b y) : Alike x a y b := ⟨h.2, h.1⟩

/-- Flattening keeps the scope of the reductions in a polynomial: what it moves out of one factor,
or into it, has nothing to do with the other factor, it treats both operands of a sum alike, and a
read of an index expression neither meets the reductions of its body nor loses its own. -/
def SumsKept : Expr → Prop
  | .indexed ty (.indexExpr rty rs b) vs =>
    b.SumsKept ∧ (∀ r ∈ rs, r.isFree = true) ∧ ∀ v ∈ vs, v.isFree = false →
      v ∉ b.form.loose ∧ v ∈ (Expr.indexed ty (.indexExpr rty rs b) vs).form.loose
  | .neg _ a => a.SumsKept
  | .binary _ op a b =>
    a.SumsKept ∧ b.SumsKept ∧
      if op.isSum then Alike a a.form.settledForm b b.form.settledForm
      else Apart a a.form b b.form ∧ Apart b b.form a a.form
  | _ => True

instance SumsKept.decidable : (e : Expr) → Decidable e.SumsKept
  | .indexed ty (.indexExpr rty rs b) vs =>
    have := SumsKept.decidable b
    inferInstanceAs (Decidable (b.SumsKept ∧ (∀ r ∈ rs, r.isFree = true) ∧
      ∀ v ∈ vs, v.isFree = false →
        v ∉ b.form.loose ∧ v ∈ (Expr.indexed ty (.indexExpr rty rs b) vs).form.loose))
  | .neg _ a => SumsKept.decidable a
  | .binary _ op a b =>
    have := SumsKept.decidable a
    have := SumsKept.decidable b
    inferInstanceAs (Decidable (a.SumsKept ∧ b.SumsKept ∧
      if op.isSum then Alike a a.form.settledForm b b.form.settledForm
      else Apart a a.form b b.form ∧ Apart b b.form a a.form))
  | .var _ _ | .prim _ _ _ | .indexExpr _ _ _ => inferInstanceAs (Decidable True)
  | .indexed _ (.var _ _) _ | .indexed _ (.prim _ _ _) _ | .indexed _ (.indexed _ _ _) _
  | .indexed _ (.neg _ _) _ | .indexed _ (.binary _ _ _ _) _ => inferInstanceAs (Decidable True)

end

end Expr

end TensorIR
