import Mathlib.Algebra.BigOperators.Group.Finset.Sigma
import Mathlib.Algebra.BigOperators.Ring.Finset
import Mathlib.Algebra.Order.Ring.Rat
import TensorIR.Proofs.Evaluation

/-! # Sums over index variables

The laws of `sumOver`: the order of the variables does not matter (`sumOver_perm`), sums respect
addition, and a product of two sums is a sum of products if neither factor depends on the
variables of the other sum (`sumOver_mul`).

**Key idea**: a sum puts each of its variables at every place within its dimension, so where they
stood before does not matter, and the summands only have to be compared where they stand within
their dimensions (`sumOver_congr_range`).
-/

namespace TensorIR

open Finset (range)

theorem IndexEnv.set_comm {r r' : IndexVar} (h : r ≠ r') (ρ : IndexEnv) (i j : Nat) :
    (ρ.set r i).set r' j = (ρ.set r' j).set r i := by
  funext v
  unfold IndexEnv.set
  by_cases hr : v = r
  · by_cases hr' : v = r'
    · exact absurd (hr.symm.trans hr') h
    · rw [if_neg hr', if_pos hr, if_pos hr]
  · rw [if_neg hr, if_neg hr]

theorem IndexEnv.set_set (r : IndexVar) (ρ : IndexEnv) (i j : Nat) :
    (ρ.set r i).set r j = ρ.set r j := by
  funext v
  unfold IndexEnv.set
  split <;> rfl

/-- The function does not depend on where these variables stand. -/
def Ignores (rs : List IndexVar) (f : IndexEnv → Rat) : Prop :=
  ∀ r ∈ rs, ∀ ρ i, f (ρ.set r i) = f ρ

section

variable {size : Dim → Nat} {rs rs' : List IndexVar} {f g : IndexEnv → Rat}

theorem sumOver_cons (r : IndexVar) (rs : List IndexVar) (f : IndexEnv → Rat) (ρ : IndexEnv) :
    sumOver size (r :: rs) f ρ = ∑ i ∈ range (size r.domain), sumOver size rs f (ρ.set r i) := by
  rw [sumOver]
  exact (Multiset.sum_coe _).symm

theorem sumOver_append (rs rs' : List IndexVar) (f : IndexEnv → Rat) (ρ : IndexEnv) :
    sumOver size (rs ++ rs') f ρ = sumOver size rs (sumOver size rs' f) ρ := by
  induction rs generalizing ρ with
  | nil => rfl
  | cons r rs ih =>
    rw [List.cons_append, sumOver_cons, sumOver_cons]
    exact Finset.sum_congr rfl fun i _ => ih _

/-- Where the variables of a sum stood before it does not matter. -/
theorem sumOver_congr_range {ρ : IndexEnv}
    (h : ∀ ρ' : IndexEnv, (∀ v, v ∉ rs → ρ' v = ρ v) → (∀ v ∈ rs, ρ' v < size v.domain) →
      f ρ' = g ρ') : sumOver size rs f ρ = sumOver size rs g ρ := by
  induction rs generalizing ρ with
  | nil => exact h ρ (fun _ _ => rfl) (by simp)
  | cons r rs ih =>
    rw [sumOver_cons, sumOver_cons]
    refine Finset.sum_congr rfl fun i hi => ih fun ρ' hout hin => h ρ' (fun v hv => ?_) fun v hv => ?_
    · rw [List.mem_cons, not_or] at hv
      rw [hout v hv.2]
      exact if_neg hv.1
    · by_cases hrs : v ∈ rs
      · exact hin v hrs
      · obtain rfl := (List.mem_cons.1 hv).resolve_right hrs
        rw [hout v hrs]
        exact (if_pos rfl).trans_lt (Finset.mem_range.1 hi)

/-- The order of the variables does not matter. -/
theorem sumOver_perm (h : rs.Perm rs') (f : IndexEnv → Rat) (ρ : IndexEnv) :
    sumOver size rs f ρ = sumOver size rs' f ρ := by
  induction h generalizing ρ with
  | nil => rfl
  | cons r _ ih =>
    rw [sumOver_cons, sumOver_cons]
    exact Finset.sum_congr rfl fun i _ => ih _
  | swap r r' rs =>
    by_cases hr : r = r'
    · rw [hr]
    · simp only [sumOver_cons]
      rw [Finset.sum_comm]
      apply Finset.sum_congr rfl
      intro i _
      apply Finset.sum_congr rfl
      intro j _
      rw [IndexEnv.set_comm (Ne.symm hr)]
  | trans _ _ ih ih' => exact (ih ρ).trans (ih' ρ)

theorem sumOver_neg (ρ : IndexEnv) :
    sumOver size rs (fun ρ => -f ρ) ρ = -sumOver size rs f ρ := by
  induction rs generalizing ρ with
  | nil => rfl
  | cons r rs ih =>
    rw [sumOver_cons, sumOver_cons, ← Finset.sum_neg_distrib]
    exact Finset.sum_congr rfl fun i _ => ih _

/-- Sums respect addition and subtraction. -/
theorem sumOver_apply {op : BinaryOp} (hop : op.isSum = true) (ρ : IndexEnv) :
    sumOver size rs (fun ρ => op.apply (f ρ) (g ρ)) ρ =
      op.apply (sumOver size rs f ρ) (sumOver size rs g ρ) := by
  induction rs generalizing ρ with
  | nil => rfl
  | cons r rs ih =>
    rw [sumOver_cons, sumOver_cons, sumOver_cons, Finset.sum_congr rfl fun i _ => ih _]
    cases op with
    | add => exact Finset.sum_add_distrib
    | sub => exact Finset.sum_sub_distrib _ _
    | _ => cases hop

theorem Ignores.sumOver (h : Ignores rs f) (rs' : List IndexVar) :
    Ignores rs (sumOver size rs' f) := by
  intro r hr ρ i
  induction rs' generalizing ρ with
  | nil => exact h r hr ρ i
  | cons r' rs' ih =>
    rw [sumOver_cons, sumOver_cons]
    apply Finset.sum_congr rfl
    intro j _
    by_cases hrr : r = r'
    · rw [hrr, IndexEnv.set_set]
    · rw [IndexEnv.set_comm hrr]
      exact ih _

/-- A factor that does not depend on the variables of the sum. -/
theorem sumOver_mul_right (h : Ignores rs g) (ρ : IndexEnv) :
    sumOver size rs (fun ρ => f ρ * g ρ) ρ = sumOver size rs f ρ * g ρ := by
  induction rs generalizing ρ with
  | nil => rfl
  | cons r rs ih =>
    rw [sumOver_cons, sumOver_cons, Finset.sum_mul]
    apply Finset.sum_congr rfl
    intro i _
    rw [ih (fun r hr => h r (by simp [hr])), h r (by simp)]

/-- A product of sums is a sum of products. -/
theorem sumOver_mul (hf : Ignores rs' f) (hg : Ignores rs g) (ρ : IndexEnv) :
    sumOver size (rs ++ rs') (fun ρ => f ρ * g ρ) ρ =
      sumOver size rs f ρ * sumOver size rs' g ρ := by
  have hinner : TensorIR.sumOver size rs' (fun ρ => f ρ * g ρ) =
      fun ρ => f ρ * TensorIR.sumOver size rs' g ρ := by
    funext ρ
    rw [mul_comm (f ρ), ← sumOver_mul_right hf]
    exact congrArg (sumOver size rs' · ρ) (funext fun ρ => mul_comm _ _)
  rw [sumOver_append, hinner, sumOver_mul_right (hg.sumOver rs')]

/-- Binding other variables, at the places of yet others, may be done after the sum as well. -/
theorem sumOver_bind {us vs : List IndexVar} (h : ∀ r ∈ rs, r ∉ us ∧ r ∉ vs) (ρ : IndexEnv) :
    sumOver size rs (fun ρ => f (ρ.bind us (vs.map ρ))) ρ =
      sumOver size rs f (ρ.bind us (vs.map ρ)) := by
  induction rs generalizing ρ with
  | nil => rfl
  | cons r rs ih =>
    obtain ⟨hus, hvs⟩ := h r (by simp)
    rw [sumOver_cons, sumOver_cons]
    apply Finset.sum_congr rfl
    intro i _
    rw [ih (fun r hr => h r (by simp [hr]))]
    congr 1
    have hmap : vs.map (ρ.set r i) = vs.map ρ := by
      refine List.map_congr_left fun v hv => if_neg ?_
      rintro rfl
      exact hvs hv
    rw [hmap]
    -- the variable of the sum is not among those bound
    funext v
    by_cases hv : v = r
    · subst hv
      rw [IndexEnv.bind_of_not_mem hus, IndexEnv.set, IndexEnv.set, if_pos rfl, if_pos rfl]
    · rw [IndexEnv.set, if_neg hv]
      exact IndexEnv.bind_congr (if_neg hv)

end

end TensorIR
