import TensorIR.Flattening.Weight

/-! # Flattening comes to an end

The recursion of flattening goes through nodes that it has just made: distributing flattens the
distributed form of an already flattened tensor, and spilling flattens a lifted copy of an
already flattened operand. So it is run with a bound on its depth first, and this module shows
that a bound read off the expression is always enough.

**Key idea**: three things happen to the weight of an expression (`TensorIR.Flattening.Weight`).

* Distributing makes an expression lighter.
* Flattening never makes an expression heavier.
* Lifting an operand doubles its weight, but it happens only to an operand that was scalar and
  is no longer so. Only the inlining of a body does that, and inlining halves the weight.

Main statement: `flattenWithin_isSome`. Whatever the state, flattening within a depth of at
least the weight comes to an end.
-/

namespace TensorIR

/-! ### Flattening within a bound -/

/-- Actions of a flattener that may also give up, at a bound on the depth of the recursion. -/
abbrev BoundedM := ExceptT Error (StateT Flattener Option)

namespace Flattening

/-- Flattens an expression with at most `depth` nested steps. -/
def flattenWithin : Nat → Expr → BoundedM (Transformed Expr)
  | 0, _ => ExceptT.mk fun _ => none
  | depth + 1, e => step (flattenWithin depth) e

/-- From every state the action comes to an end, and a result it gives satisfies `p`. -/
def Ends {α : Type} (act : BoundedM α) (p : α → Prop) : Prop :=
  ∀ st, ∃ out, act.run.run st = some out ∧ ∀ a, out.1 = .ok a → p a

namespace Ends

variable {α β : Type} {p : α → Prop} {q : β → Prop}

theorem pure {a : α} (h : p a) : Ends (pure a) p := fun st =>
  ⟨(.ok a, st), rfl, fun _ h' => by cases h'; exact h⟩

theorem throw (e : Error) : Ends (throw e : BoundedM α) p := fun st =>
  ⟨(.error e, st), rfl, fun _ h' => by cases h'⟩

theorem modifyGet {f : Flattener → α × Flattener} (h : ∀ st, p (f st).1) :
    Ends (modifyGet f : BoundedM α) p := fun st =>
  ⟨(.ok (f st).1, (f st).2), rfl, fun _ h' => by cases h'; exact h st⟩

theorem bind {act : BoundedM α} {k : α → BoundedM β} (h : Ends act p)
    (hk : ∀ a, p a → Ends (k a) q) : Ends (act >>= k) q := by
  intro st
  obtain ⟨⟨r, st₁⟩, hrun, hp⟩ := h st
  have hbind : (act >>= k).run.run st =
      (match r with
        | .ok a => (k a).run.run st₁
        | .error e => some (.error e, st₁)) := by
    show (StateT.bind (act.run) _ st) = _
    simp only [StateT.bind]
    rw [show act.run st = some (r, st₁) from hrun]
    cases r <;> rfl
  cases r with
  | ok a =>
    obtain ⟨out, hout, h'⟩ := hk a (hp a rfl) st₁
    exact ⟨out, hbind.trans hout, h'⟩
  | error e => exact ⟨_, hbind, fun _ h' => by cases h'⟩

end Ends

/-- What flattening does to the weight: it never adds any, and where a scalar expression
becomes one that is not, it takes away more than half. -/
def Lightens (e : Expr) (out : Transformed Expr) : Prop :=
  out.value.weight ≤ e.weight ∧
    (e.ty.isScalar = true → out.value.ty.isScalar = false → 2 * out.value.weight + 2 ≤ e.weight)

/-- A result of the same type has only to be no heavier. -/
theorem Lightens.of_ty_eq {e : Expr} {out : Transformed Expr} (h : out.value.weight ≤ e.weight)
    (hty : out.value.ty = e.ty) : Lightens e out :=
  ⟨h, fun h1 h2 => by rw [hty, h1] at h2; cases h2⟩

/-! ### What each part of a step adds to the weight -/

theorem ends_build {α : Type} {act : BuildM α} {p : α → Prop}
    (h : ∀ b a, (act.run.run b).1 = .ok a → p a) : Ends (build act : BoundedM α) p := by
  refine Ends.bind (p := fun r => ∀ a, r = .ok a → p a) ?_ ?_
  · exact Ends.modifyGet fun st => h st.toBuilder
  · intro r hr
    cases r with
    | ok a => exact Ends.pure (hr a rfl)
    | error e => exact Ends.throw _

/-- The lifted copy of a tensor has two nodes more, one of which doubles its weight. -/
theorem weight_elementwise_copy {a e : Expr} {b : Builder}
    (h : ((Builder.elementwise .copy a).run.run b).1 = .ok e) : e.weight = 2 * a.weight + 1 := by
  unfold Builder.elementwise at h
  cases ht : a.ty.isTensor with
  | false => simp [ht] at h
  | true =>
    rw [ht] at h
    cases h
    show 2 * a.weight + 1 = _
    rfl

theorem weight_hoist_le (a : Expr) (st : Flattener) :
    (st.hoist a).1.value.weight ≤ a.weight := by
  unfold Flattener.hoist
  split
  · next h => exact Expr.two_le_weight_of_containsIndexed h
  · split
    · exact Nat.le_refl _
    · exact a.one_le_weight

theorem ends_requireScalar (op : BinaryOp) (a : Expr) :
    Ends (requireScalar op a : BoundedM Unit) fun _ => a.ty.isScalar = true := by
  unfold requireScalar
  cases h : a.ty.isScalar with
  | true => exact Ends.pure rfl
  | false => exact Ends.throw _

section

variable {flatten : Expr → BoundedM (Transformed Expr)} {n : Nat}
  (ih : ∀ e, e.weight < n → Ends (flatten e) (Lightens e))

include ih

theorem ends_spill {a : Expr} (h : a.ty.isScalar = false → 2 * a.weight + 1 < n) :
    Ends (spill flatten a) fun out =>
      out.value.weight ≤ if a.ty.isScalar then a.weight else 2 * a.weight + 1 := by
  unfold spill
  split
  · next hw =>
    have hs : a.ty.isScalar = false := by simp_all [Ty.isWhole]
    apply Ends.bind (ends_build fun _ _ => weight_elementwise_copy)
    intro whole hwhole
    apply Ends.bind (ih whole (by have := h hs; omega))
    intro out hout
    refine Ends.bind (p := fun read => read.value.weight ≤ out.value.weight)
      (Ends.modifyGet (weight_hoist_le out.value)) fun read hread => ?_
    refine Ends.pure ?_
    have := hout.1
    rw [hs]
    show read.value.weight ≤ 2 * a.weight + 1
    omega
  · refine Ends.modifyGet fun st => Nat.le_trans (weight_hoist_le a st) ?_
    split <;> omega

theorem ends_sumOperand {a : Expr} (hs : a.ty.isScalar = true) (h : a.weight < n) :
    Ends (sumOperand flatten a) fun out => out.value.weight ≤ a.weight := by
  apply Ends.bind (ih a h)
  intro out hout
  split
  · exact Ends.pure hout.1
  -- the operand was scalar; if it no longer is, it lost the weight that lifting it will add
  · refine Ends.bind (ends_spill ih fun hn => ?_) fun read hread => Ends.pure ?_
    · have := hout.2 hs hn
      omega
    · have := hout.1
      have := hout.2 hs
      cases hn : out.value.ty.isScalar <;> simp_all <;> omega

theorem ends_all {es : List Expr} (h : ∀ e ∈ es, e.weight < n) :
    Ends (all flatten es) fun outs =>
      outs.length = es.length ∧ Expr.weightAll (Transformed.values outs) ≤ Expr.weightAll es := by
  induction es with
  | nil => exact Ends.pure ⟨rfl, Nat.le_refl _⟩
  | cons e es ihes =>
    apply Ends.bind (ih e (h e (by simp)))
    intro out hout
    apply Ends.bind (ihes fun e' h' => h e' (List.mem_cons_of_mem e h'))
    intro outs houts
    refine Ends.pure ⟨by simp [houts.1], ?_⟩
    have h1 := hout.1
    have h2 := houts.2
    simp only [Transformed.values, List.map_cons, Expr.weightAll] at h2 ⊢
    omega

theorem ends_sum {ty : Ty} {op : BinaryOp} {a b : Expr}
    (h : (Expr.binary ty op a b).weight ≤ n) :
    Ends (sum flatten (.binary ty op a b) op a b) (Lightens (.binary ty op a b)) := by
  simp only [Expr.weight] at h
  apply Ends.bind (ends_requireScalar op a)
  intro _ ha
  apply Ends.bind (ends_requireScalar op b)
  intro _ hb
  apply Ends.bind (ends_sumOperand ih ha (by omega))
  intro x hx
  apply Ends.bind (ends_sumOperand ih hb (by omega))
  intro y hy
  refine Ends.pure (Lightens.of_ty_eq (Expr.weight_rebuild_le rfl ?_) (Expr.ty_rebuild _ _))
  simp only [Transformed.values, List.map, Expr.children, Expr.weightAll]
  omega

theorem ends_indexedRead {ty : Ty} {t : Expr} {vars : List IndexVar}
    (h : (Expr.indexed ty t vars).weight ≤ n) :
    Ends (indexedRead flatten (.indexed ty t vars) t vars) (Lightens (.indexed ty t vars)) := by
  have ht := t.one_le_weight
  simp only [Expr.weight] at h
  apply Ends.bind (ih t (by omega))
  intro out hout
  have hle := hout.1
  split
  · next rty resultVars body heq =>
    rw [heq] at hle
    simp only [Expr.weight] at hle
    have hsub := Expr.weight_substitute_le (.ofPairs (resultVars.zip vars)) body
    -- the read counted the body twice, so its loss pays for a body that is not scalar
    have hdone : Lightens (.indexed ty t vars)
        (.replace (body.substitute (.ofPairs (resultVars.zip vars))).value) := by
      constructor <;> simp only [Transformed.value_replace, Expr.weight] <;> omega
    split
    · exact Ends.pure hdone
    · exact Ends.throw _
  · split
    -- the distributed read is scalar, so flattening it falls under the bound again
    · next d hd =>
      obtain ⟨hscalar, hlt⟩ := Expr.distributeIndex?_lt hd
      refine Ends.bind (ih d (by omega)) fun out' hout' => Ends.pure ?_
      have h1 := hout'.1
      have h2 := hout'.2 hscalar
      constructor <;> simp only [Transformed.value_replace, Expr.weight] <;> grind
    · refine Ends.pure (Lightens.of_ty_eq (Expr.weight_rebuild_le rfl ?_) (Expr.ty_rebuild _ _))
      exact Nat.add_le_add_right hle 0

theorem ends_step {e : Expr} (h : e.weight ≤ n) : Ends (step flatten e) (Lightens e) := by
  unfold step
  split
  · exact ends_sum ih h
  · exact ends_sum ih h
  · exact ends_indexedRead ih h
  · refine Ends.bind (ends_all ih fun c hc => ?_) fun outs houts => ?_
    · have := Expr.weight_lt_of_mem_children hc
      omega
    · exact Ends.pure
        (Lightens.of_ty_eq (Expr.weight_rebuild_le houts.1 houts.2) (Expr.ty_rebuild _ _))

end

/-- A depth of at least the weight is enough, and the result is no heavier. -/
theorem ends_flattenWithin (depth : Nat) (e : Expr) (h : e.weight ≤ depth) :
    Ends (flattenWithin depth e) (Lightens e) := by
  induction depth generalizing e with
  | zero => have := e.one_le_weight; omega
  | succ depth ih =>
    exact ends_step (n := depth + 1) (fun e' h' => ih e' (by omega)) h

/-- Flattening within a depth of at least the weight comes to an end. -/
theorem flattenWithin_isSome {depth : Nat} {e : Expr} (h : e.weight ≤ depth) (st : Flattener) :
    ((flattenWithin depth e).run.run st).isSome = true := by
  obtain ⟨out, hout, _⟩ := ends_flattenWithin depth e h st
  rw [hout]
  rfl

end Flattening

end TensorIR
