import TensorIR.Proofs.Runs

/-! # Settled expressions

An expression is *settled* when flattening has nothing left to do: no read can be inlined or
distributed, and every operand of a sum stands where it may stay.

**Key idea**: flattening makes expressions settled (`Flattens.settled`) and leaves settled
expressions alone (`Flattens.of_settled`). So although flattening goes over nodes it has just
made, there is nothing it does twice: the second time over a part that is flattened already, it
only passes through.
-/

namespace TensorIR

namespace Expr

/-- An operand of a sum that flattening leaves in place: an indexed read, or an expression without
any, as long as it is not a tensor. -/
def OperandSettled (a : Expr) : Prop :=
  a.isIndexed = true ∨ (a.containsIndexed = false ∧ a.ty.isWhole = false)

/-- What is asked of a single node. -/
def SettledNode : Expr → Prop
  | .indexed _ t vs => t.isIndexExpr = false ∧ t.distributeIndex? vs = none
  | .binary _ op a b => op.isSum = true → a.OperandSettled ∧ b.OperandSettled
  | _ => True

/-- There is nothing left to flatten. -/
def Settled (e : Expr) : Prop := e.Everywhere SettledNode

theorem Settled.child {e c : Expr} (h : e.Settled) (hc : c ∈ e.children) : c.Settled :=
  Everywhere.child h hc

end Expr

/-! ### Hoisting -/

/-- An index expression is bound as it is. -/
theorem hoist_indexExpr (ty : Ty) (rs : List IndexVar) (b : Expr) (st : Flattener) :
    st.hoist (.indexExpr ty rs b) =
      (.replace ((Expr.ofVar (st.bindTemporary (.indexExpr ty rs b)).1).index rs),
        (st.bindTemporary (.indexExpr ty rs b)).2) := by
  unfold Flattener.hoist
  rw [if_pos (Expr.containsIndexed_indexExpr ty rs b)]

/-- Anything else that reads a tensor through index variables is wrapped in an index expression. -/
theorem hoist_wrapped {a : Expr} (hc : a.containsIndexed = true) (hi : a.isIndexExpr = false)
    (st : Flattener) :
    st.hoist a =
      (.replace ((Expr.ofVar (st.bindTemporary (.build a.freeIndexVars a)).1).index
        a.freeIndexVars), (st.bindTemporary (.build a.freeIndexVars a)).2) := by
  unfold Flattener.hoist
  rw [if_pos hc]
  cases a with
  | indexExpr => cases hi
  | _ => rfl

/-- A scalar without such reads stays in place. -/
theorem Flattening.hoist_of_plain {a : Expr} (hc : a.containsIndexed = false)
    (hs : a.ty.isScalar = true) (st : Flattener) : st.hoist a = (.keep a, st) := by
  unfold Flattener.hoist
  rw [if_neg (by simp [hc]), if_pos hs]

/-- Anything else without such reads is bound as it is, and not read through index variables. -/
theorem hoist_of_not_isScalar {a : Expr} (hc : a.containsIndexed = false)
    (hs : a.ty.isScalar = false) (st : Flattener) :
    st.hoist a = (.replace (.ofVar (st.bindTemporary a).1), (st.bindTemporary a).2) := by
  unfold Flattener.hoist
  rw [if_neg (by simp [hc]), if_neg (by simp [hs])]

/-- The ways to hoist an expression: index expressions and the rest with indexed reads, tensors and
scalars without. -/
@[elab_as_elim]
theorem Flattener.hoist_cases (st : Flattener) {motive : Expr → Prop}
    (built : ∀ ty vs b, st.hoist (.indexExpr ty vs b) =
      (.replace ((Expr.ofVar (st.bindTemporary (.indexExpr ty vs b)).1).index vs),
        (st.bindTemporary (.indexExpr ty vs b)).2) → motive (.indexExpr ty vs b))
    (wrapped : ∀ a : Expr, a.containsIndexed = true → a.isIndexExpr = false → st.hoist a =
      (.replace ((Expr.ofVar (st.bindTemporary (.build a.freeIndexVars a)).1).index
        a.freeIndexVars), (st.bindTemporary (.build a.freeIndexVars a)).2) → motive a)
    (named : ∀ a : Expr, a.containsIndexed = false → a.ty.isScalar = false → st.hoist a =
      (.replace (.ofVar (st.bindTemporary a).1), (st.bindTemporary a).2) → motive a)
    (kept : ∀ a : Expr, a.containsIndexed = false → a.ty.isScalar = true →
      st.hoist a = (.keep a, st) → motive a) (a : Expr) : motive a := by
  cases hc : a.containsIndexed with
  | true =>
    cases hi : a.isIndexExpr with
    | true =>
      cases a with
      | indexExpr ty vs b => exact built ty vs b (hoist_indexExpr ty vs b st)
      | _ => cases hi
    | false => exact wrapped a hc hi (hoist_wrapped hc hi st)
  | false =>
    cases hs : a.ty.isScalar with
    | true => exact kept a hc hs (Flattening.hoist_of_plain hc hs st)
    | false => exact named a hc hs (hoist_of_not_isScalar hc hs st)

/-! ### What flattening does to an unchanged expression -/

/-- An outcome that is not marked as changed is the expression that went in. -/
theorem Flattens.faithful {e : Expr} {st st' : Flattener} {out : Transformed Expr}
    (h : Flattens e st out st') : Transformed.Faithful e out := by
  cases Flattening.step_of_flattens h with
  | sum => exact Expr.faithful_rebuild _ _
  | inlined => exact Transformed.Faithful.replace _ _
  | distributed => exact Transformed.Faithful.replace _ _
  | kept => exact Expr.faithful_rebuild _ _
  | parts => exact Expr.faithful_rebuild _ _

namespace Flattening

theorem faithful_hoist (a : Expr) (st : Flattener) :
    Transformed.Faithful a (st.hoist a).1 := by
  cases a using Flattener.hoist_cases st with
  | built ty vs b h | wrapped a _ _ h | named a _ _ h =>
    rw [h]
    exact Transformed.Faithful.replace _ _
  | kept a _ _ h =>
    rw [h]
    exact Transformed.Faithful.keep a

theorem Operand.faithful {a : Expr} {st st' : Flattener} {out : Transformed Expr}
    (h : Operand Flattens a st out st') : Transformed.Faithful a out := by
  cases h with
  | read hr _ => exact hr.faithful
  | @spilled mid st₁ back _ hr _ hspill =>
    intro hc
    obtain ⟨hmid, hback⟩ := Bool.or_eq_false_iff.1 hc
    rw [← hr.faithful hmid]
    cases hspill with
    | lifted => cases hback
    | hoisted => exact faithful_hoist _ _ hback

theorem rebuild_keep (e : Expr) {outs : List (Transformed Expr)}
    (h : ∀ out ∈ outs, out.changed = false) : e.rebuild outs = .keep e := by
  unfold Expr.rebuild
  rw [if_neg]
  rw [Transformed.anyChanged_eq_false_iff.2 h]
  exact Bool.false_ne_true

/-- An operand that may stay in place does. -/
theorem Operand.of_settled {a : Expr} {st st' : Flattener} {out : Transformed Expr}
    (h : Operand (fun e st out st' => e.Settled → out = .keep e ∧ st' = st) a st out st')
    (ha : a.Settled) (hop : a.OperandSettled) (hs : a.ty.isScalar = true) :
    out.changed = false ∧ st' = st := by
  cases h with
  | read hr hi =>
    obtain ⟨rfl, rfl⟩ := hr ha
    exact ⟨rfl, rfl⟩
  | spilled hr hi hspill =>
    -- no indexed read, so it is without any, and hoisting has nothing to take out
    obtain ⟨rfl, rfl⟩ := hr ha
    obtain ⟨hc, hw⟩ := hop.resolve_left (by simpa using hi)
    cases hspill with
    | lifted hw' => exact absurd hw' (by simp [hw])
    | hoisted =>
      rw [Transformed.value_keep, hoist_of_plain hc hs]
      exact ⟨rfl, rfl⟩

end Flattening

/-- Flattening a settled expression does nothing. -/
theorem Flattens.of_settled {e : Expr} {st st' : Flattener} {out : Transformed Expr}
    (h : Flattens e st out st') (he : e.Settled) : out = .keep e ∧ st' = st := by
  revert he
  refine Flattening.flattens_induction
    (P := fun e st out st' => e.Settled → out = .keep e ∧ st' = st) ?_ h
  intro e st out st' hstep he
  cases hstep with
  | @sum ty op a b st x st₁ y st₂ hop hsa hsb hx hy =>
    have hnode := he.root hop
    obtain ⟨hxc, rfl⟩ := (hx.imp fun e st out st' h => h.2).of_settled
      (he.child (by simp [Expr.children])) hnode.1 hsa
    obtain ⟨hyc, rfl⟩ := (hy.imp fun e st out st' h => h.2).of_settled
      (he.child (by simp [Expr.children])) hnode.2 hsb
    exact ⟨Flattening.rebuild_keep _ (by simp [hxc, hyc]), rfl⟩
  | @inlined ty t vs st out st' rty rs body hr hv hl =>
    -- the tensor of a settled read is no index expression
    obtain ⟨rfl, rfl⟩ := hr.2 (he.child (by simp [Expr.children]))
    have hi : t.isIndexExpr = false := he.root.1
    rw [Transformed.value_keep] at hv
    rw [hv] at hi
    cases hi
  | @distributed ty t vs st out st₁ d out' st₂ hr hi hd hr' =>
    -- nor can the read be distributed
    obtain ⟨rfl, rfl⟩ := hr.2 (he.child (by simp [Expr.children]))
    have hnone : t.distributeIndex? vs = none := he.root.2
    rw [Transformed.value_keep] at hd
    rw [hd] at hnone
    cases hnone
  | @kept ty t vs st out st' hr hi hd =>
    obtain ⟨rfl, rfl⟩ := hr.2 (he.child (by simp [Expr.children]))
    exact ⟨Flattening.rebuild_keep _ (by simp), rfl⟩
  | @parts e st outs st' hs hi hthreads =>
    -- every part comes back as it went in, so the node does too
    obtain ⟨houts, rfl⟩ := hthreads.unmoved (q := fun out => out.changed = false)
      fun c hc st out st' hr => by
        obtain ⟨rfl, rfl⟩ := hr.2 (he.child hc)
        exact ⟨rfl, rfl⟩
    exact ⟨Flattening.rebuild_keep _ houts, rfl⟩

/-! ### Renaming keeps expressions settled -/

namespace Expr

variable (ρ : Renaming)

/-- Whether a read can be distributed does not depend on the names of index variables. -/
theorem distributeIndex?_substitute_eq_none {t : Expr} {vs us : List IndexVar}
    (hlen : us.length = vs.length) (h : t.distributeIndex? vs = none) :
    (t.substitute ρ).value.distributeIndex? us = none := by
  cases t with
  | var ty v => rfl
  | prim ty op es => rw [value_substitute_prim]; rfl
  | indexed ty t vs => rw [value_substitute_indexed]; rfl
  | indexExpr ty vs b => rw [value_substitute_indexExpr]; rfl
  | neg ty a =>
    rw [value_substitute_neg]
    simp only [distributeIndex?, ty_substitute, hlen, Option.map_eq_none_iff] at h ⊢
    split_ifs at h ⊢
    rfl
  | binary ty op a b =>
    rw [value_substitute_binary]
    simp only [distributeIndex?, ty_substitute, hlen] at h ⊢
    split_ifs at h ⊢ <;> first | rfl | cases h

theorem containsIndexed_substitute (e : Expr) :
    (e.substitute ρ).value.containsIndexed = e.containsIndexed := by
  induction e generalizing ρ with
  | var ty v => rfl
  | prim ty op es ih =>
    rw [value_substitute_prim, containsIndexed_prim, containsIndexed_prim,
      any_containsIndexed_map fun e he => ih e he ρ]
  | indexed ty t vs ih =>
    rw [value_substitute_indexed, containsIndexed_indexed, containsIndexed_indexed]
  | indexExpr ty vs b ih =>
    rw [value_substitute_indexExpr, containsIndexed_indexExpr, containsIndexed_indexExpr]
  | neg ty a ih => rw [value_substitute_neg, containsIndexed_neg, containsIndexed_neg, ih]
  | binary ty op a b iha ihb =>
    rw [value_substitute_binary, containsIndexed_binary, containsIndexed_binary, iha, ihb]

theorem OperandSettled.substitute {a : Expr} (h : a.OperandSettled) :
    (a.substitute ρ).value.OperandSettled := by
  unfold OperandSettled at *
  rwa [isIndexed_substitute, containsIndexed_substitute, ty_substitute]

theorem Settled.substitute {e : Expr} {ρ : Renaming} (h : e.Settled) :
    (e.substitute ρ).value.Settled := by
  refine Everywhere.substitute (R := fun _ _ => True) h (fun _ _ _ => trivial) fun n ρ _ hn => ?_
  cases n with
  | var ty v => exact hn
  | prim ty op es => rw [value_substitute_prim]; trivial
  | indexed ty t vs =>
    rw [value_substitute_indexed]
    exact ⟨(isIndexExpr_substitute ρ t).trans hn.1,
      distributeIndex?_substitute_eq_none ρ (by simp) hn.2⟩
  | indexExpr ty vs b => rw [value_substitute_indexExpr]; trivial
  | neg ty a => rw [value_substitute_neg]; trivial
  | binary ty op a b =>
    rw [value_substitute_binary]
    exact fun hop => ⟨(hn hop).1.substitute ρ, (hn hop).2.substitute ρ⟩

end Expr

/-! ### Flattening makes expressions settled -/

namespace Flattening

theorem settled_ofVar (v : Var) : (Expr.ofVar v).Settled := Expr.everywhere_var.2 trivial

/-- A variable is read as it is. -/
theorem settled_index_ofVar (v : Var) (vs : List IndexVar) : ((Expr.ofVar v).index vs).Settled :=
  Expr.everywhere_indexed.2 ⟨⟨rfl, rfl⟩, settled_ofVar v⟩

/-- What is left in the place of a hoisted expression. -/
theorem settled_hoist {a : Expr} (ha : a.Settled)
    (hw : a.containsIndexed = false → a.ty.isWhole = false) (st : Flattener) :
    (st.hoist a).1.value.Settled ∧ (st.hoist a).1.value.OperandSettled := by
  cases a using Flattener.hoist_cases st with
  | built ty vs b h | wrapped a _ _ h =>
    rw [h]
    exact ⟨settled_index_ofVar _ _, .inl rfl⟩
  | named a hc _ h =>
    rw [h]
    exact ⟨settled_ofVar _, .inr ⟨Expr.containsIndexed_var _ _, hw hc⟩⟩
  | kept a hc _ h =>
    rw [h]
    exact ⟨ha, .inr ⟨hc, hw hc⟩⟩

end Flattening

/-- Flattening leaves an index expression one. -/
theorem Flattens.isIndexExpr {e : Expr} {st st' : Flattener} {out : Transformed Expr}
    (h : Flattens e st out st') (hi : e.isIndexExpr = true) : out.value.isIndexExpr = true := by
  cases Flattening.step_of_flattens h with
  | @parts e st outs st' hs hx hthreads =>
    cases e with
    | indexExpr ty vs b =>
      obtain _ | ⟨_, hnil⟩ := hthreads
      cases hnil
      unfold Expr.rebuild
      split <;> rfl
    | _ => cases hi
  | _ => cases hi

namespace Flattening

theorem settled_spills {a : Expr} {st st' : Flattener} {out : Transformed Expr}
    (h : Spills (fun e st out st' => Flattens e st out st' ∧ out.value.Settled) a st out st')
    (ha : a.Settled) : out.value.Settled ∧ out.value.OperandSettled := by
  cases h with
  | lifted hw hi hv hr =>
    refine settled_hoist hr.2 (fun hc => ?_) _
    -- the copy is an index expression still
    rw [Expr.containsIndexed_eq, hr.1.isIndexExpr rfl] at hc
    simp at hc
  | hoisted hw =>
    refine settled_hoist ha (fun hc => ?_) _
    -- a tensor is hoisted only if it is an index expression
    rw [Expr.containsIndexed_eq] at hc
    by_contra hwhole
    simp [hw (by simpa using hwhole)] at hc

theorem settled_operand {a : Expr} {st st' : Flattener} {out : Transformed Expr}
    (h : Operand (fun e st out st' => Flattens e st out st' ∧ out.value.Settled) a st out st') :
    out.value.Settled ∧ out.value.OperandSettled := by
  cases h with
  | read hr hi => exact ⟨hr.2, .inl hi⟩
  | spilled hr hi hspill =>
    have hback := settled_spills hspill hr.2
    exact hback

/-- Of a node that is neither a sum nor a read nothing is asked. -/
theorem settledNode_withChildren {e : Expr} (hs : e.isSum = false) (hi : e.isIndexed = false)
    (es : List Expr) : (e.withChildren es).SettledNode := by
  cases e with
  | indexed ty t vs => cases hi
  | binary ty op a b =>
    have hop : op.isSum = false := hs
    unfold Expr.withChildren
    split <;> simp_all [Expr.SettledNode]
  | _ =>
    unfold Expr.withChildren
    split <;> simp_all [Expr.SettledNode]

end Flattening

/-- Flattening makes expressions settled. -/
theorem Flattens.settled {e : Expr} {st st' : Flattener} {out : Transformed Expr}
    (h : Flattens e st out st') : out.value.Settled := by
  refine Flattening.flattens_induction (P := fun _ _ out _ => out.value.Settled) ?_ h
  intro e st out st' hstep
  cases hstep with
  | @sum ty op a b st x st₁ y st₂ hop hsa hsb hx hy =>
    have hx' := (hx.imp fun e st out st' h => h.1).faithful
    have hy' := (hy.imp fun e st out st' h => h.1).faithful
    rw [Expr.value_rebuild (e := .binary ty op a b) (.cons hx' (.cons hy' .nil))]
    have hxs := Flattening.settled_operand hx
    have hys := Flattening.settled_operand hy
    exact Expr.everywhere_binary.2 ⟨fun _ => ⟨hxs.2, hys.2⟩, hxs.1, hys.1⟩
  | @inlined ty t vs st out st' rty rs body hr hv hl =>
    have hout : out.value.Settled := hr.2
    rw [hv] at hout
    have hbody : body.Settled := hout.child (by simp [Expr.children])
    exact hbody.substitute
  | distributed hr hi hd hr' => exact hr'.2
  | @kept ty t vs st out st' hr hi hd =>
    rw [Expr.value_rebuild (e := .indexed ty t vs) (.cons hr.1.faithful .nil)]
    exact Expr.everywhere_indexed.2 ⟨⟨hi, hd⟩, hr.2⟩
  | @parts e st outs st' hs hx hthreads =>
    have houts := hthreads.forall₂ (P := fun c out => Transformed.Faithful c out ∧ out.value.Settled)
      fun _ _ _ _ _ h => ⟨h.1.faithful, h.2⟩
    have hvalues : ∀ c ∈ Transformed.values outs, c.Settled := by
      intro c hc
      obtain ⟨out, hout, rfl⟩ := List.mem_map.1 hc
      obtain ⟨_, _, _, hsettled⟩ := exists_of_mem_right houts hout
      exact hsettled
    rw [Expr.value_rebuild (houts.imp fun _ _ h => h.1)]
    refine Expr.everywhere_iff.2 ⟨Flattening.settledNode_withChildren hs hx _, ?_⟩
    rw [Expr.children_withChildren]
    · exact hvalues
    · simpa [Transformed.values] using houts.length_eq.symm

end TensorIR
