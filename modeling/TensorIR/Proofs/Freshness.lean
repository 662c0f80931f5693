import TensorIR.Proofs.LooseVars
import TensorIR.Proofs.Statements

/-! # Identities in supply

The identities of a program are drawn from a counter, so all of them are below it, and what a
flattener makes it makes with identities that occur nowhere yet.

**Key idea**: everything that occurs in a flattened expression occurs in the expression, or was
drawn on the way (`FlattensTo.over`). A run only moves the counter up, so identities stay below it
(`FlattensTo.drawn`), and whatever is drawn later is new.
-/

namespace TensorIR

namespace Expr

section

variable (p : Var → Prop) (q : IndexVar → Prop)

/-- The variables in a single node satisfy `p`, its index variables `q`. -/
def OverNode : Expr → Prop
  | .var _ v => p v
  | .indexed _ _ vs | .indexExpr _ vs _ => ∀ v ∈ vs, q v
  | _ => True

instance [DecidablePred p] [DecidablePred q] : DecidablePred (OverNode p q)
  | .var _ v => inferInstanceAs (Decidable (p v))
  | .indexed _ _ vs | .indexExpr _ vs _ => inferInstanceAs (Decidable (∀ v ∈ vs, q v))
  | .prim _ _ _ | .neg _ _ | .binary _ _ _ _ => inferInstanceAs (Decidable True)

/-- Every variable in the expression satisfies `p`, every index variable `q`. -/
def Over (e : Expr) : Prop := e.Everywhere (OverNode p q)

end

/-- Every identity in the expression is below `n`. -/
def Drawn (n : Nat) (e : Expr) : Prop := e.Over (·.id < n) (·.id < n)

instance (n : Nat) (e : Expr) : Decidable (e.Drawn n) :=
  inferInstanceAs (Decidable (e.Everywhere _))

/-- No index variable in the expression is reduced over. -/
def Unreduced (e : Expr) : Prop := e.Over (fun _ => True) (·.isFree = true)

instance (e : Expr) : Decidable e.Unreduced := inferInstanceAs (Decidable (e.Everywhere _))

section

variable {p p' : Var → Prop} {q q' : IndexVar → Prop} {n m : Nat} {e : Expr}

theorem Over.child {c : Expr} (h : e.Over p q) (hc : c ∈ e.children) : c.Over p q :=
  Everywhere.child h hc

theorem Over.imp (h : e.Over p q) (hp : ∀ v, p v → p' v) (hq : ∀ v, q v → q' v) :
    e.Over p' q' := by
  refine Everywhere.imp h fun node hnode => ?_
  cases node with
  | var ty v => exact hp v hnode
  | indexed ty t vs => exact fun v hv => hq v (hnode v hv)
  | indexExpr ty vs b => exact fun v hv => hq v (hnode v hv)
  | _ => trivial

theorem Over.of_forall (h : ∀ v, p v) : e.Over p fun _ => True := by
  intro node _
  cases node with
  | var ty v => exact h v
  | indexed ty t vs => exact fun _ _ => trivial
  | indexExpr ty vs b => exact fun _ _ => trivial
  | _ => trivial

theorem over_var {ty : Ty} {v : Var} : (Expr.var ty v).Over p q ↔ p v := everywhere_var

theorem over_prim {ty : Ty} {op : Prim} {es : List Expr} :
    (Expr.prim ty op es).Over p q ↔ ∀ e ∈ es, e.Over p q :=
  everywhere_prim.trans (and_iff_right trivial)

theorem over_indexed {ty : Ty} {t : Expr} {vs : List IndexVar} :
    (Expr.indexed ty t vs).Over p q ↔ (∀ v ∈ vs, q v) ∧ t.Over p q := everywhere_indexed

theorem over_indexExpr {ty : Ty} {b : Expr} {vs : List IndexVar} :
    (Expr.indexExpr ty vs b).Over p q ↔ (∀ v ∈ vs, q v) ∧ b.Over p q := everywhere_indexExpr

theorem over_neg {ty : Ty} {a : Expr} : (Expr.neg ty a).Over p q ↔ a.Over p q :=
  everywhere_neg.trans (and_iff_right trivial)

theorem over_binary {ty : Ty} {op : BinaryOp} {a b : Expr} :
    (Expr.binary ty op a b).Over p q ↔ a.Over p q ∧ b.Over p q :=
  everywhere_binary.trans (and_iff_right trivial)

theorem Over.of_mem_loose (h : e.Over p q) {v : IndexVar} (hv : v ∈ e.loose) : q v := by
  induction e with
  | var ty x => cases hv
  | prim ty op es ih =>
    obtain ⟨e, he, hl⟩ := mem_loose_prim.1 hv
    exact ih e he (h.child he) hl
  | indexed ty t vs ih =>
    rw [over_indexed] at h
    rw [loose, List.mem_append] at hv
    rcases hv with hv | hv
    · exact ih h.2 hv
    · exact h.1 v hv
  | indexExpr ty vs b ih => exact ih (over_indexExpr.1 h).2 (mem_loose_indexExpr.1 hv).1
  | neg ty a ih => exact ih (over_neg.1 h) hv
  | binary ty op a b iha ihb =>
    rw [over_binary] at h
    rw [loose, List.mem_append] at hv
    rcases hv with hv | hv
    · exact iha h.1 hv
    · exact ihb h.2 hv

theorem Over.substitute {ρ : Renaming} (h : e.Over p q) (hρ : ∀ v w, ρ v = some w → q w) :
    (e.substitute ρ).value.Over p q := by
  refine Everywhere.substitute (R := fun _ w => q w) h hρ fun n ρ hρ hn => ?_
  cases n with
  | var ty v => exact hn
  | prim ty op es => rw [value_substitute_prim]; trivial
  | indexed ty t vs =>
    rw [value_substitute_indexed]
    intro w hw
    obtain ⟨v, hv, rfl⟩ := List.mem_map.1 hw
    unfold Renaming.apply
    cases hρv : ρ v with
    | none => exact hn v hv
    | some w => exact hρ v w hρv
  | indexExpr ty vs b => rw [value_substitute_indexExpr]; exact hn
  | neg ty a => rw [value_substitute_neg]; trivial
  | binary ty op a b => rw [value_substitute_binary]; trivial

/-- Reading a tensor brings in the variables of the read only. -/
theorem Over.readAt {vs : List IndexVar} (hvs : ∀ v ∈ vs, q v) {t : Expr} (h : t.Over p q)
    (ty : Ty) : (t.readAt vs ty).Over p q := by
  revert h
  refine readAt_induction (P := fun t _ x => t.Over p q → x.Over p q) ?_ ?_ ?_ ?_ t ty
  · intro ty rty rs b hl h
    refine (over_indexExpr.1 h).2.substitute fun v w hw => hvs w ?_
    exact (List.of_mem_zip (Renaming.mem_of_ofPairs hw)).2
  · intro ty nty a hr ih h
    have ha := over_neg.1 h
    exact over_neg.2 (operandAt_of (fun _ => ha) fun hs => ih hs ha)
  · intro ty bty op a b hra hrb iha ihb h
    obtain ⟨ha, hb⟩ := over_binary.1 h
    exact over_binary.2 ⟨operandAt_of (fun _ => ha) fun hs => iha hs ha,
      operandAt_of (fun _ => hb) fun hs => ihb hs hb⟩
  · intro ty t h
    exact over_indexed.2 ⟨hvs, h⟩

theorem Drawn.mono (h : e.Drawn n) (hnm : n ≤ m) : e.Drawn m :=
  Over.imp h (fun _ hv => Nat.lt_of_lt_of_le hv hnm) fun _ hv => Nat.lt_of_lt_of_le hv hnm

end

end Expr

/-! ### What a flattener draws -/

/-- Fresh index variables have the identities that were next, and no reduction. -/
theorem Builder.id_indexVars (ds : List Dim) (b : Builder) :
    (∀ v ∈ ((Builder.indexVars none ds).run b).1, v.isFree = true ∧
      b.nextId ≤ v.id ∧ v.id < ((Builder.indexVars none ds).run b).2.nextId) ∧
    b.nextId ≤ ((Builder.indexVars none ds).run b).2.nextId := by
  induction ds generalizing b with
  | nil => exact ⟨by rintro v ⟨⟩, Nat.le_refl _⟩
  | cons d ds ih =>
    obtain ⟨hvs, hle⟩ := ih ((Builder.indexVar d none).run b).2
    have hnext : ((Builder.indexVar d none).run b).2.nextId = b.nextId + 1 := rfl
    rw [hnext] at hvs hle
    refine ⟨fun v hv => ?_, Nat.le_of_succ_le hle⟩
    -- the first has the next identity, the others come after it
    rcases List.mem_cons.1 hv with rfl | hv
    · exact ⟨rfl, Nat.le_refl _, hle⟩
    · exact ⟨(hvs v hv).1, Nat.le_of_succ_le (hvs v hv).2.1, (hvs v hv).2.2⟩

/-- Fresh index variables are distinct. -/
theorem Builder.nodup_indexVars (ds : List Dim) (b : Builder) :
    ((Builder.indexVars none ds).run b).1.Nodup := by
  induction ds generalizing b with
  | nil => exact List.nodup_nil
  | cons d ds ih =>
    refine List.nodup_cons.2 ⟨fun hmem => ?_, ih _⟩
    have hle := ((Builder.id_indexVars ds ((Builder.indexVar d none).run b).2).1 _ hmem).2.1
    exact absurd hle (Nat.not_succ_le_self _)

namespace Flattener

theorem nextId_le_hoist (a : Expr) (st : Flattener) : st.nextId ≤ (st.hoist a).2.nextId := by
  cases a using hoist_cases st with
  | built ty vs b h | wrapped a _ _ h | named a _ _ h =>
    rw [h]
    exact Nat.le_succ _
  | kept a _ _ h => exact Nat.le_of_eq (by rw [h])

/-- Whatever is drawn between two states satisfies `p`, or `q` if it is an index variable. -/
structure Draws (p : Var → Prop) (q : IndexVar → Prop) (st st' : Flattener) : Prop where
  var : ∀ v : Var, st.nextId ≤ v.id → v.id < st'.nextId → p v
  indexVar : ∀ v : IndexVar, v.isFree = true → st.nextId ≤ v.id → v.id < st'.nextId → q v

variable {p : Var → Prop} {q : IndexVar → Prop} {st st₁ st' : Flattener}

theorem Draws.left (h : Draws p q st st') (hle : st₁.nextId ≤ st'.nextId) : Draws p q st st₁ :=
  ⟨fun v h₁ h₂ => h.var v h₁ (Nat.lt_of_lt_of_le h₂ hle),
    fun v hf h₁ h₂ => h.indexVar v hf h₁ (Nat.lt_of_lt_of_le h₂ hle)⟩

theorem Draws.right (h : Draws p q st st') (hle : st.nextId ≤ st₁.nextId) : Draws p q st₁ st' :=
  ⟨fun v h₁ h₂ => h.var v (Nat.le_trans hle h₁) h₂,
    fun v hf h₁ h₂ => h.indexVar v hf (Nat.le_trans hle h₁) h₂⟩

end Flattener

section

variable {p : Var → Prop} {q : IndexVar → Prop} {st st' : Flattener} {a x : Expr}

open Flattener (Draws)

/-- What is left of a hoisted expression reads at most the temporary just made. -/
theorem Expr.Over.hoist (h : a.Over p q) (hd : Draws p q st (st.hoist a).2) :
    (st.hoist a).1.value.Over p q := by
  -- the variables a temporary is read through are those of what is bound
  have hread : ∀ (value : Expr) (vs : List IndexVar), (∀ v ∈ vs, q v) →
      Draws p q st (st.bindTemporary value).2 →
      ((Expr.ofVar (st.bindTemporary value).1).index vs).Over p q := by
    intro value vs hvs hd
    exact over_indexed.2 ⟨hvs, over_var.2 (hd.var _ (Nat.le_refl _) (Nat.lt_succ_self _))⟩
  cases a using Flattener.hoist_cases st with
  | built ty vs b heq =>
    rw [heq] at hd ⊢
    exact hread _ _ (over_indexExpr.1 h).1 hd
  | wrapped a _ _ heq =>
    rw [heq] at hd ⊢
    exact hread _ _ (fun v hv => h.of_mem_loose (mem_freeIndexVars.1 hv).1) hd
  | named a _ _ heq =>
    rw [heq] at hd ⊢
    exact over_var.2 (hd.var _ (Nat.le_refl _) (Nat.lt_succ_self _))
  | kept a _ _ heq =>
    rw [heq]
    exact h

theorem SpillsTo.nextId_le (h : SpillsTo a st x st') : st.nextId ≤ st'.nextId := by
  cases h with
  | @copied vs b hw hi hv =>
    have hle := (Builder.id_indexVars a.ty.dims st.toBuilder).2
    rw [hv] at hle
    exact Nat.le_trans hle (Flattener.nextId_le_hoist _ { st with toBuilder := b })
  | hoisted hw => exact Flattener.nextId_le_hoist a st

theorem SpillsTo.over (h : SpillsTo a st x st') (ha : a.Over p q) (hd : Draws p q st st') :
    x.Over p q := by
  cases h with
  | @copied vs b hw hi hv =>
    obtain ⟨hids, hle⟩ := Builder.id_indexVars a.ty.dims st.toBuilder
    rw [hv] at hids hle
    have hle' := Flattener.nextId_le_hoist (a.copyAt vs) { st with toBuilder := b }
    have hd' : Draws p q { st with toBuilder := b } (Flattener.hoist _ _).2 := hd.right hle
    have hvs : ∀ v ∈ vs, q v := fun v hv =>
      hd.indexVar v (hids v hv).1 (hids v hv).2.1 (Nat.lt_of_lt_of_le (hids v hv).2.2 hle')
    have hcopy : (a.copyAt vs).Over p q := Expr.over_indexExpr.2 ⟨hvs, ha.readAt hvs _⟩
    exact hcopy.hoist hd'
  | hoisted hw => exact ha.hoist hd

theorem Settles.nextId_le (h : Settles a st x st') : st.nextId ≤ st'.nextId := by
  cases h with
  | read hi => exact Nat.le_refl _
  | spilled hi hspill => exact hspill.nextId_le

theorem Settles.over (h : Settles a st x st') (ha : a.Over p q) (hd : Draws p q st st') :
    x.Over p q := by
  cases h with
  | read hi => exact ha
  | spilled hi hspill => exact hspill.over ha hd

/-- One after another, runs move the counter up. -/
theorem Flattening.Threads.nextId_le {α : Type} {R : α → Flattener → α → Flattener → Prop}
    {es xs : List α} (h : Flattening.Threads R es st xs st')
    (hR : ∀ e ∈ es, ∀ st x st', R e st x st' → st.nextId ≤ st'.nextId) :
    st.nextId ≤ st'.nextId :=
  h.preserves (I := fun st₁ => st.nextId ≤ st₁.nextId)
    (fun e he _ _ _ hr hst => Nat.le_trans hst (hR e he _ _ _ hr)) (Nat.le_refl _)

/-- A run moves the counter up. -/
theorem FlattensTo.nextId_le {e : Expr} (h : FlattensTo e st x st') : st.nextId ≤ st'.nextId := by
  induction h with
  | var => exact Nat.le_refl _
  | prim _ ih => exact ih.nextId_le fun _ _ _ _ _ ⟨_, hle⟩ => hle
  | indexed _ ih => exact ih
  | indexExpr _ ih => exact ih
  | neg _ ih => exact ih
  | product _ _ _ ihx ihy => exact Nat.le_trans ihx ihy
  | sum _ _ _ _ hxs _ hys ihx ihy =>
    exact Nat.le_trans (Nat.le_trans ihx hxs.nextId_le) (Nat.le_trans ihy hys.nextId_le)

/-- Several expressions, one after another. -/
theorem Flattening.Threads.over {R : Expr → Flattener → Expr → Flattener → Prop}
    {es xs : List Expr} (h : Flattening.Threads R es st xs st')
    (hR : ∀ e ∈ es, ∀ st x st', R e st x st' → st.nextId ≤ st'.nextId ∧
      (e.Over p q → Draws p q st st' → x.Over p q))
    (hes : ∀ e ∈ es, e.Over p q) (hd : Draws p q st st') : ∀ x ∈ xs, x.Over p q := by
  induction h with
  | nil => rintro x ⟨⟩
  | @cons e st x st₁ es xs st₂ hr hrest ih =>
    obtain ⟨hle, hover⟩ := hR e (by simp) _ _ _ hr
    have hle' := hrest.nextId_le fun e he st x st' hr => (hR e (by simp [he]) st x st' hr).1
    have hx := hover (hes e (by simp)) (hd.left hle')
    have hxs := ih (fun e h => hR e (by simp [h])) (fun e h => hes e (by simp [h])) (hd.right hle)
    simpa using ⟨hx, hxs⟩

/-- What occurs in a flattened expression occurred in the expression or was drawn on the way. -/
theorem FlattensTo.over {e : Expr} (h : FlattensTo e st x st') (he : e.Over p q)
    (hd : Draws p q st st') : x.Over p q := by
  induction h with
  | var => exact he
  | prim _ ih =>
    refine Expr.over_prim.2 (ih.over (fun e _ st x st' hr => ?_) (Expr.over_prim.1 he) hd)
    obtain ⟨hr, hover⟩ := hr
    exact ⟨hr.nextId_le, hover⟩
  | indexed ht ih =>
    obtain ⟨hvs, ht'⟩ := Expr.over_indexed.1 he
    exact (ih ht' hd).readAt hvs _
  | indexExpr hb ih =>
    obtain ⟨hvs, hb'⟩ := Expr.over_indexExpr.1 he
    exact Expr.over_indexExpr.2 ⟨hvs, ih hb' hd⟩
  | neg ha ih => exact Expr.over_neg.2 (ih (Expr.over_neg.1 he) hd)
  | product hop hx hy ihx ihy =>
    obtain ⟨ha, hb⟩ := Expr.over_binary.1 he
    have hx' := ihx ha (hd.left hy.nextId_le)
    have hy' := ihy hb (hd.right hx.nextId_le)
    exact Expr.over_binary.2 ⟨hx', hy'⟩
  | sum hop hsa hsb hx hxs hy hys ihx ihy =>
    obtain ⟨ha, hb⟩ := Expr.over_binary.1 he
    -- what is drawn is drawn for one operand or for the other
    have hdx := hd.left (Nat.le_trans hy.nextId_le hys.nextId_le)
    have hdy := hd.right (Nat.le_trans hx.nextId_le hxs.nextId_le)
    have hx' := ihx ha (hdx.left hxs.nextId_le)
    have hy' := ihy hb (hdy.left hys.nextId_le)
    exact Expr.over_binary.2 ⟨hxs.over hx' (hdx.right hx.nextId_le),
      hys.over hy' (hdy.right hy.nextId_le)⟩

theorem ActualTo.nextId_le (h : ActualTo a st x st') : st.nextId ≤ st'.nextId := by
  cases h with
  | kept hx _ => exact hx.nextId_le
  | spilled hx _ _ hspill => exact Nat.le_trans hx.nextId_le hspill.nextId_le

/-- Elements that are treated from a state on meet states no earlier than it. -/
theorem Flattening.Threads.of_le {α : Type} {R : α → Flattener → α → Flattener → Prop}
    {es xs : List α} (h : Flattening.Threads R es st xs st')
    (hle : ∀ e ∈ es, ∀ st x st', R e st x st' → st.nextId ≤ st'.nextId) :
    Flattening.Threads (fun e st₁ x st₂ => st.nextId ≤ st₁.nextId ∧ R e st₁ x st₂) es st xs st' := by
  induction h with
  | nil => exact .nil
  | @cons e st x st₁ es xs st₂ hr _ ih =>
    have hst₁ : st.nextId ≤ st₁.nextId := hle e (by simp) _ _ _ hr
    have htail := ih fun e h => hle e (by simp [h])
    refine .cons ⟨Nat.le_refl _, hr⟩ (htail.imp fun e _ st₂ x st₃ hr => ?_)
    exact ⟨Nat.le_trans hst₁ hr.1, hr.2⟩

/-- A statement moves the counter up. -/
theorem StmtFlattensTo.nextId_le {s s' : Stmt} (h : StmtFlattensTo s st s' st') :
    st.nextId ≤ st'.nextId := by
  revert st s' st' h
  refine Stmt.children_induction
    (motive := fun s => ∀ {st s' st'}, StmtFlattensTo s st s' st' → st.nextId ≤ st'.nextId) ?_ s
  intro s ih st s' st' h
  cases h with
  | call hthreads =>
    exact hthreads.nextId_le fun _ _ _ _ _ hr => hr.nextId_le
  | parts _ hexprs hstmts =>
    have hle := hexprs.nextId_le fun _ _ _ _ _ hr => hr.nextId_le
    exact Nat.le_trans hle (hstmts.nextId_le fun c hc _ _ _ hr => ih c hc hr)

/-- The identities in what a run returns are below the counter that it leaves. -/
theorem FlattensTo.drawn {e : Expr} (h : FlattensTo e st x st') (he : e.Drawn st.nextId) :
    x.Drawn st'.nextId :=
  h.over (he.mono h.nextId_le) ⟨fun _ _ hv => hv, fun _ _ _ hv => hv⟩

theorem Settles.drawn (h : Settles a st x st') (ha : a.Drawn st.nextId) : x.Drawn st'.nextId :=
  h.over (ha.mono h.nextId_le) ⟨fun _ _ hv => hv, fun _ _ _ hv => hv⟩

/-- Flattening an expression without reductions makes none. -/
theorem FlattensTo.unreduced {e : Expr} (h : FlattensTo e st x st') (he : e.Unreduced) :
    x.Unreduced :=
  h.over he ⟨fun _ _ _ => trivial, fun _ hf _ _ => hf⟩

end

end TensorIR
