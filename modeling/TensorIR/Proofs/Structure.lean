import TensorIR.Proofs.Settled

/-! # Flattening follows the structure of expressions

The recursion of flattening goes through nodes that it has just made. This module gives it a form
that only goes down the tree: `FlattensTo` has one rule for each kind of node, and every
successful run follows them (`Flattens.to`).

**Key idea**: a flattened tensor is settled, so reading it through index variables is a plain
function of it (`Expr.readAt`): inlining, and distributing as far down as it goes. Everything
flattening does over again on the way passes through parts that are settled.
-/

namespace TensorIR

/-! ### Reading a settled tensor -/

namespace Expr

/-- Whether an operand takes part in a read: a scalar as it is, a tensor by being read itself. -/
def readable (vars : List IndexVar) (a : Expr) : Bool :=
  a.ty.isScalar || (a.ty.isTensor && a.ty.order == vars.length)

/-- The type of a readable operand when it is read. -/
def readTy (a : Expr) : Ty := if a.ty.isScalar then a.ty else a.ty.componentTy

/-- `t{vars}` of the given type, for a settled tensor: the renamed body of an index expression, an
operation on reads of its operands, or else the read itself. -/
def readAt (vars : List IndexVar) : Ty → Expr → Expr
  | ty, .indexExpr rty rs b =>
    if rs.length = vars.length then (b.substitute (.ofPairs (rs.zip vars))).value
    else .indexed ty (.indexExpr rty rs b) vars
  | ty, .neg aty a =>
    if a.readable vars then
      .neg a.readTy (if a.ty.isScalar then a else readAt vars a.ty.componentTy a)
    else .indexed ty (.neg aty a) vars
  | ty, .binary bty op a b =>
    if a.readable vars && b.readable vars then
      .binary a.readTy op (if a.ty.isScalar then a else readAt vars a.ty.componentTy a)
        (if b.ty.isScalar then b else readAt vars b.ty.componentTy b)
    else .indexed ty (.binary bty op a b) vars
  | ty, t => .indexed ty t vars

/-- What a readable operand contributes to a distributed read, before it is flattened. -/
def operandRead (vars : List IndexVar) (a : Expr) : Expr :=
  if a.ty.isScalar then a else a.index vars

/-- What a readable operand contributes to a distributed read in the end. -/
def operandAt (vars : List IndexVar) (a : Expr) : Expr :=
  if a.ty.isScalar then a else a.readAt vars a.ty.componentTy

section

variable {vs : List IndexVar} {ty : Ty}

/-- A readable operand that is no scalar is a tensor. -/
theorem isTensor_of_readable {a : Expr} (h : a.readable vs = true) (hs : a.ty.isScalar = false) :
    a.ty.isTensor = true := by
  unfold readable at h
  rw [hs, Bool.false_or, Bool.and_eq_true_iff] at h
  exact h.1

theorem isScalar_readTy {a : Expr} (h : a.readable vs = true) : a.readTy.isScalar = true := by
  unfold readTy
  split
  · next hs => exact hs
  · next hs =>
    exact Ty.isScalar_componentTy_of_isTensor (isTensor_of_readable h (by simpa using hs))

@[simp] theorem ty_operandRead (a : Expr) : (a.operandRead vs).ty = a.readTy := by
  unfold operandRead readTy
  split <;> rfl

theorem distributeIndex?_neg {a : Expr} :
    (neg ty a).distributeIndex? vs =
      if a.readable vs then some (negOf (a.operandRead vs)) else none := by
  unfold distributeIndex? readable operandRead
  by_cases hs : a.ty.isScalar = true
  · simp [hs]
  · by_cases ht : (a.ty.isTensor && a.ty.order == vs.length) = true <;> simp [hs, ht]

theorem distributeIndex?_binary {op : BinaryOp} {a b : Expr} :
    (binary ty op a b).distributeIndex? vs =
      if a.readable vs && b.readable vs then
        some (binaryOf op (a.operandRead vs) (b.operandRead vs)) else none := by
  unfold distributeIndex? readable operandRead
  by_cases hsa : a.ty.isScalar = true <;> by_cases hsb : b.ty.isScalar = true <;>
    by_cases hta : (a.ty.isTensor && a.ty.order == vs.length) = true <;>
    by_cases htb : (b.ty.isTensor && b.ty.order == vs.length) = true <;>
    simp [hsa, hsb, hta, htb]

theorem readAt_indexExpr {rty : Ty} {rs : List IndexVar} {b : Expr}
    (h : rs.length = vs.length) :
    (indexExpr rty rs b).readAt vs ty = (b.substitute (.ofPairs (rs.zip vs))).value := by
  rw [readAt, if_pos h]

theorem readAt_neg {nty : Ty} {a : Expr} (h : a.readable vs = true) :
    (neg nty a).readAt vs ty = .neg a.readTy (a.operandAt vs) := by
  rw [readAt, if_pos h]
  rfl

theorem readAt_binary {bty : Ty} {op : BinaryOp} {a b : Expr}
    (h : (a.readable vs && b.readable vs) = true) :
    (binary bty op a b).readAt vs ty = .binary a.readTy op (a.operandAt vs) (b.operandAt vs) := by
  rw [readAt, if_pos h]
  rfl

/-- Induction over what becomes of a read: inlined, distributed, or kept. -/
theorem readAt_induction {P : Expr → Ty → Expr → Prop}
    (inlined : ∀ ty rty rs b, rs.length = vs.length →
      P (.indexExpr rty rs b) ty (b.substitute (.ofPairs (rs.zip vs))).value)
    (neg : ∀ ty nty a, a.readable vs = true →
      (a.ty.isScalar = false → P a a.ty.componentTy (a.readAt vs a.ty.componentTy)) →
      P (.neg nty a) ty (.neg a.readTy (a.operandAt vs)))
    (binary : ∀ ty bty op a b, a.readable vs = true → b.readable vs = true →
      (a.ty.isScalar = false → P a a.ty.componentTy (a.readAt vs a.ty.componentTy)) →
      (b.ty.isScalar = false → P b b.ty.componentTy (b.readAt vs b.ty.componentTy)) →
      P (.binary bty op a b) ty (.binary a.readTy op (a.operandAt vs) (b.operandAt vs)))
    (kept : ∀ ty t, P t ty (.indexed ty t vs)) (t : Expr) (ty : Ty) : P t ty (t.readAt vs ty) := by
  induction t generalizing ty with
  | var tty v => exact kept _ _
  | prim tty op es _ => exact kept _ _
  | indexed tty t us _ => exact kept _ _
  | indexExpr rty rs b _ =>
    by_cases hl : rs.length = vs.length
    · rw [readAt_indexExpr hl]
      exact inlined _ _ _ _ hl
    · rw [readAt, if_neg hl]
      exact kept _ _
  | neg nty a ih =>
    by_cases hr : a.readable vs = true
    · rw [readAt_neg hr]
      exact neg _ _ _ hr fun _ => ih _
    · rw [readAt, if_neg hr]
      exact kept _ _
  | binary bty op a b iha ihb =>
    by_cases hr : (a.readable vs && b.readable vs) = true
    · obtain ⟨hra, hrb⟩ := Bool.and_eq_true_iff.1 hr
      rw [readAt_binary hr]
      exact binary _ _ _ _ _ hra hrb (fun _ => iha _) (fun _ => ihb _)
    · rw [readAt, if_neg hr]
      exact kept _ _

/-- A part of a distributed read has a property if a scalar has it as it is, and a tensor when it
is read. -/
theorem operandAt_of {P : Expr → Prop} {a : Expr} (hs : a.ty.isScalar = true → P a)
    (hr : a.ty.isScalar = false → P (a.readAt vs a.ty.componentTy)) : P (a.operandAt vs) := by
  unfold operandAt
  split
  · next h => exact hs h
  · next h => exact hr (by simpa using h)

/-- A read that is neither inlined nor distributed stays. -/
theorem readAt_of_kept {t : Expr} (hi : t.isIndexExpr = false)
    (hd : t.distributeIndex? vs = none) : t.readAt vs ty = .indexed ty t vs := by
  cases t with
  | indexExpr => cases hi
  | neg aty a =>
    rw [distributeIndex?_neg] at hd
    rw [readAt, if_neg]
    intro h
    rw [if_pos h] at hd
    cases hd
  | binary bty op a b =>
    rw [distributeIndex?_binary] at hd
    rw [readAt, if_neg]
    intro h
    rw [if_pos h] at hd
    cases hd
  | _ => rfl

end

end Expr

namespace Flattening

/-- What flattening makes of a read of a settled tensor. -/
def ReadsAs (vs : List IndexVar) (t : Expr) : Prop :=
  ∀ ty st out st', Flattens (.indexed ty t vs) st out st' → out.value = t.readAt vs ty ∧ st' = st

section

variable {vs : List IndexVar} {a b : Expr} {st st' : Flattener} {out : Transformed Expr}

/-- The part of a readable operand, flattened. -/
theorem flattens_operandRead (ha : a.Settled) (ih : ReadsAs vs a)
    (h : Flattens (a.operandRead vs) st out st') : out.value = a.operandAt vs ∧ st' = st := by
  unfold Expr.operandRead at h
  unfold Expr.operandAt
  by_cases hs : a.ty.isScalar = true
  · rw [if_pos hs] at h ⊢
    obtain ⟨rfl, rfl⟩ := h.of_settled ha
    exact ⟨rfl, rfl⟩
  · rw [if_neg hs] at h ⊢
    exact ih _ _ _ _ h

/-- As an operand of a sum, the part of a readable operand stays in place. -/
theorem operand_operandRead (ha : a.Settled) (hop : a.OperandSettled)
    (hr : a.readable vs = true) (ih : ReadsAs vs a)
    (h : Operand Flattens (a.operandRead vs) st out st') :
    out.value = a.operandAt vs ∧ st' = st := by
  cases h with
  | read h' _ => exact flattens_operandRead ha ih h'
  | @spilled mid st₁ back _ h' hi hspill =>
    obtain ⟨hmid, rfl⟩ := flattens_operandRead ha ih h'
    rw [hmid] at hi hspill
    by_cases hs : a.ty.isScalar = true
    · -- a scalar that is no indexed read contains none either, so nothing is hoisted
      have hat : a.operandAt vs = a := if_pos hs
      rw [hat] at hi hspill ⊢
      obtain ⟨hc, hw⟩ := hop.resolve_left (by simp [hi])
      cases hspill with
      | lifted hw' => exact absurd hw' (by simp [hw])
      | hoisted =>
        rw [hoist_of_plain hc hs]
        exact ⟨rfl, rfl⟩
    · -- a settled operand that is a tensor is an indexed read, and so is a read of it
      have hwhole : a.ty.isWhole = true := by
        have htensor : (a.ty.isTensor && a.ty.order == vs.length) = true := by
          simpa [Expr.readable, hs] using hr
        simp [Ty.isWhole, hs, (Bool.and_eq_true_iff.1 htensor).1]
      have hindexed := hop.resolve_right (by simp [hwhole])
      have hread : (a.operandAt vs).isIndexed = true := by
        cases a with
        | indexed ty t us => simp [Expr.operandAt, hs, Expr.readAt, Expr.isIndexed]
        | _ => cases hindexed
      rw [hread] at hi
      cases hi

/-- A negation is flattened by flattening its operand. -/
theorem flattens_neg {ty : Ty} (h : Flattens (.neg ty a) st out st') :
    ∃ mid, Flattens a st mid st' ∧ out.value = .neg ty mid.value := by
  cases step_of_flattens h with
  | parts _ _ hthreads =>
    obtain _ | ⟨hr, hnil⟩ := hthreads
    cases hnil
    exact ⟨_, hr, Expr.value_rebuild (e := .neg ty a) (.cons hr.faithful .nil)⟩

/-- A product is flattened by flattening its operands. -/
theorem flattens_product {ty : Ty} {op : BinaryOp} (hop : op.isSum = false)
    (h : Flattens (.binary ty op a b) st out st') :
    ∃ x st₁ y, Flattens a st x st₁ ∧ Flattens b st₁ y st' ∧
      out.value = .binary ty op x.value y.value := by
  cases step_of_flattens h with
  | sum hop' => exact absurd hop' (by simp [hop])
  | parts _ _ hthreads =>
    obtain _ | ⟨hx, _ | ⟨hy, hnil⟩⟩ := hthreads
    cases hnil
    exact ⟨_, _, _, hx, hy,
      Expr.value_rebuild (e := .binary ty op a b) (.cons hx.faithful (.cons hy.faithful .nil))⟩

/-- A sum has scalar operands, and is put together again over them. -/
theorem flattens_sum {ty : Ty} {op : BinaryOp} (hop : op.isSum = true)
    (h : Flattens (.binary ty op a b) st out st') :
    a.ty.isScalar = true ∧ b.ty.isScalar = true ∧
      ∃ x st₁ y, Operand Flattens a st x st₁ ∧ Operand Flattens b st₁ y st' ∧
        out.value = .binary ty op x.value y.value := by
  cases step_of_flattens h with
  | sum _ hsa hsb hx hy =>
    exact ⟨hsa, hsb, _, _, _, hx, hy,
      Expr.value_rebuild (e := .binary ty op a b) (.cons hx.faithful (.cons hy.faithful .nil))⟩
  | parts hs => exact absurd hop (by simpa [Expr.isSum] using hs)

end

/-- Flattening the distributed form of a read of a settled tensor. -/
theorem flattens_distributed {vs : List IndexVar} {t d : Expr} (ty : Ty) (ht : t.Settled)
    (ih : ∀ c ∈ t.children, ReadsAs vs c) (hd : t.distributeIndex? vs = some d)
    {st st' : Flattener} {out : Transformed Expr} (h : Flattens d st out st') :
    out.value = t.readAt vs ty ∧ st' = st := by
  cases t with
  | neg nty a =>
    rw [Expr.distributeIndex?_neg] at hd
    by_cases hr : a.readable vs = true
    · rw [if_pos hr] at hd
      cases hd
      obtain ⟨mid, hmid, hout⟩ := flattens_neg h
      obtain ⟨hval, rfl⟩ := flattens_operandRead (ht.child (by simp [Expr.children]))
        (ih a (by simp [Expr.children])) hmid
      rw [hout, hval, Expr.ty_operandRead, Expr.readAt_neg hr]
      exact ⟨rfl, rfl⟩
    · rw [if_neg hr] at hd
      cases hd
  | binary bty op a b =>
    have ha : a.Settled := ht.child (by simp [Expr.children])
    have hb : b.Settled := ht.child (by simp [Expr.children])
    have iha := ih a (by simp [Expr.children])
    have ihb := ih b (by simp [Expr.children])
    rw [Expr.distributeIndex?_binary] at hd
    by_cases hr : (a.readable vs && b.readable vs) = true
    · rw [if_pos hr] at hd
      cases hd
      obtain ⟨hra, hrb⟩ := Bool.and_eq_true_iff.1 hr
      rw [Expr.readAt_binary hr]
      by_cases hop : op.isSum = true
      · obtain ⟨_, _, x, st₁, y, hx, hy, hout⟩ := flattens_sum hop h
        obtain ⟨hxv, rfl⟩ := operand_operandRead ha (ht.root hop).1 hra iha hx
        obtain ⟨hyv, rfl⟩ := operand_operandRead hb (ht.root hop).2 hrb ihb hy
        rw [hout, hxv, hyv, Expr.ty_operandRead]
        exact ⟨rfl, rfl⟩
      · rw [Bool.not_eq_true] at hop
        obtain ⟨x, st₁, y, hx, hy, hout⟩ := flattens_product hop h
        obtain ⟨hxv, rfl⟩ := flattens_operandRead ha iha hx
        obtain ⟨hyv, rfl⟩ := flattens_operandRead hb ihb hy
        rw [hout, hxv, hyv, Expr.ty_operandRead]
        exact ⟨rfl, rfl⟩
    · rw [if_neg hr] at hd
      cases hd
  | _ => cases hd

/-- A read is flattened by flattening the tensor and reading the result, given the same for the
parts of the flattened tensor. -/
theorem flattens_indexed_of {vs : List IndexVar} {t : Expr} {ty : Ty} {st st' : Flattener}
    {out : Transformed Expr}
    (ih : ∀ mid st₁, Flattens t st mid st₁ → ∀ c ∈ mid.value.children, ReadsAs vs c)
    (h : Flattens (.indexed ty t vs) st out st') :
    ∃ mid, Flattens t st mid st' ∧ out.value = mid.value.readAt vs ty := by
  cases step_of_flattens h with
  | inlined hr hv hl =>
    refine ⟨_, hr, ?_⟩
    rw [hv, Expr.readAt_indexExpr hl]
    rfl
  | distributed hr hi hd hr' =>
    obtain ⟨hout, rfl⟩ := flattens_distributed ty hr.settled (ih _ _ hr) hd hr'
    exact ⟨_, hr, hout⟩
  | kept hr hi hd =>
    refine ⟨_, hr, ?_⟩
    rw [Expr.value_rebuild (e := .indexed ty t vs) (.cons hr.faithful .nil),
      Expr.readAt_of_kept hi hd]
    rfl
  | parts _ hx => cases hx

/-- A read of a settled tensor makes no temporaries. -/
theorem readsAs_of_settled (vs : List IndexVar) {t : Expr} (ht : t.Settled) : ReadsAs vs t := by
  revert ht
  refine Expr.children_induction (motive := fun t => t.Settled → ReadsAs vs t) ?_ t
  intro t ih ht ty st out st' h
  -- flattening the tensor does nothing, so its parts are those of the tensor itself
  have hparts : ∀ mid st₁, Flattens t st mid st₁ → ∀ c ∈ mid.value.children, ReadsAs vs c := by
    intro mid st₁ h'
    obtain ⟨rfl, rfl⟩ := h'.of_settled ht
    exact fun c hc => ih c hc (ht.child hc)
  obtain ⟨mid, hmid, hout⟩ := flattens_indexed_of hparts h
  obtain ⟨rfl, rfl⟩ := hmid.of_settled ht
  exact ⟨hout, rfl⟩

end Flattening

/-! ### One rule for each kind of node -/

/-- The flattened copy of a settled tensor. -/
def Expr.copyAt (vs : List IndexVar) (a : Expr) : Expr :=
  .indexExpr (Expr.build vs (a.index vs)).ty vs (a.readAt vs a.ty.componentTy)

/-- What is left of a settled expression that is spilled. -/
inductive SpillsTo (a : Expr) (st : Flattener) : Expr → Flattener → Prop
  /-- A tensor that is not given by an index expression is copied, and the copy is hoisted. -/
  | copied {vs b} :
    a.ty.isWhole = true → a.isIndexExpr = false →
    (Builder.indexVars none a.ty.dims).run st.toBuilder = (vs, b) →
    SpillsTo a st (Flattener.hoist (a.copyAt vs) { st with toBuilder := b }).1.value
      (Flattener.hoist (a.copyAt vs) { st with toBuilder := b }).2
  /-- Anything else is hoisted as it is. -/
  | hoisted : (a.ty.isWhole = true → a.isIndexExpr = true) →
    SpillsTo a st (st.hoist a).1.value (st.hoist a).2

/-- What is left of a settled operand of a sum. -/
inductive Settles (a : Expr) (st : Flattener) : Expr → Flattener → Prop
  | read : a.isIndexed = true → Settles a st a st
  | spilled {x st'} : a.isIndexed = false → SpillsTo a st x st' → Settles a st x st'

/-- Flattening `e` from `st` makes `x` of it and leaves `st'`, told by the structure of `e`. -/
inductive FlattensTo : Expr → Flattener → Expr → Flattener → Prop
  | var {ty v st} : FlattensTo (.var ty v) st (.var ty v) st
  | prim {ty op es st xs st'} : Flattening.Threads FlattensTo es st xs st' →
    FlattensTo (.prim ty op es) st (.prim ty op xs) st'
  | indexed {ty t vs st x st'} : FlattensTo t st x st' →
    FlattensTo (.indexed ty t vs) st (x.readAt vs ty) st'
  | indexExpr {ty vs b st x st'} : FlattensTo b st x st' →
    FlattensTo (.indexExpr ty vs b) st (.indexExpr ty vs x) st'
  | neg {ty a st x st'} : FlattensTo a st x st' → FlattensTo (.neg ty a) st (.neg ty x) st'
  | product {ty op a b st x st₁ y st'} : op.isSum = false →
    FlattensTo a st x st₁ → FlattensTo b st₁ y st' →
    FlattensTo (.binary ty op a b) st (.binary ty op x y) st'
  | sum {ty op a b st a' st₁ x st₂ b' st₃ y st'} : op.isSum = true →
    a.ty.isScalar = true → b.ty.isScalar = true →
    FlattensTo a st a' st₁ → Settles a' st₁ x st₂ →
    FlattensTo b st₂ b' st₃ → Settles b' st₃ y st' →
    FlattensTo (.binary ty op a b) st (.binary ty op x y) st'

/-- Induction along the structure of a run. What is known of the operands of a primitive operation
comes with their runs, one after another. -/
@[elab_as_elim, induction_eliminator]
theorem FlattensTo.induction
    {motive : (e : Expr) → (st : Flattener) → (x : Expr) → (st' : Flattener) →
      FlattensTo e st x st' → Prop}
    (var : ∀ {ty v st}, motive _ _ _ _ (@FlattensTo.var ty v st))
    (prim : ∀ {ty op es st xs st'} (h : Flattening.Threads FlattensTo es st xs st'),
      Flattening.Threads (fun e st x st' => ∃ h, motive e st x st' h) es st xs st' →
        motive _ _ _ _ (@FlattensTo.prim ty op es st xs st' h))
    (indexed : ∀ {ty t vs st x st'} (h : FlattensTo t st x st'), motive _ _ _ _ h →
      motive _ _ _ _ (@FlattensTo.indexed ty t vs st x st' h))
    (indexExpr : ∀ {ty vs b st x st'} (h : FlattensTo b st x st'), motive _ _ _ _ h →
      motive _ _ _ _ (@FlattensTo.indexExpr ty vs b st x st' h))
    (neg : ∀ {ty a st x st'} (h : FlattensTo a st x st'), motive _ _ _ _ h →
      motive _ _ _ _ (@FlattensTo.neg ty a st x st' h))
    (product : ∀ {ty op a b st x st₁ y st'} (hop : op.isSum = false) (hx : FlattensTo a st x st₁)
      (hy : FlattensTo b st₁ y st'), motive _ _ _ _ hx → motive _ _ _ _ hy →
        motive _ _ _ _ (@FlattensTo.product ty op a b st x st₁ y st' hop hx hy))
    (sum : ∀ {ty op a b st a' st₁ x st₂ b' st₃ y st'} (hop : op.isSum = true)
      (hsa : a.ty.isScalar = true) (hsb : b.ty.isScalar = true) (hx : FlattensTo a st a' st₁)
      (hxs : Settles a' st₁ x st₂) (hy : FlattensTo b st₂ b' st₃) (hys : Settles b' st₃ y st'),
      motive _ _ _ _ hx → motive _ _ _ _ hy → motive _ _ _ _
        (@FlattensTo.sum ty op a b st a' st₁ x st₂ b' st₃ y st' hop hsa hsb hx hxs hy hys))
    {e st x st'} (h : FlattensTo e st x st') : motive e st x st' h := by
  induction e generalizing st x st' with
  | var ty v =>
    cases h
    exact var
  | prim ty op es ih =>
    cases h with
    | prim hthreads => exact prim hthreads (hthreads.imp fun e he _ _ _ hr => ⟨hr, ih e he hr⟩)
  | indexed ty t vs ih =>
    cases h with
    | indexed ht => exact indexed ht (ih ht)
  | indexExpr ty vs b ih =>
    cases h with
    | indexExpr hb => exact indexExpr hb (ih hb)
  | neg ty a ih =>
    cases h with
    | neg ha => exact neg ha (ih ha)
  | binary ty op a b iha ihb =>
    cases h with
    | product hop hx hy => exact product hop hx hy (iha hx) (ihb hy)
    | sum hop hsa hsb hx hxs hy hys => exact sum hop hsa hsb hx hxs hy hys (iha hx) (ihb hy)

namespace Flattening

section

variable {a : Expr} {st st' : Flattener} {out : Transformed Expr}

theorem spillsTo_of_spills (ha : a.Settled) (h : Spills Flattens a st out st') :
    SpillsTo a st out.value st' := by
  cases h with
  | @lifted vs b mid st₁ hw hi hv hr =>
    cases step_of_flattens hr with
    | parts _ _ hthreads =>
      obtain _ | ⟨hbody, hnil⟩ := hthreads
      cases hnil
      -- the body of the copy reads a settled tensor
      obtain ⟨hval, rfl⟩ := readsAs_of_settled vs ha _ _ _ _ hbody
      have hcopy : (Expr.rebuild (.build vs (a.index vs)) [_]).value = a.copyAt vs :=
        (Expr.value_rebuild (e := .build vs (a.index vs)) (.cons hbody.faithful .nil)).trans
          (by rw [Transformed.values, List.map_singleton, hval]; rfl)
      rw [hcopy]
      exact .copied hw hi hv
  | hoisted hw => exact .hoisted hw

/-- An operand of a sum is flattened, and the result is settled. -/
theorem settles_of_operand (h : Operand Flattens a st out st') :
    ∃ mid st₁, Flattens a st mid st₁ ∧ Settles mid.value st₁ out.value st' := by
  cases h with
  | read hr hi => exact ⟨_, _, hr, .read hi⟩
  | spilled hr hi hspill =>
    have hto := spillsTo_of_spills hr.settled hspill
    exact ⟨_, _, hr, .spilled hi hto⟩

/-- Other nodes are put together again over their flattened parts. -/
theorem flattens_indexExpr {ty : Ty} {vs : List IndexVar}
    (h : Flattens (.indexExpr ty vs a) st out st') :
    ∃ mid, Flattens a st mid st' ∧ out.value = .indexExpr ty vs mid.value := by
  cases step_of_flattens h with
  | parts _ _ hthreads =>
    obtain _ | ⟨hr, hnil⟩ := hthreads
    cases hnil
    exact ⟨_, hr, Expr.value_rebuild (e := .indexExpr ty vs a) (.cons hr.faithful .nil)⟩

theorem flattens_prim {ty : Ty} {op : Prim} {es : List Expr}
    (h : Flattens (.prim ty op es) st out st') :
    ∃ outs, Threads Flattens es st outs st' ∧
      out.value = .prim ty op (Transformed.values outs) := by
  cases step_of_flattens h with
  | parts _ _ hthreads =>
    refine ⟨_, hthreads, Expr.value_rebuild (e := .prim ty op es) ?_⟩
    exact hthreads.forall₂ fun _ _ _ _ _ h => h.faithful

theorem flattens_var {ty : Ty} {v : Var} (h : Flattens (.var ty v) st out st') :
    out.value = .var ty v ∧ st' = st := by
  obtain ⟨rfl, rfl⟩ := h.of_settled (Expr.everywhere_var.2 trivial)
  exact ⟨rfl, rfl⟩

/-- A read is flattened by flattening the tensor and reading the result. -/
theorem flattens_indexed {ty : Ty} {vs : List IndexVar}
    (h : Flattens (.indexed ty a vs) st out st') :
    ∃ mid, Flattens a st mid st' ∧ out.value = mid.value.readAt vs ty :=
  flattens_indexed_of (fun _ _ hr _ hc => readsAs_of_settled vs (hr.settled.child hc)) h

end

end Flattening

/-- Every successful run follows the structure of the expression. -/
theorem Flattens.to {e : Expr} {st st' : Flattener} {out : Transformed Expr}
    (h : Flattens e st out st') : FlattensTo e st out.value st' := by
  induction e generalizing st out st' with
  | var ty v =>
    obtain ⟨hout, rfl⟩ := Flattening.flattens_var h
    rw [hout]
    exact .var
  | prim ty op es ih =>
    obtain ⟨outs, hthreads, hout⟩ := Flattening.flattens_prim h
    rw [hout]
    exact .prim (hthreads.map fun e he _ _ _ hr => ih e he hr)
  | indexed ty t vs ih =>
    obtain ⟨mid, hmid, hout⟩ := Flattening.flattens_indexed h
    rw [hout]
    exact .indexed (ih hmid)
  | indexExpr ty vs b ih =>
    obtain ⟨mid, hmid, hout⟩ := Flattening.flattens_indexExpr h
    rw [hout]
    exact .indexExpr (ih hmid)
  | neg ty a ih =>
    obtain ⟨mid, hmid, hout⟩ := Flattening.flattens_neg h
    rw [hout]
    exact .neg (ih hmid)
  | binary ty op a b iha ihb =>
    by_cases hop : op.isSum = true
    · obtain ⟨hsa, hsb, x, st₁, y, hx, hy, hout⟩ := Flattening.flattens_sum hop h
      obtain ⟨a', st₂, ha', hxs⟩ := Flattening.settles_of_operand hx
      obtain ⟨b', st₃, hb', hys⟩ := Flattening.settles_of_operand hy
      rw [hout]
      exact .sum hop hsa hsb (iha ha') hxs (ihb hb') hys
    · rw [Bool.not_eq_true] at hop
      obtain ⟨x, st₁, y, hx, hy, hout⟩ := Flattening.flattens_product hop h
      rw [hout]
      exact .product hop (iha hx) (ihb hy)

end TensorIR
