import TensorIR.Flattening
import TensorIR.Proofs.Actions
import TensorIR.Proofs.LooseVars

/-! # Runs of the flattener

Flattening is defined through a bound on the depth of its recursion. This module does away with
the bound: it says what one step of a successful run can do, in terms of the runs that the step
calls for (`Flattening.Step`), and gives induction over runs (`Flattening.flattens_induction`).

**Key idea**: a deeper bound never changes an outcome, so every run within a bound is a run of
`Expr.flatten`, and `Expr.flatten` satisfies its own equation (`Flattening.step_flatten`).
Everything that later modules prove about flattening starts from `Step` and never opens the
monads again.
-/

namespace TensorIR

namespace Flattening

/-! ### Actions and their outcomes -/

section

variable {α β : Type}

/-- An action of a flattener, as one that could give up but does not. -/
def total (act : FlattenM α) : BoundedM α := ExceptT.mk fun st => some (act.run.run st)

theorem run_bind (act : BoundedM α) (k : α → BoundedM β) (st : Flattener) :
    (act >>= k).run.run st =
      match act.run.run st with
      | none => none
      | some (.ok a, st') => (k a).run.run st'
      | some (.error e, st') => some (.error e, st') := by
  show StateT.bind act.run _ st = _
  simp only [StateT.bind]
  rcases h : act.run.run st with _ | ⟨_ | _, _⟩ <;> rw [show act.run st = _ from h] <;> rfl

/-- A sequence succeeds if both parts do. -/
theorem run_bind_ok {act : BoundedM α} {k : α → BoundedM β} {st st' : Flattener} {b : β} :
    (act >>= k).run.run st = some (.ok b, st') ↔
      ∃ a st₁, act.run.run st = some (.ok a, st₁) ∧ (k a).run.run st₁ = some (.ok b, st') := by
  rw [run_bind]
  rcases act.run.run st with _ | ⟨_ | a, st₁⟩ <;> simp

theorem run_pure_ok {a b : α} {st st' : Flattener} :
    (pure a : BoundedM α).run.run st = some (.ok b, st') ↔ a = b ∧ st = st' := by
  show some (Except.ok a, st) = _ ↔ _
  simp

theorem run_throw_ok {e : Error} {b : α} {st st' : Flattener} :
    ¬ (throw e : BoundedM α).run.run st = some (.ok b, st') := by
  show ¬ some (Except.error e, st) = _
  simp

theorem run_modifyGet_ok {f : Flattener → α × Flattener} {b : α} {st st' : Flattener} :
    (modifyGet f : BoundedM α).run.run st = some (.ok b, st') ↔ f st = (b, st') := by
  show some (Except.ok (f st).1, (f st).2) = _ ↔ _
  rw [Option.some.injEq, Prod.ext_iff, Prod.ext_iff]
  simp

theorem total_bind (act : FlattenM α) (k : α → FlattenM β) :
    total (act >>= k) = total act >>= fun a => total (k a) := by
  refine ExceptT.ext (StateT.ext fun st => ?_)
  rw [run_bind]
  show some ((act >>= k).run.run st) = match some (act.run.run st) with
    | none => none
    | some (.ok a, st') => (total (k a)).run.run st'
    | some (.error e, st') => some (.error e, st')
  rw [Action.run_bind]
  rcases act.run.run st with ⟨_ | _, _⟩ <;> rfl

theorem total_build {α : Type} (act : BuildM α) : total (build act) = build act := by
  refine (total_bind _ _).trans (congrArg _ (funext fun r => ?_))
  cases r <;> rfl

/-- Elements are treated one after another, whether or not the treatment could give up. -/
theorem total_mapM' (f : α → FlattenM β) (as : List α) :
    total (as.mapM' f) = as.mapM' fun a => total (f a) := by
  induction as with
  | nil => rfl
  | cons a as ih =>
    rw [List.mapM'_cons, List.mapM'_cons, total_bind]
    refine congrArg _ (funext fun b => ?_)
    rw [total_bind, ih]
    rfl

/-- Spilling is the same action, whether or not the flattening it calls for could give up. -/
theorem total_spill (f : Expr → FlattenM (Transformed Expr)) (a : Expr) :
    total (spill f a) = spill (fun e => total (f e)) a := by
  unfold spill
  split
  · rw [total_bind, total_build]
    refine congrArg _ (funext fun whole => ?_)
    rw [total_bind]
    refine congrArg _ (funext fun out => ?_)
    rw [total_bind]
    rfl
  · rfl

/-- Each outcome of `x` is one of `y`, which may have one where `x` gives up. -/
def Below (x y : BoundedM α) : Prop := ∀ st r, x.run.run st = some r → y.run.run st = some r

namespace Below

theorem refl (x : BoundedM α) : Below x x := fun _ _ h => h

theorem bind {x y : BoundedM α} {f g : α → BoundedM β} (h : Below x y)
    (hfg : ∀ a, Below (f a) (g a)) : Below (x >>= f) (y >>= g) := by
  intro st r hr
  rw [run_bind] at hr ⊢
  -- the first part has given up, has failed, or hands its outcome to the second
  rcases hx : x.run.run st with _ | ⟨e | a, st₁⟩
  · rw [hx] at hr; cases hr
  · rw [hx] at hr; rw [h st _ hx]; exact hr
  · rw [hx] at hr; rw [h st _ hx]; exact hfg a st₁ r hr

end Below

end

/-! ### A deeper bound changes no outcome -/

section

variable {f g : Expr → BoundedM (Transformed Expr)} (h : ∀ e, Below (f e) (g e))

include h

theorem spill_below (a : Expr) : Below (spill f a) (spill g a) := by
  unfold spill
  split
  · exact (Below.refl _).bind fun whole => (h whole).bind fun _ => Below.refl _
  · exact Below.refl _

theorem sumOperand_below (a : Expr) : Below (sumOperand f a) (sumOperand g a) := by
  apply (h a).bind
  intro out
  split
  · exact Below.refl _
  · exact (spill_below h out.value).bind fun _ => Below.refl _

theorem all_below (es : List Expr) : Below (all f es) (all g es) := by
  induction es with
  | nil => exact Below.refl _
  | cons e es ih => exact (h e).bind fun _ => ih.bind fun _ => Below.refl _

theorem indexedRead_below (e t : Expr) (vs : List IndexVar) :
    Below (indexedRead f e t vs) (indexedRead g e t vs) := by
  apply (h t).bind
  intro out
  split
  · exact Below.refl _
  · split
    · exact (h _).bind fun _ => Below.refl _
    · exact Below.refl _

theorem sum_below (e : Expr) (op : BinaryOp) (a b : Expr) :
    Below (sum f e op a b) (sum g e op a b) :=
  (Below.refl _).bind fun _ => (Below.refl _).bind fun _ =>
    (sumOperand_below h a).bind fun _ => (sumOperand_below h b).bind fun _ => Below.refl _

theorem step_below (e : Expr) : Below (step f e) (step g e) := by
  unfold step
  split
  · exact sum_below h _ _ _ _
  · exact sum_below h _ _ _ _
  · exact indexedRead_below h _ _ _
  · exact (all_below h _).bind fun _ => Below.refl _

end

theorem flattenWithin_below_add (d k : Nat) (e : Expr) :
    Below (flattenWithin d e) (flattenWithin (d + k) e) := by
  induction d generalizing e with
  | zero => intro st r h; cases h
  | succ d ih =>
    rw [Nat.add_right_comm]
    exact step_below (fun e => ih e) e

/-- A run within a bound is a run of `Expr.flatten`. -/
theorem flattenWithin_below (d : Nat) (e : Expr) : Below (flattenWithin d e) (total e.flatten) := by
  intro st r h
  -- both bounds give what their sum gives, and the weight of the expression always gives something
  have hd := flattenWithin_below_add d e.weight e st r h
  obtain ⟨r', hr'⟩ := Option.isSome_iff_exists.1 (flattenWithin_isSome (Nat.le_refl e.weight) st)
  have hw := flattenWithin_below_add e.weight d e st r' hr'
  rw [Nat.add_comm, hd] at hw
  show some (((flattenWithin e.weight e).run.run st).get _) = _
  simp only [hr', Option.get_some]
  exact hw.symm

/-- `Expr.flatten` has the outcomes of some bounded depth. -/
theorem flatten_below (e : Expr) : Below (total e.flatten) (flattenWithin e.weight e) := by
  intro st r h
  obtain ⟨r', hr'⟩ := Option.isSome_iff_exists.1 (flattenWithin_isSome (Nat.le_refl e.weight) st)
  rw [flattenWithin_below _ e st r' hr'] at h
  rw [hr', h]

/-- The equation of flattening: one step, with flattening for what the step calls for. -/
theorem step_flatten (e : Expr) : Below (total e.flatten) (step (fun e => total e.flatten) e) := by
  intro st r h
  have hw := flatten_below e st r h
  obtain ⟨w, hw'⟩ := Nat.exists_eq_succ_of_ne_zero (Nat.ne_of_gt e.one_le_weight)
  rw [hw'] at hw
  exact step_below (fun e => flattenWithin_below w e) e st r hw

/-! ### What one step can do -/

/-- Elements are treated one after another, and the state is passed on. -/
inductive Threads {α β σ : Type} (R : α → σ → β → σ → Prop) : List α → σ → List β → σ → Prop
  | nil {st} : Threads R [] st [] st
  | cons {a st b st₁ as bs st₂} :
    R a st b st₁ → Threads R as st₁ bs st₂ → Threads R (a :: as) st (b :: bs) st₂

section

variable {α β σ : Type} {R S : α → σ → β → σ → Prop}

theorem Threads.imp {as : List α} {bs : List β} {st st' : σ} (h : Threads R as st bs st')
    (hRS : ∀ a ∈ as, ∀ st b st', R a st b st' → S a st b st') : Threads S as st bs st' := by
  induction h with
  | nil => exact .nil
  | cons hr _ ih =>
    exact .cons (hRS _ (by simp) _ _ _ hr) (ih fun a ha => hRS a (by simp [ha]))

theorem Threads.map {γ : Type} {S : α → σ → γ → σ → Prop} {f : β → γ} {as : List α} {bs : List β}
    {st st' : σ} (h : Threads R as st bs st')
    (hRS : ∀ a ∈ as, ∀ st b st', R a st b st' → S a st (f b) st') :
    Threads S as st (bs.map f) st' := by
  induction h with
  | nil => exact .nil
  | cons hr _ ih =>
    exact .cons (hRS _ (by simp) _ _ _ hr) (ih fun a ha => hRS a (by simp [ha]))

theorem Threads.length_eq {as : List α} {bs : List β} {st st' : σ} (h : Threads R as st bs st') :
    bs.length = as.length := by
  induction h with
  | nil => rfl
  | cons _ _ ih => rw [List.length_cons, List.length_cons, ih]

theorem Threads.forall₂ {P : α → β → Prop} {as : List α} {bs : List β} {st st' : σ}
    (h : Threads R as st bs st') (hP : ∀ a ∈ as, ∀ st b st', R a st b st' → P a b) :
    List.Forall₂ P as bs := by
  induction h with
  | nil => exact .nil
  | cons hr _ ih => exact .cons (hP _ (by simp) _ _ _ hr) (ih fun a ha => hP a (by simp [ha]))

theorem Threads.preserves {I : σ → Prop} {as : List α} {bs : List β} {st st' : σ}
    (h : Threads R as st bs st') (hI : ∀ a ∈ as, ∀ st b st', R a st b st' → I st → I st')
    (hst : I st) : I st' := by
  induction h with
  | nil => exact hst
  | cons hr _ ih => exact ih (fun a ha => hI a (by simp [ha])) (hI _ (by simp) _ _ _ hr hst)

/-- If nothing is done to the state for any element, it is as it was behind all of them. -/
theorem Threads.unmoved {q : β → Prop} {as : List α} {bs : List β} {st st' : σ}
    (h : Threads R as st bs st')
    (hR : ∀ a ∈ as, ∀ st b st', R a st b st' → q b ∧ st' = st) : (∀ b ∈ bs, q b) ∧ st' = st := by
  induction h with
  | nil => exact ⟨by simp, rfl⟩
  | cons hr _ ih =>
    obtain ⟨hb, rfl⟩ := hR _ (by simp) _ _ _ hr
    obtain ⟨hbs, rfl⟩ := ih fun a ha => hR a (by simp [ha])
    exact ⟨List.forall_mem_cons.2 ⟨hb, hbs⟩, rfl⟩

/-- Of the state and of two elements, one treated after the other. -/
theorem and_threads {q q₁ q₂ a b x y : Prop} (hx : q₁ ∧ x ↔ q ∧ a) (hy : q₂ ∧ y ↔ q₁ ∧ b) :
    q₂ ∧ x ∧ y ↔ q ∧ a ∧ b := by
  rw [and_left_comm, hy, and_left_comm, ← and_assoc, hx, and_assoc]

/-- If the state and what comes of an element are good exactly when the state before and the
element are, then so it is with all of them, one after another. -/
theorem Threads.and_iff {Q : σ → Prop} {p : α → Prop} {q : β → Prop} {as : List α} {bs : List β}
    {st st' : σ} (h : Threads R as st bs st')
    (hR : ∀ a ∈ as, ∀ st b st', R a st b st' → (Q st' ∧ q b ↔ Q st ∧ p a)) :
    (Q st' ∧ ∀ b ∈ bs, q b) ↔ Q st ∧ ∀ a ∈ as, p a := by
  induction h with
  | nil => simp
  | cons hr _ ih =>
    have hhead := hR _ (by simp) _ _ _ hr
    have htail := ih fun a ha => hR a (by simp [ha])
    rw [List.forall_mem_cons, List.forall_mem_cons]
    exact and_threads hhead htail

end

/-- How an expression is spilled, given how expressions are flattened. -/
inductive Spills (R : Expr → Flattener → Transformed Expr → Flattener → Prop) (a : Expr)
    (st : Flattener) : Transformed Expr → Flattener → Prop
  /-- A tensor that is not given by an index expression is copied by one. -/
  | lifted {vs b mid st₁} :
    a.ty.isWhole = true → a.isIndexExpr = false →
    (Builder.indexVars none a.ty.dims).run st.toBuilder = (vs, b) →
    R (.build vs (a.index vs)) { st with toBuilder := b } mid st₁ →
    Spills R a st (.replace (st₁.hoist mid.value).1.value) (st₁.hoist mid.value).2
  /-- Anything else is hoisted as it is. -/
  | hoisted : (a.ty.isWhole = true → a.isIndexExpr = true) →
    Spills R a st (st.hoist a).1 (st.hoist a).2

/-- How an operand of a sum is treated. -/
inductive Operand (R : Expr → Flattener → Transformed Expr → Flattener → Prop) (a : Expr)
    (st : Flattener) : Transformed Expr → Flattener → Prop
  /-- An operand that becomes an indexed read stays in place. -/
  | read {out st'} : R a st out st' → out.value.isIndexed = true → Operand R a st out st'
  /-- Any other operand is spilled. -/
  | spilled {out st₁ back st'} :
    R a st out st₁ → out.value.isIndexed = false → Spills R out.value st₁ back st' →
    Operand R a st ⟨back.value, out.changed || back.changed⟩ st'

end Flattening

/-- Whether the expression is a sum. -/
def Expr.isSum : Expr → Bool
  | .binary _ op _ _ => op.isSum
  | _ => false

namespace Flattening

/-- One step of a successful run, given the runs it calls for. -/
inductive Step (R : Expr → Flattener → Transformed Expr → Flattener → Prop) :
    Expr → Flattener → Transformed Expr → Flattener → Prop
  | sum {ty op a b st x st₁ y st₂} :
    op.isSum = true → a.ty.isScalar = true → b.ty.isScalar = true →
    Operand R a st x st₁ → Operand R b st₁ y st₂ →
    Step R (.binary ty op a b) st ((Expr.binary ty op a b).rebuild [x, y]) st₂
  | inlined {ty t vs st out st' rty rs body} :
    R t st out st' → out.value = .indexExpr rty rs body → rs.length = vs.length →
    Step R (.indexed ty t vs) st (.replace (body.substitute (.ofPairs (rs.zip vs))).value) st'
  | distributed {ty t vs st out st₁ d out' st₂} :
    R t st out st₁ → out.value.isIndexExpr = false → out.value.distributeIndex? vs = some d →
    R d st₁ out' st₂ → Step R (.indexed ty t vs) st (.replace out'.value) st₂
  | kept {ty t vs st out st'} :
    R t st out st' → out.value.isIndexExpr = false → out.value.distributeIndex? vs = none →
    Step R (.indexed ty t vs) st ((Expr.indexed ty t vs).rebuild [out]) st'
  | parts {e st outs st'} :
    e.isSum = false → e.isIndexed = false → Threads R e.children st outs st' →
    Step R e st (e.rebuild outs) st'

section

variable {R S : Expr → Flattener → Transformed Expr → Flattener → Prop}
  (hRS : ∀ e st out st', R e st out st' → S e st out st')

include hRS

theorem Spills.imp {a st out st'} (h : Spills R a st out st') : Spills S a st out st' := by
  cases h with
  | lifted hw hi hv hr => exact .lifted hw hi hv (hRS _ _ _ _ hr)
  | hoisted hw => exact .hoisted hw

theorem Operand.imp {a st out st'} (h : Operand R a st out st') : Operand S a st out st' := by
  cases h with
  | read hr hi => exact .read (hRS _ _ _ _ hr) hi
  | spilled hr hi hs => exact .spilled (hRS _ _ _ _ hr) hi (hs.imp hRS)

theorem Step.imp {e st out st'} (h : Step R e st out st') : Step S e st out st' := by
  cases h with
  | sum hop ha hb hx hy => exact .sum hop ha hb (hx.imp hRS) (hy.imp hRS)
  | inlined hr hv hl => exact .inlined (hRS _ _ _ _ hr) hv hl
  | distributed hr hi hd hr' => exact .distributed (hRS _ _ _ _ hr) hi hd (hRS _ _ _ _ hr')
  | kept hr hi hd => exact .kept (hRS _ _ _ _ hr) hi hd
  | parts hs hi ht => exact .parts hs hi (ht.imp fun e _ => hRS e)

end

/-! ### Reading the step off a run -/

/-- The successful runs of `f`. -/
abbrev Gives {α β : Type} (f : α → BoundedM β) (a : α) (st : Flattener) (b : β)
    (st' : Flattener) : Prop :=
  (f a).run.run st = some (.ok b, st')

/-- A successful treatment of several elements is one of each, one after another. -/
theorem threads_of_mapM' {α β : Type} {f : α → BoundedM β} {as : List α} {bs : List β}
    {st st' : Flattener} (h : (as.mapM' f).run.run st = some (.ok bs, st')) :
    Threads (Gives f) as st bs st' := by
  induction as generalizing st bs with
  | nil =>
    obtain ⟨rfl, rfl⟩ := run_pure_ok.1 h
    exact .nil
  | cons a as ih =>
    obtain ⟨b, st₁, hb, h⟩ := run_bind_ok.1 h
    obtain ⟨bs', st₂, hbs, h⟩ := run_bind_ok.1 h
    obtain ⟨rfl, rfl⟩ := run_pure_ok.1 h
    exact .cons hb (ih hbs)

theorem all_eq_mapM' {m : Type → Type} [Monad m] [MonadStateOf Flattener m]
    [MonadExceptOf Error m] (f : Expr → m (Transformed Expr)) (es : List Expr) :
    all f es = es.mapM' f := by
  induction es with
  | nil => rfl
  | cons e es ih =>
    rw [List.mapM'_cons, ← ih]
    rfl

section

variable {f : Expr → BoundedM (Transformed Expr)}

theorem run_build_elementwise_ok {a whole : Expr} {st st' : Flattener} :
    (build (Builder.elementwise .copy a) : BoundedM Expr).run.run st = some (.ok whole, st') →
      ∃ vs b, (Builder.indexVars none a.ty.dims).run st.toBuilder = (vs, b) ∧
        whole = .build vs (a.index vs) ∧ st' = { st with toBuilder := b } := by
  intro h
  unfold build at h
  -- first the builder runs, then its failures become those of the pass
  obtain ⟨r, st₁, h1, h2⟩ := run_bind_ok.1 h
  rw [run_modifyGet_ok] at h1
  unfold Builder.elementwise at h1
  cases ht : a.ty.isTensor with
  | false =>
    rw [ht] at h1
    cases h1
    exact absurd h2 run_throw_ok
  | true =>
    rw [ht] at h1
    cases h1
    obtain ⟨rfl, rfl⟩ := run_pure_ok.1 h2
    exact ⟨_, _, rfl, rfl, rfl⟩

theorem spills_of_run {a : Expr} {st st' : Flattener} {out : Transformed Expr}
    (h : (spill f a).run.run st = some (.ok out, st')) : Spills (Gives f) a st out st' := by
  unfold spill at h
  split at h
  · next hw =>
    simp only [Bool.and_eq_true, Bool.not_eq_true'] at hw
    obtain ⟨whole, st₁, h1, h⟩ := run_bind_ok.1 h
    obtain ⟨vs, b, hv, rfl, rfl⟩ := run_build_elementwise_ok h1
    obtain ⟨mid, st₂, hmid, h⟩ := run_bind_ok.1 h
    obtain ⟨read, st₃, hread, h⟩ := run_bind_ok.1 h
    rw [run_modifyGet_ok] at hread
    obtain ⟨rfl, rfl⟩ := run_pure_ok.1 h
    have hspill := Spills.lifted (R := Gives f) hw.1 hw.2 hv hmid
    rwa [hread] at hspill
  · next hw =>
    rw [run_modifyGet_ok] at h
    have hw' : a.ty.isWhole = true → a.isIndexExpr = true := by simpa using hw
    have hspill : Spills (Gives f) a st (st.hoist a).1 (st.hoist a).2 := .hoisted hw'
    rwa [h] at hspill

theorem operand_of_run {a : Expr} {st st' : Flattener} {out : Transformed Expr}
    (h : (sumOperand f a).run.run st = some (.ok out, st')) : Operand (Gives f) a st out st' := by
  obtain ⟨mid, st₁, hmid, h⟩ := run_bind_ok.1 h
  split at h
  · next hi =>
    obtain ⟨rfl, rfl⟩ := run_pure_ok.1 h
    exact .read hmid hi
  · next hi =>
    obtain ⟨back, st₂, hback, h⟩ := run_bind_ok.1 h
    obtain ⟨rfl, rfl⟩ := run_pure_ok.1 h
    exact .spilled hmid (by simpa using hi) (spills_of_run hback)

theorem run_requireScalar_ok {op : BinaryOp} {a : Expr} {st st' : Flattener} {u : Unit}
    (h : (requireScalar op a : BoundedM Unit).run.run st = some (.ok u, st')) :
    a.ty.isScalar = true ∧ st' = st := by
  unfold requireScalar at h
  cases hs : a.ty.isScalar with
  | true =>
    rw [hs] at h
    obtain ⟨_, rfl⟩ := run_pure_ok.1 h
    exact ⟨rfl, rfl⟩
  | false =>
    rw [hs] at h
    exact absurd h run_throw_ok

theorem sum_of_run {ty : Ty} {op : BinaryOp} {a b : Expr} {st st' : Flattener}
    {out : Transformed Expr} (hop : op.isSum = true)
    (h : (sum f (.binary ty op a b) op a b).run.run st = some (.ok out, st')) :
    Step (Gives f) (.binary ty op a b) st out st' := by
  obtain ⟨_, st₁, hreqa, hrest⟩ := run_bind_ok.1 h
  obtain ⟨_, st₂, hreqb, hrest⟩ := run_bind_ok.1 hrest
  obtain ⟨x, st₃, hx, hrest⟩ := run_bind_ok.1 hrest
  obtain ⟨y, st₄, hy, hrest⟩ := run_bind_ok.1 hrest
  obtain ⟨rfl, rfl⟩ := run_pure_ok.1 hrest
  obtain ⟨ha, rfl⟩ := run_requireScalar_ok hreqa
  obtain ⟨hb, rfl⟩ := run_requireScalar_ok hreqb
  exact .sum hop ha hb (operand_of_run hx) (operand_of_run hy)

theorem indexedRead_of_run {ty : Ty} {t : Expr} {vs : List IndexVar} {st st' : Flattener}
    {out : Transformed Expr}
    (h : (indexedRead f (.indexed ty t vs) t vs).run.run st = some (.ok out, st')) :
    Step (Gives f) (.indexed ty t vs) st out st' := by
  obtain ⟨mid, st₁, hmid, h⟩ := run_bind_ok.1 h
  split at h
  · next rty rs body heq =>
    -- the tensor has become an index expression: it is inlined, unless the arities differ
    dsimp only at h
    split at h
    · next hl =>
      obtain ⟨rfl, rfl⟩ := run_pure_ok.1 h
      exact .inlined hmid heq (by simpa using hl)
    · obtain ⟨_, _, hthrow, _⟩ := run_bind_ok.1 h
      exact absurd hthrow run_throw_ok
  · next hne =>
    -- it has become anything else: the read goes to its operands, or stays
    have hi : mid.value.isIndexExpr = false := by
      cases hm : mid.value with
      | indexExpr ty vs b => exact absurd hm (hne ty vs b)
      | _ => rfl
    split at h
    · next d hd =>
      obtain ⟨out', st₂, hout', h⟩ := run_bind_ok.1 h
      obtain ⟨rfl, rfl⟩ := run_pure_ok.1 h
      exact .distributed hmid hi hd hout'
    · next hd =>
      obtain ⟨rfl, rfl⟩ := run_pure_ok.1 h
      exact .kept hmid hi hd

/-- A successful step is one of the five. -/
theorem step_of_run {e : Expr} {st st' : Flattener} {out : Transformed Expr}
    (h : (step f e).run.run st = some (.ok out, st')) : Step (Gives f) e st out st' := by
  unfold step at h
  split at h
  · exact sum_of_run rfl h
  · exact sum_of_run rfl h
  · exact indexedRead_of_run h
  · next hadd hsub hread =>
    obtain ⟨outs, st₁, houts, h⟩ := run_bind_ok.1 h
    obtain ⟨rfl, rfl⟩ := run_pure_ok.1 h
    rw [all_eq_mapM'] at houts
    -- none of the patterns before matched, so this is neither a sum nor a read
    refine .parts ?_ ?_ (threads_of_mapM' houts)
    · cases e with
      | binary ty op a b =>
        cases op with
        | add => exact absurd rfl (hadd ty a b)
        | sub => exact absurd rfl (hsub ty a b)
        | _ => rfl
      | _ => rfl
    · cases e with
      | indexed ty t vs => exact absurd rfl (hread ty t vs)
      | _ => rfl

end

end Flattening

/-! ### Successful runs -/

/-- Flattening `e` from `st` succeeds with `out` and leaves `st'`. -/
def Flattens (e : Expr) (st : Flattener) (out : Transformed Expr) (st' : Flattener) : Prop :=
  e.flatten.run.run st = (.ok out, st')

namespace Flattening

/-- The step that a successful run begins with. -/
theorem step_of_flattens {e : Expr} {st st' : Flattener} {out : Transformed Expr}
    (h : Flattens e st out st') : Step Flattens e st out st' := by
  have hstep := step_flatten e st (.ok out, st') (congrArg some h)
  exact (step_of_run hstep).imp fun e st out st' h => Option.some.inj h

/-- Induction over successful runs: what each step hands on from the runs it calls for holds of
every run. -/
theorem flattens_induction {P : Expr → Flattener → Transformed Expr → Flattener → Prop}
    (hstep : ∀ e st out st',
      Step (fun e st out st' => Flattens e st out st' ∧ P e st out st') e st out st' →
        P e st out st')
    {e : Expr} {st st' : Flattener} {out : Transformed Expr} (h : Flattens e st out st') :
    P e st out st' := by
  suffices hd : ∀ d e st out st',
      (flattenWithin d e).run.run st = some (.ok out, st') → P e st out st' from
    hd _ _ _ _ _ (flatten_below e st (.ok out, st') (congrArg some h))
  -- the induction is on the bound: the runs that a step calls for have a smaller one
  intro d
  induction d with
  | zero => intro e st out st' h; cases h
  | succ d ih =>
    intro e st out st' h
    refine hstep e st out st' ((step_of_run h).imp fun e st out st' h' => ⟨?_, ih e st out st' h'⟩)
    exact Option.some.inj (flattenWithin_below d e st _ h')

/-! ### Runs of every outcome -/

section

variable (f : Expr → FlattenM (Transformed Expr))

theorem total_sumOperand (a : Expr) :
    total (sumOperand f a) = sumOperand (fun e => total (f e)) a := by
  unfold sumOperand
  rw [total_bind]
  refine congrArg _ (funext fun out => ?_)
  split
  · rfl
  · rw [total_bind, total_spill]
    rfl

theorem total_requireScalar (op : BinaryOp) (a : Expr) :
    total (requireScalar op a) = requireScalar op a := by
  unfold requireScalar
  split <;> rfl

theorem total_sum (e : Expr) (op : BinaryOp) (a b : Expr) :
    total (sum f e op a b) = sum (fun e => total (f e)) e op a b := by
  unfold sum
  simp only [total_bind, total_requireScalar, total_sumOperand]
  rfl

theorem total_indexedRead (e t : Expr) (vs : List IndexVar) :
    total (indexedRead f e t vs) = indexedRead (fun e => total (f e)) e t vs := by
  unfold indexedRead
  rw [total_bind]
  refine congrArg _ (funext fun out => ?_)
  split
  · dsimp only
    split
    · rfl
    · rw [total_bind]
      rfl
  · split
    · rw [total_bind]
      rfl
    · rfl

theorem total_all (es : List Expr) : total (all f es) = all (fun e => total (f e)) es := by
  induction es with
  | nil => rfl
  | cons e es ih =>
    unfold all
    simp only [total_bind, ih]
    rfl

/-- A step is the same action, whether or not what it calls for could give up. -/
theorem total_step (e : Expr) : total (step f e) = step (fun e => total (f e)) e := by
  unfold step
  split
  · exact total_sum f _ _ _ _
  · exact total_sum f _ _ _ _
  · exact total_indexedRead f _ _ _
  · rw [total_bind, total_all]
    rfl

end

/-- Flattens an expression with at most `depth` nested steps, and leaves alone what is deeper. -/
def cutOff : Nat → Expr → FlattenM (Transformed Expr)
  | 0, e => pure (.keep e)
  | depth + 1, e => step (cutOff depth) e

theorem flattenWithin_below_cutOff (d : Nat) (e : Expr) :
    Below (flattenWithin d e) (total (cutOff d e)) := by
  induction d generalizing e with
  | zero => intro st r h; cases h
  | succ d ih =>
    unfold cutOff
    rw [total_step]
    exact step_below ih e

/-- Deep enough, nothing is left alone. So whatever steps hand on holds of flattening, also where
it fails. -/
theorem flatten_eq_cutOff {d : Nat} {e : Expr} (h : e.weight ≤ d) : e.flatten = cutOff d e := by
  refine ExceptT.ext (StateT.ext fun st => ?_)
  obtain ⟨r, hr⟩ := Option.isSome_iff_exists.1 (flattenWithin_isSome h st)
  have hflat : some (e.flatten.run.run st) = some r := flattenWithin_below d e st r hr
  have hcut : some ((cutOff d e).run.run st) = some r := flattenWithin_below_cutOff d e st r hr
  exact Option.some.inj (hflat.trans hcut.symm)

end Flattening

end TensorIR
