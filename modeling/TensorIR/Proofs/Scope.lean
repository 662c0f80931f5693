import TensorIR.Proofs.Form
import TensorIR.Proofs.Freshness
import TensorIR.Proofs.Statements

/-! # Index variables and their scope

An expression is *closed* if it has no free index variables. Flattening moves parts of
expressions into statements of their own, so a closed statement stays closed only as far as every
part that is moved takes along what binds its index variables.

**Key idea**: an operand of a sum is moved in one of two ways. If it becomes anything but an index
expression, it is wrapped in one over its free index variables, and what is moved is closed. If it
becomes an index expression it is moved as it is, and then nothing binds the free index variables
it may have. So flattening keeps closed statements closed exactly when all operands of sums that
become index expressions are closed themselves (`Stmt.flatten_closed_iff`).
-/

namespace TensorIR

/-! ### Closed expressions -/

namespace Expr

/-- All free index variables are among `Γ`. -/
def LooseWithin (Γ : List IndexVar) (e : Expr) : Prop := ∀ v ∈ e.loose, v.isFree = true → v ∈ Γ

/-- There are no free index variables. -/
def Closed (e : Expr) : Prop := e.freeIndexVars = []

instance (e : Expr) : Decidable e.Closed := inferInstanceAs (Decidable (_ = _))

theorem closed_iff {e : Expr} : e.Closed ↔ e.LooseWithin [] := by
  unfold Closed LooseWithin
  rw [List.eq_nil_iff_forall_not_mem]
  constructor
  · intro h v hv hf
    exact absurd (mem_freeIndexVars.2 ⟨hv, hf⟩) (h v)
  · intro h v hv
    obtain ⟨hl, hf⟩ := mem_freeIndexVars.1 hv
    exact absurd (h v hl hf) List.not_mem_nil

section

variable {Γ : List IndexVar} {ty : Ty}

@[simp] theorem looseWithin_var {v : Var} : (Expr.var ty v).LooseWithin Γ := by
  intro v hv
  cases hv

@[simp] theorem looseWithin_prim {op : Prim} {es : List Expr} :
    (Expr.prim ty op es).LooseWithin Γ ↔ ∀ e ∈ es, e.LooseWithin Γ := by
  unfold LooseWithin
  simp only [mem_loose_prim]
  constructor
  · intro h e he v hv
    exact h v ⟨e, he, hv⟩
  · rintro h v ⟨e, he, hv⟩
    exact h e he v hv

@[simp] theorem looseWithin_indexed {t : Expr} {vs : List IndexVar} :
    (Expr.indexed ty t vs).LooseWithin Γ ↔
      t.LooseWithin Γ ∧ ∀ v ∈ vs, v.isFree = true → v ∈ Γ := by
  unfold LooseWithin
  simp only [loose, List.mem_append, or_imp, forall_and]

@[simp] theorem looseWithin_indexExpr {b : Expr} {vs : List IndexVar} :
    (Expr.indexExpr ty vs b).LooseWithin Γ ↔ b.LooseWithin (Γ ++ vs) := by
  unfold LooseWithin
  simp only [mem_loose_indexExpr, List.mem_append]
  constructor
  · intro h v hv hf
    by_cases hvs : v ∈ vs
    · exact .inr hvs
    · exact .inl (h v ⟨hv, hf, hvs⟩ hf)
  · rintro h v ⟨hv, _, hvs⟩ hf
    exact (h v hv hf).resolve_right hvs

@[simp] theorem looseWithin_neg {a : Expr} :
    (Expr.neg ty a).LooseWithin Γ ↔ a.LooseWithin Γ := Iff.rfl

@[simp] theorem looseWithin_binary {op : BinaryOp} {a b : Expr} :
    (Expr.binary ty op a b).LooseWithin Γ ↔ a.LooseWithin Γ ∧ b.LooseWithin Γ := by
  unfold LooseWithin
  simp only [loose, List.mem_append, or_imp, forall_and]

theorem LooseWithin.mono {Δ : List IndexVar} {e : Expr} (h : e.LooseWithin Γ)
    (hΓ : ∀ v ∈ Γ, v ∈ Δ) : e.LooseWithin Δ :=
  fun v hv hf => hΓ v (h v hv hf)

/-- Without indexed reads there is nothing loose. -/
theorem loose_of_plain {e : Expr} (h : e.containsIndexed = false) : e.loose = [] := by
  rw [containsIndexed_eq_false_iff] at h
  induction e with
  | var ty v => rfl
  | prim ty op es ih =>
    rw [loose, looseAll_eq, List.flatMap_eq_nil_iff]
    exact fun e he => ih e he (h.child he)
  | indexed ty t vs _ => exact absurd h.root.1 (by simp [isIndexed])
  | indexExpr ty vs b _ => exact absurd h.root.2 (by simp [isIndexExpr])
  | neg ty a ih => exact ih (everywhere_neg.1 h).2
  | binary ty op a b iha ihb =>
    rw [loose, iha (everywhere_binary.1 h).2.1, ihb (everywhere_binary.1 h).2.2]
    rfl

/-- An expression in an index expression over its free index variables is closed. -/
theorem closed_build_freeIndexVars (a : Expr) : (Expr.build a.freeIndexVars a).Closed := by
  rw [closed_iff]
  unfold Expr.build
  rw [looseWithin_indexExpr]
  exact fun v hv hf => mem_freeIndexVars.2 ⟨hv, hf⟩

/-- A read moves nothing out of its scope, and binds nothing. -/
theorem looseWithin_readAt {vs : List IndexVar} (hvs : ∀ v ∈ vs, v.isFree = true → v ∈ Γ)
    (t : Expr) (ty : Ty) : (t.readAt vs ty).LooseWithin Γ ↔ t.LooseWithin Γ := by
  have operandAt : ∀ a : Expr, (a.ty.isScalar = false →
      ((a.readAt vs a.ty.componentTy).LooseWithin Γ ↔ a.LooseWithin Γ)) →
      ((a.operandAt vs).LooseWithin Γ ↔ a.LooseWithin Γ) :=
    fun a ha => operandAt_of (P := fun x => x.LooseWithin Γ ↔ a.LooseWithin Γ)
      (fun _ => Iff.rfl) ha
  refine readAt_induction (P := fun t _ x => x.LooseWithin Γ ↔ t.LooseWithin Γ) ?_ ?_ ?_ ?_ t ty
  · intro ty rty rs b hl
    rw [looseWithin_indexExpr]
    constructor
    · intro h v hv hf
      by_cases hrs : v ∈ rs
      · exact List.mem_append_right _ hrs
      · have hρ := (Renaming.ofPairs_zip_eq_none_iff hl).2 hrs
        exact List.mem_append_left _ (h v (mem_loose_substitute hv hρ) hf)
    · intro h w hw hf
      rcases loose_substitute hw with ⟨hb, hρ⟩ | ⟨v, hρ⟩
      · have hrs := (Renaming.ofPairs_zip_eq_none_iff hl).1 hρ
        exact (List.mem_append.1 (h w hb hf)).resolve_right hrs
      · exact hvs w (List.of_mem_zip (Renaming.mem_of_ofPairs hρ)).2 hf
  · intro ty nty a hr ih
    rw [looseWithin_neg, looseWithin_neg]
    exact operandAt a ih
  · intro ty bty op a b hra hrb iha ihb
    rw [looseWithin_binary, looseWithin_binary, operandAt a iha, operandAt b ihb]
  · intro ty t
    rw [looseWithin_indexed]
    exact and_iff_left hvs

end

/-! ### Parts that may be moved -/

/-- Whether a flattened operand of a sum may be moved out of index expressions over `Γ`: an index
expression if it is closed, anything else unless it is a tensor to be copied. -/
def Movable (Γ : List IndexVar) : Expr → Prop
  | .indexExpr ty rs b => (Expr.indexExpr ty rs b).Closed ∧ ∀ v ∈ rs, v.isFree = true → v ∈ Γ
  | a => a.isIndexed = true ∨ a.ty.isWhole = false

instance (Γ : List IndexVar) : DecidablePred (Movable Γ)
  | .indexExpr _ rs _ => inferInstanceAs (Decidable (_ ∧ ∀ v ∈ rs, v.isFree = true → v ∈ Γ))
  | .var _ _ | .prim _ _ _ | .indexed _ _ _ | .neg _ _ | .binary _ _ _ _ =>
    inferInstanceAs (Decidable (_ ∨ _))

mutual

/-- Within index expressions over `Γ`, every operand of a sum is flattened to what may be moved. -/
def Contained : Expr → List IndexVar → Prop
  | .var _ _, _ => True
  | .prim _ _ es, Γ => ContainedAll es Γ
  | .indexed _ t _, Γ => t.Contained Γ
  | .indexExpr _ vs b, Γ => b.Contained (Γ ++ vs)
  | .neg _ a, Γ => a.Contained Γ
  | .binary _ op a b, Γ =>
    a.Contained Γ ∧ b.Contained Γ ∧ (op.isSum = true → a.form.Movable Γ ∧ b.form.Movable Γ)

/-- The same for several expressions. -/
def ContainedAll : List Expr → List IndexVar → Prop
  | [], _ => True
  | e :: es, Γ => e.Contained Γ ∧ ContainedAll es Γ

end

mutual

instance Contained.decidable : (e : Expr) → (Γ : List IndexVar) → Decidable (e.Contained Γ)
  | .var _ _, _ => inferInstanceAs (Decidable True)
  | .prim _ _ es, Γ => ContainedAll.decidable es Γ
  | .indexed _ t _, Γ => Contained.decidable t Γ
  | .indexExpr _ vs b, Γ => Contained.decidable b (Γ ++ vs)
  | .neg _ a, Γ => Contained.decidable a Γ
  | .binary _ op a b, Γ =>
    have := Contained.decidable a Γ
    have := Contained.decidable b Γ
    inferInstanceAs (Decidable (a.Contained Γ ∧ b.Contained Γ ∧
      (op.isSum = true → a.form.Movable Γ ∧ b.form.Movable Γ)))

instance ContainedAll.decidable :
    (es : List Expr) → (Γ : List IndexVar) → Decidable (ContainedAll es Γ)
  | [], _ => inferInstanceAs (Decidable True)
  | e :: es, Γ =>
    have := Contained.decidable e Γ
    have := ContainedAll.decidable es Γ
    inferInstanceAs (Decidable (e.Contained Γ ∧ ContainedAll es Γ))

end

theorem containedAll_iff {es : List Expr} {Γ : List IndexVar} :
    ContainedAll es Γ ↔ ∀ e ∈ es, e.Contained Γ := by
  induction es with
  | nil => simp [ContainedAll]
  | cons e es ih => simp [ContainedAll, ih]

theorem movable_blank {Γ : List IndexVar} {a : Expr} : a.blank.Movable Γ ↔ a.Movable Γ := by
  cases a with
  | indexExpr ty rs b =>
    show (Expr.indexExpr ty rs b).blank.freeIndexVars = [] ∧ _ ↔ _
    rw [freeIndexVars_blank]
    rfl
  | prim ty op es =>
    rw [blank_prim]
    rfl
  | _ => rfl

/-- What may be moved is no tensor to be copied. -/
theorem Movable.uncopied {Γ : List IndexVar} {a : Expr} (h : a.Movable Γ) : a.Uncopied := by
  cases a with
  | indexExpr ty rs b => exact .inr fun _ => rfl
  | _ => exact h.imp_right fun hw hw' => absurd hw' (by simp [hw])

theorem movable_of_not_indexExpr {Γ : List IndexVar} {a : Expr} (h : a.isIndexExpr = false) :
    a.Movable Γ ↔ a.isIndexed = true ∨ a.ty.isWhole = false := by
  cases a with
  | indexExpr => cases h
  | _ => rfl

/-- In a contained expression no operand of a sum is copied. -/
theorem Contained.copiesNone {e : Expr} {Γ : List IndexVar} (h : e.Contained Γ) :
    e.Everywhere CopiesNone := by
  induction e generalizing Γ with
  | var ty v => exact everywhere_var.2 trivial
  | prim ty op es ih =>
    exact everywhere_prim.2 ⟨trivial, fun e he => ih e he (containedAll_iff.1 h e he)⟩
  | indexed ty t vs ih => exact everywhere_indexed.2 ⟨trivial, ih h⟩
  | indexExpr ty vs b ih => exact everywhere_indexExpr.2 ⟨trivial, ih h⟩
  | neg ty a ih => exact everywhere_neg.2 ⟨trivial, ih h⟩
  | binary ty op a b iha ihb =>
    obtain ⟨hca, hcb, hmove⟩ := h
    -- an operand is flattened to its form, and that may be moved
    have huncopied : ∀ c : Expr, c.Everywhere CopiesNone → c.form.Movable Γ →
        ∀ st x st', FlattensTo c st x st' → x.Uncopied := by
      intro c hc hmove st x st' hx
      rw [← hx.blank_of_copiesNone hc, movable_blank] at hmove
      exact hmove.uncopied
    have ha := iha hca
    have hb := ihb hcb
    refine everywhere_binary.2 ⟨fun hop => ⟨?_, ?_⟩, ha, hb⟩
    · exact huncopied a ha (hmove hop).1
    · exact huncopied b hb (hmove hop).2

end Expr

/-- Contained expressions are flattened to their form. -/
theorem FlattensTo.blank {e x : Expr} {st st' : Flattener} {Γ : List IndexVar}
    (h : FlattensTo e st x st') (he : e.Contained Γ) : x.blank = e.form :=
  h.blank_of_copiesNone he.copiesNone

/-! ### What is moved is closed -/

/-- Every expression is closed. -/
def Stmt.Closed (s : Stmt) : Prop := s.ForExprs Expr.Closed

instance (s : Stmt) : Decidable s.Closed := inferInstanceAs (Decidable (s.ForExprs _))

/-- Every expression is contained. -/
def Stmt.Contained (s : Stmt) : Prop := s.ForExprs fun e => e.Contained []

instance (s : Stmt) : Decidable s.Contained := inferInstanceAs (Decidable (s.ForExprs _))

/-- Every statement that waits is closed. -/
def Flattener.Closed (st : Flattener) : Prop := ∀ s ∈ st.pending, s.Closed

theorem Flattener.closed_bindTemporary {value : Expr} {st : Flattener} :
    (st.bindTemporary value).2.Closed ↔ st.Closed ∧ value.Closed :=
  forall_pending_bindTemporary.trans (and_congr_right fun _ => Stmt.forExprs_assign)

section

variable {Γ : List IndexVar} {a x : Expr} {st st' : Flattener}

/-- Reading a temporary uses the variables of the read. -/
theorem looseWithin_index_ofVar {v : Var} {vs : List IndexVar} :
    ((Expr.ofVar v).index vs).LooseWithin Γ ↔ ∀ v ∈ vs, v.isFree = true → v ∈ Γ := by
  rw [Expr.index, Expr.looseWithin_indexed]
  exact and_iff_right Expr.looseWithin_var

/-- Hoisting an index expression takes it out of its scope as it is. -/
theorem closed_hoist_indexExpr {ty : Ty} {rs : List IndexVar} {b : Expr} :
    ((st.hoist (.indexExpr ty rs b)).2.Closed ∧
        (st.hoist (.indexExpr ty rs b)).1.value.LooseWithin Γ) ↔
      st.Closed ∧ (Expr.indexExpr ty rs b).Closed ∧ ∀ v ∈ rs, v.isFree = true → v ∈ Γ := by
  rw [hoist_indexExpr, Flattener.closed_bindTemporary, Transformed.value_replace,
    looseWithin_index_ofVar, and_assoc]

/-- Hoisting anything else leaves its free index variables behind. -/
theorem closed_hoist (hi : a.isIndexExpr = false) :
    ((st.hoist a).2.Closed ∧ (st.hoist a).1.value.LooseWithin Γ) ↔
      st.Closed ∧ a.LooseWithin Γ := by
  cases a using Flattener.hoist_cases st with
  | built => cases hi
  | wrapped a _ _ heq =>
    rw [heq, Flattener.closed_bindTemporary, Transformed.value_replace, looseWithin_index_ofVar,
      and_iff_left (Expr.closed_build_freeIndexVars a)]
    apply and_congr_right
    intro _
    constructor
    · intro h v hv hf
      exact h v (Expr.mem_freeIndexVars.2 ⟨hv, hf⟩) hf
    · intro h v hv hf
      exact h v (Expr.mem_freeIndexVars.1 hv).1 hf
  | named a hc _ heq =>
    -- without indexed reads there are no index variables
    have hwithin : ∀ Δ, a.LooseWithin Δ := fun Δ v hv => by
      rw [Expr.loose_of_plain hc] at hv
      cases hv
    rw [heq, Flattener.closed_bindTemporary, and_iff_left (Expr.closed_iff.2 (hwithin []))]
    exact and_congr_right fun _ => iff_of_true Expr.looseWithin_var (hwithin Γ)
  | kept a _ _ heq =>
    rw [heq]
    exact Iff.rfl

/-- At least one index variable is made for a tensor to be copied. -/
theorem exists_mem_indexVars {ty : Ty} (h : ty.isWhole = true) (b : Builder) :
    ∃ v, v ∈ ((Builder.indexVars none ty.dims).run b).1 := by
  cases ty with
  | tensor t =>
    cases hd : t.dims with
    | nil => simp [Ty.isWhole, Ty.isTensor, Ty.isScalar, hd] at h
    | cons d ds =>
      rw [show (Ty.tensor t).dims = d :: ds from hd]
      exact ⟨_, List.mem_cons_self⟩
  | _ => cases h

/-- An operand of a sum leaves nothing open exactly if it may be moved. -/
theorem Settles.closed_iff (h : Settles a st x st') (ha : a.Drawn st.nextId)
    (hΓ : ∀ v ∈ Γ, v.id < st.nextId) :
    (st'.Closed ∧ x.LooseWithin Γ) ↔ st.Closed ∧ a.LooseWithin Γ ∧ a.Movable Γ := by
  cases h with
  | read hi =>
    have hie : a.isIndexExpr = false := by
      cases a with
      | indexExpr => cases hi
      | _ => rfl
    rw [and_iff_left ((Expr.movable_of_not_indexExpr hie).2 (.inl hi))]
  | spilled hi hspill =>
    cases hspill with
    | @copied vs b hw hie hv =>
      -- the copy is read through new variables, which are not in scope here
      have hids := (Builder.id_indexVars a.ty.dims st.toBuilder).1
      obtain ⟨v, hmem⟩ := exists_mem_indexVars hw st.toBuilder
      rw [hv] at hids hmem
      rw [Expr.movable_of_not_indexExpr hie]
      refine iff_of_false ?_ ?_
      · rintro ⟨_, hx⟩
        rw [Expr.copyAt, hoist_indexExpr, Transformed.value_replace, looseWithin_index_ofVar] at hx
        obtain ⟨hfree, hle, _⟩ := hids v hmem
        exact absurd (hΓ v (hx v hmem hfree)) (Nat.not_lt.2 hle)
      · simp [hi, hw]
    | hoisted hw =>
      cases hie : a.isIndexExpr with
      | false =>
        rw [closed_hoist hie, and_iff_left ((Expr.movable_of_not_indexExpr hie).2 (.inr ?_))]
        by_contra hwhole
        rw [hw (by simpa using hwhole)] at hie
        cases hie
      | true =>
        cases a with
        | indexExpr ty rs b =>
          rw [closed_hoist_indexExpr]
          refine and_congr_right fun _ => ⟨fun h => ⟨?_, h⟩, fun h => h.2⟩
          exact (Expr.closed_iff.1 h.1).mono (by simp)
        | _ => cases hie

/-- A tensor that is passed to a call leaves nothing open exactly if it is closed. -/
theorem SpillsTo.closed_iff (h : SpillsTo a st x st') (ha : a.Drawn st.nextId)
    (hw : a.ty.isWhole = true) :
    (st'.Closed ∧ (Flattening.wholeTensor x).LooseWithin []) ↔ st.Closed ∧ a.LooseWithin [] := by
  -- what is passed is the temporary itself
  have hpassed : ∀ (ty : Ty) (rs : List IndexVar) (b : Expr) (st : Flattener),
      ((st.hoist (.indexExpr ty rs b)).2.Closed ∧
        (Flattening.wholeTensor (st.hoist (.indexExpr ty rs b)).1.value).LooseWithin []) ↔
      st.Closed ∧ (Expr.indexExpr ty rs b).LooseWithin [] := by
    intro ty rs b st
    rw [hoist_indexExpr, Flattener.closed_bindTemporary, Expr.closed_iff]
    exact and_iff_left Expr.looseWithin_var
  cases h with
  | @copied vs b hw hie hv =>
    have hids := (Builder.id_indexVars a.ty.dims st.toBuilder).1
    rw [hv] at hids
    rw [Expr.copyAt, hpassed, Expr.looseWithin_indexExpr]
    apply and_congr_right
    intro _
    rw [Expr.looseWithin_readAt fun v hv _ => List.mem_append_right _ hv]
    constructor
    · -- nothing in the tensor can refer to variables made for its copy
      intro h v hmem hf
      rcases List.mem_append.1 (h v hmem hf) with hnil | hvs
      · exact hnil
      · exact absurd (Expr.Over.of_mem_loose ha hmem) (Nat.not_lt.2 (hids v hvs).2.1)
    · exact fun h => h.mono (by simp)
  | hoisted hwi =>
    cases a with
    | indexExpr ty rs b => exact hpassed _ _ _ _
    | _ => cases hwi hw

/-- Several expressions, one after another, as far as each of them meets the state from `st` on. -/
theorem Flattening.Threads.closed_iff {R : Expr → Flattener → Expr → Flattener → Prop}
    {es xs : List Expr} (h : Flattening.Threads R es st xs st')
    (hle : ∀ e ∈ es, ∀ st x st', R e st x st' → st.nextId ≤ st'.nextId)
    (hR : ∀ e ∈ es, ∀ st₁ x st₂, R e st₁ x st₂ → e.Drawn st₁.nextId → st.nextId ≤ st₁.nextId →
      ((st₂.Closed ∧ x.LooseWithin Γ) ↔ st₁.Closed ∧ e.Contained Γ))
    (hds : ∀ e ∈ es, e.Drawn st.nextId) :
    (st'.Closed ∧ ∀ x ∈ xs, x.LooseWithin Γ) ↔ st.Closed ∧ ∀ e ∈ es, e.Contained Γ :=
  (h.of_le hle).and_iff fun e he st₁ x st₂ ⟨hst, hr⟩ =>
    hR e he st₁ x st₂ hr ((hds e he).mono hst) hst

/-- An operand of a sum is flattened first and then settled. It leaves nothing open exactly if it
is contained, and what it is flattened to may be moved. -/
theorem FlattensTo.settled_closed_iff {y : Expr} {st₁ : Flattener} (hx : FlattensTo a st x st₁)
    (hxs : Settles x st₁ y st') (hd : a.Drawn st.nextId) (hΓ : ∀ v ∈ Γ, v.id < st.nextId)
    (hiff : (st₁.Closed ∧ x.LooseWithin Γ) ↔ st.Closed ∧ a.Contained Γ) :
    (st'.Closed ∧ y.LooseWithin Γ) ↔ st.Closed ∧ a.Contained Γ ∧ a.form.Movable Γ := by
  have hΓ₁ : ∀ v ∈ Γ, v.id < st₁.nextId := fun v hv => Nat.lt_of_lt_of_le (hΓ v hv) hx.nextId_le
  calc st'.Closed ∧ y.LooseWithin Γ
      ↔ st₁.Closed ∧ x.LooseWithin Γ ∧ x.Movable Γ := hxs.closed_iff (hx.drawn hd) hΓ₁
    _ ↔ (st.Closed ∧ a.Contained Γ) ∧ x.Movable Γ := by rw [← and_assoc, hiff]
    _ ↔ st.Closed ∧ a.Contained Γ ∧ x.Movable Γ := and_assoc
    _ ↔ st.Closed ∧ a.Contained Γ ∧ a.form.Movable Γ := by
      refine and_congr_right fun _ => and_congr_right fun hc => ?_
      rw [← hx.blank hc, Expr.movable_blank]

/-- Flattening an expression within index expressions over `Γ` leaves nothing open exactly if the
expression is contained. -/
theorem FlattensTo.closed_iff {e : Expr} (h : FlattensTo e st x st') (he : e.LooseWithin Γ)
    (hd : e.Drawn st.nextId) (hΓ : ∀ v ∈ Γ, v.id < st.nextId) :
    (st'.Closed ∧ x.LooseWithin Γ) ↔ st.Closed ∧ e.Contained Γ := by
  induction h generalizing Γ with
  | var => exact and_congr_right fun _ => iff_of_true Expr.looseWithin_var trivial
  | @prim ty op es st xs st' _ ih =>
    rw [Expr.looseWithin_prim, show (Expr.prim ty op es).Contained Γ ↔ _ from
      Expr.containedAll_iff]
    have hes := Expr.looseWithin_prim.1 he
    refine ih.closed_iff (fun e _ st x st' ⟨hr, _⟩ => hr.nextId_le) ?_
      fun e h => Expr.Over.child hd h
    rintro e hmem st₁ x st₂ ⟨_, hiff⟩ hd hst
    exact hiff (hes e hmem) hd fun v hv => Nat.lt_of_lt_of_le (hΓ v hv) hst
  | indexed _ ih =>
    obtain ⟨htl, hvs⟩ := Expr.looseWithin_indexed.1 he
    rw [Expr.looseWithin_readAt hvs]
    exact ih htl (Expr.over_indexed.1 hd).2 hΓ
  | indexExpr _ ih =>
    obtain ⟨hvs, hdb⟩ := Expr.over_indexExpr.1 hd
    rw [Expr.looseWithin_indexExpr] at he ⊢
    apply ih he hdb
    intro v hv
    rcases List.mem_append.1 hv with hv | hv
    · exact hΓ v hv
    · exact hvs v hv
  | neg _ ih =>
    rw [Expr.looseWithin_neg] at he ⊢
    exact ih he (Expr.over_neg.1 hd) hΓ
  | product hop hx _ ihx ihy =>
    obtain ⟨hal, hbl⟩ := Expr.looseWithin_binary.1 he
    obtain ⟨had, hbd⟩ := Expr.over_binary.1 hd
    have hle := hx.nextId_le
    have hix := ihx hal had hΓ
    have hiy := ihy hbl (Expr.Drawn.mono hbd hle) fun v hv => Nat.lt_of_lt_of_le (hΓ v hv) hle
    rw [Expr.looseWithin_binary, Flattening.and_threads hix hiy]
    refine and_congr_right fun _ => and_congr_right fun _ => (and_iff_left fun hop' => ?_).symm
    exact absurd hop' (by simp [hop])
  | @sum ty op a b st _ _ x st₂ _ _ y st' hop _ _ hx hxs hy hys ihx ihy =>
    obtain ⟨hal, hbl⟩ := Expr.looseWithin_binary.1 he
    obtain ⟨had, hbd⟩ := Expr.over_binary.1 hd
    have hle := Nat.le_trans hx.nextId_le hxs.nextId_le
    have hbd₂ := Expr.Drawn.mono hbd hle
    have hΓ₂ : ∀ v ∈ Γ, v.id < st₂.nextId := fun v hv => Nat.lt_of_lt_of_le (hΓ v hv) hle
    have hix := hx.settled_closed_iff hxs had hΓ (ihx hal had hΓ)
    have hiy := hy.settled_closed_iff hys hbd₂ hΓ₂ (ihy hbl hbd₂ hΓ₂)
    rw [Expr.looseWithin_binary, Flattening.and_threads hix hiy]
    refine and_congr_right fun _ => ⟨?_, ?_⟩
    · rintro ⟨⟨hca, hma⟩, hcb, hmb⟩
      exact ⟨hca, hcb, fun _ => ⟨hma, hmb⟩⟩
    · rintro ⟨hca, hcb, hmove⟩
      obtain ⟨hma, hmb⟩ := hmove hop
      exact ⟨⟨hca, hma⟩, hcb, hmb⟩

/-- The same for an actual of a call. -/
theorem ActualTo.closed_iff (h : ActualTo a st x st')
    (ha : a.LooseWithin []) (hd : a.Drawn st.nextId) :
    (st'.Closed ∧ x.LooseWithin []) ↔ st.Closed ∧ a.Contained [] := by
  cases h with
  | kept hx _ => exact hx.closed_iff ha hd (by simp)
  | spilled hx hw _ hspill =>
    rw [hspill.closed_iff (hx.drawn hd) hw]
    exact hx.closed_iff ha hd (by simp)

end

/-! ### Statements -/

/-- What is put in front of a statement, and the statement over its new parts. -/
theorem closed_after {s : Stmt} {xs : List Expr} {ss : List Stmt} {st : Flattener}
    (hxs : xs.length = s.exprs.length) (hss : ss.length = s.children.length) :
    ((s.withParts xs ss).after st.pending).Closed ↔
      st.Closed ∧ (∀ x ∈ xs, x.LooseWithin []) ∧ ∀ s' ∈ ss, s'.Closed := by
  unfold Stmt.Closed
  rw [Stmt.forExprs_after, Stmt.forExprs_withParts hxs hss]
  simp only [Expr.closed_iff]
  rfl

theorem Flattener.closed_own (st : Flattener) : st.own.Closed := by
  rintro s ⟨⟩

/-- A closed statement is flattened to a closed one exactly if it is contained. -/
def StmtFlattensTo.Closes (s : Stmt) : Prop :=
  ∀ s' st st', StmtFlattensTo s st s' st' → s.Closed → s.ForExprs (Expr.Drawn st.nextId) →
    (s'.Closed ↔ s.Contained)

/-- One statement, given the statements inside it. -/
theorem StmtFlattensTo.closes_step {s : Stmt} (ih : ∀ c ∈ s.children, Closes c) : Closes s := by
  intro s' st st' h hs hd
  obtain ⟨hse, hsc⟩ := Stmt.forExprs_iff.1 hs
  obtain ⟨hde, hdc⟩ := Stmt.forExprs_iff.1 hd
  unfold Stmt.Contained
  rw [Stmt.forExprs_iff]
  cases h with
  | @call rs f as _ xs st₁ hthreads =>
    have hiff := hthreads.closed_iff (fun _ _ _ _ _ hr => hr.nextId_le)
      (fun a ha _ _ _ hr hd _ => hr.closed_iff (Expr.closed_iff.1 (hse a ha)) hd) hde
    have hafter : ((Stmt.call rs f xs).after st₁.pending).Closed ↔
        st₁.Closed ∧ (∀ x ∈ xs, x.LooseWithin []) ∧ ∀ s' ∈ ([] : List Stmt), s'.Closed :=
      closed_after (s := .call rs f as) hthreads.length_eq rfl
    rw [hafter, and_iff_left (by simp : ∀ s' ∈ ([] : List Stmt), s'.Closed), hiff,
      and_iff_right (Flattener.closed_own st)]
    exact (and_iff_left (by simp [Stmt.children])).symm
  | @parts _ _ xs st₁ ss st₂ hcall hexprs hstmts =>
    have hle := hexprs.nextId_le fun _ _ _ _ _ hr => hr.nextId_le
    have hiff := hexprs.closed_iff (fun _ _ _ _ _ hr => hr.nextId_le)
      (fun e he _ _ _ hr hd _ => hr.closed_iff (Expr.closed_iff.1 (hse e he)) hd (by simp)) hde
    have hiff' := forall_iff_of_forall₂ <| (hstmts.of_le fun _ _ _ _ _ hr => hr.nextId_le).forall₂
      fun c hc st s' st' hr => ih c hc s' st st' hr.2 (hsc c hc)
        fun e he => (hdc c hc e he).mono (Nat.le_trans hle hr.1)
    -- the statements inside leave pending what the expressions left
    have hclosed : st₂.Closed ↔ st₁.Closed := by
      unfold Flattener.Closed
      rw [hstmts.pending_eq]
    rw [closed_after hexprs.length_eq hstmts.length_eq, hclosed, hiff', ← and_assoc, hiff,
      and_iff_right (Flattener.closed_own st)]
    rfl

/-- A closed statement is flattened to one without free index variables exactly if every operand
of a sum in it that becomes an index expression has none. -/
theorem Stmt.flatten_closed_iff {s : Stmt} {st st' : Flattener} {out : Transformed Stmt}
    (hs : s.Closed) (hd : s.ForExprs (Expr.Drawn st.nextId))
    (h : s.flatten.run.run st = (.ok out, st')) : out.value.Closed ↔ s.Contained :=
  Stmt.children_induction (fun _ => StmtFlattensTo.closes_step) s _ _ _
    (Stmt.flattensTo_of_run h) hs hd

/-- `x = (j: (: c{j}) + a{j})`: what the first operand needs of `j` is not passed on. -/
def Stmt.openOperand : Stmt :=
  let j : IndexVar := ⟨0, "j", .range 3, none⟩
  let c : Expr := .ofVar ⟨1, "c", .vector 3⟩
  let a : Expr := .ofVar ⟨2, "a", .vector 3⟩
  .assign ⟨3, "x", .vector 3⟩ (.build [j] (.binaryOf .add (.build [] (c.index [j])) (a.index [j])))

/-- A closed statement whose outcome has a free index variable. -/
theorem Stmt.flatten_openOperand :
    openOperand.Closed ∧ ∃ out st',
      openOperand.flatten.run.run (.ofFresh ⟨4, {}⟩) = (.ok out, st') ∧ ¬ out.value.Closed := by
  refine ⟨by decide, _, _, rfl, ?_⟩
  decide

/-- `x = (j: (: -d) + a{j})`: an operand that needs nothing may be moved. -/
def Stmt.closedOperand : Stmt :=
  let j : IndexVar := ⟨0, "j", .range 3, none⟩
  let d : Expr := .ofVar ⟨1, "d", .float⟩
  let a : Expr := .ofVar ⟨2, "a", .vector 3⟩
  .assign ⟨3, "x", .vector 3⟩ (.build [j] (.binaryOf .add (.build [] d.negOf) (a.index [j])))

/-- A contained statement, flattened to a closed one. -/
theorem Stmt.flatten_closedOperand :
    closedOperand.Closed ∧ closedOperand.ForExprs (Expr.Drawn 4) ∧ closedOperand.Contained ∧
      ∃ out st', closedOperand.flatten.run.run (.ofFresh ⟨4, {}⟩) = (.ok out, st') ∧
        (out.value.Closed ↔ closedOperand.Contained) := by
  have hdrawn : closedOperand.ForExprs (Expr.Drawn (Flattener.ofFresh ⟨4, {}⟩).nextId) := by decide
  exact ⟨by decide, by decide, by decide, _, _, rfl, flatten_closed_iff (by decide) hdrawn rfl⟩

end TensorIR
