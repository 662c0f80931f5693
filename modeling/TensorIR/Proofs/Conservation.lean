import TensorIR.Proofs.Freshness

/-! # Conservation of reads

Flattening an expression takes parts of it out, binds them to temporaries, and reads these in
their place. This module keeps account of all reads of variables on the way.

**Key idea**: a part that is moved takes its reads along, and leaves one read of its temporary
behind. So what is left of an expression, together with all that is bound, reads every variable as
often as the expression did, and every temporary once (`Flattener.Moves`). Parts of an expression
are copied nowhere, and none is lost: inlining renames a body in place, and distributing keeps
both operands. A value is bound after what it reads, so it reads earlier temporaries only.
-/

namespace TensorIR

/-! ### Reads -/

namespace Expr

/-- The variables that an expression reads, as often as it does, in evaluation order. -/
def reads (e : Expr) : List Var := e.nodes.filterMap var?

theorem reads_eq (e : Expr) : e.reads = e.var?.toList ++ e.children.flatMap reads := by
  unfold reads
  rw [nodes_eq, List.filterMap_cons, List.filterMap_flatMap]
  cases e.var? <;> rfl

section

variable (ty : Ty)

@[simp] theorem reads_var (v : Var) : (var ty v).reads = [v] := reads_eq _

@[simp] theorem reads_prim (op : Prim) (es : List Expr) :
    (prim ty op es).reads = es.flatMap reads := reads_eq _

@[simp] theorem reads_indexed (t : Expr) (vs : List IndexVar) :
    (indexed ty t vs).reads = t.reads := by
  simp [reads_eq (indexed ty t vs), var?, children]

@[simp] theorem reads_indexExpr (vs : List IndexVar) (b : Expr) :
    (indexExpr ty vs b).reads = b.reads := by
  simp [reads_eq (indexExpr ty vs b), var?, children]

@[simp] theorem reads_neg (a : Expr) : (neg ty a).reads = a.reads := by
  simp [reads_eq (neg ty a), var?, children]

@[simp] theorem reads_binary (op : BinaryOp) (a b : Expr) :
    (binary ty op a b).reads = a.reads ++ b.reads := by
  simp [reads_eq (binary ty op a b), var?, children]

end

/-- Renaming index variables does not change what is read. -/
@[simp] theorem reads_substitute (ρ : Renaming) (e : Expr) :
    (e.substitute ρ).value.reads = e.reads := by
  induction e generalizing ρ with
  | var ty v => rfl
  | prim ty op es ih =>
    rw [value_substitute_prim, reads_prim, reads_prim, List.flatMap_map]
    exact List.flatMap_congr fun e he => ih e he ρ
  | indexed ty t vs ih => rw [value_substitute_indexed, reads_indexed, reads_indexed, ih]
  | indexExpr ty vs b ih => rw [value_substitute_indexExpr, reads_indexExpr, reads_indexExpr, ih]
  | neg ty a ih => rw [value_substitute_neg, reads_neg, reads_neg, ih]
  | binary ty op a b iha ihb => rw [value_substitute_binary, reads_binary, reads_binary, iha, ihb]

/-- A read of a tensor reads what the tensor does. -/
@[simp] theorem reads_readAt (vs : List IndexVar) (t : Expr) (ty : Ty) :
    (t.readAt vs ty).reads = t.reads := by
  have operandAt : ∀ a : Expr,
      (a.ty.isScalar = false → (a.readAt vs a.ty.componentTy).reads = a.reads) →
      (a.operandAt vs).reads = a.reads :=
    fun a ha => operandAt_of (P := fun x => x.reads = a.reads) (fun _ => rfl) ha
  refine readAt_induction (P := fun t _ x => x.reads = t.reads) ?_ ?_ ?_ ?_ t ty
  · intro ty rty rs b _
    rw [reads_substitute, reads_indexExpr]
  · intro ty nty a _ ih
    rw [reads_neg, reads_neg, operandAt a ih]
  · intro ty bty op a b _ _ iha ihb
    rw [reads_binary, reads_binary, operandAt a iha, operandAt b ihb]
  · exact fun _ _ => reads_indexed _ _ _

@[simp] theorem reads_copyAt (vs : List IndexVar) (a : Expr) : (a.copyAt vs).reads = a.reads := by
  rw [copyAt, reads_indexExpr, reads_readAt]

end Expr

@[simp] theorem Flattening.reads_wholeTensor (e : Expr) : (wholeTensor e).reads = e.reads := by
  unfold wholeTensor
  split
  · split
    · rw [Expr.reads_indexed]
    · rfl
  · rfl

namespace Flattener

/-! ### Temporaries -/

/-- From `st` to `st'` the temporaries `ts` are made, one after another: with the next names, and
with identities that were not given out before. -/
structure Issues (ts : List Var) (st st' : Flattener) : Prop where
  names : ts.map Var.name =
    (List.range' st.names.issued ts.length).map (TempNames.name st.names.stem)
  supply : st'.names = { st.names with issued := st.names.issued + ts.length }
  nextId_le : st.nextId ≤ st'.nextId
  ids : ∀ t ∈ ts, st.nextId ≤ t.id ∧ t.id < st'.nextId
  ascending : ts.Pairwise (·.id < ·.id)

variable {st st₁ st' : Flattener}

/-- Where no name is drawn, no temporary is made. -/
theorem Issues.nil (hnames : st'.names = st.names) (hle : st.nextId ≤ st'.nextId) :
    Issues [] st st' :=
  ⟨rfl, hnames, hle, by simp, .nil⟩

theorem Issues.append {ts us : List Var} (h : Issues ts st st₁) (h' : Issues us st₁ st') :
    Issues (ts ++ us) st st' where
  names := by
    have hstem : st₁.names.stem = st.names.stem := by rw [h.supply]
    have hissued : st₁.names.issued = st.names.issued + ts.length := by rw [h.supply]
    rw [List.map_append, h.names, h'.names, hstem, hissued, List.length_append,
      ← List.map_append, List.range'_append_1]
  supply := by rw [h'.supply, h.supply, List.length_append, Nat.add_assoc]
  nextId_le := Nat.le_trans h.nextId_le h'.nextId_le
  ids t ht := by
    rcases List.mem_append.1 ht with ht | ht
    · exact ⟨(h.ids t ht).1, Nat.lt_of_lt_of_le (h.ids t ht).2 h'.nextId_le⟩
    · exact ⟨Nat.le_trans h.nextId_le (h'.ids t ht).1, (h'.ids t ht).2⟩
  ascending := by
    refine List.pairwise_append.2 ⟨h.ascending, h'.ascending, fun t ht u hu => ?_⟩
    exact Nat.lt_of_lt_of_le (h.ids t ht).2 (h'.ids u hu).1

theorem Issues.nodup {ts : List Var} (h : Issues ts st st') : ts.Nodup :=
  List.Pairwise.imp (fun hlt heq => Nat.ne_of_lt hlt (congrArg Var.id heq)) h.ascending

theorem issues_bindTemporary (value : Expr) (st : Flattener) :
    Issues [(st.bindTemporary value).1] st (st.bindTemporary value).2 where
  names := rfl
  supply := rfl
  nextId_le := Nat.le_succ _
  ids t ht := by
    rw [List.mem_singleton.1 ht]
    exact ⟨Nat.le_refl _, Nat.lt_succ_self _⟩
  ascending := List.pairwise_singleton _ _

/-- Index variables have names of their own. -/
theorem names_indexVars (ds : List Dim) (b : Builder) :
    ((Builder.indexVars none ds).run b).2.names = b.names := by
  induction ds generalizing b with
  | nil => rfl
  | cons d ds ih => exact ih ((Builder.indexVar d none).run b).2

end Flattener

/-! ### Moving parts into assignments -/

/-- Assignments of values to temporaries. -/
def Stmt.assigns (p : List (Var × Expr)) : List Stmt := p.map fun c => .assign c.1 c.2

/-- What several values read. -/
def Expr.readsOf (p : List (Var × Expr)) : List Var := p.flatMap fun c => c.2.reads

namespace Flattener

/-- From `st` to `st'` the values in `p` are bound to new temporaries. -/
structure Binds (p : List (Var × Expr)) (st st' : Flattener) : Prop where
  pending : st'.pending = st.pending ++ Stmt.assigns p
  issues : Issues (p.map Prod.fst) st st'

/-- From `st` to `st'`, code that reads `rs` becomes code that reads `rs'` behind the assignments
`p` to new temporaries. -/
structure Moves (rs rs' : List Var) (p : List (Var × Expr)) (st st' : Flattener) : Prop
    extends Binds p st st' where
  /-- All is read as often as before, and each temporary once. -/
  count : ∀ v, rs'.count v + (Expr.readsOf p).count v = rs.count v + (p.map Prod.fst).count v
  /-- Values read what was there before their temporaries. -/
  earlier : (∀ v ∈ rs, v.id < st.nextId) → ∀ c ∈ p, ∀ v ∈ c.2.reads, v.id < c.1.id

variable {rs rs' rs'' us us' : List Var} {p q : List (Var × Expr)} {st st₁ st' : Flattener}

theorem Binds.nil (hpending : st'.pending = st.pending) (hnames : st'.names = st.names)
    (hle : st.nextId ≤ st'.nextId) : Binds [] st st' :=
  ⟨hpending.trans (List.append_nil _).symm, .nil hnames hle⟩

theorem Binds.append (h : Binds p st st₁) (h' : Binds q st₁ st') : Binds (p ++ q) st st' where
  pending := by
    rw [h'.pending, h.pending, List.append_assoc]
    simp only [Stmt.assigns, List.map_append]
  issues := by
    rw [List.map_append]
    exact h.issues.append h'.issues

/-- Where nothing is bound, the same is read. -/
theorem Moves.ofBinds (h : Binds [] st st') (rs : List Var) : Moves rs rs [] st st' :=
  ⟨h, fun _ => rfl, by simp⟩

theorem Moves.refl (rs : List Var) (st : Flattener) : Moves rs rs [] st st :=
  .ofBinds (.nil rfl rfl (Nat.le_refl _)) rs

/-- What is read afterwards was there before or is a temporary. -/
theorem Moves.below (h : Moves rs rs' p st st') (hrs : ∀ v ∈ rs, v.id < st.nextId) :
    ∀ v ∈ rs', v.id < st'.nextId := by
  intro v hv
  by_cases ht : v ∈ p.map Prod.fst
  · exact (h.issues.ids v ht).2
  · have hcount := h.count v
    rw [List.count_eq_zero_of_not_mem ht] at hcount
    have hpos : 0 < rs.count v := by
      have := List.count_pos_iff.2 hv
      omega
    exact Nat.lt_of_lt_of_le (hrs v (List.count_pos_iff.1 hpos)) h.issues.nextId_le

/-- What was moved stays so when more is moved out of what is left. -/
theorem Moves.trans (h : Moves rs rs' p st st₁) (h' : Moves rs' rs'' q st₁ st') :
    Moves rs rs'' (p ++ q) st st' where
  toBinds := h.toBinds.append h'.toBinds
  count v := by
    have h₁ := h.count v
    have h₂ := h'.count v
    simp only [Expr.readsOf, List.flatMap_append, List.map_append, List.count_append] at h₁ h₂ ⊢
    omega
  earlier hrs c hc := by
    rcases List.mem_append.1 hc with hc | hc
    · exact h.earlier hrs c hc
    · exact h'.earlier (h.below hrs) c hc

/-- Code beside other code: what either moves is put in front of both. -/
theorem Moves.append (h : Moves rs rs' p st st₁) (h' : Moves us us' q st₁ st') :
    Moves (rs ++ us) (rs' ++ us') (p ++ q) st st' where
  toBinds := h.toBinds.append h'.toBinds
  count v := by
    have h₁ := h.count v
    have h₂ := h'.count v
    simp only [Expr.readsOf, List.flatMap_append, List.map_append, List.count_append] at h₁ h₂ ⊢
    omega
  earlier hrs c hc := by
    have hleft : ∀ v ∈ rs, v.id < st.nextId := fun v hv => hrs v (List.mem_append_left _ hv)
    have hright : ∀ v ∈ us, v.id < st₁.nextId := fun v hv =>
      Nat.lt_of_lt_of_le (hrs v (List.mem_append_right _ hv)) h.issues.nextId_le
    rcases List.mem_append.1 hc with hc | hc
    · exact h.earlier hleft c hc
    · exact h'.earlier hright c hc

/-- No temporary is read before it is assigned, or in its own assignment. -/
theorem Moves.not_mem_readsOf {t : Var} {value : Expr}
    (h : Moves rs rs' (p ++ (t, value) :: q) st st') (hrs : ∀ v ∈ rs, v.id < st.nextId) :
    t ∉ Expr.readsOf (p ++ [(t, value)]) := by
  intro hmem
  obtain ⟨c, hc, hread⟩ := List.mem_flatMap.1 hmem
  have hascending := h.issues.ascending
  rw [List.map_append, List.map_cons, List.pairwise_append] at hascending
  rcases List.mem_append.1 hc with hc | hc
  · have hlt : t.id < c.1.id := h.earlier hrs c (List.mem_append_left _ hc) t hread
    exact Nat.lt_asymm hlt (hascending.2.2 c.1 (List.mem_map_of_mem hc) t List.mem_cons_self)
  · rw [List.mem_singleton.1 hc] at hread
    exact Nat.lt_irrefl _ (h.earlier hrs (t, value) (by simp) t hread)

/-- A temporary is read in the place of what it is bound to. -/
theorem moves_bindTemporary (value : Expr) (st : Flattener) :
    Moves value.reads [(st.bindTemporary value).1] [((st.bindTemporary value).1, value)] st
      (st.bindTemporary value).2 where
  pending := rfl
  issues := issues_bindTemporary value st
  count v := by
    simp only [Expr.readsOf, List.flatMap_singleton, List.map_singleton]
    omega
  earlier hrs c hc := by
    rw [List.mem_singleton.1 hc]
    exact hrs

/-- Hoisting binds the expression to one temporary or to none. -/
theorem moves_hoist (a : Expr) (st : Flattener) :
    ∃ p, Moves a.reads (st.hoist a).1.value.reads p st (st.hoist a).2 := by
  cases a using hoist_cases st with
  | built ty vs b h =>
    rw [h]
    exact ⟨_, moves_bindTemporary _ st⟩
  | wrapped a _ _ h =>
    have hmoves := moves_bindTemporary (.build a.freeIndexVars a) st
    rw [Expr.build, Expr.reads_indexExpr] at hmoves
    rw [h]
    exact ⟨_, hmoves⟩
  | named a _ _ h =>
    rw [h]
    exact ⟨_, moves_bindTemporary a st⟩
  | kept a _ _ h =>
    rw [h]
    exact ⟨_, .refl _ st⟩

end Flattener

section

variable {a e x : Expr} {st st' : Flattener}

theorem SpillsTo.moves (h : SpillsTo a st x st') : ∃ p, st.Moves a.reads x.reads p st' := by
  cases h with
  | @copied vs b _ _ hv =>
    -- a copy reads what the tensor does, through index variables of its own
    have hnames : b.names = st.names := by
      simpa [hv] using Flattener.names_indexVars a.ty.dims st.toBuilder
    have hle : st.nextId ≤ b.nextId := by
      simpa [hv] using (Builder.id_indexVars a.ty.dims st.toBuilder).2
    have hdraw : st.Binds [] { st with toBuilder := b } := .nil rfl hnames hle
    obtain ⟨p, hp⟩ := Flattener.moves_hoist (a.copyAt vs) { st with toBuilder := b }
    rw [Expr.reads_copyAt] at hp
    exact ⟨_, (Flattener.Moves.ofBinds hdraw _).trans hp⟩
  | hoisted _ => exact Flattener.moves_hoist a st

theorem Settles.moves (h : Settles a st x st') : ∃ p, st.Moves a.reads x.reads p st' := by
  cases h with
  | read _ => exact ⟨_, .refl _ st⟩
  | spilled _ hspill => exact hspill.moves

/-- Several expressions, one after another. -/
theorem Flattening.Threads.moves {R : Expr → Flattener → Expr → Flattener → Prop}
    {es xs : List Expr} (h : Flattening.Threads R es st xs st')
    (hR : ∀ e ∈ es, ∀ st x st', R e st x st' → ∃ p, st.Moves e.reads x.reads p st') :
    ∃ p, st.Moves (es.flatMap Expr.reads) (xs.flatMap Expr.reads) p st' := by
  induction h with
  | nil => exact ⟨_, .refl _ _⟩
  | cons hr _ ih =>
    obtain ⟨p, hp⟩ := hR _ (by simp) _ _ _ hr
    obtain ⟨q, hq⟩ := ih fun e h => hR e (by simp [h])
    exact ⟨_, hp.append hq⟩

/-- Flattening an expression conserves its reads. -/
theorem FlattensTo.moves (h : FlattensTo e st x st') : ∃ p, st.Moves e.reads x.reads p st' := by
  induction h with
  | var => exact ⟨_, .refl _ _⟩
  | prim _ ih =>
    rw [Expr.reads_prim, Expr.reads_prim]
    exact ih.moves fun _ _ _ _ _ ⟨_, hmoves⟩ => hmoves
  | indexed _ ih => rwa [Expr.reads_indexed, Expr.reads_readAt]
  | indexExpr _ ih => rwa [Expr.reads_indexExpr, Expr.reads_indexExpr]
  | neg _ ih => rwa [Expr.reads_neg, Expr.reads_neg]
  | product _ _ _ ihx ihy =>
    obtain ⟨p, hp⟩ := ihx
    obtain ⟨q, hq⟩ := ihy
    rw [Expr.reads_binary, Expr.reads_binary]
    exact ⟨_, hp.append hq⟩
  | sum _ _ _ _ hxs _ hys ihx ihy =>
    obtain ⟨p, hp⟩ := ihx
    obtain ⟨p', hp'⟩ := hxs.moves
    obtain ⟨q, hq⟩ := ihy
    obtain ⟨q', hq'⟩ := hys.moves
    rw [Expr.reads_binary, Expr.reads_binary]
    exact ⟨_, (hp.trans hp').append (hq.trans hq')⟩

theorem ActualTo.moves (h : ActualTo a st x st') : ∃ p, st.Moves a.reads x.reads p st' := by
  cases h with
  | kept hx _ => exact hx.moves
  | spilled hx _ _ hspill =>
    obtain ⟨p, hp⟩ := hx.moves
    obtain ⟨q, hq⟩ := hspill.moves
    rw [Flattening.reads_wholeTensor]
    exact ⟨_, hp.trans hq⟩

end

end TensorIR
