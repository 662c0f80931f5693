import TensorIR.Proofs.Coverage
import TensorIR.Proofs.Normalization
import TensorIR.Proofs.Vocabulary

/-! # Where variables come from

What the passes return, and what they leave waiting, is made of the variables they were given and
of those they have drawn, whether or not they succeed (`Pipeline.introduces_run`).

**Key idea**: only what builds an index expression or binds a temporary draws anything. All else
goes through the rules of `TensorIR.Proofs.Vocabulary`, one rule for each way to put actions
together. For flattening, a step does so if what it calls for does (`Flattening.conserves_step`),
and flattening is the step taken deep enough, also where it fails.
-/

namespace TensorIR

section

variable {pre : Vocabulary → Prop} {V : Vocabulary}

theorem introduces_newId : Introduces pre (fun st => Fresh.newId.run st) fun _ _ => True :=
  fun _ => ⟨[], .nil rfl (Nat.le_succ _), fun _ _ _ hst => ⟨hst, trivial⟩⟩

theorem introduces_temporary (ty : Ty) :
    Introduces pre (fun st => (Fresh.temporary ty).run st) fun V v => V.var v := by
  intro st
  refine ⟨[((Fresh.temporary ty).run st).1], ⟨rfl, rfl, Nat.le_succ _, ?_, ?_⟩, ?_⟩
  · intro t ht
    rw [List.mem_singleton.1 ht]
    exact ⟨Nat.le_refl _, Nat.lt_succ_self _⟩
  · exact List.pairwise_singleton _ _
  · exact fun V hV _ hst => ⟨hst, hV.var _ (by simp)⟩

namespace Builder

theorem introduces_temporary (ty : Ty) :
    Introduces pre (fun b => (temporary ty).run b) fun V v => V.var v :=
  Introduces.embed (i := Builder.toFresh) (b := fun b s => { b with toFresh := s })
    (TensorIR.introduces_temporary ty)
    (fun _ => rfl) (fun _ _ h => h) (fun _ _ => rfl) fun _ _ _ h => .inl h

theorem introduces_indexVar (d : Dim) (r : Option Reduction) :
    Introduces pre (fun b => (indexVar d r).run b) fun V v => V.indexVar v :=
  fun _ => ⟨[], .nil rfl (Nat.le_succ _), fun _ hV _ hst =>
    ⟨hst, hV.indexVar _ (Nat.le_refl _) (Nat.lt_succ_self _)⟩⟩

theorem introduces_indexVars (r : Option Reduction) (ds : List Dim) :
    Introduces pre (fun b => (indexVars r ds).run b) fun V vs => ∀ v ∈ vs, V.indexVar v := by
  induction ds generalizing pre with
  | nil => exact Introduces.pure fun V _ => by simp
  | cons d ds ih =>
    -- the first, then the others
    refine Introduces.seq (f := fun b => (indexVar d r).run b)
      (g := fun v b => (v :: ((indexVars r ds).run b).1, ((indexVars r ds).run b).2))
      (introduces_indexVar d r) fun v => ?_
    exact Introduces.map (k := fun vs => v :: vs) ih fun V vs hv hvs => by simpa using ⟨hv.2, hvs⟩

theorem introduces_innerProduct (a b : Expr) :
    Action.Introduces (fun V => a.Within V ∧ b.Within V) (innerProduct a b)
      fun V e => e.Within V := by
  unfold innerProduct
  refine Action.Introduces.check (Action.Introduces.check ?_)
  refine (Action.Introduces.modifyGet (introduces_indexVars (some .sum) a.ty.dims)).bind fun vs => ?_
  refine Action.Introduces.pure fun V ⟨⟨ha, hb⟩, hvs⟩ => ?_
  exact Expr.Within.build (Expr.over_binary.2 ⟨ha.index hvs, hb.index hvs⟩) (by simp)

theorem introduces_copy (a : Expr) :
    Action.Introduces (fun V => a.Within V) (elementwise .copy a) fun V e => e.Within V := by
  unfold elementwise
  refine Action.Introduces.check ?_
  refine (Action.Introduces.modifyGet (introduces_indexVars none a.ty.dims)).bind fun vs => ?_
  exact Action.Introduces.pure fun V ⟨ha, hvs⟩ => (ha.index hvs).build hvs

end Builder

namespace Flattener

theorem introduces_bindTemporary (value : Expr) :
    Introduces (fun V => value.Within V) (fun st : Flattener => st.bindTemporary value)
      fun V tmp => V.var tmp := by
  intro st
  have h := issues_bindTemporary value st
  refine ⟨_, ⟨h.names, h.supply, h.nextId_le, h.ids, h.ascending⟩, fun V hV hvalue hst => ?_⟩
  have htmp : V.var (st.bindTemporary value).1 := hV.var _ (by simp)
  refine ⟨forall_pending_bindTemporary.2 ⟨hst, ?_⟩, htmp⟩
  exact Stmt.within_assign.2 ⟨hvalue, htmp⟩

theorem introduces_hoist (a : Expr) :
    Introduces (fun V => a.Within V) (fun st : Flattener => st.hoist a)
      fun V out => out.value.Within V := by
  -- a temporary is bound to a value, and read through variables of it
  have hread : ∀ (value : Expr) (vs : List IndexVar),
      (∀ V, a.Within V → value.Within V ∧ ∀ v ∈ vs, V.indexVar v) →
      Introduces (fun V => a.Within V) (fun st : Flattener =>
        ((.replace ((Expr.ofVar (st.bindTemporary value).1).index vs),
          (st.bindTemporary value).2) : Transformed Expr × Flattener))
        fun V out => out.value.Within V := by
    intro value vs hvalue
    exact Introduces.map (k := fun tmp => Transformed.replace ((Expr.ofVar tmp).index vs))
      ((introduces_bindTemporary value).mono (fun V hV => (hvalue V hV).1) fun V tmp _ h => h)
      fun V tmp hV htmp => Expr.Within.index (Expr.within_ofVar.2 htmp) (hvalue V hV).2
  by_cases hc : a.containsIndexed = true
  · cases hi : a.isIndexExpr with
    | true =>
      cases a with
      | indexExpr ty rs b =>
        simp only [hoist_indexExpr]
        exact hread _ _ fun V hV => ⟨hV, (Expr.over_indexExpr.1 hV).1⟩
      | _ => cases hi
    | false =>
      simp only [hoist_wrapped hc hi]
      refine hread _ _ fun V hV => ?_
      have hvs : ∀ v ∈ a.freeIndexVars, V.indexVar v := fun v hv =>
        Expr.Over.of_mem_loose hV (Expr.mem_freeIndexVars.1 hv).1
      exact ⟨hV.build hvs, hvs⟩
  · unfold hoist
    simp only [if_neg hc]
    split
    · exact Introduces.pure fun V hV => hV
    · exact Introduces.map (k := fun tmp => Transformed.replace (Expr.ofVar tmp)) (introduces_bindTemporary a)
        fun V tmp _ htmp => Expr.within_ofVar.2 htmp

end Flattener

namespace Flattening

theorem introduces_build {α : Type} {act : BuildM α} {post : Vocabulary → α → Prop}
    (h : Action.Introduces pre act post) : Action.Introduces pre (build act : FlattenM α) post := by
  have hrun : Introduces pre (Flattener.onBuilder act.run)
      fun V r => ∀ a, r = .ok a → post V a :=
    Introduces.embed (i := Flattener.toBuilder) (b := fun st b => { st with toBuilder := b }) h
      (fun _ => rfl) (fun _ _ h => h.elim) (fun _ _ => rfl) fun _ _ _ h => .inl h
  refine (Action.Introduces.modifyGet hrun).bind fun r => ?_
  cases r with
  | ok a => exact Action.Introduces.pure fun V hV => hV.2 a rfl
  | error e => exact Action.Introduces.throw _

theorem introduces_requireScalar (op : BinaryOp) (a : Expr) :
    Action.Introduces pre (requireScalar op a : FlattenM Unit) fun _ _ => True := by
  unfold requireScalar
  split
  · exact Action.Introduces.pure fun _ _ => trivial
  · exact Action.Introduces.throw _

/-- Whatever is flattened, the outcome is made of its parts and of what is drawn. -/
def Conserves (f : Expr → FlattenM (Transformed Expr)) : Prop :=
  ∀ e, Action.Introduces (fun V => e.Within V) (f e) fun V out => out.value.Within V

section

variable {f : Expr → FlattenM (Transformed Expr)} (hf : Conserves f)

include hf

theorem introduces_of_conserves {e : Expr} (h : ∀ V, pre V → e.Within V) :
    Action.Introduces pre (f e) fun V out => out.value.Within V :=
  (hf e).mono h fun _ _ _ h => h

theorem introduces_spill (a : Expr) :
    Action.Introduces (fun V => a.Within V) (spill f a) fun V out => out.value.Within V := by
  unfold spill
  split
  · refine (introduces_build (Builder.introduces_copy a)).bind fun whole => ?_
    refine (introduces_of_conserves hf fun V hV => hV.2).bind fun out => ?_
    refine (Action.Introduces.modifyGet ((Flattener.introduces_hoist out.value).mono
      (fun V hV => hV.2) fun _ _ _ h => h)).bind fun read => ?_
    exact Action.Introduces.pure fun V hV => hV.2
  · exact Action.Introduces.modifyGet (Flattener.introduces_hoist a)

theorem introduces_sumOperand (a : Expr) :
    Action.Introduces (fun V => a.Within V) (sumOperand f a) fun V out => out.value.Within V := by
  unfold sumOperand
  refine (hf a).bind fun out => ?_
  split
  · exact Action.Introduces.pure fun V hV => hV.2
  · refine ((introduces_spill hf out.value).mono (fun V hV => hV.2) fun _ _ _ h => h).bind
      fun read => ?_
    exact Action.Introduces.pure fun V hV => hV.2

theorem introduces_sum {ty : Ty} {op : BinaryOp} {a b : Expr} :
    Action.Introduces (fun V => (Expr.binary ty op a b).Within V)
      (sum f (.binary ty op a b) op a b) fun V out => out.value.Within V := by
  unfold sum
  refine (introduces_requireScalar op a).bind fun _ => ?_
  refine (introduces_requireScalar op b).bind fun _ => ?_
  refine ((introduces_sumOperand hf a).mono (fun V hV => (Expr.over_binary.1 hV.1.1).1)
    fun _ _ _ h => h).bind fun x => ?_
  refine ((introduces_sumOperand hf b).mono (fun V hV => (Expr.over_binary.1 hV.1.1.1).2)
    fun _ _ _ h => h).bind fun y => ?_
  exact Action.Introduces.pure fun V ⟨⟨⟨⟨he, _⟩, _⟩, hx⟩, hy⟩ =>
    Expr.Within.rebuild he rfl (by simpa using ⟨hx, hy⟩)

theorem introduces_indexedRead {ty : Ty} {t : Expr} {vs : List IndexVar} :
    Action.Introduces (fun V => (Expr.indexed ty t vs).Within V)
      (indexedRead f (.indexed ty t vs) t vs) fun V out => out.value.Within V := by
  unfold indexedRead
  refine (introduces_of_conserves hf fun V hV => (Expr.over_indexed.1 hV).2).bind fun out => ?_
  split
  · next rty rs body hout =>
    refine Action.Introduces.check (Action.Introduces.pure fun V ⟨he, hbody⟩ => ?_)
    rw [hout] at hbody
    -- the body is read through the variables of the read
    refine Expr.Over.substitute (Expr.over_indexExpr.1 hbody).2 fun v w hw => ?_
    have hzip : (v, w) ∈ rs.zip vs := Renaming.mem_of_ofPairs hw
    exact (Expr.over_indexed.1 he).1 w (List.of_mem_zip hzip).2
  · split
    · next d hd =>
      refine Action.Introduces.bind (introduces_of_conserves hf fun V ⟨he, hout⟩ => ?_)
        fun out' => Action.Introduces.pure fun V hV => hV.2
      exact Expr.Within.distributeIndex? hout (Expr.over_indexed.1 he).1 hd
    · exact Action.Introduces.pure fun V ⟨he, hout⟩ =>
        Expr.Within.rebuild he rfl (by simpa using hout)

theorem conserves_step : Conserves (step f) := by
  intro e
  unfold step
  split
  · exact introduces_sum hf
  · exact introduces_sum hf
  · exact introduces_indexedRead hf
  · rw [all_eq_mapM']
    refine (Action.Introduces.mapM' fun c hc =>
      introduces_of_conserves hf fun V hV => Expr.Within.child hV hc).bind fun outs => ?_
    exact Action.Introduces.pure fun V ⟨he, hlen, houts⟩ => he.rebuild hlen houts

end

theorem conserves_cutOff (d : Nat) : Conserves (cutOff d) := by
  induction d with
  | zero => exact fun e => Action.Introduces.pure fun V hV => hV
  | succ d ih => exact conserves_step ih

theorem conserves_flatten : Conserves Expr.flatten := by
  intro e
  rw [flatten_eq_cutOff (Nat.le_refl e.weight)]
  exact conserves_cutOff _ e

theorem introduces_actual (a : Expr) :
    Action.Introduces (fun V => a.Within V) (actual a) fun V out => out.value.Within V := by
  unfold actual
  refine (conserves_flatten a).bind fun out => ?_
  split
  · refine ((introduces_spill conserves_flatten out.value).mono (fun V hV => hV.2)
      fun _ _ _ h => h).bind fun read => ?_
    exact Action.Introduces.pure fun V hV => hV.2.wholeTensor
  · exact Action.Introduces.pure fun V hV => hV.2

/-- What a statement leaves pending stands in front of it, or waits behind what waited before. -/
theorem introduces_withOwnPending {act : FlattenM (Transformed Stmt)}
    (h : Action.Introduces pre act fun V out => out.value.Within V) :
    Action.Introduces pre (withOwnPending act) fun V out => out.value.Within V := by
  intro st
  obtain ⟨ts, hts, hV⟩ := h st.own
  simp only [run_withOwnPending]
  rcases hact : act.run.run st.own with ⟨e | out, st'⟩
  all_goals
    simp only [hact] at hts hV ⊢
    refine ⟨ts, hts, fun V hadmits hpre hst => ?_⟩
    obtain ⟨hst', hresult⟩ := hV V hadmits hpre fun s hs => by cases hs
  · refine ⟨fun s hs => ?_, fun _ h => by cases h⟩
    rcases List.mem_append.1 hs with hs | hs
    · exact hst s hs
    · exact hst' s hs
  · refine ⟨hst, fun a ha => ?_⟩
    cases ha
    exact (hresult out rfl).after hst'

end Flattening

namespace Stmt

theorem introduces_treat (s : Stmt) (e : Expr) :
    Action.Introduces (fun V => e.Within V) (s.treat e) fun V out => out.value.Within V := by
  unfold treat
  split
  · exact Flattening.introduces_actual e
  · exact Flattening.conserves_flatten e

/-- A flattened statement, and what its failure leaves, is made of its parts and of what is
drawn. -/
theorem introduces_flatten (s : Stmt) :
    Action.Introduces (fun V => s.Within V) s.flatten fun V out => out.value.Within V := by
  induction s using children_induction with
  | step s ih =>
    rw [Stmt.flatten_eq]
    refine Flattening.introduces_withOwnPending ?_
    unfold flattenParts
    refine (Action.Introduces.mapM' fun e he => (s.introduces_treat e).mono
      (fun V hV => Within.exprs hV he) fun _ _ _ h => h).bind fun outs => ?_
    refine (Action.Introduces.mapM' fun c hc => (ih c hc).mono
      (fun V hV => Within.child hV.1 hc) fun _ _ _ h => h).bind fun inner => ?_
    exact Action.Introduces.pure fun V ⟨⟨hs, hlen, houts⟩, hlen', hinner⟩ =>
      hs.rebuild hlen hlen' houts hinner

end Stmt

namespace Lowering

theorem introduces_build {α : Type} {act : BuildM α} {post : Vocabulary → α → Prop}
    (h : Action.Introduces pre act post) : Action.Introduces pre (build act) post := by
  refine Introduces.map (k := Except.mapError Error.builder) h fun V r _ hr a ha => ?_
  cases r with
  | ok b =>
    cases ha
    exact hr _ rfl
  | error e => cases ha

theorem introduces_requireTensor (callee : String) (position : Nat) (a : Expr) :
    Action.Introduces pre (requireTensor callee position a) fun _ _ => True := by
  unfold requireTensor
  split
  · exact Action.Introduces.pure fun _ _ => trivial
  · exact Action.Introduces.throw _

theorem introduces_norm (rs : List Var) (as : List Expr) :
    Action.Introduces (fun V => (∀ a ∈ as, a.Within V) ∧ ∀ v ∈ rs, V.var v) (norm rs as)
      fun V s => s.Within V := by
  unfold norm
  split
  · next r x =>
    refine (introduces_requireTensor "norm" 0 x).bind fun _ => ?_
    refine ((introduces_build (Builder.introduces_innerProduct x x)).mono (fun V hV => ?_)
      fun _ _ _ h => h).bind fun squared => ?_
    · have hx : x.Within V := hV.1.1 x (by simp)
      exact ⟨hx, hx⟩
    refine (Action.Introduces.modifyGet (Builder.introduces_temporary r.ty)).bind fun tmp => ?_
    refine Action.Introduces.pure fun V ⟨⟨⟨⟨_, hr⟩, _⟩, hsquared⟩, htmp⟩ => Stmt.within_block.2 ?_
    simp only [List.mem_cons, List.not_mem_nil, or_false, forall_eq_or_imp, forall_eq]
    exact ⟨Stmt.within_assign.2 ⟨hsquared, htmp⟩,
      Stmt.within_call.2 ⟨by simpa using Expr.within_ofVar.2 htmp, hr⟩⟩
  · exact Action.Introduces.throw _

theorem introduces_dot (rs : List Var) (as : List Expr) :
    Action.Introduces (fun V => (∀ a ∈ as, a.Within V) ∧ ∀ v ∈ rs, V.var v) (dot rs as)
      fun V s => s.Within V := by
  unfold dot
  split
  · next r x y =>
    refine (introduces_requireTensor "dot" 0 x).bind fun _ => ?_
    refine (introduces_requireTensor "dot" 1 y).bind fun _ => ?_
    refine Action.Introduces.check ?_
    refine ((introduces_build (Builder.introduces_innerProduct x y)).mono (fun V hV => ?_)
      fun _ _ _ h => h).bind fun product => ?_
    · exact ⟨hV.1.1.1 x (by simp), hV.1.1.1 y (by simp)⟩
    exact Action.Introduces.pure fun V ⟨⟨⟨⟨_, hr⟩, _⟩, _⟩, hproduct⟩ =>
      Stmt.within_assign.2 ⟨hproduct, hr r (by simp)⟩
  · exact Action.Introduces.throw _

end Lowering

namespace Stmt

/-- A lowered statement is made of its parts and of what is drawn. -/
theorem introduces_lower (s : Stmt) :
    Action.Introduces (fun V => s.Within V) s.lower fun V out => out.value.Within V := by
  induction s using children_induction with
  | step s ih =>
    by_cases hs : s.LoweredNode
    · rw [lower_of_loweredNode hs]
      refine (Action.Introduces.mapM' fun c hc => (ih c hc).mono
        (fun V hV => Within.child hV hc) fun _ _ _ h => h).bind fun inner => ?_
      exact Action.Introduces.pure fun V ⟨hs, hlen, hinner⟩ =>
        hs.rebuild (by simp) hlen (by simpa using fun e he => hs.exprs he) hinner
    · -- a call, of which only the actuals and the result are used
      obtain ⟨rs, f, as, rfl, hnorm | hdot⟩ := lower_of_not_loweredNode hs
      · rw [hnorm]
        refine ((Lowering.introduces_norm rs as).mono (fun V hV => within_call.1 hV)
          fun _ _ _ h => h).bind fun s' => ?_
        exact Action.Introduces.pure fun V hV => hV.2
      · rw [hdot]
        refine ((Lowering.introduces_dot rs as).mono (fun V hV => within_call.1 hV)
          fun _ _ _ h => h).bind fun s' => ?_
        exact Action.Introduces.pure fun V hV => hV.2

/-! ### Declarations -/

/-- What is exposed in several statements is exposed in one of them. -/
theorem exists_mem_exposed_of_mem_exposedAll {σ : Scoping} {Γ : List Var} {ss : List Stmt} {v : Var}
    (h : v ∈ σ.exposedAll Γ ss) : ∃ s ∈ ss, ∃ Δ, v ∈ σ.exposed Δ s := by
  induction ss generalizing Γ with
  | nil => cases h
  | cons s ss ih =>
    rw [Scoping.exposedAll, List.mem_append] at h
    rcases h with h | h
    · exact ⟨s, by simp, Γ, h⟩
    · obtain ⟨t, ht, hexposed⟩ := ih h
      exact ⟨t, by simp [ht], hexposed⟩

/-- What is exposed in a statement is written in it. -/
theorem mem_writes_of_mem_exposed {σ : Scoping} {Γ : List Var} {s : Stmt} {v : Var}
    (h : v ∈ σ.exposed Γ s) : v ∈ s.writes := by
  induction s using children_induction generalizing Γ with
  | step s ih =>
    rw [writes_eq, List.mem_append]
    cases s with
    | instr i =>
      have hdef : v ∈ i.defined := (List.mem_filter.1 h).1
      cases i with
      | varDecl w => cases hdef
      | _ => exact .inl hdef
    | forLoop w d body => exact .inr (by simpa [children] using ih body (by simp [children]) h)
    | ifThenElse c t e =>
      refine .inr ?_
      cases e with
      | none => simpa [children] using ih t (by simp [children]) h
      | some e =>
        rw [Scoping.exposed, List.mem_append] at h
        rcases h with h | h
        · simpa [children] using .inl (ih t (by simp [children]) h)
        · simpa [children] using .inr (ih e (by simp [children]) h)
    | block ss =>
      obtain ⟨s, hs, Δ, hexposed⟩ := exists_mem_exposed_of_mem_exposedAll h
      exact .inr (List.mem_flatMap.2 ⟨s, hs, ih s hs hexposed⟩)

theorem Within.writes {s : Stmt} (h : s.Within V) {v : Var} (hv : v ∈ s.writes) : V.var v := by
  obtain ⟨n, hn, hv⟩ := List.mem_flatMap.1 hv
  exact (h n hn).2 v hv

end Stmt

theorem DeclaresTo.within {known known' : Declared} {ss : List Stmt}
    {out : Transformed (List Stmt)} (h : DeclaresTo known ss out known')
    (hss : ∀ s ∈ ss, s.Within V) : ∀ s ∈ out.value, s.Within V := by
  induction h with
  | nil => exact hss
  | varDecl _ ih =>
    rw [List.forall_mem_cons] at hss ⊢
    exact ⟨hss.1, ih hss.2⟩
  | block _ _ ihi ihr =>
    rw [List.forall_mem_cons, Stmt.within_block] at hss ⊢
    exact ⟨ihi hss.1, ihr hss.2⟩
  | @ordinary known s ss rest known' _ _ ih =>
    rw [List.forall_mem_cons] at hss
    have hdecls : ∀ d ∈ (s.undeclared known).map Stmt.varDecl, d.Within V := by
      intro d hd
      obtain ⟨v, hv, rfl⟩ := List.mem_map.1 hd
      have hexposed := Scoping.mem_definitions.1 (List.mem_filter.1 hv).1
      exact Stmt.within_varDecl.2 (hss.1.writes (Stmt.mem_writes_of_mem_exposed hexposed))
    intro x hx
    rcases List.mem_append.1 hx with hx | hx
    · rcases List.mem_append.1 hx with hx | hx
      · exact hdecls x hx
      · rw [List.mem_singleton.1 hx]
        exact hss.1
    · exact ih hss.2 x hx

/-- What is declared in a statement is written in it. -/
theorem Stmt.Within.declare {s : Stmt} (h : s.Within V) (known : Declared) :
    (s.declare.run known).1.value.Within V := by
  obtain ⟨out, known', hout⟩ := exists_declaresTo known [s]
  have hall : ∀ s ∈ out.value, s.Within V := hout.within (by simpa using h)
  obtain ⟨x, hrun, hx | ⟨_, rfl⟩⟩ := run_declare hout
  · rw [hrun]
    exact hall x (by simp [hx])
  · rw [hrun]
    exact within_block.2 hall

namespace Func

variable {f : Func}

theorem Within.withBody (h : f.Within V) {s : Stmt} (hs : s.Within V) (id : Nat) :
    (f.withBody id s).Within V :=
  ⟨h.args, h.results, fun body hbody => by cases hbody; exact hs⟩

theorem introduces_insertDeclarations (f : Func) :
    Introduces (fun V => f.Within V) (fun st => f.insertDeclarations.run st)
      fun V out => out.value.Within V := by
  cases hbody : f.body with
  | none =>
    rw [insertDeclarations_of_body_eq_none hbody]
    exact Introduces.pure fun V hV => hV
  | some body =>
    simp only [run_insertDeclarations hbody]
    split
    · exact Introduces.map (k := fun id => Transformed.replace (f.withBody id _)) introduces_newId
        fun V id hf _ => hf.withBody ((hf.body body hbody).declare _) id
    · exact Introduces.pure fun V hV => hV

end Func

namespace Pipeline

variable {config : Config} {f : Func} {s : Stmt}

theorem introduces_lowerStage :
    Action.Introduces (fun V => s.Within V) (lowerStage config s) fun V out => out.value.Within V := by
  unfold lowerStage
  split
  · exact Introduces.embed (i := Builder.ofFresh) (b := fun _ b => b.toFresh) s.introduces_lower
      (fun _ => rfl) (fun _ _ h => h) (fun _ _ => rfl) fun _ _ _ h => .inl h
  · exact Action.Introduces.pure fun V hV => hV

theorem introduces_flatten :
    Action.Introduces (fun V => s.Within V) (flatten config s) fun V out => out.value.Within V := by
  have hflat : Action.Introduces (fun V => s.Within V)
      (ExceptT.mk fun st => ((s.flatten.run.run (.ofFresh st)).1,
        (s.flatten.run.run (.ofFresh st)).2.toFresh) : PipelineM (Transformed Stmt))
      fun V out => out.value.Within V :=
    Introduces.embed (i := Flattener.ofFresh) (b := fun _ st => st.toFresh) s.introduces_flatten
      (fun _ => rfl) (fun _ _ h => by cases h) (fun _ _ => rfl) fun _ _ _ h => .inl h
  unfold flatten
  refine hflat.bind fun out => ?_
  have hout : Action.Introduces (fun V => s.Within V ∧ out.value.Within V)
      (pure out : PipelineM (Transformed Stmt)) fun V out => out.value.Within V :=
    Action.Introduces.pure fun V hV => hV.2
  split
  · -- the check draws nothing
    refine Action.Introduces.bind (M := fun _ _ => True) ?_ fun _ => hout.mono (fun V hV => hV.1)
      fun _ _ _ h => h
    cases out.value.verifyFlat with
    | ok u => exact Action.Introduces.pure fun _ _ => trivial
    | error e => exact Action.Introduces.throw e
  · exact hout

/-- What a run returns is made of the function and of what is drawn, and what it draws it draws in
a row, whether or not it succeeds. -/
theorem introduces_run :
    Action.Introduces (fun V => f.Within V) (run config f) fun V out => out.value.Within V := by
  cases hbody : f.body with
  | none =>
    rw [run_of_body_eq_none hbody]
    exact Action.Introduces.pure fun V hV => hV
  | some body =>
    rw [run_eq hbody]
    refine (introduces_lowerStage.mono (fun V hV => hV.body body hbody)
      fun _ _ _ h => h).bind fun lowered => ?_
    refine (introduces_flatten.mono (fun V hV => hV.2) fun _ _ _ h => h).bind fun flat => ?_
    refine Action.Introduces.bind (M := fun V g => g.Within V) ?_ fun g => ?_
    · unfold bodyStage
      split
      · refine (Action.Introduces.modifyGet introduces_newId).bind fun id => ?_
        exact Action.Introduces.pure fun V hV => hV.1.1.1.withBody hV.1.2 id
      · exact Action.Introduces.pure fun V hV => hV.1.1
    · unfold declareStage
      split
      · refine (Action.Introduces.modifyGet (g.introduces_insertDeclarations.mono
          (fun V hV => hV.2) fun _ _ _ h => h)).bind fun declared => ?_
        exact Action.Introduces.pure fun V hV => hV.2
      · exact Action.Introduces.pure fun V hV => hV.2

end Pipeline

end

end TensorIR
