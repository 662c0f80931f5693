import TensorIR.Proofs.Mirroring
import TensorIR.Proofs.Normalization

/-! # Runs that start later

A run on a relabelled program, started when more identities and names have been drawn, does what the
first run did, relabelled (`Pipeline.mirrors_run`).

**Key idea**: the passes are gone through with the rules of `TensorIR.Proofs.Mirroring`, as in
`TensorIR.Proofs.Provenance`. The depth at which flattening stops may differ between the two runs, so
they are compared at one that is deep enough for both (`Flattening.commutes_flatten`).
-/

namespace TensorIR

open Delayable (later)

/-! ### What is drawn -/

section

variable (D : Delay)

theorem mirrors_newId :
    Mirrors D (fun m n => n = D.relabelling.id m) (fun st => Fresh.newId.run st)
      fun st => Fresh.newId.run st := by
  intro st hst
  refine ⟨hst.id_nextId.symm, ?_, Nat.le_succ_of_le hst.known_le, hst.stem_eq⟩
  show Fresh.mk (st.nextId + D.ids + 1) _ = Fresh.mk (st.nextId + 1 + D.ids) _
  rw [Nat.add_right_comm]
  rfl

theorem mirrors_temporary (ty : Ty) :
    Mirrors D (fun v w => w = D.relabelling.var v) (fun st => (Fresh.temporary ty).run st)
      fun st => (Fresh.temporary ty).run st := by
  intro st hst
  refine ⟨?_, ?_, Nat.le_succ_of_le hst.known_le, hst.stem_eq⟩
  · show Var.mk (st.nextId + D.ids) (TempNames.name st.names.stem (st.names.issued + D.names)) ty =
      D.relabelling.var ⟨st.nextId, TempNames.name st.names.stem st.names.issued, ty⟩
    have hnew : D.relabelling.known ≤ st.nextId := hst.known_le
    have hid : D.relabelling.id st.nextId = st.nextId + D.ids := hst.id_nextId
    have hstem : st.names.stem = D.stem := hst.stem_eq
    rw [D.relabelling.var_of_le hnew, hid, hstem, D.name_name]
  · show Fresh.mk (st.nextId + D.ids + 1) ⟨_, st.names.issued + D.names + 1⟩ =
      Fresh.mk (st.nextId + 1 + D.ids) ⟨_, st.names.issued + 1 + D.names⟩
    rw [Nat.add_right_comm, Nat.add_right_comm st.names.issued]
    rfl

namespace Builder

theorem mirrors_temporary (ty : Ty) :
    Mirrors D (fun v w => w = D.relabelling.var v) (fun b => (temporary ty).run b)
      fun b => (temporary ty).run b :=
  Mirrors.embed (i := Builder.toFresh) (b := fun b s => { b with toFresh := s })
    (TensorIR.mirrors_temporary D ty) (fun _ => rfl) (fun _ => rfl) (fun _ _ => rfl) fun _ _ => rfl

theorem mirrors_indexVar (d : Dim) (r : Option Reduction) :
    Mirrors D (fun v w => w = D.relabelling.index v) (fun b => (indexVar d r).run b)
      fun b => (indexVar d r).run b := by
  intro b hb
  refine ⟨?_, ?_, Nat.le_succ_of_le hb.known_le, hb.stem_eq⟩
  · have hid : D.relabelling.id b.nextId = b.nextId + D.ids := hb.id_nextId
    show IndexVar.mk (b.nextId + D.ids) _ d r = ⟨D.relabelling.id b.nextId, _, d, r⟩
    rw [hid]
    rfl
  · show Builder.mk (Fresh.mk (b.nextId + D.ids + 1) _) _ =
      Builder.mk (Fresh.mk (b.nextId + 1 + D.ids) _) _
    rw [Nat.add_right_comm]
    rfl

theorem mirrors_indexVars (r : Option Reduction) (ds : List Dim) :
    Mirrors D (fun vs ws => ws = vs.map D.relabelling.index) (fun b => (indexVars r ds).run b)
      fun b => (indexVars r ds).run b := by
  induction ds with
  | nil => exact Mirrors.pure rfl
  | cons d ds ih =>
    -- the first, then the others
    let rest : IndexVar → Builder → List IndexVar × Builder := fun v b =>
      (v :: ((indexVars r ds).run b).1, ((indexVars r ds).run b).2)
    refine Mirrors.seq (k := rest) (l := rest) (mirrors_indexVar D d r) fun v w hw => ?_
    refine Mirrors.map (k := fun vs => v :: vs) (l := fun ws => w :: ws) ih fun vs ws hws => ?_
    rw [hw, hws, List.map_cons]

theorem mirrors_innerProduct (a b : Expr) :
    Action.Mirrors D (·.relabel D.relabelling) (innerProduct a b)
      (innerProduct (a.relabel D.relabelling) (b.relabel D.relabelling)) := by
  unfold innerProduct
  simp only [Expr.ty_relabel]
  refine Action.Mirrors.check (Relabels.same _ _) (Action.Mirrors.check (Relabels.same _ _) ?_)
  refine (Action.Mirrors.modifyGet (mirrors_indexVars D (some .sum) a.ty.dims)).bind fun vs => ?_
  exact Action.Mirrors.pure (by simp)

theorem mirrors_copy (a : Expr) :
    Action.Mirrors D (·.relabel D.relabelling) (elementwise .copy a)
      (elementwise .copy (a.relabel D.relabelling)) := by
  unfold elementwise
  simp only [Expr.ty_relabel]
  refine Action.Mirrors.check (Relabels.same _ _) ?_
  refine (Action.Mirrors.modifyGet (mirrors_indexVars D none a.ty.dims)).bind fun vs => ?_
  exact Action.Mirrors.pure (by simp)

end Builder

/-! ### Flattening -/

namespace Flattener

theorem mirrors_bindTemporary (value : Expr) :
    Mirrors D (fun v w => w = D.relabelling.var v) (fun st : Flattener => st.bindTemporary value)
      fun st => st.bindTemporary (value.relabel D.relabelling) := by
  intro st hst
  obtain ⟨htmp, hb, hcovers⟩ := Builder.mirrors_temporary D value.ty st.toBuilder hst
  have hbind : ∀ (st : Flattener) (value : Expr), st.bindTemporary value =
      let out := (Builder.temporary value.ty).run st.toBuilder
      (out.1, { st with toBuilder := out.2, pending := st.pending ++ [.assign out.1 value] }) :=
    fun _ _ => rfl
  dsimp only at htmp hb hcovers ⊢
  refine ⟨?_, ?_, hcovers⟩
  · rw [hbind, hbind, Expr.ty_relabel]
    exact htmp
  · rw [hbind, hbind, Expr.ty_relabel]
    dsimp only [later] at htmp hb ⊢
    rw [htmp, hb, List.map_append, List.map_singleton, Stmt.relabel_assign]

theorem mirrors_hoist (a : Expr) :
    Mirrors D (fun out out' => out' = out.map (·.relabel D.relabelling))
      (fun st : Flattener => st.hoist a) fun st => st.hoist (a.relabel D.relabelling) := by
  -- a temporary is bound to a value, and read through variables of it
  have hread : ∀ (value : Expr) (vs : List IndexVar),
      Mirrors D (fun out out' => out' = out.map (·.relabel D.relabelling))
        (fun st : Flattener =>
          ((.replace ((Expr.ofVar (st.bindTemporary value).1).index vs),
            (st.bindTemporary value).2) : Transformed Expr × Flattener))
        fun st => (.replace ((Expr.ofVar (st.bindTemporary (value.relabel D.relabelling)).1).index
          (vs.map D.relabelling.index)), (st.bindTemporary (value.relabel D.relabelling)).2) := by
    intro value vs
    exact Mirrors.map (k := fun tmp => Transformed.replace ((Expr.ofVar tmp).index vs))
      (l := fun tmp => Transformed.replace ((Expr.ofVar tmp).index (vs.map D.relabelling.index)))
      (mirrors_bindTemporary D value) fun v w hw => by simp [hw]
  by_cases hc : a.containsIndexed = true
  · have hc' := (a.containsIndexed_relabel D.relabelling).trans hc
    cases hi : a.isIndexExpr with
    | true =>
      cases a with
      | indexExpr ty rs b =>
        simp only [Expr.relabel_indexExpr, hoist_indexExpr]
        exact hread (.indexExpr ty rs b) rs
      | _ => cases hi
    | false =>
      have hi' := (a.isIndexExpr_relabel D.relabelling).trans hi
      simp only [hoist_wrapped hc hi, hoist_wrapped hc' hi', Expr.freeIndexVars_relabel,
        ← Expr.relabel_build]
      exact hread _ _
  · have hc' : ¬ (a.relabel D.relabelling).containsIndexed = true := by
      rwa [Expr.containsIndexed_relabel]
    unfold hoist
    simp only [if_neg hc, if_neg hc', Expr.ty_relabel]
    split
    · exact Mirrors.pure rfl
    · exact Mirrors.map (k := fun tmp => Transformed.replace (Expr.ofVar tmp))
        (l := fun tmp => Transformed.replace (Expr.ofVar tmp)) (mirrors_bindTemporary D a)
        fun v w hw => by simp [hw]

end Flattener

namespace Flattening

theorem run_build {α : Type} (act : BuildM α) (st : Flattener) :
    (build act : FlattenM α).run.run st =
      ((Flattener.onBuilder act.run st).1.mapError Error.builder,
        (Flattener.onBuilder act.run st).2) := by
  have hget : (modifyGet (Flattener.onBuilder act.run) : FlattenM (Except BuildError α)).run.run st =
      (.ok (Flattener.onBuilder act.run st).1, (Flattener.onBuilder act.run st).2) := rfl
  unfold build
  rw [Action.run_bind, hget]
  rcases Flattener.onBuilder act.run st with ⟨_ | _, _⟩ <;> rfl

theorem mirrors_build {α α' : Type} {r : α → α'} {act : BuildM α} {act' : BuildM α'}
    (h : Action.Mirrors D r act act') :
    Action.Mirrors D r (build act : FlattenM α) (build act') := by
  have hrun : Mirrors D (Corresponds D.relabelling r) (Flattener.onBuilder act.run) (Flattener.onBuilder act'.run) :=
    Mirrors.embed (i := Flattener.toBuilder) (b := fun st b => { st with toBuilder := b }) h
      (fun _ => rfl) (fun _ => rfl) (fun _ _ => rfl) fun _ _ => rfl
  intro st hst
  dsimp only
  rw [run_build, run_build]
  exact hrun.map (fun _ _ => Corresponds.builder) st hst

theorem mirrors_requireScalar (op : BinaryOp) (a : Expr) :
    Action.Mirrors D (fun u => u) (requireScalar op a : FlattenM Unit)
      (requireScalar op (a.relabel D.relabelling)) := by
  unfold requireScalar
  rw [Expr.ty_relabel]
  split
  · exact Action.Mirrors.pure rfl
  · exact Action.Mirrors.throw (.nonScalarOperand op a a.ty)

/-- What flattening a relabelled expression makes is what it made before, relabelled. -/
def Commutes (f : Expr → FlattenM (Transformed Expr)) : Prop :=
  ∀ e, Action.Mirrors D (Transformed.map (·.relabel D.relabelling)) (f e)
    (f (e.relabel D.relabelling))

section

variable {D} {f : Expr → FlattenM (Transformed Expr)} (hf : Commutes D f)

include hf

theorem mirrors_spill (a : Expr) :
    Action.Mirrors D (Transformed.map (·.relabel D.relabelling)) (spill f a)
      (spill f (a.relabel D.relabelling)) := by
  unfold spill
  rw [Expr.ty_relabel, Expr.isIndexExpr_relabel]
  split
  · refine (mirrors_build D (Builder.mirrors_copy D a)).bind fun whole => ?_
    refine (hf whole).bind fun out => ?_
    refine (Action.Mirrors.modifyGet (Flattener.mirrors_hoist D out.value)).bind fun read => ?_
    exact Action.Mirrors.pure rfl
  · exact Action.Mirrors.modifyGet (Flattener.mirrors_hoist D a)

theorem mirrors_sumOperand (a : Expr) :
    Action.Mirrors D (Transformed.map (·.relabel D.relabelling)) (sumOperand f a)
      (sumOperand f (a.relabel D.relabelling)) := by
  unfold sumOperand
  refine (hf a).bind fun out => ?_
  rw [Transformed.value_map, Expr.isIndexed_relabel]
  split
  · exact Action.Mirrors.pure rfl
  · refine (mirrors_spill hf out.value).bind fun read => ?_
    exact Action.Mirrors.pure rfl

theorem mirrors_sum (ty : Ty) (op : BinaryOp) (a b : Expr) :
    Action.Mirrors D (Transformed.map (·.relabel D.relabelling))
      (sum f (.binary ty op a b) op a b)
      (sum f ((Expr.binary ty op a b).relabel D.relabelling) op (a.relabel D.relabelling)
        (b.relabel D.relabelling)) := by
  unfold sum
  refine (mirrors_requireScalar D op a).bind fun _ => ?_
  refine (mirrors_requireScalar D op b).bind fun _ => ?_
  refine (mirrors_sumOperand hf a).bind fun x => ?_
  refine (mirrors_sumOperand hf b).bind fun y => ?_
  exact Action.Mirrors.pure (Expr.relabel_rebuild D.relabelling _ [x, y])

theorem mirrors_indexedRead (ty : Ty) (t : Expr) (vs : List IndexVar) :
    Action.Mirrors D (Transformed.map (·.relabel D.relabelling))
      (indexedRead f (.indexed ty t vs) t vs)
      (indexedRead f ((Expr.indexed ty t vs).relabel D.relabelling) (t.relabel D.relabelling)
        (vs.map D.relabelling.index)) := by
  unfold indexedRead
  refine (hf t).bind fun out => ?_
  obtain ⟨value, changed⟩ := out
  have hdist := Expr.distributeIndex?_relabel D.relabelling vs value
  have hkept : ∀ value : Expr,
      ((Expr.indexed ty t vs).relabel D.relabelling).rebuild
          [⟨value.relabel D.relabelling, changed⟩] =
        ((Expr.indexed ty t vs).rebuild [⟨value, changed⟩]).map (·.relabel D.relabelling) :=
    fun value => Expr.relabel_rebuild D.relabelling _ [⟨value, changed⟩]
  dsimp only [Transformed.map]
  -- an index expression is read through, a negation or a binary node may be, all else keeps
  cases value with
  | indexExpr rty rs body =>
    rw [Expr.relabel_indexExpr]
    dsimp only
    rw [List.length_map, List.length_map]
    refine Action.Mirrors.check (.indexArityMismatch (.indexed ty t vs) _ _) (Action.Mirrors.pure ?_)
    rw [Expr.relabel_inlined]
    rfl
  | neg nty a =>
    rw [Expr.relabel_neg] at hdist ⊢
    dsimp only
    rw [hdist]
    cases (Expr.neg nty a).distributeIndex? vs with
    | some d => exact (hf d).bind fun out' => Action.Mirrors.pure rfl
    | none => exact Action.Mirrors.pure (hkept (.neg nty a))
  | binary bty op a b =>
    rw [Expr.relabel_binary] at hdist ⊢
    dsimp only
    rw [hdist]
    cases (Expr.binary bty op a b).distributeIndex? vs with
    | some d => exact (hf d).bind fun out' => Action.Mirrors.pure rfl
    | none => exact Action.Mirrors.pure (hkept (.binary bty op a b))
  | var vty v => exact Action.Mirrors.pure (hkept (.var vty v))
  | indexed uty u us => exact Action.Mirrors.pure (hkept (.indexed uty u us))
  | prim pty op es =>
    rw [Expr.relabel_prim]
    refine Action.Mirrors.pure ?_
    rw [← Expr.relabel_prim]
    exact hkept (.prim pty op es)

theorem commutes_step : Commutes D (step f) := by
  intro e
  have hall : Action.Mirrors D (Transformed.map (·.relabel D.relabelling))
      (all f e.children >>= fun outs => pure (e.rebuild outs))
      (all f (e.relabel D.relabelling).children >>= fun outs =>
        pure ((e.relabel D.relabelling).rebuild outs)) := by
    rw [all_eq_mapM', all_eq_mapM', Expr.children_relabel]
    refine (Action.Mirrors.mapM' fun c _ => hf c).bind fun outs => ?_
    exact Action.Mirrors.pure (Expr.relabel_rebuild D.relabelling e outs)
  cases e with
  | binary ty op a b =>
    cases op with
    | add => exact mirrors_sum hf ty .add a b
    | sub => exact mirrors_sum hf ty .sub a b
    | _ => exact hall
  | indexed ty t vs => exact mirrors_indexedRead hf ty t vs
  | prim ty op es =>
    rw [Expr.relabel_prim] at hall ⊢
    exact hall
  | _ => exact hall

end

theorem commutes_cutOff (d : Nat) : Commutes D (cutOff d) := by
  induction d with
  | zero => exact fun e => Action.Mirrors.pure rfl
  | succ d ih => exact commutes_step ih

theorem commutes_flatten : Commutes D Expr.flatten := by
  intro e
  -- deep enough for both
  have hle := Nat.le_max_left e.weight (e.relabel D.relabelling).weight
  have hle' := Nat.le_max_right e.weight (e.relabel D.relabelling).weight
  rw [flatten_eq_cutOff hle, flatten_eq_cutOff hle']
  exact commutes_cutOff D _ e

theorem mirrors_actual (a : Expr) :
    Action.Mirrors D (Transformed.map (·.relabel D.relabelling)) (actual a)
      (actual (a.relabel D.relabelling)) := by
  unfold actual
  refine (commutes_flatten D a).bind fun out => ?_
  rw [Transformed.value_map, Expr.ty_relabel, Expr.isVar_relabel]
  split
  · refine (mirrors_spill (commutes_flatten D) out.value).bind fun read => ?_
    exact Action.Mirrors.pure (by simp [Expr.wholeTensor_relabel])
  · exact Action.Mirrors.pure rfl

theorem mirrors_withOwnPending {act act' : FlattenM (Transformed Stmt)}
    (h : Action.Mirrors D (Transformed.map (Stmt.relabel D.relabelling)) act act') :
    Action.Mirrors D (Transformed.map (Stmt.relabel D.relabelling)) (withOwnPending act)
      (withOwnPending act') := by
  intro st hst
  have hown : (later D st).own = later D st.own := rfl
  obtain ⟨hcorresponds, hst', hcovers⟩ := h st.own hst
  dsimp only at hcorresponds hst' hcovers ⊢
  rw [run_withOwnPending, run_withOwnPending, hown]
  rcases hrun : act.run.run st.own with ⟨x, st₁⟩
  rcases hrun' : act'.run.run (later D st.own) with ⟨y, st₁'⟩
  rw [hrun] at hcorresponds hst' hcovers
  rw [hrun'] at hcorresponds hst'
  dsimp only at hcorresponds hst' hcovers ⊢
  subst hst'
  have hpending : (later D st₁).pending = st₁.pending.map (Stmt.relabel D.relabelling) := rfl
  -- what waits is put before the statement, or is left to wait if there is none
  cases hcorresponds with
  | ok out =>
    refine ⟨?_, rfl, hcovers⟩
    have hout : Transformed.mk
        ((out.value.relabel D.relabelling).after (later D st₁).pending)
        (out.changed || !(later D st₁).pending.isEmpty) =
          Transformed.map (Stmt.relabel D.relabelling)
            ⟨out.value.after st₁.pending, out.changed || !st₁.pending.isEmpty⟩ := by
      rw [hpending, ← Stmt.relabel_after, List.isEmpty_map]
      rfl
    dsimp only [Transformed.map] at hout ⊢
    rw [hout]
    exact .ok _
  | error h =>
    refine ⟨.error h, ?_, hcovers⟩
    show { later D st₁ with toSplicer := ⟨(later D st).pending ++ (later D st₁).pending⟩ } =
      later D { st₁ with toSplicer := ⟨st.pending ++ st₁.pending⟩ }
    rw [hpending]
    show _ = Flattener.mk (later D st₁.toBuilder)
      ⟨(st.pending ++ st₁.pending).map (Stmt.relabel D.relabelling)⟩
    rw [List.map_append]
    rfl

end Flattening

namespace Stmt

theorem mirrors_treat (s : Stmt) (e : Expr) :
    Action.Mirrors D (Transformed.map (·.relabel D.relabelling)) (s.treat e)
      ((s.relabel D.relabelling).treat (e.relabel D.relabelling)) := by
  unfold treat
  rw [isCall_relabel]
  split
  · exact Flattening.mirrors_actual D e
  · exact Flattening.commutes_flatten D e

theorem mirrors_flatten (s : Stmt) :
    Action.Mirrors D (Transformed.map (relabel D.relabelling)) s.flatten
      (s.relabel D.relabelling).flatten := by
  induction s using children_induction with
  | step s ih =>
    rw [flatten_eq, flatten_eq]
    refine Flattening.mirrors_withOwnPending D ?_
    unfold flattenParts
    rw [exprs_relabel, children_relabel]
    refine (Action.Mirrors.mapM' fun e _ => s.mirrors_treat D e).bind fun outs => ?_
    refine (Action.Mirrors.mapM' ih).bind fun inner => ?_
    exact Action.Mirrors.pure (s.relabel_rebuild D.relabelling outs inner)

end Stmt

/-! ### Lowering -/

namespace Lowering

theorem mirrors_build {α α' : Type} {r : α → α'} {act : BuildM α} {act' : BuildM α'}
    (h : Action.Mirrors D r act act') : Action.Mirrors D r (build act) (build act') :=
  Mirrors.map (k := Except.mapError Error.builder) (l := Except.mapError Error.builder) h
    fun _ _ => Corresponds.builder

theorem mirrors_requireTensor (callee : String) (position : Nat) (a : Expr) :
    Action.Mirrors D (fun u => u) (requireTensor callee position a)
      (requireTensor callee position (a.relabel D.relabelling)) := by
  unfold requireTensor
  rw [Expr.ty_relabel]
  split
  · exact Action.Mirrors.pure rfl
  · exact Action.Mirrors.throw (Relabels.same _ _)

theorem mirrors_norm (rs : List Var) (as : List Expr) :
    Action.Mirrors D (Stmt.relabel D.relabelling) (norm rs as)
      (norm (rs.map D.relabelling.var) (as.map (·.relabel D.relabelling))) := by
  rcases rs with _ | ⟨r, _ | ⟨r', rs⟩⟩
  · exact Action.Mirrors.throw (by simp [Relabels.same])
  · rcases as with _ | ⟨x, _ | ⟨y, as⟩⟩
    · exact Action.Mirrors.throw (Relabels.same _ _)
    · refine (mirrors_requireTensor D "norm" 0 x).bind fun _ => ?_
      refine (mirrors_build D (Builder.mirrors_innerProduct D x x)).bind fun squared => ?_
      rw [Relabelling.ty_var]
      refine (Action.Mirrors.modifyGet (Builder.mirrors_temporary D r.ty)).bind fun tmp => ?_
      exact Action.Mirrors.pure (by simp)
    · exact Action.Mirrors.throw (by simp [Relabels.same])
  · exact Action.Mirrors.throw (by simp [Relabels.same])

theorem mirrors_dot (rs : List Var) (as : List Expr) :
    Action.Mirrors D (Stmt.relabel D.relabelling) (dot rs as)
      (dot (rs.map D.relabelling.var) (as.map (·.relabel D.relabelling))) := by
  rcases rs with _ | ⟨r, _ | ⟨r', rs⟩⟩
  · exact Action.Mirrors.throw (by simp [Relabels.same])
  · rcases as with _ | ⟨x, _ | ⟨y, _ | ⟨z, as⟩⟩⟩
    · exact Action.Mirrors.throw (Relabels.same _ _)
    · exact Action.Mirrors.throw (Relabels.same _ _)
    · refine (mirrors_requireTensor D "dot" 0 x).bind fun _ => ?_
      refine (mirrors_requireTensor D "dot" 1 y).bind fun _ => ?_
      rw [Expr.ty_relabel, Expr.ty_relabel]
      refine Action.Mirrors.check (Relabels.same _ _) ?_
      refine (mirrors_build D (Builder.mirrors_innerProduct D x y)).bind fun product => ?_
      exact Action.Mirrors.pure rfl
    · exact Action.Mirrors.throw (by simp [Relabels.same])
  · exact Action.Mirrors.throw (by simp [Relabels.same])

end Lowering

theorem Stmt.mirrors_lower (s : Stmt) :
    Action.Mirrors D (Transformed.map (relabel D.relabelling)) s.lower
      (s.relabel D.relabelling).lower := by
  induction s using children_induction with
  | step s ih =>
    by_cases hs : s.LoweredNode
    · have hs' : (s.relabel D.relabelling).LoweredNode := by
        rwa [LoweredNode, callee?_relabel]
      rw [lower_of_loweredNode hs, lower_of_loweredNode hs', children_relabel]
      refine (Action.Mirrors.mapM' ih).bind fun inner => Action.Mirrors.pure ?_
      rw [← relabel_rebuild, exprs_relabel]
      simp [Function.comp_def]
    · -- both calls have one callee
      obtain ⟨rs, f, as, rfl, _⟩ := lower_of_not_loweredNode hs
      rw [relabel_call, lower_call, lower_call]
      split
      · exact (Lowering.mirrors_norm D rs as).bind fun s' => Action.Mirrors.pure rfl
      · split
        · exact (Lowering.mirrors_dot D rs as).bind fun s' => Action.Mirrors.pure rfl
        · next hnorm hdot =>
          rw [beq_iff_eq] at hnorm hdot
          exact absurd (by simpa [LoweredNode, callee?] using ⟨hnorm, hdot⟩) hs

/-! ### The pipeline -/

theorem Func.mirrors_insertDeclarations (f : Func) :
    Mirrors D (fun out out' => out' = out.map (Func.relabel D.relabelling))
      (fun st => f.insertDeclarations.run st)
      fun st => (f.relabel D.relabelling).insertDeclarations.run st := by
  cases hbody : f.body with
  | none =>
    have hbody' : (f.relabel D.relabelling).body = none := congrArg (Option.map _) hbody
    rw [insertDeclarations_of_body_eq_none hbody, insertDeclarations_of_body_eq_none hbody']
    exact Mirrors.pure rfl
  | some body =>
    have hbody' : (f.relabel D.relabelling).body = some (body.relabel D.relabelling) :=
      congrArg (Option.map _) hbody
    have hdeclare : ((body.relabel D.relabelling).declare.run
        ((f.relabel D.relabelling).args ++ (f.relabel D.relabelling).results)).1 =
          (body.declare.run (f.args ++ f.results)).1.map (Stmt.relabel D.relabelling) := by
      rw [← Stmt.declare_relabel, List.map_append]
      rfl
    simp only [run_insertDeclarations hbody, run_insertDeclarations hbody', hdeclare,
      Transformed.changed_map, Transformed.value_map]
    split
    · exact Mirrors.map (k := fun id => Transformed.replace (f.withBody id _))
        (l := fun id => Transformed.replace ((f.relabel D.relabelling).withBody id _))
        (mirrors_newId D) fun m n h => by rw [h]; rfl
    · exact Mirrors.pure rfl

namespace Pipeline

variable (config : Config)

theorem corresponds_verifyFlat (ρ : Relabelling) (s : Stmt) :
    Corresponds ρ (fun u => u) s.verifyFlat (s.relabel ρ).verifyFlat := by
  have hviolations := s.violations_relabel ρ
  unfold Stmt.verifyFlat
  rw [Stmt.flatnessViolation?_eq, Stmt.flatnessViolation?_eq]
  -- the first violations of both correspond
  generalize s.violations = es at hviolations
  generalize (s.relabel ρ).violations = es' at hviolations
  cases hviolations with
  | nil => exact .ok ()
  | cons h _ => exact .error h

theorem mirrors_lowerStage (s : Stmt) :
    Action.Mirrors D (Transformed.map (Stmt.relabel D.relabelling)) (lowerStage config s)
      (lowerStage config (s.relabel D.relabelling)) := by
  unfold lowerStage
  split
  · exact Mirrors.embed (i := Builder.ofFresh) (b := fun _ b => b.toFresh) (s.mirrors_lower D)
      (fun _ => rfl) (fun _ => rfl) (fun _ _ => rfl) fun _ _ => rfl
  · exact Action.Mirrors.pure rfl

theorem mirrors_flatten (s : Stmt) :
    Action.Mirrors D (Transformed.map (Stmt.relabel D.relabelling)) (flatten config s)
      (flatten config (s.relabel D.relabelling)) := by
  have hflat : ∀ s : Stmt, flatten config s = (do
      let out ← (ExceptT.mk fun st => ((s.flatten.run.run (.ofFresh st)).1,
        (s.flatten.run.run (.ofFresh st)).2.toFresh) : PipelineM (Transformed Stmt))
      if config.verify then
        MonadExcept.ofExcept out.value.verifyFlat
      return out) := fun _ => rfl
  rw [hflat, hflat]
  refine Action.Mirrors.bind (r := Transformed.map (Stmt.relabel D.relabelling)) ?_ fun out => ?_
  · exact Mirrors.embed (i := Flattener.ofFresh) (b := fun _ st => st.toFresh) (s.mirrors_flatten D)
      (fun _ => rfl) (fun _ => rfl) (fun _ _ => rfl) fun _ _ => rfl
  · split
    · exact (Action.Mirrors.ofExcept (corresponds_verifyFlat D.relabelling out.value)).bind fun _ =>
        Action.Mirrors.pure rfl
    · exact Action.Mirrors.pure rfl

/-- A function that is relabelled and normalized later becomes what it became before, relabelled.
If it failed, it fails in the same way. -/
theorem mirrors_run (f : Func) :
    Action.Mirrors D (Transformed.map (Func.relabel D.relabelling)) (run config f)
      (run config (f.relabel D.relabelling)) := by
  cases hbody : f.body with
  | none =>
    rw [run_of_body_eq_none hbody, run_of_body_eq_none (congrArg (Option.map _) hbody)]
    exact Action.Mirrors.pure rfl
  | some body =>
    have hbody' : (f.relabel D.relabelling).body = some (body.relabel D.relabelling) :=
      congrArg (Option.map _) hbody
    rw [run_eq hbody, run_eq hbody']
    refine (mirrors_lowerStage D config body).bind fun lowered => ?_
    refine (mirrors_flatten D config lowered.value).bind fun flat => ?_
    refine Action.Mirrors.bind (r := Func.relabel D.relabelling) ?_ fun g => ?_
    · unfold bodyStage
      rw [Transformed.changed_map, Transformed.changed_map]
      split
      · refine (Action.Mirrors.modifyGet (mirrors_newId D)).bind fun id => ?_
        exact Action.Mirrors.pure rfl
      · exact Action.Mirrors.pure rfl
    · unfold declareStage
      split
      · refine (Action.Mirrors.modifyGet (g.mirrors_insertDeclarations D)).bind fun declared => ?_
        exact Action.Mirrors.pure rfl
      · exact Action.Mirrors.pure rfl

end Pipeline

end

end TensorIR
