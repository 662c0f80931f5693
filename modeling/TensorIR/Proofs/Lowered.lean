import TensorIR.Lowering
import TensorIR.Proofs.Actions
import TensorIR.Proofs.Rebuilding

/-! # What lowering leaves

After lowering, no call statement has a callee of the name `norm` or `dot`
(`Stmt.lowered_of_lower`), and lowering does nothing to a statement of which that is true
(`Stmt.Lowered.lower_eq`).

**Key idea**: what takes the place of a call is made of its actuals, read through new index
variables, and of at most one temporary (`Stmt.lower_intrinsic`). Everything else is put together
again over the lowered statements inside, with its own expressions.
-/

namespace TensorIR

/-! ### What calls become -/

namespace Lowering

/-- `(: a{vs} * b{vs})`. -/
def product (vs : List IndexVar) (a b : Expr) : Expr :=
  .build [] (.binaryOf .mul (a.index vs) (b.index vs))

theorem run_build_ok {α : Type} {act : BuildM α} {a : α} {b b' : Builder} :
    (build act).run.run b = (.ok a, b') ↔ act.run.run b = (.ok a, b') := by
  show (Except.mapError Error.builder (act.run.run b).1, (act.run.run b).2) = _ ↔ _
  rcases act.run.run b with ⟨_ | _, _⟩
  · constructor <;> intro h <;> cases h
  · constructor <;> intro h <;> cases h <;> rfl

theorem run_requireTensor_ok {callee : String} {position : Nat} {x : Expr} {u : Unit}
    {b b' : Builder} (h : (requireTensor callee position x).run.run b = (.ok u, b')) :
    x.ty.isTensor = true := by
  unfold requireTensor at h
  split at h
  · next hx => exact hx
  · exact absurd h Action.run_throw_ok

theorem run_innerProduct_ok {x y e : Expr} {b b' : Builder}
    (h : (Builder.innerProduct x y).run.run b = (.ok e, b')) : ∃ vs, e = product vs x y := by
  unfold Builder.innerProduct at h
  dsimp only at h
  obtain ⟨_, h⟩ := Action.run_check_ok.1 h
  obtain ⟨_, h⟩ := Action.run_check_ok.1 h
  obtain ⟨vs, _, _, h⟩ := Action.run_bind_ok.1 h
  obtain ⟨rfl, _⟩ := Action.run_pure_ok.1 h
  exact ⟨vs, rfl⟩

theorem run_norm_ok {rs : List Var} {as : List Expr} {s : Stmt} {b b' : Builder}
    (h : (norm rs as).run.run b = (.ok s, b')) :
    ∃ r x vs tmp, rs = [r] ∧ as = [x] ∧ x.ty.isTensor = true ∧
      s = .block [.assign tmp (product vs x x), .call [r] .sqrt [.ofVar tmp]] := by
  unfold norm at h
  split at h
  · next r x =>
    obtain ⟨_, _, hx, h⟩ := Action.run_bind_ok.1 h
    obtain ⟨squared, _, hs, h⟩ := Action.run_bind_ok.1 h
    obtain ⟨tmp, _, _, h⟩ := Action.run_bind_ok.1 h
    obtain ⟨rfl, _⟩ := Action.run_pure_ok.1 h
    obtain ⟨vs, rfl⟩ := run_innerProduct_ok (run_build_ok.1 hs)
    exact ⟨r, x, vs, tmp, rfl, rfl, run_requireTensor_ok hx, rfl⟩
  · exact absurd h Action.run_throw_ok

theorem run_dot_ok {rs : List Var} {as : List Expr} {s : Stmt} {b b' : Builder}
    (h : (dot rs as).run.run b = (.ok s, b')) :
    ∃ r x y vs, rs = [r] ∧ as = [x, y] ∧ x.ty.isTensor = true ∧ x.ty = y.ty ∧
      s = .assign r (product vs x y) := by
  unfold dot at h
  split at h
  · next r x y =>
    obtain ⟨_, _, hx, h⟩ := Action.run_bind_ok.1 h
    obtain ⟨_, _, _, h⟩ := Action.run_bind_ok.1 h
    dsimp only at h
    obtain ⟨hty, h⟩ := Action.run_check_ok.1 h
    obtain ⟨value, _, hv, h⟩ := Action.run_bind_ok.1 h
    obtain ⟨rfl, _⟩ := Action.run_pure_ok.1 h
    obtain ⟨vs, rfl⟩ := run_innerProduct_ok (run_build_ok.1 hv)
    exact ⟨r, x, y, vs, rfl, rfl, run_requireTensor_ok hx, by simpa using hty, rfl⟩
  · exact absurd h Action.run_throw_ok

end Lowering

namespace Stmt

/-- The statement is no call of `norm` or `dot`. -/
def LoweredNode (s : Stmt) : Prop := ∀ f ∈ s.callee?, f.name ≠ "norm" ∧ f.name ≠ "dot"

/-- What is no call at all is none of these. -/
theorem loweredNode_of_callee? {s : Stmt} (h : s.callee? = none) : s.LoweredNode := by
  simp [LoweredNode, h]

/-- No call statement has a callee of the name `norm` or `dot`. -/
def Lowered (s : Stmt) : Prop := s.Everywhere LoweredNode

/-- What takes the place of a call of `norm` or `dot`. -/
inductive LowersTo (s : Stmt) : Stmt → Prop
  | norm {r x vs tmp} : s.exprs = [x] → x.ty.isTensor = true →
    LowersTo s (.block [.assign tmp (Lowering.product vs x x), .call [r] .sqrt [.ofVar tmp]])
  | dot {r x y vs} : s.exprs = [x, y] → x.ty.isTensor = true → x.ty = y.ty →
    LowersTo s (.assign r (Lowering.product vs x y))

variable {s : Stmt}

/-- Calls are told apart by the name of the callee. -/
theorem lower_call (rs : List Var) (f : Func) (as : List Expr) :
    (Stmt.call rs f as).lower =
      if f.name == "norm" then do return .replace (← Lowering.norm rs as)
      else if f.name == "dot" then do return .replace (← Lowering.dot rs as)
      else (Stmt.call rs f as).walkM Lowering.transform :=
  transformM_eq _ _

/-- A call of `norm` or `dot` is handed over as a whole. -/
theorem lower_of_not_loweredNode (h : ¬ s.LoweredNode) :
    ∃ rs f as, s = .call rs f as ∧
      (s.lower = (do return .replace (← Lowering.norm rs as)) ∨
        s.lower = do return .replace (← Lowering.dot rs as)) := by
  unfold LoweredNode callee? at h
  split at h
  · next rs f as =>
    refine ⟨rs, f, as, rfl, ?_⟩
    by_cases hnorm : (f.name == "norm") = true
    · rw [lower_call, if_pos hnorm]
      exact .inl rfl
    by_cases hdot : (f.name == "dot") = true
    · rw [lower_call, if_neg hnorm, if_pos hdot]
      exact .inr rfl
    · simp_all
  · simp at h

/-- A call of `norm` or `dot` is replaced. -/
theorem lower_intrinsic (h : ¬ s.LoweredNode) {b b' : Builder} {out : Transformed Stmt}
    (hrun : s.lower.run.run b = (.ok out, b')) :
    Transformed.Faithful s out ∧ s.LowersTo out.value := by
  obtain ⟨rs, f, as, rfl, hnorm | hdot⟩ := lower_of_not_loweredNode h
  · rw [hnorm] at hrun
    obtain ⟨s', _, hs', hrun⟩ := Action.run_bind_ok.1 hrun
    obtain ⟨rfl, _⟩ := Action.run_pure_ok.1 hrun
    obtain ⟨r, x, vs, tmp, rfl, rfl, hx, rfl⟩ := Lowering.run_norm_ok hs'
    exact ⟨Transformed.Faithful.replace _ _, .norm rfl hx⟩
  · rw [hdot] at hrun
    obtain ⟨s', _, hs', hrun⟩ := Action.run_bind_ok.1 hrun
    obtain ⟨rfl, _⟩ := Action.run_pure_ok.1 hrun
    obtain ⟨r, x, y, vs, rfl, rfl, hx, hy, rfl⟩ := Lowering.run_dot_ok hs'
    exact ⟨Transformed.Faithful.replace _ _, .dot rfl hx hy⟩

/-- Every other statement keeps its expressions, and those inside it are lowered. -/
theorem lower_of_loweredNode (h : s.LoweredNode) :
    s.lower = do return s.rebuild (s.exprs.map .keep) (← s.children.mapM' Stmt.lower) := by
  have hexprs : Expr.transformAll Lowering.transform s.exprs = pure (s.exprs.map .keep) :=
    (Expr.transformAll_eq_mapM' _ _).trans
      (Action.mapM'_eq_pure fun e _ => Expr.transformM_eq Lowering.transform e)
  have hstmts : Stmt.transformAll Lowering.transform s.children = s.children.mapM' Stmt.lower :=
    Stmt.transformAll_eq_mapM' _ _
  have hwalk : s.lower = s.walkM Lowering.transform := by
    cases s with
    | instr i =>
      cases i with
      | call rs f as =>
        obtain ⟨hnorm, hdot⟩ := h f rfl
        rw [lower_call, if_neg (by simpa using hnorm), if_neg (by simpa using hdot)]
      | _ => exact transformM_eq _ _
    | _ => exact transformM_eq _ _
  rw [hwalk, walkM, hexprs, pure_bind, hstmts]

theorem faithful_lower {b b' : Builder} {out : Transformed Stmt}
    (h : s.lower.run.run b = (.ok out, b')) : Transformed.Faithful s out := by
  by_cases hs : s.LoweredNode
  · rw [lower_of_loweredNode hs] at h
    obtain ⟨inner, _, _, h⟩ := Action.run_bind_ok.1 h
    obtain ⟨rfl, _⟩ := Action.run_pure_ok.1 h
    exact faithful_rebuild _ _ _
  · exact (lower_intrinsic hs h).1

/-! ### Lowered statements -/

/-- A property of single statements holds everywhere after lowering if it holds of what takes the
place of calls, and of every other statement over its expressions, all of which satisfy `r`, and
the lowered statements inside. -/
theorem everywhere_of_lower {p : Stmt → Prop} {r : Expr → Prop}
    (hexpr : ∀ n ∈ s.nodes, ∀ e ∈ n.exprs, r e)
    (hcall : ∀ n ∈ s.nodes, ∀ n', n.LowersTo n' → n'.Everywhere p)
    (hnode : ∀ n ∈ s.nodes, n.LoweredNode → ∀ xs ss, xs.length = n.exprs.length →
      ss.length = n.children.length → (∀ x ∈ xs, r x) → p (n.withParts xs ss))
    {b b' : Builder} {out : Transformed Stmt} (h : s.lower.run.run b = (.ok out, b')) :
    out.value.Everywhere p := by
  suffices hlower :
      Action.Establishes (fun _ => True) s.lower fun out => out.value.Everywhere p from
    (hlower b out b' h trivial).2
  clear h
  induction s using children_induction with
  | step s ih =>
    by_cases hs : s.LoweredNode
    · have hexprs : List.Forall₂ (fun e out => Transformed.Faithful e out ∧ r out.value)
          s.exprs (s.exprs.map .keep) := by
        rw [List.forall₂_map_right_iff, List.forall₂_same]
        exact fun e he => ⟨Transformed.Faithful.keep e, hexpr s s.self_mem_nodes e he⟩
      have hinner : Action.Establishes (fun _ => True) (s.children.mapM' Stmt.lower)
          (List.Forall₂ (fun c out => Transformed.Faithful c out ∧ out.value.Everywhere p)
            s.children) :=
        Action.Establishes.mapM' fun c hc b out b' hrun _ =>
          have hlower := ih c hc (fun n hn => hexpr n (mem_nodes_of_child hc hn))
            (fun n hn => hcall n (mem_nodes_of_child hc hn))
            fun n hn => hnode n (mem_nodes_of_child hc hn)
          ⟨trivial, faithful_lower hrun, (hlower b out b' hrun trivial).2⟩
      rw [lower_of_loweredNode hs]
      refine hinner.bind fun inner hin => Action.Establishes.pure ?_
      exact everywhere_rebuild hexprs hin (hnode s s.self_mem_nodes hs)
    · -- a call is replaced as a whole
      intro b out b' hrun _
      exact ⟨trivial, hcall s s.self_mem_nodes _ (lower_intrinsic hs hrun).2⟩

theorem loweredNode_withParts {xs : List Expr} {ss : List Stmt} (h : s.LoweredNode)
    (hxs : xs.length = s.exprs.length) (hss : ss.length = s.children.length) :
    (s.withParts xs ss).LoweredNode := by
  unfold LoweredNode
  rwa [callee?_withParts hxs hss]

/-- Lowering leaves no calls of `norm` and `dot`. -/
theorem lowered_of_lower {b b' : Builder} {out : Transformed Stmt}
    (h : s.lower.run.run b = (.ok out, b')) : out.value.Lowered := by
  refine everywhere_of_lower (r := fun _ => True) (fun _ _ _ _ => trivial) ?_ ?_ h
  · intro n _ n' hto
    cases hto with
    | norm => simp [LoweredNode, callee?, Func.sqrt]
    | dot => simp [LoweredNode, callee?]
  · exact fun n _ hn xs ss hxs hss _ => loweredNode_withParts hn hxs hss

/-- Lowering a lowered statement succeeds, and does nothing. -/
theorem Lowered.lower_eq (h : s.Lowered) : s.lower = pure (.keep s) := by
  induction s using children_induction with
  | step s ih =>
    have hinner : ∀ c ∈ s.children, c.lower = pure (.keep c) := fun c hc => ih c hc (h.child hc)
    rw [lower_of_loweredNode h.root, Action.mapM'_eq_pure hinner, pure_bind, rebuild_keep]

end Stmt

end TensorIR
