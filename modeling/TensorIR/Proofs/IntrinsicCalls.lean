import TensorIR.Proofs.Lowered

/-! # Calls of intrinsic functions

Which calls of `norm` and `dot` can be lowered, what becomes of them, and what becomes of the
statement around them. Lowering fails exactly if some call does not pass the checks, and then with
the error of the first such call in program order (`Stmt.lower_outcome`).

**Key idea**: what an action comes to is told by three things that do not depend on the state it
starts from: the error it fails with, if any, how many names it draws, and what its result
satisfies (`Lowering.Yields`). They add up when actions follow one another, so those of a
statement are read off the list of its calls.
-/

namespace TensorIR

/-! ### Drawing index variables -/

namespace Builder

/-- The index variables that are drawn next, one for each dimension. -/
def nextVars (red : Option Reduction) (ds : List Dim) (b : Builder) : List IndexVar :=
  ds.mapIdx fun i d => ⟨b.nextId + i, IndexNames.name (b.indexNames.issued + i), d, red⟩

/-- The builder after `n` index variables have been drawn. -/
def afterVars (n : Nat) (b : Builder) : Builder :=
  { b with nextId := b.nextId + n, indexNames := ⟨b.indexNames.issued + n⟩ }

/-- After one variable has been drawn the others are drawn. -/
theorem nextVars_cons (red : Option Reduction) (d : Dim) (ds : List Dim) (b : Builder) :
    b.nextVars red (d :: ds) =
      ⟨b.nextId, IndexNames.name b.indexNames.issued, d, red⟩ ::
        (b.afterVars 1).nextVars red ds := by
  unfold nextVars afterVars
  rw [List.mapIdx_cons]
  simp only [Nat.add_zero, Nat.add_right_comm _ 1, Nat.add_assoc]

theorem afterVars_afterVars (m n : Nat) (b : Builder) :
    (b.afterVars m).afterVars n = b.afterVars (m + n) := by
  unfold afterVars
  simp only [Nat.add_assoc]

theorem run_indexVars (red : Option Reduction) (ds : List Dim) (b : Builder) :
    (indexVars red ds).run b = (b.nextVars red ds, b.afterVars ds.length) := by
  induction ds generalizing b with
  | nil => rfl
  | cons d ds ih =>
    have hstep : (indexVars red (d :: ds)).run b =
        (⟨b.nextId, IndexNames.name b.indexNames.issued, d, red⟩ ::
            ((indexVars red ds).run (b.afterVars 1)).1,
          ((indexVars red ds).run (b.afterVars 1)).2) := rfl
    rw [hstep, ih, nextVars_cons, afterVars_afterVars, List.length_cons, Nat.add_comm 1]

end Builder

namespace Lowering

/-! ### Checks -/

/-- The checks of a call, in the order they are made, each with the error for its failing: the
number of results, the number of actuals, that each actual is a tensor, and that neighbouring
actuals are of one type. -/
def checks (callee : String) (arity : Nat) (rs : List Var) (as : List Expr) : List (Bool × Error) :=
  let miscounted := .intrinsicArity callee arity 1 as.length rs.length
  (rs.length == 1, miscounted) :: (as.length == arity, miscounted) ::
    (as.mapIdx fun i a => (a.ty.isTensor, .nonTensorIntrinsicArgument callee i a.ty)) ++
    (as.zip as.tail).map fun (a, a') =>
      (a.ty == a'.ty, .intrinsicArgumentMismatch callee a.ty a'.ty)

/-- The error of the first check that fails. -/
def fault? (callee : String) (arity : Nat) (rs : List Var) (as : List Expr) : Option Error :=
  (checks callee arity rs as).findSome? fun (ok, e) => if ok then none else some e

/-- One result, and the right number of actuals, all tensors of one type. -/
structure Fits (arity : Nat) (rs : List Var) (as : List Expr) : Prop where
  results : rs.length = 1
  actuals : as.length = arity
  tensors : ∀ a ∈ as, a.ty.isTensor = true
  alike : ∀ a ∈ as, ∀ a' ∈ as, a.ty = a'.ty

/-- Actuals are of one type if neighbours are. -/
theorem alike_iff {as : List Expr} :
    (∀ p ∈ as.zip as.tail, p.1.ty = p.2.ty) ↔ ∀ a ∈ as, ∀ a' ∈ as, a.ty = a'.ty := by
  induction as with
  | nil => simp
  | cons a as ih =>
    cases as with
    | nil => simp
    | cons a' as =>
      rw [List.tail_cons] at ih ⊢
      rw [List.zip_cons_cons, List.forall_mem_cons, ih]
      constructor
      · rintro ⟨hne, h⟩ x hx y hy
        have hfirst : ∀ z ∈ a :: a' :: as, z.ty = a'.ty := by
          intro z hz
          rcases List.mem_cons.1 hz with rfl | hz
          · exact hne
          · exact h z hz a' (by simp)
        exact (hfirst x hx).trans (hfirst y hy).symm
      · intro h
        exact ⟨h a (by simp) a' (by simp), fun x hx y hy =>
          h x (List.mem_cons_of_mem _ hx) y (List.mem_cons_of_mem _ hy)⟩

/-- A call passes all checks exactly if it has one result and the right actuals. -/
theorem fault?_eq_none_iff {callee : String} {arity : Nat} {rs : List Var} {as : List Expr} :
    fault? callee arity rs as = none ↔ Fits arity rs as := by
  have hcheck : ∀ c : Bool × Error, (if c.1 then none else some c.2) = none ↔ c.1 = true := by
    intro c
    split <;> simp_all
  have htensors : (∀ c ∈ as.mapIdx fun i a => (a.ty.isTensor,
      Error.nonTensorIntrinsicArgument callee i a.ty), c.1 = true) ↔
      ∀ a ∈ as, a.ty.isTensor = true := by
    constructor
    · intro h a ha
      obtain ⟨i, hi, rfl⟩ := List.mem_iff_getElem.1 ha
      exact h _ (List.mem_mapIdx.2 ⟨i, hi, rfl⟩)
    · intro h c hc
      obtain ⟨i, hi, rfl⟩ := List.mem_mapIdx.1 hc
      exact h _ (List.getElem_mem hi)
  unfold fault? checks
  rw [List.findSome?_eq_none_iff]
  simp only [hcheck]
  rw [List.cons_append, List.cons_append, List.forall_mem_cons, List.forall_mem_cons,
    List.forall_mem_append, htensors, List.forall_mem_map]
  simp only [beq_iff_eq]
  rw [alike_iff]
  exact ⟨fun ⟨h1, h2, h3, h4⟩ => ⟨h1, h2, h3, h4⟩, fun ⟨h1, h2, h3, h4⟩ => ⟨h1, h2, h3, h4⟩⟩

/-! ### What calls become -/

/-- The inner product of tensors of one type is built without fail. -/
theorem run_innerProduct {x y : Expr} (hx : x.ty.isTensor = true) (hxy : x.ty = y.ty)
    (b : Builder) :
    (Builder.innerProduct x y).run.run b =
      (.ok (product (b.nextVars (some .sum) x.ty.dims) x y), b.afterVars x.ty.dims.length) := by
  have hrun := Builder.run_indexVars (some .sum) x.ty.dims b
  have hlift : (Builder.innerProduct x y).run.run b =
      (.ok (product ((Builder.indexVars (some .sum) x.ty.dims).run b).1 x y),
        ((Builder.indexVars (some .sum) x.ty.dims).run b).2) := by
    unfold Builder.innerProduct
    rw [← hxy, hx, beq_self_eq_true]
    rfl
  rw [hlift, hrun]

theorem requireTensor_of_isTensor {callee : String} {position : Nat} {a : Expr}
    (h : a.ty.isTensor = true) : requireTensor callee position a = pure () := by
  unfold requireTensor
  rw [h]
  rfl

theorem requireTensor_of_not_isTensor {callee : String} {position : Nat} {a : Expr}
    (h : a.ty.isTensor = false) :
    requireTensor callee position a = throw (.nonTensorIntrinsicArgument callee position a.ty) := by
  unfold requireTensor
  rw [h]
  rfl

/-- A call of `dot` that passes its checks. -/
theorem run_dot {r : Var} {x y : Expr} (hx : x.ty.isTensor = true) (hxy : x.ty = y.ty)
    (b : Builder) :
    (dot [r] [x, y]).run.run b =
      (.ok (.assign r (product (b.nextVars (some .sum) x.ty.dims) x y)),
        b.afterVars x.ty.dims.length) := by
  unfold dot
  dsimp only
  rw [requireTensor_of_isTensor hx, requireTensor_of_isTensor (hxy ▸ hx), pure_bind, pure_bind,
    if_pos (by simpa using hxy)]
  exact Action.run_bind_ok.2
    ⟨_, _, run_build_ok.2 (run_innerProduct hx hxy b), Action.run_pure_ok.2 ⟨rfl, rfl⟩⟩

/-- The temporary that a call of `norm` gets. -/
def normTemporary (r : Var) (x : Expr) (b : Builder) : Var :=
  ⟨b.nextId + x.ty.dims.length, TempNames.name b.names.stem b.names.issued, r.ty⟩

/-- A call of `norm` that passes its checks. -/
theorem run_norm {r : Var} {x : Expr} (hx : x.ty.isTensor = true) (b : Builder) :
    (norm [r] [x]).run.run b =
      (.ok (.block [.assign (normTemporary r x b) (product (b.nextVars (some .sum) x.ty.dims) x x),
          .call [r] .sqrt [.ofVar (normTemporary r x b)]]),
        ((Builder.temporary r.ty).run (b.afterVars x.ty.dims.length)).2) := by
  unfold norm
  dsimp only
  rw [requireTensor_of_isTensor hx, pure_bind]
  refine Action.run_bind_ok.2 ⟨_, _, run_build_ok.2 (run_innerProduct hx rfl b), ?_⟩
  exact Action.run_bind_ok.2 ⟨_, _, Action.run_lift_ok.2 rfl, Action.run_pure_ok.2 ⟨rfl, rfl⟩⟩

/-- The counts are checked before the types. -/
theorem fault?_of_miscounted {callee : String} {arity : Nat} {rs : List Var} {as : List Expr}
    (h : ¬ (rs.length = 1 ∧ as.length = arity)) :
    fault? callee arity rs as = some (.intrinsicArity callee arity 1 as.length rs.length) := by
  unfold fault? checks
  by_cases hrs : rs.length = 1
  · have has : as.length ≠ arity := fun has => h ⟨hrs, has⟩
    simp [hrs, has]
  · simp [hrs]

/-- A call that does not pass its checks fails with the error of the first that it does not pass,
whatever the state, and draws nothing. -/
theorem norm_of_fault {rs : List Var} {as : List Expr} {e : Error}
    (h : fault? "norm" 1 rs as = some e) : norm rs as = throw e := by
  by_cases hcount : rs.length = 1 ∧ as.length = 1
  · obtain ⟨r, rfl⟩ := List.length_eq_one_iff.1 hcount.1
    obtain ⟨x, rfl⟩ := List.length_eq_one_iff.1 hcount.2
    cases hx : x.ty.isTensor with
    | true => simp [fault?, checks, hx] at h
    | false =>
      have he : Error.nonTensorIntrinsicArgument "norm" 0 x.ty = e := by
        simpa [fault?, checks, hx] using h
      unfold norm
      dsimp only
      rw [requireTensor_of_not_isTensor hx, he]
      rfl
  · rw [fault?_of_miscounted hcount] at h
    cases h
    unfold norm
    split
    · exact absurd ⟨rfl, rfl⟩ hcount
    · rfl

theorem dot_of_fault {rs : List Var} {as : List Expr} {e : Error}
    (h : fault? "dot" 2 rs as = some e) : dot rs as = throw e := by
  -- with the counts right, each actual is looked at in turn, and then both together
  by_cases hcount : rs.length = 1 ∧ as.length = 2
  · obtain ⟨r, rfl⟩ := List.length_eq_one_iff.1 hcount.1
    obtain ⟨x, y, rfl⟩ := List.length_eq_two.1 hcount.2
    unfold dot
    dsimp only
    cases hx : x.ty.isTensor with
    | false =>
      have he : Error.nonTensorIntrinsicArgument "dot" 0 x.ty = e := by
        simpa [fault?, checks, hx] using h
      rw [requireTensor_of_not_isTensor hx, he]
      rfl
    | true =>
      rw [requireTensor_of_isTensor hx, pure_bind]
      cases hy : y.ty.isTensor with
      | false =>
        have he : Error.nonTensorIntrinsicArgument "dot" 1 y.ty = e := by
          simpa [fault?, checks, hx, hy] using h
        rw [requireTensor_of_not_isTensor hy, he]
        rfl
      | true =>
        rw [requireTensor_of_isTensor hy, pure_bind]
        by_cases hxy : x.ty = y.ty
        · simp [fault?, checks, hy, hxy] at h
        · have he : Error.intrinsicArgumentMismatch "dot" x.ty y.ty = e := by
            simpa [fault?, checks, hx, hy, hxy] using h
          rw [if_neg (by simpa using hxy), he]
          rfl
  · rw [fault?_of_miscounted hcount] at h
    cases h
    unfold dot
    split
    · exact absurd ⟨rfl, rfl⟩ hcount
    · rfl

/-! ### What actions come to -/

/-- Whatever state the action starts from, it fails with the given error; or if none is given, it
succeeds with a result that satisfies `p`, and draws `n` names. -/
def Yields {α : Type} (fault : Option Error) (n : Nat) (p : α → Prop) (act : LowerM α) : Prop :=
  ∀ b, match fault with
    | some e => ∃ b', act.run.run b = (.error e, b')
    | none => ∃ a b', act.run.run b = (.ok a, b') ∧ p a ∧
        b'.names = { b.names with issued := b.names.issued + n }

namespace Yields

variable {α β : Type} {fault fault' : Option Error} {n m : Nat} {p : α → Prop} {q : β → Prop}

theorem pure {a : α} (h : p a) : Yields none 0 p (pure a) := fun b => ⟨a, b, rfl, h, rfl⟩

theorem of_error {act : LowerM α} (h : Yields fault n p act) {b b' : Builder} {e : Error}
    (hrun : act.run.run b = (.error e, b')) : fault = some e := by
  cases fault with
  | some e' =>
    obtain ⟨_, heq⟩ := h b
    cases hrun.symm.trans heq
    rfl
  | none =>
    obtain ⟨_, _, heq, _⟩ := h b
    cases hrun.symm.trans heq

theorem of_ok {act : LowerM α} (h : Yields fault n p act) {b b' : Builder} {a : α}
    (hrun : act.run.run b = (.ok a, b')) :
    fault = none ∧ p a ∧ b'.names = { b.names with issued := b.names.issued + n } := by
  cases fault with
  | some e' =>
    obtain ⟨_, heq⟩ := h b
    cases hrun.symm.trans heq
  | none =>
    obtain ⟨_, _, heq, ha, hnames⟩ := h b
    cases hrun.symm.trans heq
    exact ⟨rfl, ha, hnames⟩

/-- An action fails from one state exactly if it fails from all. -/
theorem fails_iff {act : LowerM α} (h : Yields fault n p act) (b : Builder) :
    (∃ e b', act.run.run b = (.error e, b')) ↔ ∃ e, fault = some e := by
  constructor
  · rintro ⟨e, b', hrun⟩
    exact ⟨e, h.of_error hrun⟩
  · rintro ⟨e, rfl⟩
    exact ⟨e, h b⟩

/-- The first action that fails decides, and the names that are drawn add up. -/
theorem bind {act : LowerM α} {k : α → LowerM β} (h : Yields fault n p act)
    (hk : ∀ a, p a → Yields fault' m q (k a)) :
    Yields (fault.or fault') (n + m) q (act >>= k) := by
  intro b
  cases fault with
  | some e =>
    obtain ⟨b', hrun⟩ := h b
    exact ⟨b', by rw [Action.run_bind, hrun]⟩
  | none =>
    obtain ⟨a, b₁, hrun, ha, hnames⟩ := h b
    have hrest := hk a ha b₁
    have hbind : (act >>= k).run.run b = (k a).run.run b₁ := by rw [Action.run_bind, hrun]
    cases fault' with
    | some e =>
      obtain ⟨b', hrun'⟩ := hrest
      exact ⟨b', hbind.trans hrun'⟩
    | none =>
      obtain ⟨a', b', hrun', ha', hnames'⟩ := hrest
      refine ⟨a', b', hbind.trans hrun', ha', ?_⟩
      rw [hnames', hnames, Nat.add_assoc]

/-- What is made of the result neither fails nor draws. -/
theorem map {act : LowerM α} {g : α → β} (h : Yields fault n p act) (hg : ∀ a, p a → q (g a)) :
    Yields fault n q (do return g (← act)) := by
  have hbind := h.bind fun a ha => pure (hg a ha)
  rwa [Option.or_none] at hbind

/-- Elements treated one after another, each of which comes to what is told by a list. -/
theorem mapM' {γ : Type} {R : α → β → Prop} {parts : α → List γ} {fault : γ → Option Error}
    {draws : γ → Bool} {f : α → LowerM β} {as : List α}
    (h : ∀ a ∈ as, Yields ((parts a).findSome? fault) ((parts a).countP draws) (R a) (f a)) :
    Yields ((as.flatMap parts).findSome? fault) ((as.flatMap parts).countP draws)
      (List.Forall₂ R as) (as.mapM' f) := by
  induction as with
  | nil => exact pure .nil
  | cons a as ih =>
    have hrest := ih fun a' h' => h a' (by simp [h'])
    rw [List.flatMap_cons, List.findSome?_append, List.countP_append, List.mapM'_cons]
    exact (h a (by simp)).bind fun b hb => hrest.map fun bs hbs => .cons hb hbs

end Yields

end Lowering

/-! ### Statements -/

namespace Stmt

open Lowering (Yields Fits)

/-- The first check that a call of `norm` or `dot` does not pass. -/
def fault? : Stmt → Option Error
  | .instr (.call rs f as) =>
    if f.name = "norm" then Lowering.fault? "norm" 1 rs as
    else if f.name = "dot" then Lowering.fault? "dot" 2 rs as
    else none
  | _ => none

/-- Calls of `norm` and `dot` have one result; `norm` has one actual, a tensor, and `dot` two,
which are tensors of one type. -/
def Lowerable : Stmt → Prop
  | .instr (.call rs f as) => (f.name = "norm" → Fits 1 rs as) ∧ (f.name = "dot" → Fits 2 rs as)
  | _ => True

/-- A call of `norm`. -/
def isNorm (s : Stmt) : Bool := s.callee?.any (·.name == "norm")

/-- What takes the place of a call of `norm` or `dot`. -/
inductive Replaces : Stmt → Stmt → Prop
  | norm {r f x vs tmp} : f.name = "norm" →
    Replaces (.call [r] f [x])
      (.block [.assign tmp (Lowering.product vs x x), .call [r] .sqrt [.ofVar tmp]])
  | dot {r f x y vs} : f.name = "dot" →
    Replaces (.call [r] f [x, y]) (.assign r (Lowering.product vs x y))

/-- Calls of `norm` and `dot` are replaced. A statement without such calls is kept as it is, and
every other keeps all but the statements inside it. -/
inductive LowersAs : Stmt → Transformed Stmt → Prop
  | replaced {s s'} : Replaces s s' → LowersAs s (.replace s')
  | kept {s} : s.Lowered → LowersAs s (.keep s)
  | rebuilt {s inner} : s.LoweredNode → ¬ s.Lowered → List.Forall₂ LowersAs s.children inner →
    LowersAs s (.replace (s.withParts s.exprs (Transformed.values inner)))

theorem Replaces.not_loweredNode {s s' : Stmt} (h : s.Replaces s') : ¬ s.LoweredNode := by
  intro hs
  cases h with
  | norm hf => exact (hs _ rfl).1 hf
  | dot hf => exact (hs _ rfl).2 hf

namespace LowersAs

variable {s : Stmt} {out : Transformed Stmt}

theorem changed_eq_false_iff (h : s.LowersAs out) : out.changed = false ↔ s.Lowered := by
  cases h with
  | replaced h => exact iff_of_false Bool.noConfusion fun hs => h.not_loweredNode hs.root
  | kept hs => exact iff_of_true rfl hs
  | rebuilt _ hnot _ => exact iff_of_false Bool.noConfusion hnot

theorem anyChanged_eq_false_iff {ss : List Stmt} {outs : List (Transformed Stmt)}
    (h : List.Forall₂ LowersAs ss outs) :
    Transformed.anyChanged outs = false ↔ ∀ s ∈ ss, s.Lowered := by
  rw [Transformed.anyChanged_eq_false_iff]
  exact forall_iff_of_forall₂ (h.imp fun _ _ hs => hs.changed_eq_false_iff)

/-- A statement that is no call of `norm` or `dot` is put together again only if it has such calls
inside it. -/
theorem rebuild {inner : List (Transformed Stmt)} (hs : s.LoweredNode)
    (h : List.Forall₂ LowersAs s.children inner) :
    s.LowersAs (s.rebuild (s.exprs.map .keep) inner) := by
  have hexprs : Transformed.anyChanged (s.exprs.map .keep) = false := by
    simp [Transformed.anyChanged]
  have hvalues : Transformed.values (s.exprs.map .keep) = s.exprs := by
    simp [Transformed.values, Function.comp_def]
  unfold Stmt.rebuild
  rw [hexprs, hvalues, Bool.false_or]
  split
  · next hchanged =>
    refine .rebuilt hs (fun hall => ?_) h
    rw [(anyChanged_eq_false_iff h).2 fun c hc => hall.child hc] at hchanged
    exact Bool.noConfusion hchanged
  · next hchanged =>
    have hinner := (anyChanged_eq_false_iff h).1 (by simpa using hchanged)
    exact .kept (everywhere_iff.2 ⟨hs, hinner⟩)

end LowersAs

theorem fault?_eq_none_iff {s : Stmt} : s.fault? = none ↔ s.Lowerable := by
  unfold fault? Lowerable
  split
  · next rs f as =>
    split
    · next hf => simp [hf, Lowering.fault?_eq_none_iff]
    · next hf =>
      split
      · next hf' => simp [hf', Lowering.fault?_eq_none_iff]
      · next hf' => simp [hf, hf']
  · simp

/-- No check fails with an error of the builder. -/
theorem fault?_ne_builder {s : Stmt} {e : Error} (h : s.fault? = some e) (e' : BuildError) :
    e ≠ .builder e' := by
  have hcheck : ∀ {callee arity rs as}, Lowering.fault? callee arity rs as = some e →
      e ≠ .builder e' := by
    rintro callee arity rs as h rfl
    obtain ⟨⟨ok, e⟩, hc, hbad⟩ := List.exists_of_findSome?_eq_some h
    have he : e = .builder e' := by
      cases ok with
      | true => cases hbad
      | false => exact Option.some.inj hbad
    simp [Lowering.checks, he] at hc
  unfold fault? at h
  split at h
  · split at h
    · exact hcheck h
    · split at h
      · exact hcheck h
      · cases h
  · cases h

/-- A statement that is not one of these calls passes every check, and draws nothing. -/
theorem LoweredNode.fault?_eq_none {s : Stmt} (h : s.LoweredNode) : s.fault? = none := by
  rw [fault?_eq_none_iff]
  unfold Lowerable
  split
  · next rs f as =>
    obtain ⟨hnorm, hdot⟩ := h f rfl
    exact ⟨fun hf => absurd hf hnorm, fun hf => absurd hf hdot⟩
  · trivial

theorem LoweredNode.isNorm_eq_false {s : Stmt} (h : s.LoweredNode) : s.isNorm = false := by
  unfold isNorm
  cases hs : s.callee? with
  | none => rfl
  | some f => simpa using (h f hs).1

theorem lower_call_norm {rs : List Var} {f : Func} {as : List Expr} (hf : f.name = "norm") :
    (Stmt.call rs f as).lower = do return .replace (← Lowering.norm rs as) := by
  rw [lower_call, if_pos (by simpa using hf)]

theorem lower_call_dot {rs : List Var} {f : Func} {as : List Expr} (hf : f.name = "dot") :
    (Stmt.call rs f as).lower = do return .replace (← Lowering.dot rs as) := by
  rw [lower_call, if_neg (by simp [hf]), if_pos (by simpa using hf)]

/-- A call of `norm` is replaced, and draws a name. -/
theorem yields_norm {rs : List Var} {f : Func} {as : List Expr} (hf : f.name = "norm") :
    Yields (Lowering.fault? "norm" 1 rs as) 1 (Stmt.call rs f as).Replaces
      (Lowering.norm rs as) := by
  intro b
  cases hbad : Lowering.fault? "norm" 1 rs as with
  | some e =>
    rw [Lowering.norm_of_fault hbad]
    exact ⟨b, rfl⟩
  | none =>
    obtain ⟨hrs, has, htensors, -⟩ := Lowering.fault?_eq_none_iff.1 hbad
    obtain ⟨r, rfl⟩ := List.length_eq_one_iff.1 hrs
    obtain ⟨x, rfl⟩ := List.length_eq_one_iff.1 has
    exact ⟨_, _, Lowering.run_norm (htensors x (by simp)) b, .norm hf, rfl⟩

/-- A call of `dot` is replaced. -/
theorem yields_dot {rs : List Var} {f : Func} {as : List Expr} (hf : f.name = "dot") :
    Yields (Lowering.fault? "dot" 2 rs as) 0 (Stmt.call rs f as).Replaces
      (Lowering.dot rs as) := by
  intro b
  cases hbad : Lowering.fault? "dot" 2 rs as with
  | some e =>
    rw [Lowering.dot_of_fault hbad]
    exact ⟨b, rfl⟩
  | none =>
    obtain ⟨hrs, has, htensors, halike⟩ := Lowering.fault?_eq_none_iff.1 hbad
    obtain ⟨r, rfl⟩ := List.length_eq_one_iff.1 hrs
    obtain ⟨x, y, rfl⟩ := List.length_eq_two.1 has
    have hrun := Lowering.run_dot (r := r) (htensors x (by simp)) (halike x (by simp) y (by simp)) b
    exact ⟨_, _, hrun, .dot hf, rfl⟩

theorem yields_lower_call {s : Stmt} (h : ¬ s.LoweredNode) :
    Yields s.fault? (if s.isNorm then 1 else 0) s.LowersAs s.lower := by
  obtain ⟨rs, f, as, rfl, -⟩ := lower_of_not_loweredNode h
  by_cases hnorm : f.name = "norm"
  · have hfault : (Stmt.call rs f as).fault? = Lowering.fault? "norm" 1 rs as := if_pos hnorm
    have hcount : (Stmt.call rs f as).isNorm = true := by simpa [isNorm, callee?] using hnorm
    rw [hfault, hcount, if_pos rfl, lower_call_norm hnorm]
    exact (yields_norm hnorm).map fun _ => .replaced
  · have hdot : f.name = "dot" := by
      by_contra hdot
      exact h fun _ hcallee => by cases hcallee; exact ⟨hnorm, hdot⟩
    have hfault : (Stmt.call rs f as).fault? = Lowering.fault? "dot" 2 rs as :=
      (if_neg hnorm).trans (if_pos hdot)
    have hcount : (Stmt.call rs f as).isNorm = false := by simpa [isNorm, callee?] using hnorm
    rw [hfault, hcount, if_neg Bool.false_ne_true, lower_call_dot hdot]
    exact (yields_dot hdot).map fun _ => .replaced

/-- What lowering a statement comes to is told by the statements in it, one after another. -/
theorem yields_lower (s : Stmt) :
    Yields (s.nodes.findSome? fault?) (s.nodes.countP isNorm) s.LowersAs s.lower := by
  induction s using children_induction with
  | step s ih =>
    by_cases hs : s.LoweredNode
    · rw [nodes_eq, List.findSome?_cons, hs.fault?_eq_none, List.countP_cons, hs.isNorm_eq_false,
        if_neg Bool.false_ne_true, lower_of_loweredNode hs]
      exact (Yields.mapM' ih).map fun inner hinner => .rebuild hs hinner
    · -- a call has no statements inside
      have hnodes : s.nodes = [s] := by
        obtain ⟨rs, f, as, rfl, -⟩ := lower_of_not_loweredNode hs
        rfl
      rw [hnodes, List.countP_singleton, List.findSome?_singleton]
      exact yields_lower_call hs

/-- Lowering fails exactly if some call in the statement cannot be lowered, and then with the
error of the first one; an inner product is always built. On success no call of `norm` or `dot` is
left, whatever contains no such call is the very statement that went in, and each call of `norm`
has drawn one name. -/
theorem lower_outcome (s : Stmt) (b : Builder) :
    ((∃ e b', s.lower.run.run b = (.error e, b')) ↔ ∃ n ∈ s.nodes, ¬ n.Lowerable) ∧
    (∀ e b', s.lower.run.run b = (.error e, b') →
      s.nodes.findSome? fault? = some e ∧ ∀ e', e ≠ .builder e') ∧
    ∀ out b', s.lower.run.run b = (.ok out, b') →
      out.value.Lowered ∧ s.LowersAs out ∧
        b'.names = { b.names with issued := b.names.issued + s.nodes.countP isNorm } := by
  have hyields := yields_lower s
  refine ⟨?_, fun e b' hrun => ?_, fun out b' hrun => ?_⟩
  · rw [hyields.fails_iff, ← Option.ne_none_iff_exists', ne_eq, List.findSome?_eq_none_iff]
    simp only [fault?_eq_none_iff, not_forall, exists_prop]
  · have hfault := hyields.of_error hrun
    obtain ⟨n, -, hn⟩ := List.exists_of_findSome?_eq_some hfault
    exact ⟨hfault, fault?_ne_builder hn⟩
  · obtain ⟨-, hout, hnames⟩ := hyields.of_ok hrun
    exact ⟨lowered_of_lower hrun, hout, hnames⟩

end Stmt

end TensorIR
