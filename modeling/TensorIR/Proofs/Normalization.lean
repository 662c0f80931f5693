import TensorIR.Pipeline
import TensorIR.Proofs.Declaring
import TensorIR.Proofs.Finished
import TensorIR.Proofs.Lowered

/-! # The pipeline as a whole

What the back end is handed (`Pipeline.compile_calls`), and why a second run changes nothing
(`Pipeline.run_idempotent`).

**Key idea**: each stage establishes something of the body that the later ones keep. Lowering leaves
no calls of `norm` and `dot`, and flattening only rebuilds calls and assigns to temporaries.
Inserting declarations puts blocks and declarations in, of which nothing is asked. So the body that
comes out is all that the configuration asks for, and that is just when a stage has nothing to do.
-/

namespace TensorIR

namespace Pipeline

/-! ### The stages -/

/-- Lowering, if the configuration asks for it. -/
def lowerStage (config : Config) (s : Stmt) : PipelineM (Transformed Stmt) :=
  if config.lowerIntrinsics then lower s else return .keep s

/-- The function with its new body, if that was changed. -/
def bodyStage (f : Func) (changed : Bool) (body : Stmt) : PipelineM Func :=
  if changed then do return f.withBody (← Fresh.newId) body else return f

/-- Inserting declarations, if the configuration asks for it. -/
def declareStage (config : Config) (changed : Bool) (f : Func) : PipelineM (Transformed Func) :=
  if config.insertDecls then do
    let declared ← f.insertDeclarations
    return ⟨declared.value, changed || declared.changed⟩
  else return ⟨f, changed⟩

variable {config : Config} {f : Func} {body : Stmt} {g : Transformed Func} {st st' : Fresh}

/-- A function without a body is left alone. -/
theorem run_of_body_eq_none (hbody : f.body = none) : run config f = pure (.keep f) := by
  unfold run
  rw [hbody]

/-- A run goes through the stages. -/
theorem run_eq (hbody : f.body = some body) :
    run config f = (do
      let lowered ← lowerStage config body
      let flat ← flatten config lowered.value
      let out ← bodyStage f (lowered.changed || flat.changed) flat.value
      declareStage config (lowered.changed || flat.changed) out) := by
  unfold run lowerStage bodyStage declareStage
  rw [hbody]
  cases config.lowerIntrinsics
  all_goals
    refine bind_congr fun lowered => bind_congr fun flat => ?_
    cases lowered.changed || flat.changed <;> simp

/-! ### What each stage establishes -/

/-- Flattening calls the same functions as before. -/
theorem lowered_of_flatten {s : Stmt} {fl fl' : Flattener} {out : Transformed Stmt}
    (h : s.Lowered) (hrun : s.flatten.run.run fl = (.ok out, fl')) : out.value.Lowered :=
  Flattening.reaches_of_treats (r := fun _ _ => True)
    (fun _ => Stmt.loweredNode_of_callee? rfl) (fun _ _ _ => Stmt.loweredNode_of_callee? rfl)
    (fun n _ e _ => Flattening.treats_trivial n e)
    (fun n hn _ _ hxs hss _ => Stmt.loweredNode_withParts (h n hn) hxs hss) fl out fl' hrun

section

variable {s : Stmt} {out : Transformed Stmt}

/-- An inner product has scalar parts if its factors have. -/
theorem scalarBodies_product {vs : List IndexVar} {x y : Expr} (hx : x.ScalarBodies)
    (hy : y.ScalarBodies) (hty : x.ty.isTensor = true) :
    (Lowering.product vs x y).ScalarBodies :=
  Expr.everywhere_indexExpr.2 ⟨Ty.isScalar_componentTy_of_isTensor hty,
    Expr.everywhere_binary.2 ⟨trivial, Expr.everywhere_indexed.2 ⟨trivial, hx⟩,
      Expr.everywhere_indexed.2 ⟨trivial, hy⟩⟩⟩

/-- Lowering makes no index expressions but inner products. -/
theorem scalarBodies_of_lower (hs : s.ForExprs Expr.ScalarBodies) {b b' : Builder}
    (h : s.lower.run.run b = (.ok out, b')) : out.value.ForExprs Expr.ScalarBodies := by
  rw [Stmt.forExprs_iff_everywhere] at hs ⊢
  refine Stmt.everywhere_of_lower hs ?_ ?_ h
  · intro n hn n' hto
    have hexprs : ∀ e ∈ n.exprs, e.ScalarBodies := hs n hn
    rw [← Stmt.forExprs_iff_everywhere]
    cases hto with
    | norm heq hty =>
      have hx := hexprs _ (heq ▸ List.mem_cons_self)
      have htmp := fun v => (Expr.everywhere_var.2 trivial : (Expr.ofVar v).ScalarBodies)
      rw [Stmt.forExprs_block]
      simpa [Stmt.forExprs_assign, Stmt.ForExprs, Stmt.allExprs, Instr.exprs] using
        ⟨scalarBodies_product hx hx hty, htmp _⟩
    | dot heq hty _ =>
      have hx := hexprs _ (heq ▸ List.mem_cons_self)
      have hy := hexprs _ (heq ▸ List.mem_cons_of_mem _ List.mem_cons_self)
      exact Stmt.forExprs_assign.2 (scalarBodies_product hx hy hty)
  · intro n _ _ xs ss hxs hss hx
    rwa [Stmt.exprs_withParts hxs hss]

theorem lowerStage_ok (h : (lowerStage config s).run.run st = (.ok out, st')) :
    Transformed.Faithful s out ∧ (config.lowerIntrinsics = true → out.value.Lowered) ∧
      (s.ForExprs Expr.ScalarBodies → out.value.ForExprs Expr.ScalarBodies) := by
  unfold lowerStage at h
  split at h
  · have hout : (s.lower.run.run (.ofFresh st)).1 = .ok out := congrArg Prod.fst h
    obtain ⟨b, hrun⟩ := Action.exists_run_ok hout
    exact ⟨Stmt.faithful_lower hrun, fun _ => Stmt.lowered_of_lower hrun,
      fun hs => scalarBodies_of_lower hs hrun⟩
  · next hlow =>
    obtain ⟨rfl, _⟩ := Action.run_pure_ok.1 h
    exact ⟨Transformed.Faithful.keep s, fun h => absurd h hlow, fun h => h⟩

theorem flatten_ok (h : (flatten config s).run.run st = (.ok out, st')) :
    (∃ fl fl', s.flatten.run.run fl = (.ok out, fl')) ∧
      (config.verify = true → out.value.verifyFlat = .ok ()) := by
  unfold flatten at h
  obtain ⟨out', st₁, hflat, h⟩ := Action.run_bind_ok.1 h
  have hout : (s.flatten.run.run (.ofFresh st)).1 = .ok out' := congrArg Prod.fst hflat
  obtain ⟨fl, hrun⟩ := Action.exists_run_ok hout
  split at h
  · obtain ⟨_, _, hverify, h⟩ := Action.run_bind_ok.1 h
    obtain ⟨rfl, _⟩ := Action.run_pure_ok.1 h
    exact ⟨⟨_, _, hrun⟩, fun _ => (Action.run_ofExcept_ok.1 hverify).1⟩
  · next hv =>
    obtain ⟨rfl, _⟩ := Action.run_pure_ok.1 h
    exact ⟨⟨_, _, hrun⟩, fun h => absurd h hv⟩

end

theorem bodyStage_ok {changed : Bool} {out : Func} {s : Stmt}
    (hbody : f.body = some body) (hkept : changed = false → s = body)
    (h : (bodyStage f changed s).run.run st = (.ok out, st')) : f.Rebodied out s := by
  unfold bodyStage at h
  split at h
  · obtain ⟨id, _, _, h⟩ := Action.run_bind_ok.1 h
    obtain ⟨rfl, _⟩ := Action.run_pure_ok.1 h
    exact Func.rebodied_withBody f id s
  · next hc =>
    obtain ⟨rfl, _⟩ := Action.run_pure_ok.1 h
    rw [hkept (by simpa using hc)]
    exact .refl hbody

/-- The body with its declarations, if the configuration asks for them. -/
def declaredBody (config : Config) (f : Func) (body : Stmt) : Stmt :=
  if config.insertDecls then (body.declare.run (f.args ++ f.results)).1.value else body

theorem declareStage_ok {changed : Bool} (hbody : f.body = some body)
    (h : (declareStage config changed f).run.run st = (.ok g, st')) :
    f.Rebodied g.value (declaredBody config f body) := by
  unfold declareStage at h
  unfold declaredBody
  split at h
  · next hd =>
    obtain ⟨declared, st₁, hdecl, h⟩ := Action.run_bind_ok.1 h
    obtain ⟨rfl, _⟩ := Action.run_pure_ok.1 h
    have hvalue : (f.insertDeclarations.run st).1 = declared :=
      congrArg Prod.fst (Action.run_lift_ok.1 hdecl)
    rw [if_pos hd, ← hvalue]
    exact Func.rebodied_insertDeclarations hbody st
  · next hd =>
    obtain ⟨rfl, _⟩ := Action.run_pure_ok.1 h
    rw [if_neg hd]
    exact .refl hbody

/-- What is true of blocks and declarations stays true everywhere. -/
theorem everywhere_declaredBody {p : Stmt → Prop} (hblock : ∀ ss, p (.block ss))
    (hdecl : ∀ v, p (.varDecl v)) (h : body.Everywhere p) :
    (declaredBody config f body).Everywhere p := by
  unfold declaredBody
  split
  · exact Stmt.everywhere_declare hblock hdecl h _
  · exact h

/-- A run that succeeds has gone through all stages. -/
theorem run_ok (hbody : f.body = some body) (h : (run config f).run.run st = (.ok g, st')) :
    ∃ lowered flat st₁ st₂, (lowerStage config body).run.run st = (.ok lowered, st₁) ∧
      (flatten config lowered.value).run.run st₁ = (.ok flat, st₂) ∧
      f.Rebodied g.value (declaredBody config f flat.value) := by
  rw [run_eq hbody] at h
  obtain ⟨lowered, st₁, hlow, h⟩ := Action.run_bind_ok.1 h
  obtain ⟨flat, st₂, hflat, h⟩ := Action.run_bind_ok.1 h
  obtain ⟨out, st₃, hout, h⟩ := Action.run_bind_ok.1 h
  refine ⟨lowered, flat, st₁, st₂, hlow, hflat, ?_⟩
  have hkept : (lowered.changed || flat.changed) = false → flat.value = body := by
    intro hc
    obtain ⟨hl, hf⟩ := Bool.or_eq_false_iff.1 hc
    obtain ⟨⟨_, _, hrun⟩, _⟩ := flatten_ok hflat
    exact ((Flattening.stmtRun_of_run hrun).1 hf).trans ((lowerStage_ok hlow).1 hl)
  have hfo := bodyStage_ok hbody hkept hout
  have hog := declareStage_ok hfo.body_eq h
  rw [declaredBody, hfo.args_eq, hfo.results_eq] at hog
  exact hfo.trans hog

/-! ### What the back end is handed -/

/-- `g` is what a verified run of the configuration may make of `f`: the same function but for the
body, which is flat and, if the configuration asks for it, without calls of `norm` and `dot`. -/
def Accepts (config : Config) (f g : Func) : Prop :=
  ∃ body, f.Rebodied g body ∧ body.verifyFlat = .ok () ∧
    (config.lowerIntrinsics = true → body.Lowered)

theorem accepts_of_run (hbody : f.body = some body) (hverify : config.verify = true)
    (h : (run config f).run.run st = (.ok g, st')) : Accepts config f g.value := by
  obtain ⟨lowered, flat, st₁, st₂, hlow, hflat, hg⟩ := run_ok hbody h
  obtain ⟨⟨fl, fl', hrun⟩, hflat⟩ := flatten_ok hflat
  refine ⟨_, hg, ?_, fun hl => ?_⟩
  · -- declarations are inserted after the check, but they are nothing it looks at
    rw [Stmt.verifyFlat_eq_ok_iff]
    exact everywhere_declaredBody Stmt.consists_block Stmt.consists_varDecl
      (Stmt.verifyFlat_eq_ok_iff.1 (hflat hverify))
  · have hlowered := (lowerStage_ok hlow).2.1 hl
    exact everywhere_declaredBody (fun _ => Stmt.loweredNode_of_callee? rfl)
      (fun _ => Stmt.loweredNode_of_callee? rfl) (lowered_of_flatten hlowered hrun)

section

variable {m : Type → Type} [Monad m] {Code : Type}

/-- A back end that keeps a record of what it is handed. -/
def recorded (backEnd : Func → List Var → m (Except String Code)) (f : Func)
    (globals : List Var) : StateT (List (Func × List Var)) m (Except String Code) := do
  modify (· ++ [(f, globals)])
  backEnd f globals

/-- What compiling a function comes to when the back end has answered. -/
def answered (f : Func) : Except String Code → Except Error Code
  | .ok code => .ok code
  | .error message => .error (.backend f.name message)

/-- With verification on, compiling a function that has a body hands the outcome of the run to the
back end, once and with the same globals, and what it hands over is accepted. If the run fails,
the back end is handed nothing. -/
theorem compile_calls [LawfulMonad m] (backEnd : Func → List Var → m (Except String Code))
    (hbody : f.body.isSome = true) (hverify : config.verify = true) (globals : List Var)
    (st : Fresh) (calls : List (Func × List Var)) :
    (∀ out st', (run config f).run.run st = (.ok out, st') →
      Accepts config f out.value ∧
        ((compile (recorded backEnd) config f globals).run st).run calls = (do
          let answer ← backEnd out.value globals
          return ((answered f answer, st'), calls ++ [(out.value, globals)]))) ∧
    (∀ e st', (run config f).run.run st = (.error e, st') →
      ((compile (recorded backEnd) config f globals).run st).run calls =
        pure ((.error e, st'), calls)) := by
  refine ⟨fun out st' h => ⟨?_, ?_⟩, fun e st' h => ?_⟩
  · obtain ⟨body, hb⟩ := Option.isSome_iff_exists.1 hbody
    exact accepts_of_run hb hverify h
  · have h' : (run config f).run st = (.ok out, st') := h
    have hrecorded : (recorded backEnd out.value globals).run calls = (do
        let answer ← backEnd out.value globals
        return (answer, calls ++ [(out.value, globals)])) := by
      simp [recorded]
    simp only [compile, StateT.run_bind, StateT.run_modifyGet, h', pure_bind, StateT.run_monadLift,
      monadLift_self, bind_pure_comp, bind_map_left, hrecorded]
    rw [← bind_pure_comp]
    refine bind_congr fun answer => ?_
    cases answer <;> rfl
  · have h' : (run config f).run st = (.error e, st') := h
    simp [compile, h']

end

/-- A function with something to do for every stage:

    r = norm(a); y = (j: (i: a{i} + b{i}){j} * r);

for the parameters `a` and `b` and the result `y`. -/
def scaled : Func :=
  let i : IndexVar := ⟨0, "i", .range 3, none⟩
  let j : IndexVar := ⟨1, "j", .range 3, none⟩
  let a : Var := ⟨2, "a", .vector 3⟩
  let b : Var := ⟨3, "b", .vector 3⟩
  let r : Var := ⟨4, "r", .float⟩
  let y : Var := ⟨5, "y", .vector 3⟩
  let sum : Expr :=
    .build [i] (.binaryOf .add ((Expr.ofVar a).index [i]) ((Expr.ofVar b).index [i]))
  let body : Stmt := .block [
    .call [r] .norm [.ofVar a],
    .assign y (.build [j] (.binaryOf .mul (sum.index [j]) (.ofVar r)))]
  ⟨6, "scaled", .internal, [a, b], [y], some body⟩

/-- A back end that answers with the name of the function. -/
def naming (f : Func) (_ : List Var) : Id (Except String String) := .ok f.name

theorem compile_calls_scaled :
    scaled.body.isSome = true ∧ ∃ out st', (run {} scaled).run.run ⟨7, {}⟩ = (.ok out, st') ∧
      Accepts {} scaled out.value ∧
        ((compile (recorded naming) {} scaled []).run ⟨7, {}⟩).run [] =
          ((.ok "scaled", st'), [(out.value, [])]) :=
  let ⟨haccepts, hcalls⟩ := (compile_calls naming rfl rfl [] ⟨7, {}⟩ []).1 _ _ rfl
  ⟨rfl, _, _, rfl, haccepts, hcalls⟩

/-! ### A second run -/

/-- What a stage may do something about is not there. -/
structure Normal (config : Config) (f : Func) (body : Stmt) : Prop where
  lowered : config.lowerIntrinsics = true → body.Lowered
  finished : body.Finished
  flat : config.verify = true → body.verifyFlat = .ok ()
  declared : config.insertDecls = true → (body.declare.run (f.args ++ f.results)).1 = .keep body

theorem lowerStage_eq (h : config.lowerIntrinsics = true → body.Lowered) :
    lowerStage config body = pure (.keep body) := by
  unfold lowerStage
  split
  · next hlow =>
    unfold lower
    rw [(h hlow).lower_eq]
    rfl
  · rfl

theorem flatten_eq (hbody : body.Finished)
    (h : config.verify = true → body.verifyFlat = .ok ()) :
    flatten config body = pure (.keep body) := by
  unfold flatten
  rw [hbody.flatten_eq]
  show (pure (Transformed.keep body) >>= fun out => _ : PipelineM (Transformed Stmt)) = _
  rw [pure_bind]
  split
  · next hv =>
    rw [Transformed.value_keep, h hv]
    rfl
  · rfl

theorem declareStage_eq (hbody : f.body = some body)
    (h : config.insertDecls = true → (body.declare.run (f.args ++ f.results)).1 = .keep body) :
    declareStage config false f = pure (.keep f) := by
  unfold declareStage
  split
  · next hd =>
    have hkeep : f.insertDeclarations = pure (.keep f) := by
      refine StateT.ext fun st => ?_
      rw [Func.run_insertDeclarations hbody, h hd]
      rfl
    rw [hkeep]
    rfl
  · rfl

/-- A run on a normal function does nothing. -/
theorem Normal.run_eq (hbody : f.body = some body) (h : Normal config f body) :
    run config f = pure (.keep f) := by
  rw [Pipeline.run_eq hbody, lowerStage_eq h.lowered, pure_bind, Transformed.value_keep,
    flatten_eq h.finished h.flat, pure_bind]
  exact declareStage_eq hbody h.declared

/-- What comes out of a run is normal. -/
theorem normal_of_run (hbody : f.body = some body) (hscalar : body.ForExprs Expr.ScalarBodies)
    (h : (run config f).run.run st = (.ok g, st')) :
    ∃ body', g.value.body = some body' ∧ Normal config g.value body' := by
  obtain ⟨lowered, flat, st₁, st₂, hlow, hflat, hg⟩ := run_ok hbody h
  obtain ⟨_, hlowered, hbodies⟩ := lowerStage_ok hlow
  obtain ⟨⟨fl, fl', hrun⟩, hverify⟩ := flatten_ok hflat
  have hlast : ∀ {p : Stmt → Prop}, (∀ ss, p (.block ss)) → (∀ v, p (.varDecl v)) →
      flat.value.Everywhere p → (declaredBody config f flat.value).Everywhere p :=
    everywhere_declaredBody
  refine ⟨_, hg.body_eq, ?_, ?_, ?_, ?_⟩
  · intro hl
    exact hlast (fun _ => Stmt.loweredNode_of_callee? rfl)
      (fun _ => Stmt.loweredNode_of_callee? rfl) (lowered_of_flatten (hlowered hl) hrun)
  · exact hlast Stmt.consists_block Stmt.consists_varDecl
      (Stmt.finished_of_flatten (hbodies hscalar) hrun)
  · intro hv
    exact Stmt.verifyFlat_eq_ok_iff.2 (hlast Stmt.consists_block Stmt.consists_varDecl
      (Stmt.verifyFlat_eq_ok_iff.1 (hverify hv)))
  · intro hd
    rw [declaredBody, if_pos hd, hg.args_eq, hg.results_eq]
    exact Stmt.declare_declare _ fun v => Iff.rfl

/-- Whatever the configuration and the state, if a run succeeds on a function whose index
expressions have scalar bodies, then a run of the same configuration on its outcome, from whatever
state, keeps the outcome as it is, and draws nothing. -/
theorem run_idempotent (hf : ∀ body ∈ f.body, body.ForExprs Expr.ScalarBodies)
    (h : (run config f).run.run st = (.ok g, st')) (st₁ : Fresh) :
    (run config g.value).run.run st₁ = (.ok (.keep g.value), st₁) := by
  cases hbody : f.body with
  | none =>
    -- without a body there is nothing to do
    have hkeep : ∀ f : Func, f.body = none → run config f = pure (.keep f) := by
      intro f hf
      unfold run
      rw [hf]
    rw [hkeep f hbody] at h
    obtain ⟨rfl, _⟩ := Action.run_pure_ok.1 h
    rw [Transformed.value_keep, hkeep f hbody]
    rfl
  | some body =>
    obtain ⟨body', hbody', hnormal⟩ := normal_of_run hbody (hf body hbody) h
    rw [hnormal.run_eq hbody']
    rfl

theorem run_idempotent_scaled :
    (∀ body ∈ scaled.body, body.ForExprs Expr.ScalarBodies) ∧
      ∃ g st', (run {} scaled).run.run ⟨7, {}⟩ = (.ok g, st') ∧
        (run {} g.value).run.run ⟨7, {}⟩ = (.ok (.keep g.value), ⟨7, {}⟩) := by
  have hscalar : ∀ body ∈ scaled.body, body.ForExprs Expr.ScalarBodies := by decide
  exact ⟨hscalar, _, _, rfl, run_idempotent hscalar rfl _⟩

end Pipeline

end TensorIR
