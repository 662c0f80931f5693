import TensorIR.Proofs.Evaluation

/-! # What variables are read as

`Interp.eval` reads a variable as a value of its type, whatever was written to it. Here the way
variables are read is left open (`Interp.evalBy`, `Interp.execBy`). Reading just what was written
(`Reading.plain`) makes no difference between types: any variable can hold any value. The
semantics of `Interp.eval` and `Interp.exec` is the one that fits every value to the type of the
variable (`Interp.evalBy_fit`, `Interp.execBy_fit`).
-/

namespace TensorIR

/-- What a variable of the given type is read as, from what was written to it. -/
abbrev Reading (β : Type) := Ty → Value β → Value β

/-- A variable is read as what was written to it. -/
def Reading.plain {β : Type} : Reading β := fun _ v => v

namespace Interp

variable {β : Type} (I : Interp β) (read : Reading β)

mutual

/-- The value of an expression. -/
def evalBy (σ : Store β) : Expr → IndexEnv → Value β
  | .var ty v, _ => read ty (σ v)
  | .prim ty op es, ρ => (I.prim ty op (evalAllBy σ es ρ)).fit I.size ty
  | .indexed _ t vs, ρ => .scalar ((evalBy σ t ρ).comp (vs.map ρ))
  | .indexExpr _ vs b, ρ => .box I.size (vs.map IndexVar.domain) fun is =>
      sumOver I.size b.reductionVars (fun ρ => (evalBy σ b ρ).comp []) (ρ.bind vs is)
  | .neg ty a, ρ => .box I.size ty.dims fun is => -(evalBy σ a ρ).comp is
  | .binary ty op a b, ρ => .box I.size ty.dims fun is =>
      op.apply ((evalBy σ a ρ).compAt a.ty is) ((evalBy σ b ρ).compAt b.ty is)

/-- The values of several expressions. -/
def evalAllBy (σ : Store β) : List Expr → IndexEnv → List (Value β)
  | [], _ => []
  | e :: es, ρ => evalBy σ e ρ :: evalAllBy σ es ρ

end

/-- The value of an expression without free index variables. -/
def valueBy (σ : Store β) (e : Expr) : Value β := I.evalBy read σ e fun _ => 0

/-- The numbers a loop runs over, evaluated on entry. -/
def placesBy (σ : Store β) : LoopDomain → List Rat
  | .dim d => (List.range (I.size d)).map fun i : Nat => (i : Rat)
  | .range start stop =>
    let first := (I.valueBy read σ start).comp []
    (List.range ((I.valueBy read σ stop).comp [] - first).ceil.toNat).map fun i : Nat =>
      first + (i : Rat)

/-- What an instruction does. -/
def runBy (i : Instr) (σ : Store β) : Store β :=
  match i with
  | .assign v e => σ.set v (I.valueBy read σ e)
  | .call rs f as => σ.setAll (rs.zip (I.call f (as.map (I.valueBy read σ))))
  | .pass | .varDecl _ => σ
  | i => I.effect i (i.exprs.map (I.valueBy read σ)) σ

mutual

/-- What a statement does. -/
def execBy : Stmt → Store β → Store β
  | .instr i, σ => I.runBy read i σ
  | .forLoop v d body, σ =>
    (I.placesBy read σ d).foldl (fun σ i => execBy body (σ.set v (.scalar i))) σ
  | .ifThenElse c t none, σ => if I.truth (I.valueBy read σ c) then execBy t σ else σ
  | .ifThenElse c t (some e), σ =>
    if I.truth (I.valueBy read σ c) then execBy t σ else execBy e σ
  | .block ss, σ => execAllBy ss σ

/-- What several statements do, one after another. -/
def execAllBy : List Stmt → Store β → Store β
  | [], σ => σ
  | s :: ss, σ => execAllBy ss (execBy s σ)

end

theorem evalAllBy_eq (σ : Store β) (es : List Expr) (ρ : IndexEnv) :
    I.evalAllBy read σ es ρ = es.map fun e => I.evalBy read σ e ρ := by
  induction es with
  | nil => rfl
  | cons e es ih => rw [evalAllBy, ih, List.map_cons]

/-! ### Values of the types of the variables -/

theorem evalBy_fit (σ : Store β) (e : Expr) (ρ : IndexEnv) :
    I.evalBy (fun ty v => v.fit I.size ty) σ e ρ = I.eval σ e ρ := by
  induction e generalizing ρ with
  | var ty v => rfl
  | prim ty op es ih =>
    rw [evalBy, eval, evalAllBy_eq, evalAll_eq, List.map_congr_left fun e he => ih e he ρ]
  | indexed ty t vs ih => rw [evalBy, eval, ih]
  | indexExpr ty vs b ih =>
    rw [evalBy, eval]
    simp only [ih]
  | neg ty a ih => rw [evalBy, eval, ih]
  | binary ty op a b iha ihb => rw [evalBy, eval, iha, ihb]

theorem valueBy_fit : I.valueBy (fun ty v => v.fit I.size ty) = I.value := by
  funext σ e
  exact I.evalBy_fit σ e _

theorem placesBy_fit (σ : Store β) (d : LoopDomain) :
    I.placesBy (fun ty v => v.fit I.size ty) σ d = I.places σ d := by
  cases d <;> simp only [placesBy, places, valueBy_fit]

theorem runBy_fit (i : Instr) (σ : Store β) :
    I.runBy (fun ty v => v.fit I.size ty) i σ = I.run i σ := by
  cases i <;> simp only [runBy, run, valueBy_fit]

theorem execBy_fit (s : Stmt) (σ : Store β) :
    I.execBy (fun ty v => v.fit I.size ty) s σ = I.exec s σ := by
  induction s generalizing σ with
  | instr i => rw [execBy, exec, runBy_fit]
  | forLoop v d body ih =>
    rw [execBy, exec, placesBy_fit]
    simp only [ih]
  | ifThenElse c t e iht ihe =>
    cases e with
    | none => rw [execBy, exec, valueBy_fit, iht]
    | some e => rw [execBy, exec, valueBy_fit, iht, ihe e rfl]
  | block ss ih =>
    rw [execBy, exec]
    induction ss generalizing σ with
    | nil => rfl
    | cons s ss ihs =>
      rw [execAllBy, execAll, ih s (by simp), ihs fun s' hs' => ih s' (by simp [hs'])]

/-! ### Index variables -/

variable {I read}

/-- The value of an expression depends on its loose index variables only. -/
theorem evalBy_congr {σ : Store β} {e : Expr} {ρ ρ' : IndexEnv} (h : ∀ v ∈ e.loose, ρ v = ρ' v) :
    I.evalBy read σ e ρ = I.evalBy read σ e ρ' := by
  induction e generalizing ρ ρ' with
  | var ty v => rfl
  | prim ty op es ih =>
    rw [evalBy, evalBy, evalAllBy_eq, evalAllBy_eq]
    congr 2
    exact List.map_congr_left fun e he => ih e he
      fun v hv => h v (Expr.mem_loose_prim.2 ⟨e, he, hv⟩)
  | indexed ty t vs ih =>
    simp only [Expr.loose, List.mem_append] at h
    rw [evalBy, evalBy, ih fun v hv => h v (.inl hv),
      List.map_congr_left fun v hv => h v (.inr hv)]
  | indexExpr ty vs b ih =>
    rw [evalBy, evalBy]
    apply Value.box_congr
    intro is hbox
    have hlen : is.length = vs.length := by simpa using length_of_inBox hbox
    have hbody : ∀ ρ ρ' : IndexEnv, (∀ v ∈ b.loose, ρ v = ρ' v) →
        (I.evalBy read σ b ρ).comp [] = (I.evalBy read σ b ρ').comp [] := fun _ _ h =>
      congrArg (·.comp []) (ih h)
    exact Expr.sumOver_reductionVars_congr hlen hbody h
  | neg ty a ih => rw [evalBy, evalBy, ih h]
  | binary ty op a b iha ihb =>
    simp only [Expr.loose, List.mem_append] at h
    rw [evalBy, evalBy, iha fun v hv => h v (.inl hv), ihb fun v hv => h v (.inr hv)]

end Interp

end TensorIR
