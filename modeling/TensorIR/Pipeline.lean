import TensorIR.Config
import TensorIR.Declarations
import TensorIR.Flatness
import TensorIR.Flattening
import TensorIR.Lowering

/-! # The normalization pipeline

The body of a function is lowered, flattened, verified and given declarations, in this order
and as far as the configuration asks for it. Each run has passes of its own; what runs share is
the supply of identities and of temporary names, so that no two functions get temporaries of
one name.

A function without a body is left alone.
-/

namespace TensorIR

/-- Actions of the pipeline. What a failed run drew stays drawn. -/
abbrev PipelineM := ExceptT Error (StateM Fresh)

namespace Pipeline

/-- Lowers the calls of intrinsic functions in a statement. -/
def lower (s : Stmt) : PipelineM (Transformed Stmt) :=
  ExceptT.mk fun st =>
    let (out, b) := s.lower.run.run (.ofFresh st)
    (out, b.toFresh)

/-- Flattens a statement, and checks the result if the configuration asks for it. -/
def flatten (config : Config) (s : Stmt) : PipelineM (Transformed Stmt) := do
  let out ← ExceptT.mk fun st =>
    let (out, b) := s.flatten.run.run (.ofFresh st)
    (out, b.toFresh)
  if config.verify then
    MonadExcept.ofExcept out.value.verifyFlat
  return out

/-- Normalizes a statement on its own: no lowering and no declarations. -/
def runStmt (config : Config) (s : Stmt) : PipelineM (Transformed Stmt) := flatten config s

/-- Normalizes a function. All but its body stays as it is. -/
def run (config : Config) (f : Func) : PipelineM (Transformed Func) := do
  match f.body with
  | none => return .keep f
  | some body =>
    let lowered ← if config.lowerIntrinsics then lower body else pure (.keep body)
    let flat ← flatten config lowered.value
    -- one new function stands for both changes of the body
    let changed := lowered.changed || flat.changed
    let out ← if changed then do pure (f.withBody (← Fresh.newId) flat.value) else pure f
    if config.insertDecls then
      let declared ← out.insertDeclarations
      return ⟨declared.value, changed || declared.changed⟩
    else return ⟨out, changed⟩

/-- Normalizes a function and hands it to a back end, together with the global variables it
refers to. The back end returns code or says why it cannot. -/
def compile {m : Type → Type} [Monad m] {Code : Type}
    (backEnd : Func → List Var → m (Except String Code)) (config : Config) (f : Func)
    (globals : List Var) : StateT Fresh m (Except Error Code) := do
  match ← modifyGet (run config f).run with
  | .error e => return .error e
  | .ok out =>
    match ← backEnd out.value globals with
    | .ok code => return .ok code
    | .error message => return .error (.backend f.name message)

end Pipeline

end TensorIR
