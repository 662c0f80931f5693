import TensorIR.Fresh
import TensorIR.Transform
import TensorIR.Visitor

/-! # Declarations of local variables

Every variable that a body defines, by an assignment or as a result of a call or map, is given
a declaration, unless it is a parameter, a result or declared already. The declaration stands
right before the first statement that defines the variable. Of the statements of a block this
means the one in the block: what a loop or a conditional defines is declared before the loop or
conditional, and so can be seen after it.

A loop declares its own variable. The definitions of a statement are therefore collected with a
stack of the variables that are bound at the moment: a loop puts its variable on it, and takes
the top off when its body is done. Declarations met on the way go on the same stack.
-/

namespace TensorIR

/-! ### What a statement defines -/

/-- A collector of definitions. -/
structure Definitions where
  /-- The variables defined so far, in order of their first definition. -/
  defined : List Var := []
  /-- The variables that are bound at the moment, the latest first. -/
  bound : List Var := []

namespace Definitions

/-- Binds a variable. -/
def bind (d : Definitions) (v : Var) : Definitions := { d with bound := v :: d.bound }

/-- Takes the latest variable off the stack. -/
def unbind (d : Definitions) : Definitions := { d with bound := d.bound.tail }

/-- Notes a definition of a variable that is neither bound nor noted. -/
def define (d : Definitions) (v : Var) : Definitions :=
  if d.bound.contains v || d.defined.contains v then d
  else { d with defined := d.defined ++ [v] }

/-- Collects what statements define. Expressions define nothing. -/
def visitor : Visitor (StateM Definitions) where
  expr _ _ := return
  stmt s walk :=
    match s with
    | .instr (.varDecl v) => modify (·.bind v)
    | .instr i => do
      modify fun d => i.defined.foldl define d
      walk
    | .forLoop v _ _ => do
      modify (·.bind v)
      walk
      modify unbind
    | _ => walk

end Definitions

/-- The variables that a statement defines and does not bind itself, in order of their first
definition. -/
def Stmt.definitions (s : Stmt) : List Var := ((s.visitM Definitions.visitor).run {}).2.defined

/-! ### Inserting declarations -/

/-- The variables that have a declaration. -/
abbrev Declared := List Var

/-- Declares the definitions of `s` that have no declaration, in order. -/
def Stmt.missingDeclarations (s : Stmt) : StateM Declared (List Stmt) := modifyGet fun declared =>
  let new := s.definitions.filter fun v => !declared.contains v
  (new.map .varDecl, declared ++ new)

mutual

/-- Declares what a statement defines. A block takes the declarations in; before any other
statement they are put with it into a block. -/
def Stmt.declare : Stmt → StateM Declared (Transformed Stmt)
  | .block ss => do
    let items ← Stmt.declareAll ss
    return if items.changed then .replace (.block items.value) else .keep (.block ss)
  | .instr (.varDecl v) => do
    modify (v :: ·)
    return .keep (.varDecl v)
  | s => do
    let decls ← s.missingDeclarations
    return if decls.isEmpty then .keep s else .replace (.block (decls ++ [s]))

/-- Declares what the statements of a block define, each right before its statement. Blocks
within the block take in their own declarations. -/
def Stmt.declareAll : List Stmt → StateM Declared (Transformed (List Stmt))
  | [] => return .keep []
  | s :: ss => do
    let here : Transformed (List Stmt) ←
      -- the others would come back as a block, and are taken in without one
      if s.isBlock || s.isVarDecl then do
        let out ← s.declare
        pure ⟨[out.value], out.changed⟩
      else do
        let decls ← s.missingDeclarations
        pure ⟨decls ++ [s], !decls.isEmpty⟩
    let rest ← Stmt.declareAll ss
    return ⟨here.value ++ rest.value, here.changed || rest.changed⟩

end

/-- Declares what the body of a function defines. -/
def Func.declare (f : Func) : StateT Declared (StateM Fresh) (Transformed Func) := do
  match f.body with
  | none => return .keep f
  | some body =>
    let out ← modifyGet body.declare.run
    if out.changed then return .replace (f.withBody (← Fresh.newId) out.value)
    else return .keep f

/-- Declares the local variables of a function, whose parameters and results are declared
already. -/
def Func.insertDeclarations (f : Func) : StateM Fresh (Transformed Func) :=
  f.declare.run' (f.args ++ f.results)

end TensorIR
