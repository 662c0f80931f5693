import Mathlib.Algebra.Order.Ring.Rat
import Mathlib.Data.List.Dedup
import TensorIR.Proofs.LooseVars

/-! # The meaning of programs

Expressions denote values, statements change a store. Arithmetic is over exact rationals; what
other operations, calls and conditions mean is left open and given by an interpretation.

**Key idea**: a value of scalar or tensor type is the function from index tuples to its
components, zero outside the dimensions of the type. So two values of one type are equal as soon
as they agree on the tuples within its dimensions, and a scalar and a tensor of order 0 with the
same component are the same value.

An index expression sums its body over the reduction variables that its body reads outside index
expressions further in, each over its own dimension.
-/

namespace TensorIR

/-! ### Values -/

/-- A value: a tensor of rationals, given by its components, or something of another kind. -/
inductive Value (β : Type) where
  | tensor (comp : List Nat → Rat)
  | other (b : β)

/-- Whether there is one index for each dimension, and each is within its dimension. -/
def inBox (size : Dim → Nat) : List Dim → List Nat → Bool
  | [], [] => true
  | d :: ds, i :: is => decide (i < size d) && inBox size ds is
  | _, _ => false

namespace Value

variable {β : Type}

/-- One component. What is no tensor has zeros only. -/
def comp : Value β → List Nat → Rat
  | tensor f => f
  | other _ => fun _ => 0

/-- A single number. -/
def scalar (r : Rat) : Value β := tensor fun is => if is.isEmpty then r else 0

/-- A tensor over the given dimensions. -/
def box (size : Dim → Nat) (ds : List Dim) (f : List Nat → Rat) : Value β :=
  tensor fun is => if inBox size ds is then f is else 0

/-- A value as one of the given type: all that scalars and tensors have is components. -/
def fit (size : Dim → Nat) (ty : Ty) (v : Value β) : Value β :=
  match ty with
  | .scalar _ | .tensor _ => box size ty.dims v.comp
  | _ => v

/-- The component of an operand that takes part in an operation on every component: the only one
of a scalar, otherwise the one at the same place. -/
def compAt (v : Value β) (ty : Ty) (is : List Nat) : Rat := v.comp (if ty.isScalar then [] else is)

end Value

/-- The arithmetic operators on numbers. -/
def BinaryOp.apply : BinaryOp → Rat → Rat → Rat
  | .add => (· + ·)
  | .sub => (· - ·)
  | .mul => (· * ·)
  | .div => (· / ·)

/-! ### Indices -/

/-- Where the index variables stand. -/
abbrev IndexEnv := IndexVar → Nat

namespace IndexEnv

/-- The index variables `vs` at the places `is`. Of two places for one variable the later
counts. -/
def bind (ρ : IndexEnv) (vs : List IndexVar) (is : List Nat) : IndexEnv := fun v =>
  match (vs.zip is).reverse.find? fun p => p.1 == v with
  | some p => p.2
  | none => ρ v

/-- One index variable at another place. -/
def set (ρ : IndexEnv) (v : IndexVar) (i : Nat) : IndexEnv := fun w => if w = v then i else ρ w

end IndexEnv

/-- The sum of `f` over all places of the variables. -/
def sumOver (size : Dim → Nat) : List IndexVar → (IndexEnv → Rat) → IndexEnv → Rat
  | [], f, ρ => f ρ
  | r :: rs, f, ρ =>
    ((List.range (size r.domain)).map fun i => sumOver size rs f (ρ.set r i)).sum

/-- The reduction variables that an expression reads outside index expressions within it. -/
def Expr.reductionVars (e : Expr) : List IndexVar := (e.loose.filter fun v => !v.isFree).dedup

/-! ### Expressions and statements -/

/-- The contents of the variables. -/
abbrev Store (β : Type) := Var → Value β

/-- Another value for one variable. -/
def Store.set {β : Type} (σ : Store β) (v : Var) (x : Value β) : Store β :=
  fun w => if w = v then x else σ w

@[simp] theorem Store.set_self {β : Type} (σ : Store β) (v : Var) (x : Value β) :
    σ.set v x v = x :=
  if_pos rfl

theorem Store.set_of_ne {β : Type} (σ : Store β) {v w : Var} (h : w ≠ v) (x : Value β) :
    σ.set v x w = σ w :=
  if_neg h

/-- Other values for several variables, in order. -/
def Store.setAll {β : Type} (σ : Store β) : List (Var × Value β) → Store β
  | [] => σ
  | (v, x) :: rest => (σ.set v x).setAll rest

/-- What the language leaves open. -/
structure Interp (β : Type) where
  /-- The number of members of a set. -/
  setSize : String → Nat
  /-- The extent of a dimension that is known only when the program runs. -/
  dynamicSize : Nat
  /-- The operations other than arithmetic. -/
  prim : Ty → Prim → List (Value β) → Value β
  /-- What a called function returns. -/
  call : Func → List (Value β) → List (Value β)
  /-- Whether a condition holds. -/
  truth : Value β → Bool
  /-- What the instructions other than assignments and calls do. -/
  effect : Instr → List (Value β) → Store β → Store β

namespace Interp

variable {β : Type} (I : Interp β)

/-- The number of indices of a dimension. -/
def size : Dim → Nat
  | .range n => n
  | .set name => I.setSize name
  | .dynamic => I.dynamicSize

mutual

/-- The value of an expression. -/
def eval (σ : Store β) : Expr → IndexEnv → Value β
  | .var ty v, _ => (σ v).fit I.size ty
  | .prim ty op es, ρ => (I.prim ty op (evalAll σ es ρ)).fit I.size ty
  | .indexed _ t vs, ρ => .scalar ((eval σ t ρ).comp (vs.map ρ))
  | .indexExpr _ vs b, ρ => .box I.size (vs.map IndexVar.domain) fun is =>
      sumOver I.size b.reductionVars (fun ρ => (eval σ b ρ).comp []) (ρ.bind vs is)
  | .neg ty a, ρ => .box I.size ty.dims fun is => -(eval σ a ρ).comp is
  | .binary ty op a b, ρ => .box I.size ty.dims fun is =>
      op.apply ((eval σ a ρ).compAt a.ty is) ((eval σ b ρ).compAt b.ty is)

/-- The values of several expressions. -/
def evalAll (σ : Store β) : List Expr → IndexEnv → List (Value β)
  | [], _ => []
  | e :: es, ρ => eval σ e ρ :: evalAll σ es ρ

end

/-- The value of an expression without free index variables. -/
def value (σ : Store β) (e : Expr) : Value β := I.eval σ e fun _ => 0

/-- The numbers a loop runs over, evaluated on entry. -/
def places (σ : Store β) : LoopDomain → List Rat
  | .dim d => (List.range (I.size d)).map fun i : Nat => (i : Rat)
  | .range start stop =>
    let first := (I.value σ start).comp []
    (List.range ((I.value σ stop).comp [] - first).ceil.toNat).map fun i : Nat => first + (i : Rat)

/-- What an instruction does. -/
def run (i : Instr) (σ : Store β) : Store β :=
  match i with
  | .assign v e => σ.set v (I.value σ e)
  | .call rs f as => σ.setAll (rs.zip (I.call f (as.map (I.value σ))))
  | .pass | .varDecl _ => σ
  | i => I.effect i (i.exprs.map (I.value σ)) σ

mutual

/-- What a statement does. -/
def exec : Stmt → Store β → Store β
  | .instr i, σ => I.run i σ
  | .forLoop v d body, σ => (I.places σ d).foldl (fun σ i => exec body (σ.set v (.scalar i))) σ
  | .ifThenElse c t none, σ => if I.truth (I.value σ c) then exec t σ else σ
  | .ifThenElse c t (some e), σ => if I.truth (I.value σ c) then exec t σ else exec e σ
  | .block ss, σ => execAll ss σ

/-- What several statements do, one after another. -/
def execAll : List Stmt → Store β → Store β
  | [], σ => σ
  | s :: ss, σ => execAll ss (exec s σ)

end

theorem evalAll_eq (σ : Store β) (es : List Expr) (ρ : IndexEnv) :
    I.evalAll σ es ρ = es.map fun e => I.eval σ e ρ := by
  induction es with
  | nil => rfl
  | cons e es ih => rw [evalAll, ih, List.map_cons]

theorem execAll_append (ss ss' : List Stmt) (σ : Store β) :
    I.execAll (ss ++ ss') σ = I.execAll ss' (I.execAll ss σ) := by
  induction ss generalizing σ with
  | nil => rfl
  | cons s ss ih => exact ih _

end Interp

end TensorIR
