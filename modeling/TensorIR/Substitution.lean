import TensorIR.Program.Induction
import TensorIR.Transform

/-! # Substitution of index variables

A renaming gives new names to some index variables; substituting it replaces their free uses,
all at once. An index expression hides its result variables from the renaming within its body.

**Key idea**: substitution is a transform whose state is the renaming in force. It takes the
hidden pairs out of it when it enters an index expression and puts them back on leaving, so one
renaming can be applied any number of times (`Renaming.run_transformM`).

Nothing keeps a new name from being captured by an index expression further in; callers choose
names that are not bound there.
-/

namespace TensorIR

/-- An indexed read through other variables; every other node stays as it is. -/
def Expr.mapVars (f : IndexVar → IndexVar) : Expr → Expr
  | .indexed ty tensor vars => .indexed ty tensor (vars.map f)
  | e => e

/-- New names for some index variables. -/
abbrev Renaming := IndexVar → Option IndexVar

namespace Renaming

/-- The renaming given by pairs of an old and a new name. Of two pairs for one old name the
later counts. -/
def ofPairs (pairs : List (IndexVar × IndexVar)) : Renaming := fun v =>
  (pairs.reverse.find? fun p => p.1 == v).map Prod.snd

/-- Whether the variable gets a new name (which may be the old one). -/
def renames (ρ : Renaming) (v : IndexVar) : Bool := (ρ v).isSome

/-- The new name of a variable, or the variable itself. -/
def apply (ρ : Renaming) (v : IndexVar) : IndexVar := (ρ v).getD v

/-- The renaming without the given variables. -/
def without (ρ : Renaming) (vs : List IndexVar) : Renaming := fun v =>
  if v ∈ vs then none else ρ v

/-- The renaming with more pairs, which count before those it has. -/
def extend (ρ : Renaming) (pairs : List (IndexVar × IndexVar)) : Renaming := fun v =>
  (ofPairs pairs v).or (ρ v)

/-- Takes the pairs of the given variables out of the renaming in force and hands them over. -/
def hide : List IndexVar → StateM Renaming (List (IndexVar × IndexVar))
  | [] => return []
  | v :: vs => do
    let ρ ← get
    match ρ v with
    | none => hide vs
    | some w => do
      set (ρ.without [v])
      return (v, w) :: (← hide vs)

/-- Puts pairs back into the renaming in force. -/
def unhide (pairs : List (IndexVar × IndexVar)) : StateM Renaming Unit :=
  modify (·.extend pairs)

/-- Renames the variables of indexed reads. A read is rebuilt if its tensor has changed or one
of its variables has a new name, even one equal to the old. -/
def transform : Transform (StateM Renaming) where
  expr e walk :=
    match e with
    | .indexed _ _ vars => do
      let out ← walk
      let ρ ← get
      return if vars.any ρ.renames then .replace (out.value.mapVars ρ.apply) else out
    | .indexExpr _ vars _ => do
      let hidden ← hide vars
      let out ← walk
      unhide hidden
      return out
    | _ => walk

end Renaming

/-- Replaces the free uses of renamed index variables. -/
def Expr.substitute (ρ : Renaming) (e : Expr) : Transformed Expr :=
  ((e.transformM Renaming.transform).run ρ).1

/-- Replaces the free uses of renamed index variables in every expression of a statement. -/
def Stmt.substitute (ρ : Renaming) (s : Stmt) : Transformed Stmt :=
  ((s.transformM Renaming.transform).run ρ).1

/-! ### Hidden pairs -/

namespace Renaming

theorem ofPairs_cons (v w : IndexVar) (pairs : List (IndexVar × IndexVar)) (u : IndexVar) :
    ofPairs ((v, w) :: pairs) u = (ofPairs pairs u).or (if v = u then some w else none) := by
  unfold ofPairs
  rw [List.reverse_cons, List.find?_append]
  cases pairs.reverse.find? fun p => p.1 == u with
  | some p => rfl
  | none => by_cases h : v = u <;> simp [h]

section

variable {ρ : Renaming} {v w : IndexVar} {vs : List IndexVar}

theorem without_cons_of_none (h : ρ v = none) : ρ.without (v :: vs) = ρ.without vs := by
  funext u
  unfold without
  by_cases hu : u = v
  · subst hu
    simp [h]
  · simp [hu]

theorem without_without (us vs : List IndexVar) :
    (ρ.without us).without vs = ρ.without (us ++ vs) := by
  funext u
  unfold without
  by_cases hu : u ∈ us <;> by_cases hv : u ∈ vs <;> simp [hu, hv]

theorem run_hide_cons_of_none (h : ρ v = none) : (hide (v :: vs)).run ρ = (hide vs).run ρ := by
  simp [hide, h]

theorem run_hide_cons_of_some (h : ρ v = some w) :
    (hide (v :: vs)).run ρ = (((v, w) :: ((hide vs).run (ρ.without [v])).1),
      ((hide vs).run (ρ.without [v])).2) := by
  simp [hide, h]
  rfl

end

/-- While variables are hidden, the other pairs are in force. -/
theorem run_hide_snd (ρ : Renaming) (vs : List IndexVar) :
    ((hide vs).run ρ).2 = ρ.without vs := by
  induction vs generalizing ρ with
  | nil =>
    show ρ = ρ.without []
    funext u
    simp [without]
  | cons v vs ih =>
    cases h : ρ v with
    | none => rw [run_hide_cons_of_none h, ih, without_cons_of_none h]
    | some w =>
      rw [run_hide_cons_of_some h, ih, without_without]
      rfl

/-- The pairs handed over are those of the hidden variables, however often these are named. -/
theorem ofPairs_hide (ρ : Renaming) (vs : List IndexVar) (u : IndexVar) :
    ofPairs ((hide vs).run ρ).1 u = if u ∈ vs then ρ u else none := by
  induction vs generalizing ρ with
  | nil => rfl
  | cons v vs ih =>
    cases h : ρ v with
    | none =>
      rw [run_hide_cons_of_none h, ih]
      by_cases hu : u = v
      · subst hu
        simp [h]
      · simp [hu]
    | some w =>
      rw [run_hide_cons_of_some h, ofPairs_cons, ih]
      by_cases hu : u = v
      · subst hu
        simp [without, h]
      · simp [without, hu, Ne.symm hu]

/-- What was hidden comes back. -/
theorem extend_hide (ρ : Renaming) (vs : List IndexVar) :
    (ρ.without vs).extend ((hide vs).run ρ).1 = ρ := by
  funext u
  unfold extend
  rw [ofPairs_hide, without]
  by_cases hu : u ∈ vs <;> simp [hu]

end Renaming

/-! ### Substitution, node by node

The renaming in force is the same before and after an expression, so substitution has plain
recursive equations. -/

namespace Renaming

/-- Substituting leaves the renaming in force as it was. -/
theorem run_transformM (ρ : Renaming) (e : Expr) :
    (e.transformM transform).run ρ = (e.substitute ρ, ρ) := by
  refine Prod.ext rfl ?_
  induction e generalizing ρ with
  | var ty v => rfl
  | prim ty op es ih =>
    show ((Expr.transformAll transform es).run ρ).2 = ρ
    induction es generalizing ρ with
    | nil => rfl
    | cons e es ihs =>
      exact (ihs (fun e' h => ih e' (List.mem_cons_of_mem e h)) _).trans (ih e (by simp) ρ)
  | indexed ty t vs ih => exact ih ρ
  | indexExpr ty vs b ih =>
    -- the body leaves what is still in force as it was, and the hidden pairs come back
    show ((b.transformM transform).run ((hide vs).run ρ).2).2.extend ((hide vs).run ρ).1 = ρ
    rw [ih, run_hide_snd, extend_hide]
  | neg ty a ih => exact ih ρ
  | binary ty op a b iha ihb => exact (ihb _).trans (iha ρ)

/-- Substituting in several expressions one after another. -/
theorem run_transformAll (ρ : Renaming) (es : List Expr) :
    (Expr.transformAll transform es).run ρ = (es.map (·.substitute ρ), ρ) := by
  induction es with
  | nil => rfl
  | cons e es ih =>
    show ((_ :: ((Expr.transformAll transform es).run ((e.transformM transform).run ρ).2).1),
      ((Expr.transformAll transform es).run ((e.transformM transform).run ρ).2).2) = _
    rw [run_transformM, ih]
    rfl

end Renaming

namespace Expr

variable (ρ : Renaming) (ty : Ty)

@[simp] theorem substitute_var (v : Var) : (var ty v).substitute ρ = .keep (.var ty v) := rfl

theorem substitute_prim (op : Prim) (es : List Expr) :
    (prim ty op es).substitute ρ = (prim ty op es).rebuild (es.map (·.substitute ρ)) := by
  show (prim ty op es).rebuild ((transformAll Renaming.transform es).run ρ).1 = _
  rw [Renaming.run_transformAll]

theorem substitute_indexed (t : Expr) (vs : List IndexVar) :
    (indexed ty t vs).substitute ρ =
      let out := (indexed ty t vs).rebuild [t.substitute ρ]
      if vs.any ρ.renames then .replace (out.value.mapVars ρ.apply) else out := by
  show (if vs.any (Renaming.renames ((t.transformM Renaming.transform).run ρ).2) then
    Transformed.replace (((indexed ty t vs).rebuild [t.substitute ρ]).value.mapVars
      (Renaming.apply ((t.transformM Renaming.transform).run ρ).2)) else _) = _
  rw [Renaming.run_transformM]
  rfl

theorem substitute_indexExpr (vs : List IndexVar) (b : Expr) :
    (indexExpr ty vs b).substitute ρ =
      (indexExpr ty vs b).rebuild [b.substitute (ρ.without vs)] := by
  show (indexExpr ty vs b).rebuild
    [((b.transformM Renaming.transform).run ((Renaming.hide vs).run ρ).2).1] = _
  rw [Renaming.run_hide_snd]
  rfl

theorem substitute_neg (a : Expr) :
    (neg ty a).substitute ρ = (neg ty a).rebuild [a.substitute ρ] := rfl

theorem substitute_binary (op : BinaryOp) (a b : Expr) :
    (binary ty op a b).substitute ρ =
      (binary ty op a b).rebuild [a.substitute ρ, b.substitute ρ] := by
  show (binary ty op a b).rebuild [a.substitute ρ,
    b.substitute ((a.transformM Renaming.transform).run ρ).2] = _
  rw [Renaming.run_transformM]

end Expr

end TensorIR
