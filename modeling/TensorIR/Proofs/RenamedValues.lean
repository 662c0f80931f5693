import TensorIR.Proofs.Evaluation
import TensorIR.Proofs.Renamed

/-! # The value of a renamed expression

Renaming index variables amounts to looking them up where their new names stand, as long as
nothing is captured on the way (`Operations.eval_renamed`).

**Key idea**: of the meaning of expressions the lemma needs to know only how indexed reads and
index expressions use the places of index variables. What all other nodes make of the values of
their operands is left open (`Operations`), arithmetic included; the semantics of `Interp` is one
way to fill it in (`Interp.eval_operations`).

An index expression sums its body over the reduction variables that the body reads. If free
variables get free names, renaming leaves these alone, and a sum puts the same variables at the
same places before and after.
-/

namespace TensorIR

/-- What the nodes other than indexed reads and index expressions mean: each is a function of the
values of its operands. -/
structure Operations (β : Type) where
  /-- The number of indices of a dimension. -/
  size : Dim → Nat
  var : Ty → Var → Value β
  prim : Ty → Prim → List (Value β) → Value β
  neg : Ty → Value β → Value β
  /-- The operands come with their types, which tell scalars from tensors. -/
  binary : Ty → BinaryOp → Ty × Value β → Ty × Value β → Value β

namespace Operations

variable {β : Type} (M : Operations β)

mutual

/-- The value of an expression. An indexed read is one component of its tensor; an index
expression has at each place of its result variables its body, summed over the reduction
variables of the body. -/
def eval : Expr → IndexEnv → Value β
  | .var ty v, _ => M.var ty v
  | .prim ty op es, ρ => M.prim ty op (evalAll es ρ)
  | .indexed _ t vs, ρ => .scalar ((eval t ρ).comp (vs.map ρ))
  | .indexExpr _ vs b, ρ => .box M.size (vs.map IndexVar.domain) fun is =>
      sumOver M.size b.reductionVars (fun ρ => (eval b ρ).comp []) (ρ.bind vs is)
  | .neg ty a, ρ => M.neg ty (eval a ρ)
  | .binary ty op a b, ρ => M.binary ty op (a.ty, eval a ρ) (b.ty, eval b ρ)

/-- The values of several expressions. -/
def evalAll : List Expr → IndexEnv → List (Value β)
  | [], _ => []
  | e :: es, ρ => eval e ρ :: evalAll es ρ

end

theorem evalAll_eq (es : List Expr) (ρ : IndexEnv) : M.evalAll es ρ = es.map (M.eval · ρ) := by
  induction es with
  | nil => rfl
  | cons e es ih => rw [evalAll, ih, List.map_cons]

end Operations

/-! ### Sums -/

/-- Sums agree if the summands do, where a variable stands on the right as its name `m v` does on
the left, and no other variable is given the name of one that is summed over. -/
theorem sumOver_congr_map {size : Dim → Nat} {L rs : List IndexVar} {m : IndexVar → IndexVar}
    {f g : IndexEnv → Rat} {ρ ρ' : IndexEnv}
    (hfg : ∀ ρ ρ' : IndexEnv, (∀ v ∈ L, ρ' v = ρ (m v)) → f ρ = g ρ')
    (hm : ∀ v ∈ L, ∀ r ∈ rs, m v = r ↔ v = r) (h : ∀ v ∈ L, v ∉ rs → ρ' v = ρ (m v)) :
    sumOver size rs f ρ = sumOver size rs g ρ' := by
  induction rs generalizing ρ ρ' with
  | nil => exact hfg ρ ρ' fun v hv => h v hv (by simp)
  | cons r rs ih =>
    unfold sumOver
    congr 1
    apply List.map_congr_left
    intro i _
    refine ih (fun v hv r hr => hm v hv r (by simp [hr])) fun v hv hrs => ?_
    have hmr := hm v hv r (by simp)
    unfold IndexEnv.set
    by_cases hvr : v = r
    · rw [if_pos hvr, if_pos (hmr.2 hvr)]
    · rw [if_neg hvr, if_neg (mt hmr.1 hvr)]
      exact h v hv (by simp [hvr, hrs])

/-- Renaming free variables leaves the reductions alone. -/
theorem Expr.reductionVars_substitute {e : Expr} {ν : Renaming} (hc : e.CaptureFree ν)
    (hf : e.Over (fun _ => True) ν.RenamesFree) :
    (e.substitute ν).value.reductionVars = e.reductionVars := by
  have hsame : ∀ v ∈ e.loose.filter (fun v => !v.isFree), ν.apply v = v := by
    intro v hv
    obtain ⟨hl, hred⟩ := List.mem_filter.1 hv
    cases hw : ν v with
    | none => exact Renaming.apply_of_none hw
    | some w =>
      rw [(Over.of_mem_loose hf hl w hw).1] at hred
      cases hred
  unfold reductionVars
  rw [loose_substitute_eq_map hc hf, List.filter_map]
  have hfilter : e.loose.filter ((fun v => !v.isFree) ∘ ν.apply) =
      e.loose.filter fun v => !v.isFree :=
    List.filter_congr fun v hv => congrArg Bool.not (Over.of_mem_loose hf hv).isFree_apply
  rw [hfilter, List.map_congr_left hsame, List.map_id']

/-! ### Renaming -/

namespace Operations

variable {β : Type} (M : Operations β)

/-- Below an index expression that captures nothing, and before anything is summed over, a variable
still stands where its name does. -/
theorem bind_renamed {ν : Renaming} {ρ ρ' : IndexEnv} {vs : List IndexVar} {is : List Nat}
    {v : IndexVar} (hlen : is.length = vs.length) (hcap : ∀ w ∈ ν.without vs v, w ∉ vs)
    (hρ : v ∉ vs → ρ' v = ρ (ν.apply v)) :
    ρ'.bind vs is v = ρ.bind vs is ((ν.without vs).apply v) := by
  by_cases hvs : v ∈ vs
  · rw [Renaming.apply_of_none (Renaming.without_of_mem hvs)]
    exact IndexEnv.bind_of_mem hlen hvs
  · have hname : (ν.without vs).apply v ∉ vs := by
      cases hw : ν.without vs v with
      | none => rwa [Renaming.apply_of_none hw]
      | some w =>
        rw [Renaming.apply_of_some hw]
        exact hcap w hw
    rw [IndexEnv.bind_of_not_mem hvs, IndexEnv.bind_of_not_mem hname,
      Renaming.apply_without_of_not_mem hvs]
    exact hρ hvs

/-- Renaming free index variables amounts to looking them up where the new names stand, if nothing
is captured. -/
theorem eval_renamed {e : Expr} {ν : Renaming} {ρ ρ' : IndexEnv} (hc : e.CaptureFree ν)
    (hf : e.Over (fun _ => True) ν.RenamesFree) (hρ : ∀ v ∈ e.loose, ρ' v = ρ (ν.apply v)) :
    M.eval (e.substitute ν).value ρ = M.eval e ρ' := by
  induction e generalizing ν ρ ρ' with
  | var ty v => rfl
  | prim ty op es ih =>
    have hes := Expr.captureFreeAll_iff.1 hc
    rw [Expr.value_substitute_prim, eval, eval, evalAll_eq, evalAll_eq, List.map_map]
    congr 1
    exact List.map_congr_left fun e he => ih e he (hes e he) (hf.child he)
      fun v hv => hρ v (Expr.mem_loose_prim.2 ⟨e, he, hv⟩)
  | indexed ty t vs ih =>
    simp only [Expr.loose, List.mem_append] at hρ
    rw [Expr.value_substitute_indexed, eval, eval,
      ih hc (Expr.over_indexed.1 hf).2 fun v hv => hρ v (.inl hv), List.map_map]
    congr 2
    exact List.map_congr_left fun v hv => (hρ v (.inr hv)).symm
  | indexExpr ty vs b ih =>
    obtain ⟨hcap, hb⟩ := hc
    have hfb : b.Over (fun _ => True) (ν.without vs).RenamesFree :=
      (Expr.over_indexExpr.1 hf).2.imp (fun _ h => h) fun _ h => h.without vs
    rw [Expr.value_substitute_indexExpr, eval, eval, Expr.reductionVars_substitute hb hfb]
    apply Value.box_congr
    intro is hbox
    have hlen : is.length = vs.length := by simpa using length_of_inBox hbox
    refine sumOver_congr_map (L := b.loose) (m := (ν.without vs).apply)
      (fun ρ ρ' h => congrArg (·.comp []) (ih hb hfb h)) (fun v hv r hr => ?_) fun v hv hred => ?_
    · -- only free variables have new names, and these are free as well
      obtain ⟨_, hr⟩ := Expr.mem_reductionVars.1 hr
      cases hw : ν.without vs v with
      | none => rw [Renaming.apply_of_none hw]
      | some w =>
        obtain ⟨hfree, hfree'⟩ := Expr.Over.of_mem_loose hfb hv w hw
        rw [Renaming.apply_of_some hw]
        constructor
        · rintro rfl
          rw [hr] at hfree'
          cases hfree'
        · rintro rfl
          rw [hr] at hfree
          cases hfree
    · -- what is not summed over is free, so what is not bound either is loose outside
      refine bind_renamed hlen (hcap v hv) fun hvs =>
        hρ v (Expr.mem_loose_indexExpr.2 ⟨hv, ?_, hvs⟩)
      by_contra hnot
      exact hred (Expr.mem_reductionVars.2 ⟨hv, by simpa using hnot⟩)
  | neg ty a ih =>
    rw [Expr.value_substitute_neg, eval, eval, ih hc (Expr.over_neg.1 hf) hρ]
  | binary ty op a b iha ihb =>
    obtain ⟨hfa, hfb⟩ := Expr.over_binary.1 hf
    simp only [Expr.loose, List.mem_append] at hρ
    rw [Expr.value_substitute_binary, eval, eval, Expr.ty_substitute, Expr.ty_substitute,
      iha hc.1 hfa fun v hv => hρ v (.inl hv), ihb hc.2 hfb fun v hv => hρ v (.inr hv)]

/-- The value of an expression after renaming is its value with every renamed variable at the place
of its new name, all at once: for any renaming of free index variables to free ones that are no
result variables within the expression, and whatever the operations mean. -/
theorem substitution_lemma {ν : Renaming} {e : Expr} (hfree : ∀ v, ν.RenamesFree v)
    (havoids : ν.Avoids e.resultVars) (ρ : IndexEnv) :
    M.eval (e.substitute ν).value ρ = M.eval e fun v => ρ (ν.apply v) :=
  M.eval_renamed (Expr.captureFree_of_avoids havoids) (Expr.over_renamesFree hfree e)
    fun _ _ => rfl

/-- Arithmetic on tensors whose components are told from their places. -/
def digits : Operations Unit where
  size
    | .range n => n
    | _ => 0
  var _ v := .tensor fun is => is.foldl (fun n i => 10 * n + i) v.id
  prim _ _ _ := .other ()
  neg _ a := .tensor fun is => -a.comp is
  binary _ op a b := .tensor fun is => op.apply (a.2.compAt a.1 is) (b.2.compAt b.1 is)

/-- With `i` at 0, `j` at 1 and `k` anywhere, `(k: A{j,k} * A{s,k}){i} + b{i}` is
`A{1,0} * (A{0,0} + A{1,0}) + b{0}`, and so is `(k: A{i,k} * A{s,k}){j} + b{k}` with `i` at 1 and
`j` and `k` at 0. -/
theorem substitution_lemma_shadowed :
    digits.eval (Expr.shadowed.substitute (.ofPairs Renaming.mixing)).value IndexVar.id =
        digits.eval Expr.shadowed (fun v => ((Renaming.ofPairs Renaming.mixing).apply v).id) ∧
      (digits.eval Expr.shadowed fun v => ((Renaming.ofPairs Renaming.mixing).apply v).id).comp [] =
        410 * (400 + 410) + 50 := by
  have hpairs : ∀ p ∈ Renaming.mixing,
      (p.1.isFree = true ∧ p.2.isFree = true) ∧ p.2 ∉ Expr.shadowed.resultVars := by decide
  refine ⟨digits.substitution_lemma (fun v w hw => (hpairs _ (Renaming.mem_of_ofPairs hw)).1)
    (fun v w hw => (hpairs _ (Renaming.mem_of_ofPairs hw)).2) _, ?_⟩
  decide +kernel

end Operations

/-! ### The semantics of programs -/

namespace Interp

variable {β : Type} (I : Interp β)

/-- What the operations mean in a store. -/
def operations (σ : Store β) : Operations β where
  size := I.size
  var ty v := (σ v).fit I.size ty
  prim ty op vs := (I.prim ty op vs).fit I.size ty
  neg ty a := .box I.size ty.dims fun is => -a.comp is
  binary ty op a b := .box I.size ty.dims fun is =>
    op.apply (a.2.compAt a.1 is) (b.2.compAt b.1 is)

theorem eval_operations (σ : Store β) (e : Expr) (ρ : IndexEnv) :
    (I.operations σ).eval e ρ = I.eval σ e ρ := by
  induction e generalizing ρ with
  | var ty v => rfl
  | prim ty op es ih =>
    rw [Operations.eval, eval, Operations.evalAll_eq, evalAll_eq,
      List.map_congr_left fun e he => ih e he ρ]
    rfl
  | indexed ty t vs ih => rw [Operations.eval, eval, ih]
  | indexExpr ty vs b ih =>
    rw [Operations.eval, eval]
    simp only [ih]
    rfl
  | neg ty a ih =>
    rw [Operations.eval, eval, ih]
    rfl
  | binary ty op a b iha ihb =>
    rw [Operations.eval, eval, iha, ihb]
    rfl

/-- Renaming index variables amounts to looking them up where the new names stand. Nothing may be
captured, and no index expression within may sum over anything, before or after. -/
theorem eval_substitute {σ : Store β} {e : Expr} {ν : Renaming} {ρ ρ' : IndexEnv}
    (he : e.CaptureFree ν) (hu : e.Unreduced) (hν : ∀ v w, ν v = some w → w.isFree = true)
    (hρ : ∀ v ∈ e.loose, ρ' v = ρ (ν.apply v)) :
    I.eval σ (e.substitute ν).value ρ = I.eval σ e ρ' := by
  rw [← eval_operations, ← eval_operations]
  exact Operations.eval_renamed _ he (hu.imp (fun _ h => h) fun v hv w hw => ⟨hv, hν v w hw⟩) hρ

end Interp

end TensorIR
