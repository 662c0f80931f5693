import TensorIR.Proofs.Contents
import TensorIR.Proofs.IntrinsicCalls
import TensorIR.Proofs.Progress
import TensorIR.Proofs.Sums

/-! # What norms and dot products compute

A lowered call of `dot` sets its result to the sum of the products of the components of its
actuals, and a lowered call of `norm` to the root of the sum of squares; nothing else changes but
the temporary that `norm` needs (`Interp.execBy_plain_lower_call`).

**Key idea**: the sum over reduction variables, one for each dimension, is the sum over the index
tuples within the dimensions, as long as the summand depends on nothing but where these variables
stand (`sumOver_eq_sum_indexTuples`). The actuals are without loose index variables, so neither sees
the variables that it is read through.
-/

namespace TensorIR

/-! ### Index tuples -/

/-- The index tuples within the given dimensions, in order. -/
def tuples (size : Dim → Nat) : List Dim → List (List Nat)
  | [] => [[]]
  | d :: ds => (List.range (size d)).flatMap fun i => (tuples size ds).map (i :: ·)

section

variable {size : Dim → Nat}

/-- No index tuple is listed twice. -/
theorem nodup_tuples (ds : List Dim) : (tuples size ds).Nodup := by
  induction ds with
  | nil => simp [tuples]
  | cons d ds ih =>
    rw [tuples, List.nodup_flatMap]
    refine ⟨fun i _ => ih.map List.cons_injective, ?_⟩
    refine List.nodup_range.imp fun {i j} hij => ?_
    rw [Function.onFun, List.disjoint_left]
    intro is hi hj
    obtain ⟨_, _, rfl⟩ := List.mem_map.1 hi
    obtain ⟨_, _, heq⟩ := List.mem_map.1 hj
    exact hij (List.cons.inj heq).1.symm

/-- The index tuples within the given dimensions. -/
def indexTuples (size : Dim → Nat) (ds : List Dim) : Finset (List Nat) :=
  ⟨tuples size ds, nodup_tuples ds⟩

theorem mem_indexTuples {ds : List Dim} {is : List Nat} :
    is ∈ indexTuples size ds ↔ inBox size ds is = true := by
  show is ∈ tuples size ds ↔ _
  induction ds generalizing is with
  | nil => cases is <;> simp [tuples, inBox]
  | cons d ds ih =>
    cases is with
    | nil => simp [tuples, inBox]
    | cons i is => simp [tuples, inBox, ih]

theorem sum_indexTuples (ds : List Dim) (f : List Nat → Rat) :
    ∑ is ∈ indexTuples size ds, f is = ((tuples size ds).map f).sum :=
  Multiset.sum_coe _

/-- Along one more dimension, the tuples are put behind each of its indices. -/
theorem sum_indexTuples_cons (d : Dim) (ds : List Dim) (f : List Nat → Rat) :
    ∑ is ∈ indexTuples size (d :: ds), f is =
      ∑ i ∈ Finset.range (size d), ∑ is ∈ indexTuples size ds, f (i :: is) := by
  rw [sum_indexTuples, tuples, List.map_flatMap, List.flatMap_def, List.sum_flatten, List.map_map]
  refine Eq.trans (congrArg List.sum (List.map_congr_left fun i _ => ?_)) (Multiset.sum_coe _).symm
  rw [sum_indexTuples, Function.comp_apply, List.map_map]
  rfl

/-- Summing over distinct variables is summing over the index tuples within their dimensions. -/
theorem sumOver_eq_sum_indexTuples {vs : List IndexVar} (hvs : vs.Nodup) (f : List Nat → Rat)
    (ρ : IndexEnv) : sumOver size vs (fun ρ => f (vs.map ρ)) ρ =
      ∑ is ∈ indexTuples size (vs.map IndexVar.domain), f is := by
  induction vs generalizing f ρ with
  | nil => simp [sumOver, sum_indexTuples, tuples]
  | cons v vs ih =>
    obtain ⟨hv, hvs⟩ := List.nodup_cons.1 hvs
    rw [sumOver_cons, List.map_cons, sum_indexTuples_cons]
    refine Finset.sum_congr rfl fun i _ => ?_
    rw [← ih hvs fun is => f (i :: is)]
    refine sumOver_congr_range fun ρ' hout _ => ?_
    -- the sum over the other variables leaves the first one where it stands
    have hfirst : ρ' v = i := (hout v hv).trans (if_pos rfl)
    rw [List.map_cons, hfirst]

end

/-! ### New reduction variables -/

namespace Builder

variable {red : Option Reduction} {ds : List Dim} {b : Builder}

/-- The variables have different identities. -/
theorem nodup_nextVars : (b.nextVars red ds).Nodup := by
  refine List.pairwise_iff_getElem.2 fun i j hi hj hij heq => ?_
  have hid := congrArg IndexVar.id heq
  simp only [nextVars, List.getElem_mapIdx] at hid
  omega

theorem map_domain_nextVars : (b.nextVars red ds).map IndexVar.domain = ds := by
  have hdomain := Flattening.domain_indexVars red ds b
  rwa [run_indexVars] at hdomain

theorem isFree_of_mem_nextVars {v : IndexVar} (h : v ∈ b.nextVars (some .sum) ds) :
    v.isFree = false := by
  obtain ⟨i, hi, rfl⟩ := List.mem_mapIdx.1 h
  rfl

end Builder

/-! ### Inner products -/

namespace Interp

variable {β : Type} (I : Interp β) (read : Reading β)

/-- The sum of the products of the components of `x` and `y`. -/
def inner (σ : Store β) (x y : Expr) : Rat :=
  ∑ is ∈ indexTuples I.size x.ty.dims, (I.valueBy read σ x).comp is * (I.valueBy read σ y).comp is

variable {I read} {x y : Expr}

/-- An expression without loose index variables has one value. -/
theorem evalBy_of_loose_eq_nil {e : Expr} (h : e.loose = []) (σ : Store β) (ρ : IndexEnv) :
    I.evalBy read σ e ρ = I.valueBy read σ e :=
  evalBy_congr (by simp [h])

/-- The product of two tensors through distinct reduction variables, one for each dimension. -/
theorem valueBy_product (hty : x.ty.isTensor = true) (hx : x.loose = []) (hy : y.loose = [])
    {vs : List IndexVar} (hvs : vs.Nodup) (hdom : vs.map IndexVar.domain = x.ty.dims)
    (hred : ∀ v ∈ vs, v.isFree = false) (σ : Store β) :
    I.valueBy read σ (Lowering.product vs x y) = .scalar (I.inner read σ x y) := by
  -- both tensors are read through the same variables, each of which is summed over once
  have hvars : (Expr.binaryOf .mul (x.index vs) (y.index vs)).reductionVars = vs := by
    have hloose : (Expr.binaryOf .mul (x.index vs) (y.index vs)).loose = vs ++ vs := by
      simp [Expr.binaryOf, Expr.index, Expr.loose, hx, hy]
    have hfilter : (vs ++ vs).filter (fun v => !v.isFree) = vs ++ vs :=
      List.filter_eq_self.2 fun v hv => by simp [hred v (by simpa using hv)]
    rw [Expr.reductionVars, hloose, hfilter,
      List.Subset.dedup_append_right (List.Subset.refl vs), hvs.dedup]
  have hdims : (x.index vs).ty.dims = [] :=
    Ty.dims_of_isScalar (Ty.isScalar_componentTy_of_isTensor hty)
  -- neither tensor depends on where these variables stand
  have hbody : ∀ ρ, (I.evalBy read σ (.binaryOf .mul (x.index vs) (y.index vs)) ρ).comp [] =
      (I.valueBy read σ x).comp (vs.map ρ) * (I.valueBy read σ y).comp (vs.map ρ) := by
    intro ρ
    rw [Expr.binaryOf, evalBy, hdims, Value.box_nil, Value.comp_scalar]
    unfold Value.compAt
    rw [ite_self, ite_self]
    unfold Expr.index
    rw [evalBy, evalBy, evalBy_of_loose_eq_nil hx, evalBy_of_loose_eq_nil hy]
    rfl
  unfold valueBy Lowering.product Expr.build
  rw [evalBy, List.map_nil, Value.box_nil, hvars]
  simp only [hbody]
  rw [sumOver_eq_sum_indexTuples hvs fun is =>
    (I.valueBy read σ x).comp is * (I.valueBy read σ y).comp is, hdom]
  rfl

theorem valueBy_product_nextVars (hty : x.ty.isTensor = true) (hx : x.loose = [])
    (hy : y.loose = []) (b : Builder) (σ : Store β) :
    I.valueBy read σ (Lowering.product (b.nextVars (some .sum) x.ty.dims) x y) =
      .scalar (I.inner read σ x y) :=
  valueBy_product hty hx hy Builder.nodup_nextVars Builder.map_domain_nextVars
    (fun _ => Builder.isFree_of_mem_nextVars) σ

/-! ### Lowered calls -/

variable {rs : List Var} {f : Func} {as : List Expr} {b b' : Builder} {out : Transformed Stmt}

variable (I read) in
/-- A lowered call of `dot` assigns the inner product. -/
theorem execBy_lower_dot (hf : f.name = "dot") (hclosed : ∀ a ∈ as, a.loose = [])
    (hrun : (Stmt.call rs f as).lower.run.run b = (.ok out, b')) (σ : Store β) :
    ∃ r x y, rs = [r] ∧ as = [x, y] ∧ x.ty = y.ty ∧
      I.execBy read out.value σ = σ.set r (.scalar (I.inner read σ x y)) := by
  rw [Stmt.lower_call_dot hf] at hrun
  obtain ⟨s, _, hs, hrun⟩ := Action.run_bind_ok.1 hrun
  obtain ⟨rfl, rfl⟩ := Action.run_pure_ok.1 hrun
  obtain ⟨r, x, y, -, rfl, rfl, hx, hxy, -⟩ := Lowering.run_dot_ok hs
  cases (Lowering.run_dot (r := r) hx hxy b).symm.trans hs
  refine ⟨r, x, y, rfl, rfl, hxy, ?_⟩
  show σ.set r (I.valueBy read σ _) = _
  rw [valueBy_product_nextVars hx (hclosed x (by simp)) (hclosed y (by simp))]

variable (I read) in
/-- A lowered call of `norm` assigns the inner product to a new temporary, and calls `sqrt` of what
is read from there. -/
theorem execBy_lower_norm (hf : f.name = "norm") (hclosed : ∀ a ∈ as, a.loose = [])
    (hrun : (Stmt.call rs f as).lower.run.run b = (.ok out, b')) (σ : Store β) :
    ∃ r x tmp, rs = [r] ∧ as = [x] ∧ tmp.ty = r.ty ∧ b.nextId ≤ tmp.id ∧ tmp.id < b'.nextId ∧
      I.execBy read out.value σ = (σ.set tmp (.scalar (I.inner read σ x x))).setAll
        ([r].zip (I.call .sqrt [read r.ty (.scalar (I.inner read σ x x))])) := by
  rw [Stmt.lower_call_norm hf] at hrun
  obtain ⟨s, _, hs, hrun⟩ := Action.run_bind_ok.1 hrun
  obtain ⟨rfl, rfl⟩ := Action.run_pure_ok.1 hrun
  obtain ⟨r, x, -, -, rfl, rfl, hx, -⟩ := Lowering.run_norm_ok hs
  cases (Lowering.run_norm (r := r) hx b).symm.trans hs
  refine ⟨r, x, Lowering.normTemporary r x b, rfl, rfl, rfl, Nat.le_add_right _ _,
    Nat.lt_succ_self _, ?_⟩
  show (σ.set _ (I.valueBy read σ _)).setAll ([r].zip (I.call .sqrt
    [read r.ty (σ.set _ (I.valueBy read σ _) _)])) = _
  rw [valueBy_product_nextVars hx (hclosed x (by simp)) (hclosed x (by simp)), Store.set_self]

/-- The same with variables read as values of their types. -/
theorem exec_lower_dot (hf : f.name = "dot") (hclosed : ∀ a ∈ as, a.loose = [])
    (hrun : (Stmt.call rs f as).lower.run.run b = (.ok out, b')) (σ : Store β) :
    ∃ r x y, rs = [r] ∧ as = [x, y] ∧ x.ty = y.ty ∧
      I.exec out.value σ = σ.set r (.scalar (∑ is ∈ indexTuples I.size x.ty.dims,
        (I.value σ x).comp is * (I.value σ y).comp is)) := by
  have hexec := execBy_lower_dot I (fun ty v => v.fit I.size ty) hf hclosed hrun σ
  unfold inner at hexec
  rwa [execBy_fit, valueBy_fit] at hexec

/-- If the result is a number, what is read from the temporary is the inner product. -/
theorem exec_lower_norm (hf : f.name = "norm") (hclosed : ∀ a ∈ as, a.loose = [])
    (hresult : ∀ r ∈ rs, r.ty.isScalar = true)
    (hrun : (Stmt.call rs f as).lower.run.run b = (.ok out, b')) (σ : Store β) :
    ∃ r x tmp, rs = [r] ∧ as = [x] ∧ b.nextId ≤ tmp.id ∧ tmp.id < b'.nextId ∧
      ∃ q, q = ∑ is ∈ indexTuples I.size x.ty.dims, (I.value σ x).comp is * (I.value σ x).comp is ∧
        I.exec out.value σ =
          (σ.set tmp (.scalar q)).setAll ([r].zip (I.call .sqrt [.scalar q])) := by
  obtain ⟨r, x, tmp, rfl, hx, -, hlow, hhigh, hexec⟩ :=
    execBy_lower_norm I (fun ty v => v.fit I.size ty) hf hclosed hrun σ
  unfold inner at hexec
  rw [execBy_fit, valueBy_fit, Value.fit_scalar (hresult r (by simp)), Value.comp_scalar] at hexec
  exact ⟨r, x, tmp, rfl, hx, hlow, hhigh, _, rfl, hexec⟩

/-- Whatever the variables hold, a lowered call of `dot` sets its result to the sum over all index
tuples of the products of the components of its actuals, and one of `norm` sets it to the root of
the sum of the squares. The actuals are those before the statement; besides the result only the
temporary changes that `norm` has drawn. -/
theorem execBy_plain_lower_call {root : Rat → Rat}
    (hroot : ∀ q, I.call .sqrt [.scalar q] = [.scalar (root q)])
    (hclosed : ∀ a ∈ as, a.loose = [])
    (hrun : (Stmt.call rs f as).lower.run.run b = (.ok out, b')) (σ : Store β) :
    (f.name = "dot" → ∃ r x y, rs = [r] ∧ as = [x, y] ∧ x.ty = y.ty ∧
      I.execBy .plain out.value σ = σ.set r (.scalar (I.inner .plain σ x y))) ∧
    (f.name = "norm" → ∃ r x tmp, rs = [r] ∧ as = [x] ∧ b.nextId ≤ tmp.id ∧ tmp.id < b'.nextId ∧
      I.execBy .plain out.value σ = (σ.set tmp (.scalar (I.inner .plain σ x x))).set r
        (.scalar (root (I.inner .plain σ x x)))) := by
  refine ⟨fun hf => execBy_lower_dot I .plain hf hclosed hrun σ, fun hf => ?_⟩
  obtain ⟨r, x, tmp, hrs, has, -, hlow, hhigh, hexec⟩ :=
    execBy_lower_norm I .plain hf hclosed hrun σ
  refine ⟨r, x, tmp, hrs, has, hlow, hhigh, ?_⟩
  rw [hexec]
  unfold Reading.plain
  rw [hroot]
  rfl

/-- Functions return their actuals, and nothing else is of interest. -/
def echo : Interp Unit where
  setSize _ := 0
  dynamicSize := 0
  prim _ _ _ := .scalar 0
  call _ vs := vs
  truth _ := false
  effect _ _ σ := σ

end Interp

/-- The variable `y` of the statement below. -/
def Var.total : Var := ⟨3, "y", .float⟩

/-- `y = norm((i: A{i,q} * y))`, where `q` is summed over: the norm of the sums of the rows of a
matrix, each scaled by what `y` held before. -/
def Stmt.rowNorm : Stmt :=
  let i : IndexVar := ⟨0, "i", .range 2, none⟩
  let q : IndexVar := ⟨1, "q", .range 3, some .sum⟩
  let A : Expr := .ofVar ⟨2, "A", .matrix 2 3⟩
  let norm : Func := ⟨6, "norm", .external, [⟨4, "v", .vector 2⟩], [⟨5, "n", .float⟩], none⟩
  .call [.total] norm [.build [i] (.binaryOf .mul (A.index [i, q]) (.ofVar .total))]

/-- If everything is one, two rows have the sum three each. -/
theorem Interp.execBy_plain_lower_rowNorm : ∃ out b',
    Stmt.rowNorm.lower.run.run (.ofFresh ⟨7, {}⟩) = (.ok out, b') ∧
      (echo.execBy .plain out.value (fun _ => .tensor fun _ => 1) .total).comp [] = 18 := by
  obtain ⟨out, b', hrun⟩ :
      ∃ out b', Stmt.rowNorm.lower.run.run (.ofFresh ⟨7, {}⟩) = (.ok out, b') := ⟨_, _, rfl⟩
  have hclosed : ∀ a ∈ Stmt.rowNorm.exprs, a.loose = [] := by decide
  have hroot : ∀ q, echo.call .sqrt [.scalar q] = [.scalar (id q)] := fun _ => rfl
  obtain ⟨r, x, tmp, hr, hx, -, -, hexec⟩ :=
    (execBy_plain_lower_call hroot hclosed hrun fun _ => .tensor fun _ => 1).2 rfl
  cases hr
  cases hx
  refine ⟨out, b', hrun, ?_⟩
  rw [hexec, Store.set_self]
  decide +kernel

end TensorIR
