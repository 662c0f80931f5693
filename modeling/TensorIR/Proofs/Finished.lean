import TensorIR.Proofs.NormalForm

/-! # Finished programs

Flattening a flattened program again does nothing: it succeeds, keeps the program as it is, and
draws no temporaries. This holds as long as index expressions have scalar bodies.

**Key idea**: an expression is *finished* if it is settled, and scalar wherever flattening insists
on it. Flattening leaves only finished expressions (`Flattens.finished`), also in what it binds to
temporaries, and does nothing to finished ones (`Expr.Finished.flatten_eq`). For both it takes
scalar bodies: they make an inlined read scalar again, so the operands of sums stay so.
-/

namespace TensorIR

/-! ### Scalar parts -/

namespace Expr

/-- The body of an index expression is scalar. -/
def ScalarBody : Expr → Prop
  | .indexExpr _ _ b => b.ty.isScalar = true
  | _ => True

instance : DecidablePred ScalarBody
  | .indexExpr _ _ b => inferInstanceAs (Decidable (b.ty.isScalar = true))
  | .var _ _ | .prim _ _ _ | .indexed _ _ _ | .neg _ _ | .binary _ _ _ _ =>
    inferInstanceAs (Decidable True)

/-- All index expressions have scalar bodies. -/
def ScalarBodies (e : Expr) : Prop := e.Everywhere ScalarBody

instance (e : Expr) : Decidable e.ScalarBodies := inferInstanceAs (Decidable (e.Everywhere _))

/-- The body of an index expression is scalar, and so are the operands of a sum. -/
def ScalarNode : Expr → Prop
  | .indexExpr _ _ b => b.ty.isScalar = true
  | .binary _ op a b => op.isSum = true → a.ty.isScalar = true ∧ b.ty.isScalar = true
  | _ => True

/-- Every node has scalar parts where it has to. -/
def ScalarParts (e : Expr) : Prop := e.Everywhere ScalarNode

theorem ScalarParts.scalarBodies {e : Expr} (h : e.ScalarParts) : e.ScalarBodies := by
  refine Everywhere.imp h fun n hn => ?_
  cases n with
  | indexExpr ty vs b => exact hn
  | _ => trivial

/-- There is nothing left to do, and nothing to complain about. -/
structure Finished (e : Expr) : Prop where
  settled : e.Settled
  scalarParts : e.ScalarParts

section

variable {ty : Ty} {vs : List IndexVar} {v : Var} {a b : Expr}

theorem Finished.child {e c : Expr} (h : e.Finished) (hc : c ∈ e.children) : c.Finished :=
  ⟨h.settled.child hc, Everywhere.child h.scalarParts hc⟩

theorem finished_ofVar (v : Var) : (Expr.ofVar v).Finished :=
  ⟨Flattening.settled_ofVar v, everywhere_var.2 trivial⟩

theorem scalarParts_index_ofVar (v : Var) (vs : List IndexVar) :
    ((Expr.ofVar v).index vs).ScalarParts :=
  everywhere_indexed.2 ⟨trivial, everywhere_var.2 trivial⟩

/-- A scalar is wrapped in an index expression. -/
theorem Finished.build (h : a.Finished) (hs : a.ty.isScalar = true) (vs : List IndexVar) :
    (Expr.build vs a).Finished :=
  ⟨everywhere_indexExpr.2 ⟨trivial, h.settled⟩, everywhere_indexExpr.2 ⟨hs, h.scalarParts⟩⟩

/-- Renaming index variables changes no types. -/
theorem ScalarParts.substitute {e : Expr} (h : e.ScalarParts) (ρ : Renaming) :
    (e.substitute ρ).value.ScalarParts := by
  refine Everywhere.substitute (R := fun _ _ => True) h (fun _ _ _ => trivial) fun n ρ _ hn => ?_
  cases n with
  | var ty v => exact hn
  | prim ty op es => rw [value_substitute_prim]; trivial
  | indexed ty t vs => rw [value_substitute_indexed]; trivial
  | indexExpr ty vs b =>
    rw [value_substitute_indexExpr]
    exact (congrArg Ty.isScalar (ty_substitute _ b)).trans hn
  | neg ty a => rw [value_substitute_neg]; trivial
  | binary ty op a b =>
    rw [value_substitute_binary]
    intro hop
    rw [ty_substitute, ty_substitute]
    exact hn hop

/-- A node has scalar parts if they fit where scalar ones stood. -/
theorem scalarNode_withChildren {e : Expr} {es : List Expr} (h : e.ScalarNode)
    (hes : List.Forall₂ (fun a b => a.ty.isScalar = true → b.ty.isScalar = true) e.children es) :
    (e.withChildren es).ScalarNode := by
  cases e with
  | var ty v => cases hes; trivial
  | prim ty op as => trivial
  | indexed ty t vs =>
    obtain ⟨t', _, _, hnil, rfl⟩ := List.forall₂_cons_left_iff.1 hes
    cases hnil
    trivial
  | indexExpr ty vs b =>
    obtain ⟨b', _, hb, hnil, rfl⟩ := List.forall₂_cons_left_iff.1 hes
    cases hnil
    exact hb h
  | neg ty a =>
    obtain ⟨a', _, _, hnil, rfl⟩ := List.forall₂_cons_left_iff.1 hes
    cases hnil
    trivial
  | binary ty op a b =>
    obtain ⟨a', _, ha, hes', rfl⟩ := List.forall₂_cons_left_iff.1 hes
    obtain ⟨b', _, hb, hnil, rfl⟩ := List.forall₂_cons_left_iff.1 hes'
    cases hnil
    exact fun hop => ⟨ha (h hop).1, hb (h hop).2⟩

/-- Apart from a sum, a node with a scalar body has scalar parts. -/
theorem scalarNode_of_scalarBody {e : Expr} (h : e.ScalarBody) (hs : e.isSum = false) :
    e.ScalarNode := by
  cases e with
  | indexExpr ty vs b => exact h
  | binary ty op a b => exact fun hop => absurd hop (by simpa [isSum] using hs)
  | _ => trivial

/-- What an operand contributes to a distributed read, before it is flattened. -/
theorem scalarBodies_operandRead (h : a.ScalarBodies) : (a.operandRead vs).ScalarBodies := by
  unfold operandRead
  split
  · exact h
  · exact everywhere_indexed.2 ⟨trivial, h⟩

/-- A distributed read is scalar. -/
theorem scalarBodies_distributeIndex? {t d : Expr} (h : t.ScalarBodies)
    (hd : t.distributeIndex? vs = some d) : d.ScalarBodies ∧ d.ty.isScalar = true := by
  cases t with
  | neg nty a =>
    rw [distributeIndex?_neg] at hd
    split at hd
    · next hr =>
      cases hd
      refine ⟨everywhere_neg.2 ⟨trivial, ?_⟩, ?_⟩
      · exact scalarBodies_operandRead (everywhere_neg.1 h).2
      · rw [ty_negOf, ty_operandRead]
        exact isScalar_readTy hr
    · cases hd
  | binary bty op a b =>
    rw [distributeIndex?_binary] at hd
    split at hd
    · next hr =>
      cases hd
      obtain ⟨_, ha, hb⟩ := everywhere_binary.1 h
      refine ⟨everywhere_binary.2 ⟨trivial, scalarBodies_operandRead ha,
        scalarBodies_operandRead hb⟩, ?_⟩
      rw [ty_binaryOf, ty_operandRead]
      exact isScalar_readTy (Bool.and_eq_true_iff.1 hr).1
    · cases hd
  | _ => cases hd

end

end Expr

/-! ### Flattening finishes expressions -/

namespace Flattening

/-- What flattening does to an expression with scalar bodies: its outcome has scalar parts and is
scalar if the expression was, and what it binds to temporaries is finished. -/
def KeepsScalars (e : Expr) (st : Flattener) (out : Transformed Expr) (st' : Flattener) : Prop :=
  e.ScalarBodies →
    (out.value.ScalarParts ∧ (e.ty.isScalar = true → out.value.ty.isScalar = true)) ∧
      (st.Pends Expr.Finished → st'.Pends Expr.Finished)

/-- A finished scalar is hoisted, and a scalar is left behind. -/
theorem scalarParts_hoist {a : Expr} (ha : a.Finished) (hs : a.ty.isScalar = true)
    (st : Flattener) :
    ((st.hoist a).1.value.ScalarParts ∧ (st.hoist a).1.value.ty.isScalar = true) ∧
      (st.Pends Expr.Finished → (st.hoist a).2.Pends Expr.Finished) := by
  cases a using Flattener.hoist_cases st with
  | built ty rs b h =>
    rw [h]
    exact ⟨⟨Expr.scalarParts_index_ofVar _ _, Ty.isScalar_componentTy hs⟩,
      fun hst => hst.bindTemporary ha⟩
  | wrapped a _ _ h =>
    rw [h]
    exact ⟨⟨Expr.scalarParts_index_ofVar _ _, rfl⟩, fun hst => hst.bindTemporary (ha.build hs _)⟩
  | named a _ hs' _ =>
    rw [hs] at hs'
    cases hs'
  | kept a _ _ h =>
    rw [h]
    exact ⟨⟨ha.scalarParts, hs⟩, fun hst => hst⟩

/-- The runs that a step calls for, with what they do to scalars. -/
abbrev ScalarRun (e : Expr) (st : Flattener) (out : Transformed Expr) (st' : Flattener) : Prop :=
  Flattens e st out st' ∧ KeepsScalars e st out st'

theorem keepsScalars_operand {a : Expr} {st st' : Flattener} {out : Transformed Expr}
    (h : Operand ScalarRun a st out st') (ha : a.ScalarBodies) (hs : a.ty.isScalar = true) :
    (out.value.ScalarParts ∧ out.value.ty.isScalar = true) ∧
      (st.Pends Expr.Finished → st'.Pends Expr.Finished) := by
  cases h with
  | read hr hi =>
    obtain ⟨⟨hparts, hscalar⟩, hpends⟩ := hr.2 ha
    exact ⟨⟨hparts, hscalar hs⟩, hpends⟩
  | @spilled mid st₁ back _ hr hi hspill =>
    obtain ⟨⟨hparts, hscalar⟩, hpends⟩ := hr.2 ha
    have hmid : mid.value.Finished := ⟨hr.1.settled, hparts⟩
    cases hspill with
    | lifted hw => exact absurd hw (by simp [Ty.isWhole, hscalar hs])
    | hoisted _ =>
      obtain ⟨hback, hpends'⟩ := scalarParts_hoist hmid (hscalar hs) st₁
      exact ⟨hback, fun hst => hpends' (hpends hst)⟩

theorem keepsScalars_step {e : Expr} {st st' : Flattener} {out : Transformed Expr}
    (h : Step ScalarRun e st out st') : KeepsScalars e st out st' := by
  intro he
  cases h with
  | @sum ty op a b st x st₁ y st₂ hop hsa hsb hx hy =>
    obtain ⟨_, ha, hb⟩ := Expr.everywhere_binary.1 he
    obtain ⟨⟨hxp, hxs⟩, hpx⟩ := keepsScalars_operand hx ha hsa
    obtain ⟨⟨hyp, hys⟩, hpy⟩ := keepsScalars_operand hy hb hsb
    have hx' := (hx.imp fun e st out st' h => h.1).faithful
    have hy' := (hy.imp fun e st out st' h => h.1).faithful
    rw [Expr.value_rebuild (e := .binary ty op a b) (.cons hx' (.cons hy' .nil))]
    exact ⟨⟨Expr.everywhere_binary.2 ⟨fun _ => ⟨hxs, hys⟩, hxp, hyp⟩, fun hs => hs⟩,
      fun hst => hpy (hpx hst)⟩
  | @inlined ty t vs st out st' rty rs body hr hv hl =>
    -- the body is scalar, whatever the type of the read is
    obtain ⟨⟨hparts, _⟩, hpends⟩ := hr.2 (Expr.everywhere_indexed.1 he).2
    rw [hv] at hparts
    obtain ⟨hs, hbody⟩ := Expr.everywhere_indexExpr.1 hparts
    refine ⟨⟨Expr.ScalarParts.substitute hbody _, fun _ => ?_⟩, hpends⟩
    exact (congrArg Ty.isScalar (Expr.ty_substitute _ body)).trans hs
  | distributed hr hi hd hr' =>
    obtain ⟨⟨hparts, _⟩, hpends⟩ := hr.2 (Expr.everywhere_indexed.1 he).2
    obtain ⟨hbodies, hs⟩ := Expr.scalarBodies_distributeIndex? hparts.scalarBodies hd
    obtain ⟨⟨hparts', hscalar⟩, hpends'⟩ := hr'.2 hbodies
    exact ⟨⟨hparts', fun _ => hscalar hs⟩, fun hst => hpends' (hpends hst)⟩
  | @kept ty t vs st out st' hr hi hd =>
    obtain ⟨⟨hparts, _⟩, hpends⟩ := hr.2 (Expr.everywhere_indexed.1 he).2
    rw [Expr.value_rebuild (e := .indexed ty t vs) (.cons hr.1.faithful .nil)]
    exact ⟨⟨Expr.everywhere_indexed.2 ⟨trivial, hparts⟩, fun hs => hs⟩, hpends⟩
  | @parts e st outs st' hs hi hthreads =>
    have hbodies : ∀ c ∈ e.children, c.ScalarBodies := fun c hc => Expr.Everywhere.child he hc
    have houts := hthreads.forall₂ (P := fun c out => Transformed.Faithful c out ∧
        out.value.ScalarParts ∧ (c.ty.isScalar = true → out.value.ty.isScalar = true))
      fun c hc _ _ _ h => ⟨h.1.faithful, (h.2 (hbodies c hc)).1⟩
    rw [Expr.value_rebuild (houts.imp fun _ _ h => h.1), Expr.ty_withChildren]
    refine ⟨⟨Expr.everywhere_iff.2 ⟨?_, ?_⟩, fun hs => hs⟩,
      hthreads.preserves fun c hc _ _ _ h => (h.2 (hbodies c hc)).2⟩
    · refine Expr.scalarNode_withChildren (Expr.scalarNode_of_scalarBody he.root hs) ?_
      rw [Transformed.values, List.forall₂_map_right_iff]
      exact houts.imp fun _ _ h => h.2.2
    · rw [Expr.children_withChildren (by simpa [Transformed.values] using houts.length_eq.symm)]
      intro c hc
      obtain ⟨out, hout, rfl⟩ := List.mem_map.1 hc
      obtain ⟨_, _, _, hparts, _⟩ := exists_of_mem_right houts hout
      exact hparts

end Flattening

section

variable {e : Expr} {st st' : Flattener} {out : Transformed Expr}

theorem Flattens.keepsScalars (h : Flattens e st out st') :
    Flattening.KeepsScalars e st out st' :=
  Flattening.flattens_induction (fun _ _ _ _ => Flattening.keepsScalars_step) h

/-- Flattening an expression with scalar bodies finishes it. -/
theorem Flattens.finished (h : Flattens e st out st') (he : e.ScalarBodies) :
    out.value.Finished :=
  ⟨h.settled, (h.keepsScalars he).1.1⟩

end

/-! ### Flattening does nothing to finished expressions -/

theorem Expr.ScalarParts.scalarSums {e : Expr} (h : e.ScalarParts) : e.ScalarSums := by
  refine Everywhere.imp h fun n hn => ?_
  cases n with
  | binary ty op a b => exact hn
  | _ => trivial

/-- Flattening a finished expression succeeds, and does nothing. -/
theorem Expr.Finished.flatten_eq {e : Expr} (h : e.Finished) : e.flatten = pure (.keep e) :=
  h.settled.flatten_eq h.scalarParts.scalarSums

/-! ### Statements -/

namespace Flattening

/-- A whole tensor that is passed goes through a temporary that holds something finished. -/
theorem pends_passed {a : Expr} {st st' : Flattener} {back : Transformed Expr}
    (h : Spills Flattens a st back st') (ha : a.Finished) (hwhole : a.ty.isWhole = true)
    (hst : st.Pends Expr.Finished) :
    st'.Pends Expr.Finished ∧ ∃ tmp, wholeTensor back.value = .ofVar tmp := by
  cases h with
  | @lifted vs b mid st₁ _ _ _ hr =>
    have hcopy : (Expr.build vs (a.index vs)).ScalarBodies :=
      Expr.everywhere_indexExpr.2
        ⟨Ty.isScalar_componentTy_of_isTensor (Bool.and_eq_true_iff.1 hwhole).1,
          Expr.everywhere_indexed.2 ⟨trivial, ha.scalarParts.scalarBodies⟩⟩
    exact ((hr.keepsScalars hcopy).2 hst).hoist_indexExpr (hr.isIndexExpr rfl) (hr.finished hcopy)
  | hoisted hi => exact hst.hoist_indexExpr (hi hwhole) ha

end Flattening

namespace Stmt

/-- All expressions are finished, and calls pass tensors as variables. -/
def Finished (s : Stmt) : Prop := s.Everywhere (Consists Expr.Finished)

variable {s : Stmt}

theorem treats_scalarBodies {e : Expr} (he : e.ScalarBodies) :
    Flattening.Treats Expr.Finished (s.treat e) (s.Takes Expr.Finished) := by
  intro st out st' hrun hst
  unfold treat at hrun
  by_cases hcall : s.isCall = true
  · rw [if_pos hcall] at hrun
    obtain ⟨hflat, hvar⟩ | ⟨mid, st₁, back, hflat, hwhole, _, hspill, rfl⟩ :=
      Flattening.actual_cases hrun
    · exact ⟨(hflat.keepsScalars he).2 hst, hflat.finished he, fun _ => hvar⟩
    · obtain ⟨hst', tmp, htmp⟩ := Flattening.pends_passed hspill (hflat.finished he) hwhole
        ((hflat.keepsScalars he).2 hst)
      refine ⟨hst', ?_⟩
      show s.Takes Expr.Finished (Flattening.wholeTensor back.value)
      rw [htmp]
      exact ⟨Expr.finished_ofVar tmp, fun _ _ => rfl⟩
  · rw [if_neg hcall] at hrun
    have hflat : Flattens e st out st' := hrun
    exact ⟨(hflat.keepsScalars he).2 hst, hflat.finished he, fun h => absurd h hcall⟩

/-- Flattening a statement with scalar bodies finishes it. -/
theorem finished_of_flatten (hs : s.ForExprs Expr.ScalarBodies) {st st' : Flattener}
    {out : Transformed Stmt} (h : s.flatten.run.run st = (.ok out, st')) : out.value.Finished :=
  reaches_consists (fun n hn e he => treats_scalarBodies (forExprs_iff_everywhere.1 hs n hn e he))
    st out st' h

/-- Flattening a finished statement succeeds, and does nothing. -/
theorem Finished.flatten_eq (h : s.Finished) : s.flatten = pure (.keep s) :=
  flatten_eq_keep fun n hn => (h n hn).imp fun _ _ he => ⟨he.settled, he.scalarParts.scalarSums⟩

end Stmt

end TensorIR
