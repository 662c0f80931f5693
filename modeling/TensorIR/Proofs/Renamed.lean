import TensorIR.Proofs.Freshness
import TensorIR.Proofs.Occurrences

/-! # What renaming does to index variables

Renaming replaces the loose uses of the renamed variables, wherever they are, and nothing else: if
no new name is captured, the loose variables of the outcome are the loose variables, renamed, in
the same order (`Expr.loose_substitute_eq_map`). An expression is kept as it is exactly if none of
its free index variables has a new name (`Expr.substitute_eq_keep_iff`).

**Key idea**: what can go wrong with renaming is said once, by `Expr.CaptureFree`: no index
expression within may have a result variable that is the new name of something loose in its body.
Below an index expression other pairs are in force, but for what is loose there and not bound they
are the same pairs; so renaming and hiding by the result variables can trade places.
-/

namespace TensorIR

/-! ### Capture -/

namespace Expr

mutual

/-- Renaming captures nothing: no index expression has a result variable that is the new name of
something loose in its body. -/
def CaptureFree : Expr → Renaming → Prop
  | .var _ _, _ => True
  | .prim _ _ es, ρ => CaptureFreeAll es ρ
  | .indexed _ t _, ρ => t.CaptureFree ρ
  | .indexExpr _ vs b, ρ =>
    (∀ v ∈ b.loose, ∀ w ∈ ρ.without vs v, w ∉ vs) ∧ b.CaptureFree (ρ.without vs)
  | .neg _ a, ρ => a.CaptureFree ρ
  | .binary _ _ a b, ρ => a.CaptureFree ρ ∧ b.CaptureFree ρ

/-- The same for several expressions. -/
def CaptureFreeAll : List Expr → Renaming → Prop
  | [], _ => True
  | e :: es, ρ => e.CaptureFree ρ ∧ CaptureFreeAll es ρ

end

mutual

instance CaptureFree.decidable : (e : Expr) → (ρ : Renaming) → Decidable (e.CaptureFree ρ)
  | .var _ _, _ => inferInstanceAs (Decidable True)
  | .prim _ _ es, ρ => CaptureFreeAll.decidable es ρ
  | .indexed _ t _, ρ => CaptureFree.decidable t ρ
  | .indexExpr _ vs b, ρ =>
    have := CaptureFree.decidable b (ρ.without vs)
    inferInstanceAs (Decidable ((∀ v ∈ b.loose, ∀ w ∈ ρ.without vs v, w ∉ vs) ∧ _))
  | .neg _ a, ρ => CaptureFree.decidable a ρ
  | .binary _ _ a b, ρ =>
    have := CaptureFree.decidable a ρ
    have := CaptureFree.decidable b ρ
    inferInstanceAs (Decidable (_ ∧ _))

instance CaptureFreeAll.decidable :
    (es : List Expr) → (ρ : Renaming) → Decidable (CaptureFreeAll es ρ)
  | [], _ => inferInstanceAs (Decidable True)
  | e :: es, ρ =>
    have := CaptureFree.decidable e ρ
    have := CaptureFreeAll.decidable es ρ
    inferInstanceAs (Decidable (_ ∧ _))

end

theorem captureFreeAll_iff {es : List Expr} {ρ : Renaming} :
    CaptureFreeAll es ρ ↔ ∀ e ∈ es, e.CaptureFree ρ := by
  induction es with
  | nil => simp [CaptureFreeAll]
  | cons e es ih => simp [CaptureFreeAll, ih]

/-- The variables that a node binds in its part. -/
def bindsAt : Expr → List IndexVar
  | .indexExpr _ vs _ => vs
  | _ => []

/-- The result variables of the index expressions within an expression. -/
def resultVars (e : Expr) : List IndexVar := e.nodes.flatMap bindsAt

theorem resultVars_eq (e : Expr) : e.resultVars = e.bindsAt ++ e.children.flatMap resultVars := by
  unfold resultVars
  rw [nodes_eq, List.flatMap_cons, List.flatMap_assoc]

theorem Over.of_mem_resultVars {p : Var → Prop} {q : IndexVar → Prop} {e : Expr} (h : e.Over p q)
    {v : IndexVar} (hv : v ∈ e.resultVars) : q v := by
  obtain ⟨n, hn, hv⟩ := List.mem_flatMap.1 hv
  cases n with
  | indexExpr ty vs b => exact h _ hn v hv
  | _ => cases hv

end Expr

/-- No new name is one of the given variables. -/
def Renaming.Avoids (ρ : Renaming) (vs : List IndexVar) : Prop := ∀ v w, ρ v = some w → w ∉ vs

namespace Renaming.Avoids

variable {ρ : Renaming} {e c : Expr}

theorem child (h : ρ.Avoids e.resultVars) (hc : c ∈ e.children) : ρ.Avoids c.resultVars := by
  intro v w hw hmem
  refine h v w hw ?_
  rw [Expr.resultVars_eq]
  exact List.mem_append_right _ (List.mem_flatMap.2 ⟨c, hc, hmem⟩)

theorem without {us : List IndexVar} (h : ρ.Avoids us) (vs : List IndexVar) :
    (ρ.without vs).Avoids us :=
  fun v w hw => h v w (without_eq_some.1 hw).2

end Renaming.Avoids

namespace Expr

/-- New names that are no result variables within the expression are not captured. -/
theorem captureFree_of_avoids {e : Expr} {ρ : Renaming} (h : ρ.Avoids e.resultVars) :
    e.CaptureFree ρ := by
  induction e generalizing ρ with
  | var ty v => trivial
  | prim ty op es ih => exact captureFreeAll_iff.2 fun e he => ih e he (h.child he)
  | indexed ty t vs ih => exact ih (h.child (by simp [children]))
  | indexExpr ty vs b ih =>
    refine ⟨fun v _ w hw hmem => (h.without vs) v w hw ?_,
      ih ((h.child (by simp [children])).without vs)⟩
    rw [resultVars_eq]
    exact List.mem_append_left _ hmem
  | neg ty a ih => exact ih (h.child (by simp [children]))
  | binary ty op a b iha ihb =>
    exact ⟨iha (h.child (by simp [children])), ihb (h.child (by simp [children]))⟩

/-- Names that occur nowhere are not captured. -/
theorem Over.captureFree {p : Var → Prop} {q : IndexVar → Prop} {e : Expr} {ρ : Renaming}
    (h : e.Over p q) (hρ : ∀ v w, ρ v = some w → ¬ q w) : e.CaptureFree ρ :=
  captureFree_of_avoids fun v w hw hmem => hρ v w hw (h.of_mem_resultVars hmem)

end Expr

/-! ### Loose and free variables -/

/-- A variable that has a new name is free, and so is the new name. -/
def Renaming.RenamesFree (ρ : Renaming) (v : IndexVar) : Prop :=
  ∀ w, ρ v = some w → v.isFree = true ∧ w.isFree = true

namespace Renaming

variable {ρ : Renaming} {v : IndexVar}

theorem apply_of_none (h : ρ v = none) : ρ.apply v = v := by
  rw [apply, h]
  rfl

theorem apply_of_some {w : IndexVar} (h : ρ v = some w) : ρ.apply v = w := by
  rw [apply, h]
  rfl

/-- Renaming free variables to free ones keeps reductions apart. -/
theorem RenamesFree.isFree_apply (h : ρ.RenamesFree v) : (ρ.apply v).isFree = v.isFree := by
  cases hv : ρ v with
  | none => rw [apply_of_none hv]
  | some w =>
    obtain ⟨hfree, hfree'⟩ := h w hv
    rw [apply_of_some hv, hfree, hfree']

theorem RenamesFree.without (h : ρ.RenamesFree v) (vs : List IndexVar) :
    (ρ.without vs).RenamesFree v := fun w hw => h w (without_eq_some.1 hw).2

theorem without_of_not_mem {vs : List IndexVar} (h : v ∉ vs) : ρ.without vs v = ρ v := if_neg h

theorem without_of_mem {vs : List IndexVar} (h : v ∈ vs) : ρ.without vs v = none := if_pos h

theorem apply_without_of_not_mem {vs : List IndexVar} (h : v ∉ vs) :
    (ρ.without vs).apply v = ρ.apply v := by
  rw [apply, apply, without_of_not_mem h]

end Renaming

namespace Expr

theorem over_renamesFree {ρ : Renaming} (h : ∀ v, ρ.RenamesFree v) (e : Expr) :
    e.Over (fun _ => True) ρ.RenamesFree :=
  (Over.of_forall (p := fun _ => True) fun _ => trivial).imp (fun _ h => h) fun v _ => h v

variable {ρ : Renaming} {e : Expr}

/-- If nothing is captured, the loose variables are renamed where they stand. -/
theorem loose_substitute_eq_map (hc : e.CaptureFree ρ)
    (hf : e.Over (fun _ => True) ρ.RenamesFree) :
    (e.substitute ρ).value.loose = e.loose.map ρ.apply := by
  induction e generalizing ρ with
  | var ty v => rfl
  | prim ty op es ih =>
    have hes := captureFreeAll_iff.1 hc
    rw [value_substitute_prim, loose, loose, looseAll_eq, looseAll_eq, List.flatMap_map,
      List.map_flatMap]
    exact List.flatMap_congr fun e he => ih e he (hes e he) (hf.child he)
  | indexed ty t vs ih =>
    rw [value_substitute_indexed, loose, loose, ih hc (over_indexed.1 hf).2, List.map_append]
  | indexExpr ty vs b ih =>
    obtain ⟨hcap, hb⟩ := hc
    have hfb := (over_indexExpr.1 hf).2
    have hfb' : b.Over (fun _ => True) (ρ.without vs).RenamesFree :=
      hfb.imp (fun _ h => h) fun _ h => h.without vs
    rw [value_substitute_indexExpr, loose, loose, ih hb hfb', List.filter_map]
    -- what is bound stays bound, and nothing else comes to be bound
    have hkept : ∀ v ∈ b.loose, v ∉ vs → (ρ.without vs).apply v ∉ vs := by
      intro v hv hvs
      cases hw : ρ.without vs v with
      | none => rwa [Renaming.apply_of_none hw]
      | some w =>
        rw [Renaming.apply_of_some hw]
        exact hcap v hv w hw
    have hfilter : b.loose.filter ((fun v => v.isFree && !vs.contains v) ∘ (ρ.without vs).apply) =
        b.loose.filter fun v => v.isFree && !vs.contains v := by
      refine List.filter_congr fun v hv => ?_
      have hfree : ((ρ.without vs).apply v).isFree = v.isFree :=
        (Over.of_mem_loose hfb' hv).isFree_apply
      by_cases hvs : v ∈ vs
      · simp [Renaming.apply_of_none (Renaming.without_of_mem hvs), hvs]
      · simp [hfree, hvs, hkept v hv hvs]
    rw [hfilter]
    refine List.map_congr_left fun v hv => Renaming.apply_without_of_not_mem ?_
    simp only [List.mem_filter, Bool.and_eq_true, Bool.not_eq_true', List.contains_eq_mem,
      decide_eq_false_iff_not] at hv
    exact hv.2.2
  | neg ty a ih =>
    rw [value_substitute_neg]
    exact ih hc (over_neg.1 hf)
  | binary ty op a b iha ihb =>
    obtain ⟨hfa, hfb⟩ := over_binary.1 hf
    rw [value_substitute_binary, loose, loose, iha hc.1 hfa, ihb hc.2 hfb, List.map_append]

/-- The free index variables are renamed in order; of two that get one name the first counts. -/
theorem freeIndexVars_substitute (hc : e.CaptureFree ρ)
    (hf : e.Over (fun _ => True) ρ.RenamesFree) :
    (e.substitute ρ).value.freeIndexVars = (e.freeIndexVars.map ρ.apply).eraseDups := by
  have hfree : e.loose.filter (IndexVar.isFree ∘ ρ.apply) = e.loose.filter IndexVar.isFree :=
    List.filter_congr fun v hv => (Over.of_mem_loose hf hv).isFree_apply
  rw [freeIndexVars_eq_eraseDups, freeIndexVars_eq_eraseDups, loose_substitute_eq_map hc hf,
    List.filter_map, hfree, eraseDups_map_eraseDups]

/-! ### What is kept -/

theorem changed_rebuild_eq_false_iff {e : Expr} {parts : List (Transformed Expr)} :
    (e.rebuild parts).changed = false ↔ ∀ out ∈ parts, out.changed = false := by
  rw [changed_rebuild, Transformed.anyChanged_eq_false_iff]

/-- Renaming free variables keeps an expression exactly if no loose one has a new name, be it the
old one. -/
theorem changed_substitute_eq_false_iff (hkeys : ∀ v w, ρ v = some w → v.isFree = true) :
    (e.substitute ρ).changed = false ↔ ∀ v ∈ e.loose, ρ v = none := by
  induction e generalizing ρ with
  | var ty v => simp [loose]
  | prim ty op es ih =>
    rw [substitute_prim, changed_rebuild_eq_false_iff, List.forall_mem_map]
    constructor
    · intro h v hv
      obtain ⟨e, he, hl⟩ := mem_loose_prim.1 hv
      exact (ih e he hkeys).1 (h e he) v hl
    · intro h e he
      exact (ih e he hkeys).2 fun v hv => h v (mem_loose_prim.2 ⟨e, he, hv⟩)
  | indexed ty t vs ih =>
    rw [substitute_indexed, loose, List.forall_mem_append, ← ih hkeys]
    dsimp only
    split
    · next h =>
      obtain ⟨v, hv, hnew⟩ := List.any_eq_true.1 h
      refine iff_of_false (by simp) fun hnone => ?_
      rw [Renaming.renames, hnone.2 v hv] at hnew
      cases hnew
    · next h =>
      have hvs : ∀ v ∈ vs, ρ v = none := by simpa [Renaming.renames] using h
      rw [changed_rebuild_eq_false_iff, List.forall_mem_singleton, and_iff_left hvs]
  | indexExpr ty vs b ih =>
    have hkeys' : ∀ v w, ρ.without vs v = some w → v.isFree = true := fun v w hw =>
      hkeys v w (Renaming.without_eq_some.1 hw).2
    rw [substitute_indexExpr, changed_rebuild_eq_false_iff, List.forall_mem_singleton, ih hkeys']
    constructor
    · intro h v hv
      obtain ⟨hl, _, hvs⟩ := mem_loose_indexExpr.1 hv
      rw [← Renaming.without_of_not_mem (ρ := ρ) hvs]
      exact h v hl
    · intro h v hv
      rw [Option.eq_none_iff_forall_ne_some]
      intro w hw
      -- a variable with a new name here is free and not bound, so it is loose outside as well
      obtain ⟨hvs, hnew⟩ := Renaming.without_eq_some.1 hw
      rw [h v (mem_loose_indexExpr.2 ⟨hv, hkeys v w hnew, hvs⟩)] at hnew
      cases hnew
  | neg ty a ih =>
    rw [substitute_neg, changed_rebuild_eq_false_iff, List.forall_mem_singleton]
    exact ih hkeys
  | binary ty op a b iha ihb =>
    rw [substitute_binary, changed_rebuild_eq_false_iff, loose, List.forall_mem_append,
      ← iha hkeys, ← ihb hkeys]
    simp

/-- An expression is kept exactly if none of its free index variables has a new name. -/
theorem substitute_eq_keep_iff (hkeys : ∀ v w, ρ v = some w → v.isFree = true) :
    e.substitute ρ = .keep e ↔ ∀ v ∈ e.freeIndexVars, ρ v = none := by
  rw [(faithful_substitute ρ e).eq_keep_iff, changed_substitute_eq_false_iff hkeys]
  constructor
  · exact fun h v hv => h v (mem_freeIndexVars.1 hv).1
  · intro h v hv
    rw [Option.eq_none_iff_forall_ne_some]
    intro w hw
    rw [h v (mem_freeIndexVars.2 ⟨hv, hkeys v w hw⟩)] at hw
    cases hw

/-- Renaming free index variables goes by the free index variables. What was renamed before with the
same object makes no difference; the expression is kept exactly if none of its free index variables
has a new name, be it the old one; and if no new name has a reduction or is a result variable within
the expression, the free index variables of the outcome are the renamed ones, of two that get one
name the first. -/
theorem substitute_renames_free (hkeys : ∀ v w, ρ v = some w → v.isFree = true)
    (earlier : List Expr) (e : Expr) :
    ((do
      discard (transformAll Renaming.transform earlier)
      e.transformM Renaming.transform : StateM Renaming (Transformed Expr)).run ρ).1 =
        e.substitute ρ ∧
      (e.substitute ρ = .keep e ↔ ∀ v ∈ e.freeIndexVars, ρ v = none) ∧
      ((∀ v w, ρ v = some w → w.isFree = true) → ρ.Avoids e.resultVars →
        (e.substitute ρ).value.freeIndexVars = (e.freeIndexVars.map ρ.apply).eraseDups) := by
  refine ⟨?_, substitute_eq_keep_iff hkeys, fun hnames havoids => ?_⟩
  · show ((e.transformM Renaming.transform).run
      ((transformAll Renaming.transform earlier).run ρ).2).1 = _
    rw [Renaming.run_transformAll]
    rfl
  · have hfree : ∀ v, ρ.RenamesFree v := fun v w hw => ⟨hkeys v w hw, hnames v w hw⟩
    exact freeIndexVars_substitute (captureFree_of_avoids havoids) (over_renamesFree hfree e)

end Expr

/-- A free index variable with two places. -/
def IndexVar.pair (id : Nat) (name : String) : IndexVar := ⟨id, name, .range 2, none⟩

/-- `(k: A{i,k} * A{s,k}){j} + b{k}`, where `s` is summed over: only the last `k` is free. -/
def Expr.shadowed : Expr :=
  let k := IndexVar.pair 2 "k"
  let A : Expr := .ofVar ⟨4, "A", .matrix 2 2⟩
  let b : Expr := .ofVar ⟨5, "b", .vector 2⟩
  let column : Expr := .build [k] (.binaryOf .mul (A.index [.pair 0 "i", k])
    (A.index [⟨3, "s", .range 2, some .sum⟩, k]))
  .binaryOf .add (column.index [.pair 1 "j"]) (b.index [k])

/-- The pairs of a renaming by which `i` and `j` trade names and `k` becomes an `i`. -/
def Renaming.mixing : List (IndexVar × IndexVar) :=
  [(.pair 0 "i", .pair 1 "j"), (.pair 1 "j", .pair 0 "i"), (.pair 2 "k", .pair 0 "i")]

/-- Renamed for the second time, `(k: A{i,k} * A{s,k}){j} + b{k}` becomes
`(k: A{j,k} * A{s,k}){i} + b{i}`. -/
theorem Expr.substitute_renames_free_shadowed :
    ((do
      discard (transformAll Renaming.transform [shadowed])
      shadowed.transformM Renaming.transform : StateM Renaming (Transformed Expr)).run
        (.ofPairs Renaming.mixing)).1 = shadowed.substitute (.ofPairs Renaming.mixing) ∧
      shadowed.substitute (.ofPairs Renaming.mixing) ≠ .keep shadowed ∧
      shadowed.freeIndexVars = [.pair 0 "i", .pair 1 "j", .pair 2 "k"] ∧
      (shadowed.substitute (.ofPairs Renaming.mixing)).value.freeIndexVars =
        [.pair 1 "j", .pair 0 "i"] := by
  have hpairs : ∀ p ∈ Renaming.mixing,
      p.1.isFree = true ∧ p.2.isFree = true ∧ p.2 ∉ shadowed.resultVars := by decide
  obtain ⟨hagain, hkeep, hfree⟩ := substitute_renames_free (ρ := .ofPairs Renaming.mixing)
    (fun v w hw => (hpairs _ (Renaming.mem_of_ofPairs hw)).1) [shadowed] shadowed
  refine ⟨hagain, fun h => absurd (hkeep.1 h) (by decide), by decide, ?_⟩
  rw [hfree (fun v w hw => (hpairs _ (Renaming.mem_of_ofPairs hw)).2.1)
    fun v w hw => (hpairs _ (Renaming.mem_of_ofPairs hw)).2.2]
  decide

end TensorIR
