import TensorIR.FreeIndexVars
import TensorIR.Proofs.Rebuilding

/-! # Loose index variables

A use of an index variable is *loose* in an expression if nothing within the expression accounts
for it: no index expression around the use has the variable among its result variables, and, for
a variable with a reduction, there is no index expression around the use that sums over it.

**Key idea**: `Expr.loose` is a plain recursive list, and everything that the collector of free
index variables and substitution do to index variables can be read off it. The free index
variables are the loose ones without a reduction (`Expr.mem_freeIndexVars`); after renaming, the
loose variables are those that kept their names, and new names (`Expr.loose_substitute`).
-/

namespace TensorIR

namespace Expr

/-! ### Loose uses -/

mutual

/-- The loose uses of index variables, in evaluation order. -/
def loose : Expr → List IndexVar
  | .var _ _ => []
  | .prim _ _ es => looseAll es
  | .indexed _ t vs => t.loose ++ vs
  | .indexExpr _ vs b => b.loose.filter fun v => v.isFree && !vs.contains v
  | .neg _ a => a.loose
  | .binary _ _ a b => a.loose ++ b.loose

/-- The loose uses of index variables in several expressions, in order. -/
def looseAll : List Expr → List IndexVar
  | [] => []
  | e :: es => e.loose ++ looseAll es

end

theorem looseAll_eq (es : List Expr) : looseAll es = es.flatMap loose := by
  induction es with
  | nil => rfl
  | cons e es ih => simp [looseAll, ih]

theorem mem_loose_prim {ty : Ty} {op : Prim} {es : List Expr} {v : IndexVar} :
    v ∈ (Expr.prim ty op es).loose ↔ ∃ e ∈ es, v ∈ e.loose := by
  simp [loose, looseAll_eq]

theorem mem_loose_indexExpr {ty : Ty} {vs : List IndexVar} {b : Expr} {v : IndexVar} :
    v ∈ (Expr.indexExpr ty vs b).loose ↔ v ∈ b.loose ∧ v.isFree = true ∧ v ∉ vs := by
  simp [loose]

end Expr

/-! ### Collecting free index variables -/

namespace FreeIndexVars

@[simp] theorem bound_use (c : FreeIndexVars) (v : IndexVar) : (c.use v).bound = c.bound := by
  unfold use
  split <;> rfl

@[simp] theorem bound_foldl_use (c : FreeIndexVars) (vs : List IndexVar) :
    (vs.foldl use c).bound = c.bound := by
  induction vs generalizing c with
  | nil => rfl
  | cons v vs ih => simp [ih]

/-- What is bound by `vs` goes unnoticed: uses under `vs` are the other uses without `vs`. -/
theorem foldl_use_bound (c : FreeIndexVars) (vs us : List IndexVar) :
    { us.foldl use { c with bound := c.bound ++ vs } with bound := c.bound }
      = (us.filter fun v => v.isFree && !vs.contains v).foldl use c := by
  induction us generalizing c with
  | nil => rfl
  | cons u us ih =>
    by_cases hu : u.isFree = true ∧ u ∉ vs
    · -- the use is noted or not, whatever `vs` binds
      rw [List.filter_cons_of_pos (by simpa using hu), List.foldl_cons, List.foldl_cons, ← ih]
      have hbound : (c.use u).bound = c.bound := bound_use c u
      have huse : use { c with bound := c.bound ++ vs } u
          = { c.use u with bound := c.bound ++ vs } := by
        by_cases hc : u ∈ c.bound <;> by_cases hv : u ∈ c.vars <;> simp [use, hu, hc, hv]
      rw [huse, hbound]
    · -- the use has a reduction, or `vs` binds it
      have hkeep : use { c with bound := c.bound ++ vs } u = { c with bound := c.bound ++ vs } := by
        by_cases hf : u.isFree = true
        · have hmem : u ∈ vs := by simpa [hf] using hu
          simp [use, hmem]
        · simp [use, hf]
      rw [List.filter_cons_of_neg (by simpa using hu), List.foldl_cons, hkeep, ih]

/-- Visits one after the other note the uses of each. -/
theorem run_forM_use {α : Type} {f : α → StateM FreeIndexVars Unit} {us : α → List IndexVar}
    {as : List α} (h : ∀ a ∈ as, ∀ c, (f a).run c = ((), (us a).foldl use c)) (c : FreeIndexVars) :
    (forM as f).run c = ((), (as.flatMap us).foldl use c) := by
  induction as generalizing c with
  | nil => rfl
  | cons a as ih =>
    show (forM as f).run ((f a).run c).2 = _
    rw [h a (by simp), ih fun a' ha' => h a' (by simp [ha']), List.flatMap_cons, List.foldl_append]

/-- Visiting an expression notes its loose uses. -/
theorem run_visitM (e : Expr) (c : FreeIndexVars) :
    (e.visitM visitor).run c = ((), e.loose.foldl use c) := by
  induction e generalizing c with
  | var ty v => rfl
  | prim ty op es ih =>
    show (Expr.visitAll visitor es).run c = _
    rw [Expr.visitAll_eq_forM, run_forM_use ih, Expr.loose, Expr.looseAll_eq]
  | indexed ty t vs ih =>
    show ((), vs.foldl use ((t.visitM visitor).run c).2) = _
    rw [ih]
    simp [Expr.loose]
  | indexExpr ty vs b ih =>
    show ((), { ((b.visitM visitor).run { c with bound := c.bound ++ vs }).2 with
      bound := ((b.visitM visitor).run { c with bound := c.bound ++ vs }).2.bound.take
        c.bound.length }) = _
    -- the walk leaves what is bound as it found it, so cutting to the old length undoes `vs`
    rw [ih]
    simp only [bound_foldl_use, List.take_left, Expr.loose]
    rw [foldl_use_bound]
  | neg ty a ih => exact ih c
  | binary ty op a b iha ihb =>
    show (b.visitM visitor).run ((a.visitM visitor).run c).2 = _
    rw [iha, ihb]
    simp [Expr.loose]

theorem mem_foldl_use {us : List IndexVar} {c : FreeIndexVars} {v : IndexVar} :
    v ∈ (us.foldl use c).vars ↔ v ∈ c.vars ∨ (v ∈ us ∧ v.isFree = true ∧ v ∉ c.bound) := by
  induction us generalizing c with
  | nil => simp
  | cons u us ih =>
    have huse : v ∈ (c.use u).vars ↔ v ∈ c.vars ∨ (v = u ∧ v.isFree = true ∧ v ∉ c.bound) := by
      unfold use
      split
      · next h =>
        simp only [Bool.and_eq_true, Bool.not_eq_true', List.contains_eq_mem,
          decide_eq_false_iff_not] at h
        simp only [List.mem_append, List.mem_singleton]
        constructor
        · rintro (h' | rfl)
          · exact .inl h'
          · exact .inr ⟨rfl, h.1.1, h.1.2⟩
        · rintro (h' | ⟨rfl, _⟩)
          · exact .inl h'
          · exact .inr rfl
      · next h =>
        simp only [Bool.and_eq_true, Bool.not_eq_true', List.contains_eq_mem,
          decide_eq_false_iff_not] at h
        constructor
        · exact .inl
        · rintro (h' | ⟨rfl, hf, hb⟩)
          · exact h'
          · exact Classical.byContradiction fun hv => h ⟨⟨hf, hb⟩, hv⟩
    rw [List.foldl_cons, ih, huse, bound_use, List.mem_cons]
    constructor
    · rintro ((h | ⟨rfl, h⟩) | ⟨h, h'⟩)
      · exact .inl h
      · exact .inr ⟨.inl rfl, h⟩
      · exact .inr ⟨.inr h, h'⟩
    · rintro (h | ⟨rfl | h, h'⟩)
      · exact .inl (.inl h)
      · exact .inl (.inr ⟨rfl, h'⟩)
      · exact .inr ⟨h, h'⟩

end FreeIndexVars

namespace Expr

/-- The free index variables are the loose uses, each listed once. -/
theorem freeIndexVars_eq (e : Expr) : e.freeIndexVars = (e.loose.foldl FreeIndexVars.use {}).vars := by
  show ((e.visitM FreeIndexVars.visitor).run {}).2.vars = _
  rw [FreeIndexVars.run_visitM]

/-- The free index variables are the loose ones without a reduction. -/
theorem mem_freeIndexVars {e : Expr} {v : IndexVar} :
    v ∈ e.freeIndexVars ↔ v ∈ e.loose ∧ v.isFree = true := by
  rw [freeIndexVars_eq, FreeIndexVars.mem_foldl_use]
  simp

/-! ### Renaming loose uses -/

section

variable {ρ : Renaming} {e : Expr} {v w : IndexVar}

/-- A variable that is loose after renaming was loose and kept its name, or is a new name. -/
theorem loose_substitute (h : w ∈ (e.substitute ρ).value.loose) :
    (w ∈ e.loose ∧ ρ w = none) ∨ ∃ v, ρ v = some w := by
  induction e generalizing ρ with
  | var ty x => cases h
  | prim ty op es ih =>
    rw [value_substitute_prim, mem_loose_prim] at h
    obtain ⟨e', he', hw⟩ := h
    obtain ⟨e, he, rfl⟩ := List.mem_map.1 he'
    rcases ih e he hw with ⟨hl, hρ⟩ | hv
    · exact .inl ⟨mem_loose_prim.2 ⟨e, he, hl⟩, hρ⟩
    · exact .inr hv
  | indexed ty t vs ih =>
    rw [value_substitute_indexed, loose, List.mem_append] at h
    simp only [loose, List.mem_append]
    rcases h with h | h
    · rcases ih h with ⟨hl, hρ⟩ | hv
      · exact .inl ⟨.inl hl, hρ⟩
      · exact .inr hv
    · obtain ⟨v, hv, rfl⟩ := List.mem_map.1 h
      unfold Renaming.apply
      cases hρ : ρ v with
      | none => exact .inl ⟨.inr hv, hρ⟩
      | some w => exact .inr ⟨v, hρ⟩
  | indexExpr ty vs b ih =>
    rw [value_substitute_indexExpr, mem_loose_indexExpr] at h
    obtain ⟨hl, hfree, hvs⟩ := h
    -- below the result variables only the other names are in force
    rcases ih hl with ⟨hb, hρ⟩ | ⟨v, hρ⟩
    · refine .inl ⟨mem_loose_indexExpr.2 ⟨hb, hfree, hvs⟩, ?_⟩
      simpa [Renaming.without, hvs] using hρ
    · exact .inr ⟨v, (Renaming.without_eq_some.1 hρ).2⟩
  | neg ty a ih =>
    rw [value_substitute_neg] at h
    exact ih h
  | binary ty op a b iha ihb =>
    rw [value_substitute_binary, loose, List.mem_append] at h
    simp only [loose, List.mem_append]
    rcases h with h | h
    · rcases iha h with ⟨hl, hρ⟩ | hv
      · exact .inl ⟨.inl hl, hρ⟩
      · exact .inr hv
    · rcases ihb h with ⟨hl, hρ⟩ | hv
      · exact .inl ⟨.inr hl, hρ⟩
      · exact .inr hv

/-- A loose variable without a new name stays loose. -/
theorem mem_loose_substitute (h : w ∈ e.loose) (hρ : ρ w = none) :
    w ∈ (e.substitute ρ).value.loose := by
  induction e generalizing ρ with
  | var ty x => cases h
  | prim ty op es ih =>
    obtain ⟨e, he, hl⟩ := mem_loose_prim.1 h
    rw [value_substitute_prim, mem_loose_prim]
    exact ⟨_, List.mem_map.2 ⟨e, he, rfl⟩, ih e he hl hρ⟩
  | indexed ty t vs ih =>
    rw [value_substitute_indexed]
    simp only [loose, List.mem_append] at h ⊢
    rcases h with h | h
    · exact .inl (ih h hρ)
    · refine .inr (List.mem_map.2 ⟨w, h, ?_⟩)
      rw [Renaming.apply, hρ]
      rfl
  | indexExpr ty vs b ih =>
    rw [mem_loose_indexExpr] at h
    rw [value_substitute_indexExpr, mem_loose_indexExpr]
    refine ⟨ih h.1 ?_, h.2⟩
    rw [Renaming.without, if_neg h.2.2]
    exact hρ
  | neg ty a ih =>
    rw [value_substitute_neg]
    exact ih h hρ
  | binary ty op a b iha ihb =>
    rw [value_substitute_binary]
    simp only [loose, List.mem_append] at h ⊢
    rcases h with h | h
    · exact .inl (iha h hρ)
    · exact .inr (ihb h hρ)

end

end Expr

end TensorIR
