import TensorIR.Proofs.Declaring
import TensorIR.Proofs.Flatness
import TensorIR.Proofs.LooseVars
import TensorIR.Proofs.Lowered
import TensorIR.Proofs.Outcomes
import TensorIR.Proofs.Vocabulary

/-! # Relabelling

One-to-one new identities and names for what is made while programs are normalized. The identities
below a bound belong to the programs as they were handed in, and keep.

**Key idea**: whatever the passes ask of a variable, they ask whether it is another one, or what its
type, dimension or reduction is. So each of their operations commutes with every relabelling. They
read names too, but only to write them into the texts of errors (`Error.withoutTexts`).
-/

namespace TensorIR

/-- New identities, and new names for variables. -/
structure Relabelling where
  /-- Smaller identities keep, and so do the names of their variables. -/
  known : Nat
  id : Nat → Nat
  name : String → String
  id_of_lt : ∀ n < known, id n = n
  id_injective : Function.Injective id
  name_injective : Function.Injective name

namespace Relabelling

variable (ρ : Relabelling)

def var (v : Var) : Var := if v.id < ρ.known then v else ⟨ρ.id v.id, ρ.name v.name, v.ty⟩

def index (v : IndexVar) : IndexVar := { v with id := ρ.id v.id }

theorem var_of_lt {v : Var} (h : v.id < ρ.known) : ρ.var v = v := if_pos h

theorem var_of_le {v : Var} (h : ρ.known ≤ v.id) :
    ρ.var v = ⟨ρ.id v.id, ρ.name v.name, v.ty⟩ :=
  if_neg (Nat.not_lt.2 h)

theorem index_of_lt {v : IndexVar} (h : v.id < ρ.known) : ρ.index v = v := by
  rw [index, ρ.id_of_lt v.id h]

@[simp] theorem id_var (v : Var) : (ρ.var v).id = ρ.id v.id := by
  unfold var
  split
  · next h => exact (ρ.id_of_lt v.id h).symm
  · rfl

@[simp] theorem ty_var (v : Var) : (ρ.var v).ty = v.ty := by
  unfold var
  split <;> rfl

theorem var_injective : Function.Injective ρ.var := by
  intro v w h
  have hid : v.id = w.id := ρ.id_injective (by simpa using congrArg Var.id h)
  unfold var at h
  by_cases hv : v.id < ρ.known
  · rwa [if_pos hv, if_pos (hid ▸ hv)] at h
  · rw [if_neg hv, if_neg (hid ▸ hv), Var.mk.injEq] at h
    obtain ⟨_, hname, hty⟩ := h
    cases v
    cases w
    cases hid
    cases hty
    cases ρ.name_injective hname
    rfl

@[simp] theorem isFree_index (v : IndexVar) : (ρ.index v).isFree = v.isFree := rfl

@[simp] theorem domain_index (v : IndexVar) : (ρ.index v).domain = v.domain := rfl

theorem index_injective : Function.Injective ρ.index := by
  intro v w h
  rw [index, index, IndexVar.mk.injEq] at h
  cases v
  cases w
  cases ρ.id_injective h.1
  obtain ⟨_, rfl, rfl, rfl⟩ := h
  rfl

@[simp] theorem mem_map_var {v : Var} {vs : List Var} : ρ.var v ∈ vs.map ρ.var ↔ v ∈ vs :=
  List.mem_map_of_injective ρ.var_injective

@[simp] theorem mem_map_index {v : IndexVar} {vs : List IndexVar} :
    ρ.index v ∈ vs.map ρ.index ↔ v ∈ vs :=
  List.mem_map_of_injective ρ.index_injective

/-! ### One after another -/

/-- The relabelling that changes nothing. -/
def refl : Relabelling := ⟨0, fun n => n, fun x => x, fun _ _ => rfl, fun _ _ h => h, fun _ _ h => h⟩

@[simp] theorem var_refl (v : Var) : refl.var v = v := rfl

@[simp] theorem map_var_refl (vs : List Var) : vs.map refl.var = vs := List.map_id vs

@[simp] theorem map_index_refl (vs : List IndexVar) : vs.map refl.index = vs := List.map_id vs

/-- In the vocabulary, relabelling by `ρ` and then by `σ` comes to relabelling by `τ`. -/
structure Chain (V : Vocabulary) (ρ σ τ : Relabelling) : Prop where
  var : ∀ v, V.var v → σ.var (ρ.var v) = τ.var v
  index : ∀ v, V.indexVar v → σ.index (ρ.index v) = τ.index v

theorem Chain.map_var {V : Vocabulary} {ρ σ τ : Relabelling} (h : Chain V ρ σ τ) {vs : List Var}
    (hvs : ∀ v ∈ vs, V.var v) : (vs.map ρ.var).map σ.var = vs.map τ.var := by
  rw [List.map_map]
  exact List.map_congr_left fun v hv => h.var v (hvs v hv)

theorem Chain.map_index {V : Vocabulary} {ρ σ τ : Relabelling} (h : Chain V ρ σ τ)
    {vs : List IndexVar} (hvs : ∀ v ∈ vs, V.indexVar v) :
    (vs.map ρ.index).map σ.index = vs.map τ.index := by
  rw [List.map_map]
  exact List.map_congr_left fun v hv => h.index v (hvs v hv)

end Relabelling

/-! ### Transformed programs -/

namespace Transformed

variable {α β : Type} (r : α → β)

/-- Another value in the same place. -/
def map (out : Transformed α) : Transformed β := ⟨r out.value, out.changed⟩

@[simp] theorem value_map (out : Transformed α) : (out.map r).value = r out.value := rfl

@[simp] theorem changed_map (out : Transformed α) : (out.map r).changed = out.changed := rfl

@[simp] theorem map_keep (a : α) : (keep a).map r = keep (r a) := rfl

@[simp] theorem map_replace (a : α) : (replace a).map r = replace (r a) := rfl

@[simp] theorem anyChanged_map (outs : List (Transformed α)) :
    anyChanged (outs.map (map r)) = anyChanged outs := by
  simp [anyChanged, Function.comp_def]

@[simp] theorem values_map (outs : List (Transformed α)) :
    values (outs.map (map r)) = (values outs).map r := by
  simp [values]

end Transformed

/-! ### Expressions -/

namespace Expr

mutual

/-- The expression with its variables and index variables relabelled. Functions that are called keep
theirs. -/
def relabel (ρ : Relabelling) : Expr → Expr
  | .var ty v => .var ty (ρ.var v)
  | .prim ty op es => .prim ty op (relabelAll ρ es)
  | .indexed ty t vs => .indexed ty (t.relabel ρ) (vs.map ρ.index)
  | .indexExpr ty vs b => .indexExpr ty (vs.map ρ.index) (b.relabel ρ)
  | .neg ty a => .neg ty (a.relabel ρ)
  | .binary ty op a b => .binary ty op (a.relabel ρ) (b.relabel ρ)

/-- The expressions, relabelled. -/
def relabelAll (ρ : Relabelling) : List Expr → List Expr
  | [] => []
  | e :: es => e.relabel ρ :: relabelAll ρ es

end

variable (ρ : Relabelling) {ty : Ty}

theorem relabelAll_eq (es : List Expr) : relabelAll ρ es = es.map (relabel ρ) := by
  induction es with
  | nil => rfl
  | cons e es ih => rw [relabelAll, ih, List.map_cons]

@[simp] theorem relabel_var (v : Var) : (Expr.var ty v).relabel ρ = .var ty (ρ.var v) := rfl

@[simp] theorem relabel_prim (op : Prim) (es : List Expr) :
    (Expr.prim ty op es).relabel ρ = .prim ty op (es.map (relabel ρ)) := by
  rw [relabel, relabelAll_eq]

@[simp] theorem relabel_indexed (t : Expr) (vs : List IndexVar) :
    (Expr.indexed ty t vs).relabel ρ = .indexed ty (t.relabel ρ) (vs.map ρ.index) := rfl

@[simp] theorem relabel_indexExpr (vs : List IndexVar) (b : Expr) :
    (Expr.indexExpr ty vs b).relabel ρ = .indexExpr ty (vs.map ρ.index) (b.relabel ρ) := rfl

@[simp] theorem relabel_neg (a : Expr) : (Expr.neg ty a).relabel ρ = .neg ty (a.relabel ρ) := rfl

@[simp] theorem relabel_binary (op : BinaryOp) (a b : Expr) :
    (Expr.binary ty op a b).relabel ρ = .binary ty op (a.relabel ρ) (b.relabel ρ) := rfl

@[simp] theorem ty_relabel (e : Expr) : (e.relabel ρ).ty = e.ty := by
  cases e <;> rfl

@[simp] theorem isVar_relabel (e : Expr) : (e.relabel ρ).isVar = e.isVar := by
  cases e <;> rfl

@[simp] theorem isIndexed_relabel (e : Expr) : (e.relabel ρ).isIndexed = e.isIndexed := by
  cases e <;> rfl

@[simp] theorem isIndexExpr_relabel (e : Expr) : (e.relabel ρ).isIndexExpr = e.isIndexExpr := by
  cases e <;> rfl

@[simp] theorem relabel_ofVar (v : Var) : (ofVar v).relabel ρ = ofVar (ρ.var v) := by
  rw [ofVar, ofVar, relabel_var, ρ.ty_var]

@[simp] theorem relabel_index (t : Expr) (vs : List IndexVar) :
    (t.index vs).relabel ρ = (t.relabel ρ).index (vs.map ρ.index) := by
  rw [index, index, relabel_indexed, ty_relabel]

@[simp] theorem relabel_build (vs : List IndexVar) (b : Expr) :
    (build vs b).relabel ρ = build (vs.map ρ.index) (b.relabel ρ) := by
  simp [build, Function.comp_def]

@[simp] theorem relabel_negOf (a : Expr) : a.negOf.relabel ρ = (a.relabel ρ).negOf := by
  simp [negOf]

@[simp] theorem relabel_binaryOf (op : BinaryOp) (a b : Expr) :
    (binaryOf op a b).relabel ρ = binaryOf op (a.relabel ρ) (b.relabel ρ) := by
  simp [binaryOf]

@[simp] theorem children_relabel (e : Expr) :
    (e.relabel ρ).children = e.children.map (relabel ρ) := by
  cases e <;> simp [children]

theorem relabel_withChildren (e : Expr) (es : List Expr) :
    (e.withChildren es).relabel ρ = (e.relabel ρ).withChildren (es.map (relabel ρ)) := by
  cases e with
  | var ty v => rfl
  | prim ty op as => simp [withChildren]
  | binary ty op a b => rcases es with _ | ⟨a', _ | ⟨b', _ | ⟨c', es⟩⟩⟩ <;> rfl
  | _ => rcases es with _ | ⟨a', _ | ⟨b', es⟩⟩ <;> rfl

theorem relabel_rebuild (e : Expr) (outs : List (Transformed Expr)) :
    (e.relabel ρ).rebuild (outs.map (Transformed.map (relabel ρ))) =
      (e.rebuild outs).map (relabel ρ) := by
  unfold rebuild
  rw [Transformed.anyChanged_map, Transformed.values_map, ← relabel_withChildren]
  split <;> rfl

/-- An expression is relabelled node by node. -/
theorem relabel_relabel {V : Vocabulary} {ρ σ τ : Relabelling} (hc : Relabelling.Chain V ρ σ τ)
    {e : Expr} (h : e.Within V) : (e.relabel ρ).relabel σ = e.relabel τ := by
  induction e with
  | var ty v => exact congrArg (Expr.var ty) (hc.var v (over_var.1 h))
  | prim ty op es ih =>
    simp only [relabel_prim, List.map_map]
    exact congrArg (Expr.prim ty op)
      (List.map_congr_left fun e he => ih e he (over_prim.1 h e he))
  | indexed ty t vs ih =>
    obtain ⟨hvs, ht⟩ := over_indexed.1 h
    rw [relabel_indexed, relabel_indexed, relabel_indexed, ih ht, hc.map_index hvs]
  | indexExpr ty vs b ih =>
    obtain ⟨hvs, hb⟩ := over_indexExpr.1 h
    rw [relabel_indexExpr, relabel_indexExpr, relabel_indexExpr, ih hb, hc.map_index hvs]
  | neg ty a ih => exact congrArg (Expr.neg ty) (ih (over_neg.1 h))
  | binary ty op a b iha ihb =>
    obtain ⟨ha, hb⟩ := over_binary.1 h
    exact congrArg₂ (Expr.binary ty op) (iha ha) (ihb hb)

@[simp] theorem relabel_refl (e : Expr) : e.relabel .refl = e := by
  induction e with
  | var ty v => rfl
  | prim ty op es ih => rw [relabel_prim, List.map_congr_left ih, List.map_id']
  | indexed ty t vs ih => simp [ih]
  | indexExpr ty vs b ih => simp [ih]
  | neg ty a ih => rw [relabel_neg, ih]
  | binary ty op a b iha ihb => rw [relabel_binary, iha, ihb]

theorem containsIndexed_relabel (e : Expr) :
    (e.relabel ρ).containsIndexed = e.containsIndexed := by
  induction e using children_induction with
  | step e ih =>
    rw [containsIndexed_eq, containsIndexed_eq e, isIndexed_relabel, isIndexExpr_relabel,
      children_relabel, any_containsIndexed_map ih]

/-! ### Texts -/

@[simp] theorem strength_relabel (e : Expr) : (e.relabel ρ).strength = e.strength := by
  cases e <;> rfl

@[simp] theorem names_map_index (vs : List IndexVar) :
    IndexVar.names (vs.map ρ.index) = IndexVar.names vs := by
  simp [IndexVar.names, Function.comp_def, Relabelling.index]

variable {ρ} in
/-- A text has names and no identities in it. -/
theorem text_relabel (hρ : ρ.name = fun x => x) (e : Expr) : (e.relabel ρ).text = e.text := by
  have hbracket : ∀ (least : Nat) (a : Expr) (text : String),
      (a.relabel ρ).bracket least text = a.bracket least text := fun least a text => by
    rw [bracket, bracket, strength_relabel]
  induction e with
  | var ty v =>
    show (ρ.var v).name = v.name
    unfold Relabelling.var
    split
    · rfl
    · rw [hρ]
  | prim ty op es ih =>
    have htexts : texts (es.map (relabel ρ)) = texts es := by
      rw [texts_eq_map, texts_eq_map, List.map_map]
      exact List.map_congr_left ih
    rw [relabel_prim, text, text, htexts]
    -- of the operands themselves only the strength of the first matters
    cases es with
    | nil => rfl
    | cons a es => simp only [List.map_cons, Prim.render, texts, hbracket]
  | indexed ty t vs ih => rw [relabel_indexed, text, text, ih, hbracket, names_map_index]
  | indexExpr ty vs b ih => rw [relabel_indexExpr, text, text, ih, names_map_index]
  | neg ty a ih => rw [relabel_neg, text, text, ih, hbracket]
  | binary ty op a b iha ihb => rw [relabel_binary, text, text, iha, ihb, hbracket, hbracket]

/-! ### Loose index variables -/

theorem loose_relabel (e : Expr) : (e.relabel ρ).loose = e.loose.map ρ.index := by
  induction e with
  | var ty v => rfl
  | prim ty op es ih =>
    rw [relabel_prim, loose, loose, looseAll_eq, looseAll_eq, List.flatMap_map, List.map_flatMap]
    exact List.flatMap_congr ih
  | indexed ty t vs ih => simp [loose, ih]
  | indexExpr ty vs b ih =>
    rw [relabel_indexExpr, loose, loose, ih, List.filter_map]
    refine congrArg _ (List.filter_congr fun v _ => ?_)
    simp only [Function.comp, List.contains_eq_mem, ρ.mem_map_index, ρ.isFree_index]
  | neg ty a ih => exact ih
  | binary ty op a b iha ihb => simp [loose, iha, ihb]

/-- The collectors of uses and of relabelled uses go side by side. -/
theorem foldl_use_relabel (us bound vars : List IndexVar) :
    ((us.map ρ.index).foldl FreeIndexVars.use ⟨bound.map ρ.index, vars.map ρ.index⟩).vars =
      (us.foldl FreeIndexVars.use ⟨bound, vars⟩).vars.map ρ.index := by
  induction us generalizing vars with
  | nil => rfl
  | cons u us ih =>
    have huse : FreeIndexVars.use ⟨bound.map ρ.index, vars.map ρ.index⟩ (ρ.index u) =
        if u.isFree && !bound.contains u && !vars.contains u then
          ⟨bound.map ρ.index, (vars ++ [u]).map ρ.index⟩
        else ⟨bound.map ρ.index, vars.map ρ.index⟩ := by
      simp [FreeIndexVars.use]
    rw [List.map_cons, List.foldl_cons, List.foldl_cons, huse, FreeIndexVars.use]
    split
    · exact ih (vars ++ [u])
    · exact ih vars

theorem freeIndexVars_relabel (e : Expr) :
    (e.relabel ρ).freeIndexVars = e.freeIndexVars.map ρ.index := by
  rw [freeIndexVars_eq, freeIndexVars_eq, loose_relabel]
  exact foldl_use_relabel ρ e.loose [] []

/-! ### Substitution -/

variable {ρ} in
/-- Renamings that correspond make corresponding expressions. -/
theorem relabel_substitute {σ τ : Renaming} (h : ∀ v, τ (ρ.index v) = (σ v).map ρ.index)
    (e : Expr) : ((e.relabel ρ).substitute τ).value = (e.substitute σ).value.relabel ρ := by
  induction e generalizing σ τ with
  | var ty v => rfl
  | prim ty op es ih =>
    rw [relabel_prim, value_substitute_prim, value_substitute_prim, relabel_prim, List.map_map,
      List.map_map]
    exact congrArg _ (List.map_congr_left fun e he => ih e he h)
  | indexed ty t vs ih =>
    have happly : ∀ v, τ.apply (ρ.index v) = ρ.index (σ.apply v) := by
      intro v
      rw [Renaming.apply, Renaming.apply, h]
      cases σ v <;> rfl
    rw [relabel_indexed, value_substitute_indexed, value_substitute_indexed, relabel_indexed, ih h]
    simp [happly]
  | indexExpr ty vs b ih =>
    have hwithout : ∀ v, τ.without (vs.map ρ.index) (ρ.index v) =
        (σ.without vs v).map ρ.index := by
      intro v
      by_cases hv : v ∈ vs <;> simp [Renaming.without, hv, h]
    rw [relabel_indexExpr, value_substitute_indexExpr, value_substitute_indexExpr,
      relabel_indexExpr, ih hwithout]
  | neg ty a ih =>
    rw [relabel_neg, value_substitute_neg, value_substitute_neg, relabel_neg, ih h]
  | binary ty op a b iha ihb =>
    rw [relabel_binary, value_substitute_binary, value_substitute_binary, relabel_binary, iha h,
      ihb h]

/-- What is read through the variables `vs` in place of `rs`. -/
theorem relabel_inlined (rs vs : List IndexVar) (b : Expr) :
    ((b.relabel ρ).substitute (.ofPairs ((rs.map ρ.index).zip (vs.map ρ.index)))).value =
      (b.substitute (.ofPairs (rs.zip vs))).value.relabel ρ := by
  refine relabel_substitute (fun v => ?_) b
  have hfind : ∀ ps : List (IndexVar × IndexVar),
      ((ps.map (Prod.map ρ.index ρ.index)).find? fun p => p.1 == ρ.index v) =
        (ps.find? fun p => p.1 == v).map (Prod.map ρ.index ρ.index) := by
    intro ps
    rw [List.find?_map]
    refine congrArg _ (congrArg (List.find? · ps) (funext fun p => ?_))
    rw [Bool.eq_iff_iff]
    simp [ρ.index_injective.eq_iff]
  rw [Renaming.ofPairs, Renaming.ofPairs, List.zip_map, ← List.map_reverse, hfind]
  cases (rs.zip vs).reverse.find? fun p => p.1 == v <;> rfl

theorem distributeIndex?_relabel (vs : List IndexVar) (e : Expr) :
    (e.relabel ρ).distributeIndex? (vs.map ρ.index) =
      (e.distributeIndex? vs).map (relabel ρ) := by
  have hreadable : ∀ a : Expr, (a.relabel ρ).readable (vs.map ρ.index) = a.readable vs := by
    intro a
    simp [readable]
  have hread : ∀ a : Expr, (a.relabel ρ).operandRead (vs.map ρ.index) =
      (a.operandRead vs).relabel ρ := by
    intro a
    unfold operandRead
    rw [ty_relabel]
    split
    · rfl
    · rw [relabel_index]
  cases e with
  | neg ty a =>
    rw [relabel_neg, distributeIndex?_neg, distributeIndex?_neg, hreadable, hread]
    split <;> simp
  | binary ty op a b =>
    rw [relabel_binary, distributeIndex?_binary, distributeIndex?_binary, hreadable, hreadable,
      hread, hread]
    split <;> simp
  | prim ty op es =>
    rw [relabel_prim]
    rfl
  | _ => rfl

theorem wholeTensor_relabel (e : Expr) :
    Flattening.wholeTensor (e.relabel ρ) = (Flattening.wholeTensor e).relabel ρ := by
  cases e with
  | indexed ty t vs =>
    rw [relabel_indexed, Flattening.wholeTensor, Flattening.wholeTensor, isVar_relabel]
    split <;> rfl
  | prim ty op es =>
    rw [relabel_prim]
    exact (relabel_prim ρ op es).symm
  | _ => rfl

end Expr

end TensorIR
