import Mathlib.Data.List.Forall2
import TensorIR.Proofs.Nodes
import TensorIR.Substitution

/-! # Putting nodes together again

Transforms share: a node none of whose parts changed is kept, and every other is put together
again. Proofs about the outcome need not tell these apart.

**Key idea**: a result that is not marked as changed is the very node that went in
(`Transformed.Faithful`). As long as this holds of the parts, the outcome is the node over the
values of its parts (`Expr.value_rebuild`, `Stmt.value_rebuild`). Substitution is the first
example; its outcome has plain recursive equations.
-/

namespace TensorIR

/-- Of two lists side by side, what stands on the right stands next to something on the left. -/
theorem exists_of_mem_right {α β : Type} {R : α → β → Prop} {as : List α} {bs : List β}
    (h : List.Forall₂ R as bs) {b : β} (hb : b ∈ bs) : ∃ a ∈ as, R a b := by
  induction h with
  | nil => cases hb
  | @cons a b' as bs hab _ ih =>
    rcases List.mem_cons.1 hb with rfl | hb
    · exact ⟨a, by simp, hab⟩
    · obtain ⟨a', ha', h'⟩ := ih hb
      exact ⟨a', by simp [ha'], h'⟩

/-- All that stands on the right has a property exactly if all that stands on the left has the one
it amounts to. -/
theorem forall_iff_of_forall₂ {α β : Type} {p : α → Prop} {q : β → Prop} {as : List α}
    {bs : List β} (h : List.Forall₂ (fun a b => q b ↔ p a) as bs) :
    (∀ b ∈ bs, q b) ↔ ∀ a ∈ as, p a := by
  induction h with
  | nil => simp
  | cons hab _ ih => rw [List.forall_mem_cons, List.forall_mem_cons, hab, ih]

/-- Two lists have the same images if what stands opposite has. -/
theorem map_eq_map_of_forall₂ {α β γ : Type} {f : α → γ} {g : β → γ} {as : List α} {bs : List β}
    (h : List.Forall₂ (fun a b => f a = g b) as bs) : as.map f = bs.map g := by
  induction h with
  | nil => rfl
  | cons hab _ ih => rw [List.map_cons, List.map_cons, hab, ih]

/-! ### Several parts -/

section

variable {m : Type → Type} [Monad m] (r : Transform m)

/-- Expressions are transformed one after another. -/
theorem Expr.transformAll_eq_mapM' (es : List Expr) :
    Expr.transformAll r es = es.mapM' (·.transformM r) := by
  induction es with
  | nil => rfl
  | cons e es ih =>
    rw [List.mapM'_cons, ← ih]
    rfl

/-- Statements are transformed one after another. -/
theorem Stmt.transformAll_eq_mapM' (ss : List Stmt) :
    Stmt.transformAll r ss = ss.mapM' (·.transformM r) := by
  induction ss with
  | nil => rfl
  | cons s ss ih =>
    rw [List.mapM'_cons, ← ih]
    rfl

end

/-! ### Results that are what went in -/

namespace Transformed

variable {α : Type}

/-- An unchanged result is the node that went in. -/
def Faithful (a : α) (out : Transformed α) : Prop := out.changed = false → out.value = a

theorem Faithful.keep (a : α) : Faithful a (.keep a) := fun _ => rfl

theorem Faithful.replace (a b : α) : Faithful a (.replace b) := fun h => by cases h

/-- Only what is not marked as changed is what went in. -/
theorem Faithful.eq_keep_iff {a : α} {out : Transformed α} (h : Faithful a out) :
    out = .keep a ↔ out.changed = false := by
  constructor
  · rintro rfl
    rfl
  · obtain ⟨value, changed⟩ := out
    rintro rfl
    rw [show value = a from h rfl]
    rfl

/-- Results that are each faithful stand next to what went in. -/
theorem forall₂_faithful_map {as : List α} {out : α → Transformed α}
    (h : ∀ a ∈ as, Faithful a (out a)) : List.Forall₂ Faithful as (as.map out) :=
  List.forall₂_map_right_iff.2 (List.forall₂_same.2 h)

theorem anyChanged_eq_false_iff {rs : List (Transformed α)} :
    anyChanged rs = false ↔ ∀ r ∈ rs, r.changed = false := by
  simp [anyChanged]

/-- If nothing was changed, the values are what went in. -/
theorem values_eq_of_unchanged {as : List α} {rs : List (Transformed α)}
    (h : List.Forall₂ Faithful as rs) (hrs : anyChanged rs = false) : values rs = as := by
  rw [anyChanged_eq_false_iff] at hrs
  induction h with
  | nil => rfl
  | cons hd _ ih =>
    simp only [List.mem_cons, forall_eq_or_imp] at hrs
    simp only [values, List.map_cons] at ih ⊢
    rw [hd hrs.1, ih hrs.2]

end Transformed

namespace Expr

/-- A node changes with any of its parts. -/
@[simp] theorem changed_rebuild (e : Expr) (parts : List (Transformed Expr)) :
    (e.rebuild parts).changed = Transformed.anyChanged parts := by
  unfold rebuild
  cases Transformed.anyChanged parts <;> rfl

theorem faithful_rebuild (e : Expr) (parts : List (Transformed Expr)) :
    Transformed.Faithful e (e.rebuild parts) := by
  unfold rebuild
  split
  · exact Transformed.Faithful.replace _ _
  · exact Transformed.Faithful.keep _

/-- Whether or not anything changed, a rebuilt node is the node over the values of its parts. -/
theorem value_rebuild {e : Expr} {parts : List (Transformed Expr)}
    (h : List.Forall₂ Transformed.Faithful e.children parts) :
    (e.rebuild parts).value = e.withChildren (Transformed.values parts) := by
  unfold rebuild
  split
  · rfl
  · next hc =>
    -- the node is kept: its parts are the values of the results
    rw [Transformed.values_eq_of_unchanged h (by simpa using hc)]
    simp

end Expr

/-- The same for a statement over its expressions and the statements inside it. -/
theorem Stmt.value_rebuild {s : Stmt} {outs : List (Transformed Expr)}
    {inner : List (Transformed Stmt)} (ho : List.Forall₂ Transformed.Faithful s.exprs outs)
    (hi : List.Forall₂ Transformed.Faithful s.children inner) :
    (s.rebuild outs inner).value
      = s.withParts (Transformed.values outs) (Transformed.values inner) := by
  unfold Stmt.rebuild
  split
  · rfl
  · next hc =>
    simp only [Bool.or_eq_true, not_or, Bool.not_eq_true] at hc
    rw [Transformed.values_eq_of_unchanged ho hc.1, Transformed.values_eq_of_unchanged hi hc.2]
    simp

/-- A statement changes with any of its expressions and of the statements inside it. -/
@[simp] theorem Stmt.changed_rebuild (s : Stmt) (outs : List (Transformed Expr))
    (inner : List (Transformed Stmt)) :
    (s.rebuild outs inner).changed =
      (Transformed.anyChanged outs || Transformed.anyChanged inner) := by
  unfold Stmt.rebuild
  cases Transformed.anyChanged outs || Transformed.anyChanged inner <;> rfl

theorem Stmt.faithful_rebuild (s : Stmt) (outs : List (Transformed Expr))
    (inner : List (Transformed Stmt)) : Transformed.Faithful s (s.rebuild outs inner) := by
  unfold Stmt.rebuild
  split
  · exact Transformed.Faithful.replace _ _
  · exact Transformed.Faithful.keep _

/-- A property of single statements holds everywhere in a statement over its parts if it holds of
the statement over the new expressions, of each of which `r` is known, and everywhere in the new
inner statements. -/
theorem Stmt.everywhere_rebuild {s : Stmt} {p : Stmt → Prop} {r : Expr → Prop}
    {outs : List (Transformed Expr)} {inner : List (Transformed Stmt)}
    (ho : List.Forall₂ (fun e out => Transformed.Faithful e out ∧ r out.value) s.exprs outs)
    (hi : List.Forall₂ (fun c out => Transformed.Faithful c out ∧ out.value.Everywhere p)
      s.children inner)
    (hnode : ∀ xs ss, xs.length = s.exprs.length → ss.length = s.children.length →
      (∀ x ∈ xs, r x) → p (s.withParts xs ss)) : (s.rebuild outs inner).value.Everywhere p := by
  rw [Stmt.value_rebuild (ho.imp fun _ _ h => h.1) (hi.imp fun _ _ h => h.1)]
  have hlen : (Transformed.values outs).length = s.exprs.length := by
    simpa [Transformed.values] using ho.length_eq.symm
  have hlen' : (Transformed.values inner).length = s.children.length := by
    simpa [Transformed.values] using hi.length_eq.symm
  refine Stmt.everywhere_iff.2 ⟨hnode _ _ hlen hlen' fun x hx => ?_, ?_⟩
  · obtain ⟨out, hout, rfl⟩ := List.mem_map.1 hx
    obtain ⟨_, _, _, hr⟩ := exists_of_mem_right ho hout
    exact hr
  · rw [Stmt.children_withParts hlen hlen']
    intro c hc
    obtain ⟨out, hout, rfl⟩ := List.mem_map.1 hc
    obtain ⟨_, _, _, hp⟩ := exists_of_mem_right hi hout
    exact hp

/-- A statement none of whose parts changed is kept. -/
theorem Stmt.rebuild_keep (s : Stmt) (es : List Expr) (ss : List Stmt) :
    s.rebuild (es.map .keep) (ss.map .keep) = .keep s := by
  simp [rebuild, Transformed.anyChanged]

/-! ### Renamings -/

namespace Renaming

/-- A new name is one of those paired with the old name. -/
theorem mem_of_ofPairs {ps : List (IndexVar × IndexVar)} {v w : IndexVar}
    (h : ofPairs ps v = some w) : (v, w) ∈ ps := by
  obtain ⟨⟨v', w'⟩, hfind, rfl⟩ := Option.map_eq_some_iff.1 h
  have hv : v' = v := by simpa using List.find?_some hfind
  have hmem := List.mem_of_find?_eq_some hfind
  rw [List.mem_reverse] at hmem
  exact hv ▸ hmem

theorem without_eq_some {ρ : Renaming} {vs : List IndexVar} {v w : IndexVar} :
    ρ.without vs v = some w ↔ v ∉ vs ∧ ρ v = some w := by
  unfold without
  split <;> simp_all

/-- A variable has no new name if there is no pair for it. -/
theorem ofPairs_eq_none_iff {ps : List (IndexVar × IndexVar)} {v : IndexVar} :
    ofPairs ps v = none ↔ ∀ w, (v, w) ∉ ps := by
  unfold ofPairs
  rw [Option.map_eq_none_iff, List.find?_eq_none]
  constructor
  · intro h w hw
    exact h (v, w) (List.mem_reverse.2 hw) (by simp)
  · rintro h ⟨v', w⟩ hw hv
    have hv' : v' = v := by simpa using hv
    exact h w (hv' ▸ List.mem_reverse.1 hw)

/-- A read gives new names to the result variables and to no others. -/
theorem ofPairs_zip_eq_none_iff {rs vs : List IndexVar} (h : rs.length = vs.length)
    {v : IndexVar} : ofPairs (rs.zip vs) v = none ↔ v ∉ rs := by
  rw [ofPairs_eq_none_iff]
  constructor
  · intro hv hmem
    rw [← List.map_fst_zip (Nat.le_of_eq h)] at hmem
    obtain ⟨⟨v', w⟩, hp, rfl⟩ := List.mem_map.1 hmem
    exact hv w hp
  · intro hv w hw
    exact hv (List.of_mem_zip hw).1

end Renaming

namespace Expr

/-! ### The value of a substitution, node by node -/

section

variable (ρ : Renaming) (ty : Ty)

/-- An expression in which nothing was renamed is the expression itself. -/
theorem faithful_substitute (e : Expr) : Transformed.Faithful e (e.substitute ρ) := by
  cases e with
  | var ty v => exact Transformed.Faithful.keep _
  | prim ty op es => rw [substitute_prim]; exact faithful_rebuild _ _
  | indexed ty t vs =>
    rw [substitute_indexed]
    dsimp only
    split
    · exact Transformed.Faithful.replace _ _
    · exact faithful_rebuild _ _
  | indexExpr ty vs b => exact faithful_rebuild _ _
  | neg ty a => exact faithful_rebuild _ _
  | binary ty op a b => rw [substitute_binary]; exact faithful_rebuild _ _

theorem value_substitute_prim (op : Prim) (es : List Expr) :
    ((prim ty op es).substitute ρ).value =
      .prim ty op (es.map fun e => (e.substitute ρ).value) := by
  rw [substitute_prim, value_rebuild]
  · simp [withChildren, Transformed.values]
  · exact Transformed.forall₂_faithful_map fun e _ => faithful_substitute ρ e

theorem value_substitute_indexed (t : Expr) (vs : List IndexVar) :
    ((indexed ty t vs).substitute ρ).value
      = .indexed ty (t.substitute ρ).value (vs.map ρ.apply) := by
  have h : ((indexed ty t vs).rebuild [t.substitute ρ]).value
      = .indexed ty (t.substitute ρ).value vs :=
    value_rebuild (.cons (faithful_substitute ρ t) .nil)
  rw [substitute_indexed]
  dsimp only
  split
  · simp [h, mapVars]
  · next hv =>
    rw [h]
    -- a read none of whose variables has a new name keeps them
    have hvs : vs.map ρ.apply = vs := by
      refine (List.map_congr_left fun v hmem => ?_).trans (List.map_id vs)
      have hnone : ρ v = none := by
        simpa [Renaming.renames] using fun h => hv (List.any_eq_true.2 ⟨v, hmem, h⟩)
      simp [Renaming.apply, hnone]
    rw [hvs]

theorem value_substitute_indexExpr (vs : List IndexVar) (b : Expr) :
    ((indexExpr ty vs b).substitute ρ).value
      = .indexExpr ty vs (b.substitute (ρ.without vs)).value := by
  rw [substitute_indexExpr]
  exact value_rebuild (.cons (faithful_substitute _ b) .nil)

theorem value_substitute_neg (a : Expr) :
    ((neg ty a).substitute ρ).value = .neg ty (a.substitute ρ).value :=
  value_rebuild (.cons (faithful_substitute _ a) .nil)

theorem value_substitute_binary (op : BinaryOp) (a b : Expr) :
    ((binary ty op a b).substitute ρ).value
      = .binary ty op (a.substitute ρ).value (b.substitute ρ).value := by
  rw [substitute_binary]
  exact value_rebuild (.cons (faithful_substitute _ a) (.cons (faithful_substitute _ b) .nil))

end

/-- Substitution keeps what neither the parts of a node nor its index variables tell. -/
theorem keeps_substitute {α : Type} {f : Expr → α}
    (hprim : ∀ ty op es es', f (.prim ty op es) = f (.prim ty op es'))
    (hindexed : ∀ ty t vs t' vs', f (.indexed ty t vs) = f (.indexed ty t' vs'))
    (hindexExpr : ∀ ty vs b b', f (.indexExpr ty vs b) = f (.indexExpr ty vs b'))
    (hneg : ∀ ty a a', f (.neg ty a) = f (.neg ty a'))
    (hbinary : ∀ ty op a b a' b', f (.binary ty op a b) = f (.binary ty op a' b'))
    (ρ : Renaming) (e : Expr) : f (e.substitute ρ).value = f e := by
  cases e with
  | var ty v => rfl
  | prim ty op es => rw [value_substitute_prim, hprim]
  | indexed ty t vs => rw [value_substitute_indexed, hindexed]
  | indexExpr ty vs b => rw [value_substitute_indexExpr, hindexExpr]
  | neg ty a => rw [value_substitute_neg, hneg]
  | binary ty op a b => rw [value_substitute_binary, hbinary]

/-- Substitution keeps types. -/
@[simp] theorem ty_substitute (ρ : Renaming) (e : Expr) : (e.substitute ρ).value.ty = e.ty := by
  apply keeps_substitute <;> intros <;> rfl

@[simp] theorem isIndexed_substitute (ρ : Renaming) (e : Expr) :
    (e.substitute ρ).value.isIndexed = e.isIndexed := by
  apply keeps_substitute <;> intros <;> rfl

@[simp] theorem isIndexExpr_substitute (ρ : Renaming) (e : Expr) :
    (e.substitute ρ).value.isIndexExpr = e.isIndexExpr := by
  apply keeps_substitute <;> intros <;> rfl

/-- A property of single nodes that renaming keeps stays true everywhere. What the property takes
of the new names may depend on the old ones. -/
theorem Everywhere.substitute {p : Expr → Prop} {R : IndexVar → IndexVar → Prop} {e : Expr}
    {ρ : Renaming} (h : e.Everywhere p) (hρ : ∀ v w, ρ v = some w → R v w)
    (hnode : ∀ n ρ, (∀ v w, ρ v = some w → R v w) → p n → p (n.substitute ρ).value) :
    (e.substitute ρ).value.Everywhere p := by
  have hroot := hnode e ρ hρ h.root
  induction e generalizing ρ with
  | var ty v => exact h
  | prim ty op es ih =>
    rw [value_substitute_prim] at hroot ⊢
    refine everywhere_prim.2 ⟨hroot, fun e he => ?_⟩
    obtain ⟨e', he', rfl⟩ := List.mem_map.1 he
    exact ih e' he' (h.child he') hρ (hnode e' ρ hρ (h.child he').root)
  | indexed ty t vs ih =>
    have ht := (everywhere_indexed.1 h).2
    rw [value_substitute_indexed] at hroot ⊢
    exact everywhere_indexed.2 ⟨hroot, ih ht hρ (hnode t ρ hρ ht.root)⟩
  | indexExpr ty vs b ih =>
    have hb := (everywhere_indexExpr.1 h).2
    -- inside, the result variables keep their names
    have hρ' : ∀ v w, ρ.without vs v = some w → R v w := fun v w hw =>
      hρ v w (Renaming.without_eq_some.1 hw).2
    rw [value_substitute_indexExpr] at hroot ⊢
    exact everywhere_indexExpr.2 ⟨hroot, ih hb hρ' (hnode b _ hρ' hb.root)⟩
  | neg ty a ih =>
    have ha := (everywhere_neg.1 h).2
    rw [value_substitute_neg] at hroot ⊢
    exact everywhere_neg.2 ⟨hroot, ih ha hρ (hnode a ρ hρ ha.root)⟩
  | binary ty op a b iha ihb =>
    obtain ⟨_, ha, hb⟩ := everywhere_binary.1 h
    rw [value_substitute_binary] at hroot ⊢
    exact everywhere_binary.2 ⟨hroot, iha ha hρ (hnode a ρ hρ ha.root),
      ihb hb hρ (hnode b ρ hρ hb.root)⟩

end Expr

end TensorIR
