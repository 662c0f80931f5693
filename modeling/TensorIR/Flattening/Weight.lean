import TensorIR.Flattening.Step
import TensorIR.Program.Induction

/-! # The weight of an expression

Flattening works on nodes it has just made, so the height of an expression does not bound its
recursion. The weight does: it counts nodes, but everything under an indexed read twice.

**Key idea**: distributing a read over an operation moves the doubling from the node to its
operands, and the node itself is counted once instead of twice. Putting lighter parts into a node
and renaming make nothing heavier.
-/

namespace TensorIR

mutual

/-- The number of nodes, with everything under an indexed read counted twice. -/
def Expr.weight : Expr → Nat
  | .var _ _ => 1
  | .prim _ _ es => Expr.weightAll es + 1
  | .indexed _ t _ => 2 * t.weight
  | .indexExpr _ _ b => b.weight + 1
  | .neg _ a => a.weight + 1
  | .binary _ _ a b => a.weight + b.weight + 1

/-- The weight of several expressions together. -/
def Expr.weightAll : List Expr → Nat
  | [] => 0
  | e :: es => e.weight + Expr.weightAll es

end

namespace Expr

theorem one_le_weight (e : Expr) : 1 ≤ e.weight := by
  induction e with
  | indexed ty t vs ih => simp only [weight]; omega
  | _ => simp [weight]

theorem weight_le_weightAll {e : Expr} {es : List Expr} (h : e ∈ es) :
    e.weight ≤ weightAll es := by
  induction es with
  | nil => cases h
  | cons a as ih =>
    simp only [weightAll]
    rcases List.mem_cons.1 h with rfl | h
    · omega
    · have := ih h; omega

@[simp] theorem weight_mapVars (f : IndexVar → IndexVar) (e : Expr) :
    (e.mapVars f).weight = e.weight := by
  cases e <;> simp [mapVars, weight]

/-- An expression that reads a tensor through index variables has at least two nodes. -/
theorem two_le_weight_of_containsIndexed {e : Expr} (h : e.containsIndexed = true) :
    2 ≤ e.weight := by
  cases e with
  | var ty v => cases h
  | prim ty op es =>
    cases es with
    | nil => cases h
    | cons a as => have := a.one_le_weight; simp only [weight, weightAll]; omega
  | indexed ty t vs => have := t.one_le_weight; simp only [weight]; omega
  | indexExpr ty vs b => have := b.one_le_weight; simp only [weight]; omega
  | neg ty a => have := a.one_le_weight; simp only [weight]; omega
  | binary ty op a b => have := a.one_le_weight; simp only [weight]; omega

theorem weight_lt_of_mem_children {c e : Expr} (h : c ∈ e.children) : c.weight < e.weight := by
  cases e with
  | var ty v => cases h
  | prim ty op es => exact Nat.lt_succ_of_le (weight_le_weightAll h)
  | binary ty op a b =>
    simp only [children, List.mem_cons, List.not_mem_nil, or_false] at h
    rcases h with rfl | rfl <;> simp only [weight] <;> omega
  | _ =>
    simp only [children, List.mem_cons, List.not_mem_nil, or_false] at h
    have := c.one_le_weight
    subst h
    simp only [weight]
    omega

/-! ### Weight and changed parts -/

/-- Parts that are not heavier make a node that is not heavier. -/
theorem weight_rebuild_le {e : Expr} {parts : List (Transformed Expr)}
    (hlen : parts.length = e.children.length)
    (hle : weightAll (Transformed.values parts) ≤ weightAll e.children) :
    (e.rebuild parts).value.weight ≤ e.weight := by
  unfold rebuild
  split
  · cases e with
    | var ty v => exact Nat.le_refl _
    | prim ty op es => exact Nat.succ_le_succ hle
    | binary ty op a b =>
      obtain _ | ⟨p, _ | ⟨q, _ | ⟨_, _⟩⟩⟩ := parts
      · cases hlen
      · cases hlen
      · simp only [Transformed.values, List.map, children, weightAll] at hle
        simp only [Transformed.value_replace, Transformed.values, List.map, withChildren, weight]
        omega
      · cases hlen
    | _ =>
      obtain _ | ⟨p, _ | ⟨_, _⟩⟩ := parts
      · cases hlen
      · simp only [Transformed.values, List.map, children, weightAll] at hle
        simp only [Transformed.value_replace, Transformed.values, List.map, withChildren, weight]
        omega
      · cases hlen
  · exact Nat.le_refl _

theorem weightAll_map_le {f : Expr → Transformed Expr} {es : List Expr}
    (h : ∀ e ∈ es, (f e).value.weight ≤ e.weight) :
    weightAll (Transformed.values (es.map f)) ≤ weightAll es := by
  induction es with
  | nil => exact Nat.le_refl _
  | cons e es ih =>
    have h1 := h e (by simp)
    have h2 := ih fun e' h' => h e' (List.mem_cons_of_mem e h')
    simp only [Transformed.values, List.map_cons, weightAll] at h2 ⊢
    omega

/-- Substitution renames within reads and makes nothing heavier. -/
theorem weight_substitute_le (ρ : Renaming) (e : Expr) :
    (e.substitute ρ).value.weight ≤ e.weight := by
  induction e generalizing ρ with
  | var ty v => exact Nat.le_refl _
  | prim ty op es ih =>
    rw [substitute_prim]
    exact weight_rebuild_le (by simp [children]) (weightAll_map_le fun e h => ih e h ρ)
  | indexed ty t vs ih =>
    have h : ((indexed ty t vs).rebuild [t.substitute ρ]).value.weight ≤ (indexed ty t vs).weight :=
      weight_rebuild_le rfl (Nat.add_le_add_right (ih ρ) 0)
    rw [substitute_indexed]
    dsimp only
    split
    · simpa using h
    · exact h
  | indexExpr ty vs b ih =>
    rw [substitute_indexExpr]
    exact weight_rebuild_le rfl (Nat.add_le_add_right (ih (ρ.without vs)) 0)
  | neg ty a ih => exact weight_rebuild_le rfl (Nat.add_le_add_right (ih ρ) 0)
  | binary ty op a b iha ihb =>
    rw [substitute_binary]
    exact weight_rebuild_le rfl
      (Nat.add_le_add (iha ρ) (Nat.add_le_add_right (ihb ρ) 0))

/-! ### Distributing makes an expression lighter -/

/-- A distributed read is scalar, and lighter than twice the tensor that is read. -/
theorem distributeIndex?_lt {vars : List IndexVar} {t d : Expr}
    (h : t.distributeIndex? vars = some d) : d.ty.isScalar = true ∧ d.weight < 2 * t.weight := by
  -- an operand is read in turn, which doubles it, or left alone
  have operand {a a' : Expr}
      (h : (if a.ty.isScalar then some a
        else if a.ty.isTensor && a.ty.order == vars.length then some (a.index vars)
        else none) = some a') : a'.ty.isScalar = true ∧ a'.weight ≤ 2 * a.weight := by
    split at h
    · cases h; exact ⟨‹_›, by omega⟩
    · split at h
      · cases h
        exact ⟨Ty.isScalar_componentTy_of_isTensor (by simp_all), Nat.le_refl _⟩
      · cases h
  cases t with
  | neg ty a =>
    obtain ⟨a', ha, rfl⟩ := Option.map_eq_some_iff.1 h
    have := operand ha
    exact ⟨this.1, by simp only [negOf, weight]; omega⟩
  | binary ty op a b =>
    obtain ⟨a', ha, h⟩ := Option.bind_eq_some_iff.1 h
    obtain ⟨b', hb, rfl⟩ := Option.map_eq_some_iff.1 h
    have h1 := operand ha
    have h2 := operand hb
    exact ⟨h1.1, by simp only [binaryOf, weight]; omega⟩
  | _ => cases h

end Expr

end TensorIR
