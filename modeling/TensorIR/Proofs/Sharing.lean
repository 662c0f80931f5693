import TensorIR.Expr.Typed
import TensorIR.Proofs.Choices

/-! # Sharing

Where in a program a transform leaves things as they are. A node keeps its place if it comes out
unchanged or if a node around it does: that one was not put together again, and with it stays all
that is inside.

**Key idea**: a position is a path from the root. The transform that replaces chosen expressions
replaces exactly at the positions that it offers to the choice and for which it is given another
expression (`Node.gives`). What stays shared is then a matter of positions alone
(`Node.keptAt_iff`): all that has no such position in it.
-/

namespace TensorIR

/-- A node of a program. -/
inductive Node where
  | expr (e : Expr)
  | stmt (s : Stmt)

namespace Node

/-- The nodes directly inside a node, in the order in which they are gone through. -/
def parts : Node → List Node
  | expr e => e.children.map expr
  | stmt s => s.exprs.map expr ++ s.children.map stmt

/-- Induction from the parts of a node to the node. -/
theorem parts_induction {motive : Node → Prop}
    (step : ∀ n : Node, (∀ c ∈ n.parts, motive c) → motive n) (n : Node) : motive n := by
  have hexpr : ∀ e, motive (expr e) := by
    intro e
    induction e using Expr.children_induction with
    | step e ih => exact step _ (List.forall_mem_map.2 ih)
  cases n with
  | expr e => exact hexpr e
  | stmt s =>
    induction s using Stmt.children_induction with
    | step s ih =>
      exact step _ (List.forall_mem_append.2
        ⟨List.forall_mem_map.2 fun e _ => hexpr e, List.forall_mem_map.2 ih⟩)

/-! ### Positions -/

/-- The node at a position. Level by level, the position tells which part to go on into. -/
def at? : Node → List Nat → Option Node
  | n, [] => some n
  | n, i :: p => n.parts[i]?.bind fun c => c.at? p

/-- Transforms the node. -/
def transform (r : Transform Id) : Node → Transformed Node
  | expr e =>
    let out := (e.transformM r).run
    ⟨expr out.value, out.changed⟩
  | stmt s =>
    let out := (s.transformM r).run
    ⟨stmt out.value, out.changed⟩

/-- Whether what is at the position keeps its place: it comes out unchanged, or a node around it
does. -/
def KeptAt (r : Transform Id) : Node → List Nat → Prop
  | n, [] => (n.transform r).changed = false
  | n, i :: p => (n.transform r).changed = false ∨ ∃ c, n.parts[i]? = some c ∧ c.KeptAt r p

variable (f : Expr → Choice)

/-- Whether the node is an expression that is picked. -/
def isPicked : Node → Bool
  | expr e => !(f e).isWalk
  | stmt _ => false

/-- Whether the node is an expression in whose place another is put. -/
def isReplaced : Node → Bool
  | expr e => (f e).replaces
  | stmt _ => false

/-- The node at a position, if it is reached: no expression around it is picked. -/
def reached? : Node → List Nat → Option Node
  | n, [] => some n
  | n, i :: p => if n.isPicked f then none else n.parts[i]?.bind fun c => c.reached? p

/-- Whether the choice is asked at the position and gives another expression. -/
def gives (n : Node) (p : List Nat) : Bool := (n.reached? f p).any (isReplaced f)

/-- The node with others in the place of the expressions that are picked. -/
def replaced : Node → Node
  | expr e => expr (e.replaced f)
  | stmt s => stmt (s.replaced f)

/-- Whether a picked expression in it is replaced by another. -/
def touched : Node → Bool
  | expr e => e.touched f
  | stmt s => s.touched f

theorem transform_choice (n : Node) :
    n.transform (Choice.transform f) = ⟨n.replaced f, n.touched f⟩ := by
  cases n with
  | expr e => rw [transform, Expr.transformM_choice]; rfl
  | stmt s => rw [transform, Stmt.transformM_choice]; rfl

variable {f}

/-! ### One level -/

/-- A node that is not picked has the outcomes for its parts as its parts. -/
theorem parts_replaced {n : Node} (h : n.isPicked f = false) :
    (n.replaced f).parts = n.parts.map (replaced f) := by
  cases n with
  | expr e =>
    have hwalk : f e = .walk := Choice.isWalk_iff.1 (by simpa [isPicked] using h)
    rw [replaced, parts, Expr.replaced_eq, hwalk, Choice.resolve,
      Expr.children_withChildren (List.length_map _), parts, List.map_map, List.map_map]
    rfl
  | stmt s =>
    have hexprs : (s.exprs.map (Expr.replaced f)).length = s.exprs.length := List.length_map _
    have hinner : (s.children.map (Stmt.replaced f)).length = s.children.length := List.length_map _
    rw [replaced, parts, Stmt.replaced_eq, Stmt.exprs_withParts hexprs hinner,
      Stmt.children_withParts hexprs hinner, parts, List.map_append, List.map_map, List.map_map,
      List.map_map, List.map_map]
    rfl

/-- A node that is not picked is touched if one of its parts is. -/
theorem touched_of_not_picked {n : Node} (h : n.isPicked f = false) :
    n.touched f = n.parts.any (touched f) := by
  cases n with
  | expr e =>
    have hwalk : f e = .walk := Choice.isWalk_iff.1 (by simpa [isPicked] using h)
    rw [touched, Expr.touched_of_walk f hwalk, parts, List.any_map]
    rfl
  | stmt s =>
    rw [touched, Stmt.touched_eq, parts, List.any_append, List.any_map, List.any_map]
    rfl

/-- A picked node is touched if it is replaced itself. -/
theorem touched_of_picked {n : Node} (h : n.isPicked f = true) :
    n.touched f = n.isReplaced f := by
  cases n with
  | expr e =>
    rw [touched, isReplaced]
    cases hf : f e with
    | walk => rw [isPicked, hf] at h; cases h
    | keep => rw [Expr.touched_of_keep f hf]; rfl
    | put e' => rw [Expr.touched_of_put f hf]; rfl
  | stmt s => cases h

theorem isPicked_of_isReplaced {n : Node} (h : n.isReplaced f = true) : n.isPicked f = true := by
  cases n with
  | expr e => cases hf : f e <;> simp_all [isReplaced, isPicked, Choice.isWalk, Choice.replaces]
  | stmt s => cases h

theorem gives_cons_of_picked {n : Node} (h : n.isPicked f = true) (i : Nat) (p : List Nat) :
    n.gives f (i :: p) = false := by
  simp [gives, reached?, h]

theorem gives_cons {n : Node} (h : n.isPicked f = false) (i : Nat) (p : List Nat) :
    n.gives f (i :: p) = n.parts[i]?.any fun c => c.gives f p := by
  cases hi : n.parts[i]? <;> simp [gives, reached?, h, hi]

/-! ### All levels -/

/-- A node is touched exactly if another expression is given somewhere in it. -/
theorem touched_eq_false_iff (n : Node) : n.touched f = false ↔ ∀ p, n.gives f p = false := by
  induction n using parts_induction with
  | step n ih =>
    cases h : n.isPicked f with
    | true =>
      rw [touched_of_picked h]
      constructor
      · rintro hn (_ | ⟨i, p⟩)
        · exact hn
        · exact gives_cons_of_picked h i p
      · intro hn
        exact hn []
    | false =>
      have hroot : n.isReplaced f = false := by
        by_contra hn
        rw [isPicked_of_isReplaced (by simpa using hn)] at h
        cases h
      rw [touched_of_not_picked h, List.any_eq_false]
      constructor
      · rintro hn (_ | ⟨i, p⟩)
        · exact hroot
        · rw [gives_cons h]
          cases hi : n.parts[i]? with
          | none => rfl
          | some c =>
            have hc := List.mem_of_getElem? hi
            exact (ih c hc).1 (by simpa using hn c hc) p
      · intro hn c hc
        obtain ⟨i, hi⟩ := List.mem_iff_getElem?.1 hc
        have hpart : ∀ p, c.gives f p = false := by
          intro p
          have hcons := hn (i :: p)
          rwa [gives_cons h, hi] at hcons
        simpa using (ih c hc).2 hpart

/-- Whatever is reached, its outcome stands in the outcome of the whole at the same position. -/
theorem at?_replaced {n c : Node} {p : List Nat} (h : n.reached? f p = some c) :
    (n.replaced f).at? p = some (c.replaced f) := by
  induction p generalizing n with
  | nil =>
    obtain rfl : n = c := by simpa [reached?] using h
    rfl
  | cons i p ih =>
    cases hn : n.isPicked f with
    | true => simp [reached?, hn] at h
    | false =>
      obtain ⟨d, hd, hc⟩ : ∃ d, n.parts[i]? = some d ∧ d.reached? f p = some c := by
        simpa [reached?, hn, Option.bind_eq_some_iff] using h
      rw [at?, parts_replaced hn, List.getElem?_map, hd]
      exact ih hc

/-- What is at a position, and not inside an expression that is replaced, keeps its place exactly
if another expression is given nowhere in it. -/
theorem keptAt_iff {n c : Node} {p : List Nat} (hc : n.at? p = some c)
    (hp : ∀ q, q <+: p → q ≠ p → n.gives f q = false) :
    n.KeptAt (Choice.transform f) p ↔ ∀ q, n.gives f (p ++ q) = false := by
  induction p generalizing n with
  | nil =>
    rw [KeptAt, transform_choice]
    exact touched_eq_false_iff n
  | cons i p ih =>
    obtain ⟨d, hd, hc⟩ := Option.bind_eq_some_iff.1 hc
    rw [KeptAt, transform_choice]
    show n.touched f = false ∨ _ ↔ _
    have hroot : n.isReplaced f = false := hp [] List.nil_prefix (List.cons_ne_nil _ _).symm
    cases hn : n.isPicked f with
    | true =>
      -- the node is kept with all that is inside
      rw [touched_of_picked hn]
      exact iff_of_true (.inl hroot) fun q => gives_cons_of_picked hn i _
    | false =>
      have hgives : ∀ q, n.gives f (i :: q) = d.gives f q := by
        intro q
        rw [gives_cons hn, hd]
        rfl
      have hpart := ih hc fun q hq hne => by
        rw [← hgives]
        exact hp (i :: q) (List.cons_prefix_cons.2 ⟨rfl, hq⟩) fun h => hne (List.cons.inj h).2
      have hinner : (∃ c, n.parts[i]? = some c ∧ c.KeptAt (Choice.transform f) p) ↔
          ∀ q, n.gives f (i :: p ++ q) = false := by
        rw [hd]
        simpa [hgives] using hpart
      rw [hinner, or_iff_right_of_imp]
      exact fun h q => (touched_eq_false_iff n).1 h _

end Node

/-- The transform that does what is chosen is a map. Expressions and statements come out with the
picked expressions replaced and with all else as it was; a function is put together again only if
its body is. At every position that the transform reaches stands the outcome for what was there.
And what is not inside an expression that is replaced keeps its place exactly if another
expression is given nowhere in it. -/
theorem Choice.transform_shares {m : Type → Type} [Monad m] [LawfulMonad m] (f : Expr → Choice) :
    (∀ e : Expr, e.transformM (transform f : Transform m) = pure ⟨e.replaced f, e.touched f⟩) ∧
    (∀ s : Stmt, s.transformM (transform f : Transform m) = pure ⟨s.replaced f, s.touched f⟩) ∧
    (∀ (newId : m Nat) (fn : Func), fn.transformM (transform f) newId =
      if fn.touched f then (fun id => .replace (fn.replaced f id)) <$> newId
      else pure (.keep fn)) ∧
    (∀ (n c : Node) (p : List Nat), n.reached? f p = some c →
      (n.replaced f).at? p = some (c.replaced f)) ∧
    ∀ (n c : Node) (p : List Nat), n.at? p = some c →
      (∀ q, q <+: p → q ≠ p → n.gives f q = false) →
      (n.KeptAt (transform f) p ↔ ∀ q, n.gives f (p ++ q) = false) :=
  ⟨Expr.transformM_choice f, Stmt.transformM_choice f, Func.transformM_choice f,
    fun _ _ _ => Node.at?_replaced, fun _ _ _ => Node.keptAt_iff⟩

/-- Replaces every integer constant but zero by zero. -/
def Choice.clear : Expr → Choice
  | .prim _ (.literal (.int n)) _ => if n = 0 then .keep else .put (.literal (.int 0))
  | _ => .walk

/-- `x = x + 0; for (i in 0..4) x = n;` -/
def Stmt.resetting (n : Int) : Stmt :=
  let x : Var := ⟨0, "x", .int⟩
  .block [.assign x (.binaryOf .add (.ofVar x) (.literal (.int 0))),
    .forLoop ⟨1, "i", .int⟩ (.dim (.range 4)) (.assign x (.literal (.int n)))]

/-- Clearing changes the second statement of `x = x + 0; for (i in 0..4) x = 2;` and keeps the
first. -/
theorem Choice.transform_shares_resetting :
    ((Stmt.resetting 2).transformM (transform clear : Transform Id)).run = .replace (.resetting 0) ∧
      (Node.stmt (.resetting 2)).KeptAt (transform clear) [0] ∧
      ¬(Node.stmt (.resetting 2)).KeptAt (transform clear) [1] := by
  obtain ⟨_, hstmt, _, _, hkept⟩ := transform_shares (m := Id) clear
  -- nothing is replaced around a statement of the block
  have haround : ∀ i q, q <+: [i] → q ≠ [i] → (Node.stmt (.resetting 2)).gives clear q = false := by
    intro i q hq hne
    obtain rfl | ⟨t, rfl, ht⟩ := List.prefix_cons_iff.1 hq
    · rfl
    · exact absurd (by rw [List.prefix_nil.1 ht]) hne
  refine ⟨hstmt _, (hkept _ _ [0] rfl (haround 0)).2 fun q => ?_, fun h => ?_⟩
  · rw [List.singleton_append, Node.gives_cons rfl]
    exact (Node.touched_eq_false_iff (.stmt _)).1 rfl q
  · exact absurd ((hkept _ _ [1] rfl (haround 1)).1 h [0, 0]) (by decide)

end TensorIR
