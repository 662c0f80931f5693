import TensorIR.Expr.Typed
import TensorIR.Proofs.Lexing

/-! # The grammar of arithmetic

How tokens are read (`Reads`): parentheses and words, then signs, then products and quotients, then
sums and differences, operators of one strength from left to right. There is one way to read at most
(`Reads.unique`).

**Key idea**: tokens can be read from left to right with nothing tried twice. All there is to
remember of an expression that is not complete is the sum and the product that wait for their right
operands, the signs in front of the operand, and the same for each parenthesis that is open
(`Stage`). Every way to read takes the same steps (`Reads.steps`), so all end with the same
expression.
-/

namespace TensorIR

/-- The strength of a sum or a product. -/
def BinaryOp.strength (o : BinaryOp) : Nat := if o.isSum then 1 else 2

/-- Numbers, and the names of the variables at hand. -/
def readWord (vs : List Var) (w : List Char) : Option Expr :=
  match readNumeral w with
  | some l => some (.literal l)
  | none => (vs.find? fun v => v.name.toList = w).map .ofVar

/-- The tokens are an expression of at least the given strength. -/
inductive Reads (vs : List Var) : Nat → List Token → Expr → Prop
  | word {w : List Char} {e : Expr} : readWord vs w = some e → Reads vs 4 [.word w] e
  | paren {ts : List Token} {e : Expr} :
    Reads vs 1 ts e → Reads vs 4 (.opening :: (ts ++ [.closing])) e
  | neg {ts : List Token} {e : Expr} : Reads vs 3 ts e → Reads vs 3 (.op .sub :: ts) e.negOf
  | binary {o : BinaryOp} {ts ts' : List Token} {a b : Expr} :
    Reads vs o.strength ts a → Reads vs (o.strength + 1) ts' b →
      Reads vs o.strength (ts ++ .op o :: ts') (.binaryOf o a b)
  | tighter {n : Nat} {ts : List Token} {e : Expr} : Reads vs (n + 1) ts e → Reads vs n ts e

theorem Reads.of_le {vs : List Var} {m n : Nat} {ts : List Token} {e : Expr} (hle : m ≤ n)
    (h : Reads vs n ts e) : Reads vs m ts e := by
  induction hle with
  | refl => exact h
  | step _ ih => exact ih h.tighter

/-! ### Reading from left to right -/

/-- A left operand and its operator. -/
abbrev Waiting := Option (Expr × BinaryOp)

/-- A left operand gets its right one. -/
def Waiting.attach : Waiting → Expr → Expr
  | none, e => e
  | some (a, o), e => .binaryOf o a e

/-- What waits for an operand. -/
structure Frame where
  sum : Waiting
  product : Waiting
  signs : Nat

/-- The product that is complete with an operand. -/
def Frame.close (f : Frame) (e : Expr) : Expr := f.product.attach (Expr.negOf^[f.signs] e)

/-- How far an expression is read. For each open parenthesis there is what waits outside. -/
inductive Stage where
  /-- An operand comes next. -/
  | before (f : Frame) (outer : List Frame)
  /-- The product so far, behind an operand. -/
  | behind (sum : Waiting) (product : Expr) (outer : List Frame)

/-- Reads a token. -/
def Stage.step (vs : List Var) : Stage → Token → Option Stage
  | .before f outer, .word w => (readWord vs w).map fun e => .behind f.sum (f.close e) outer
  | .before f outer, .op .sub => some (.before { f with signs := f.signs + 1 } outer)
  | .before f outer, .opening => some (.before ⟨none, none, 0⟩ (f :: outer))
  | .behind sum product outer, .op o =>
    if o.isSum then some (.before ⟨some (sum.attach product, o), none, 0⟩ outer)
    else some (.before ⟨sum, some (product, o), 0⟩ outer)
  | .behind sum product (f :: outer), .closing =>
    some (.behind f.sum (f.close (sum.attach product)) outer)
  | _, _ => none

namespace Stage

variable (vs : List Var) {ts : List Token} {e : Expr}

/-- Reads tokens, one after the other. -/
def run (st : Stage) (ts : List Token) : Option Stage := ts.foldlM (step vs) st

theorem run_cons {st st' : Stage} {t : Token} (h : st.step vs t = some st') (ts : List Token) :
    st.run vs (t :: ts) = st'.run vs ts := by
  rw [run, List.foldlM_cons, h]
  rfl

theorem run_append {st st' : Stage} (h : st.run vs ts = some st') (ts' : List Token) :
    st.run vs (ts ++ ts') = st'.run vs ts' := by
  rw [run] at h
  rw [run, List.foldlM_append, h]
  rfl

/-- The tokens are one operand, whatever waits for it. -/
def IsOperand (ts : List Token) (e : Expr) : Prop :=
  ∀ f outer, (before f outer).run vs ts = some (behind f.sum (f.close e) outer)

/-- The tokens are the product next to a sum that waits. -/
def IsProduct (ts : List Token) (e : Expr) : Prop :=
  ∀ sum outer, (before ⟨sum, none, 0⟩ outer).run vs ts = some (behind sum e outer)

/-- The tokens are a sum. -/
def IsSum (ts : List Token) (e : Expr) : Prop :=
  ∀ outer, ∃ sum product, (before ⟨none, none, 0⟩ outer).run vs ts =
    some (behind sum product outer) ∧ sum.attach product = e

variable {vs}

theorem IsOperand.isProduct (h : IsOperand vs ts e) : IsProduct vs ts e := fun sum outer =>
  h ⟨sum, none, 0⟩ outer

theorem IsProduct.isSum (h : IsProduct vs ts e) : IsSum vs ts e := fun outer =>
  ⟨none, e, h none outer, rfl⟩

theorem isOperand_word {w : List Char} (h : readWord vs w = some e) :
    IsOperand vs [.word w] e := by
  intro f outer
  have hstep : (before f outer).step vs (.word w) = some (behind f.sum (f.close e) outer) := by
    rw [step, h]
    rfl
  exact run_cons vs hstep []

theorem IsSum.paren (h : IsSum vs ts e) :
    IsOperand vs (.opening :: (ts ++ [.closing])) e := by
  intro f outer
  obtain ⟨sum, product, hrun, rfl⟩ := h (f :: outer)
  exact (run_cons vs rfl _).trans (run_append vs hrun _)

theorem IsOperand.neg (h : IsOperand vs ts e) : IsOperand vs (.op .sub :: ts) e.negOf := by
  intro f outer
  exact (run_cons vs rfl ts).trans (h { f with signs := f.signs + 1 } outer)

section Binary

variable {o : BinaryOp} {ts' : List Token} {a b : Expr}

theorem IsProduct.binary (ho : o.isSum = false) (ha : IsProduct vs ts a)
    (hb : IsOperand vs ts' b) : IsProduct vs (ts ++ .op o :: ts') (.binaryOf o a b) := by
  intro sum outer
  have hstep : (behind sum a outer).step vs (.op o) =
      some (before ⟨sum, some (a, o), 0⟩ outer) := by
    rw [step, ho]
    rfl
  exact (run_append vs (ha sum outer) _).trans ((run_cons vs hstep ts').trans (hb _ outer))

theorem IsSum.binary (ho : o.isSum = true) (ha : IsSum vs ts a) (hb : IsProduct vs ts' b) :
    IsSum vs (ts ++ .op o :: ts') (.binaryOf o a b) := by
  intro outer
  obtain ⟨sum, product, hrun, rfl⟩ := ha outer
  have hstep : (behind sum product outer).step vs (.op o) =
      some (before ⟨some (sum.attach product, o), none, 0⟩ outer) := by
    rw [step, ho]
    rfl
  exact ⟨_, b, (run_append vs hrun _).trans ((run_cons vs hstep ts').trans (hb _ outer)), rfl⟩

end Binary

end Stage

namespace Reads

variable {vs : List Var} {n : Nat} {ts : List Token} {e e' : Expr}

/-- The stages that tokens lead through, at each strength. -/
theorem steps (h : Reads vs n ts e) :
    (3 ≤ n → Stage.IsOperand vs ts e) ∧ (2 ≤ n → Stage.IsProduct vs ts e) ∧
      Stage.IsSum vs ts e := by
  -- an operand is a product by itself, and a product is a sum
  induction h with
  | word hw =>
    have hop := Stage.isOperand_word hw
    exact ⟨fun _ => hop, fun _ => hop.isProduct, hop.isProduct.isSum⟩
  | paren _ ih =>
    have hop := ih.2.2.paren
    exact ⟨fun _ => hop, fun _ => hop.isProduct, hop.isProduct.isSum⟩
  | neg _ ih =>
    have hop := (ih.1 le_rfl).neg
    exact ⟨fun _ => hop, fun _ => hop.isProduct, hop.isProduct.isSum⟩
  | @binary o _ _ _ _ _ _ iha ihb =>
    cases ho : o.isSum with
    | true =>
      have hn : o.strength = 1 := if_pos ho
      rw [hn] at ihb ⊢
      exact ⟨by omega, by omega, iha.2.2.binary ho (ihb.2.1 le_rfl)⟩
    | false =>
      have hn : o.strength = 2 := by simp [BinaryOp.strength, ho]
      rw [hn] at iha ihb ⊢
      have hproduct := (iha.2.1 le_rfl).binary ho (ihb.1 le_rfl)
      exact ⟨by omega, fun _ => hproduct, hproduct.isSum⟩
  | tighter _ ih => exact ⟨fun hn => ih.1 (by omega), fun hn => ih.2.1 (by omega), ih.2.2⟩

/-- There is one expression at most. -/
theorem unique (h : Reads vs n ts e) (h' : Reads vs n ts e') : e = e' := by
  -- at any strength the tokens are a sum, and both lead to where reading them ends
  obtain ⟨sum, product, hrun, rfl⟩ := h.steps.2.2 []
  obtain ⟨sum', product', hrun', rfl⟩ := h'.steps.2.2 []
  rw [hrun, Option.some_inj, Stage.behind.injEq] at hrun'
  rw [hrun'.1, hrun'.2.1]

end Reads

end TensorIR
