import TensorIR.Program

/-! # Equality of programs

Two programs are equal when they agree node by node, types included. Floats compare as
numbers, so this relation is not reflexive: an expression with a NaN differs from itself.

Functions are equal when they have the same identity, whatever they contain, or else when they
agree in everything but the identity.
-/

namespace TensorIR

mutual

/-- Structural comparison of expressions. -/
def Expr.same : Expr → Expr → Bool
  | .var ty v, .var ty' v' => ty == ty' && v == v'
  | .prim ty op es, .prim ty' op' es' => ty == ty' && op.same op' && Expr.sameAll es es'
  | .indexed ty t vs, .indexed ty' t' vs' => ty == ty' && t.same t' && vs == vs'
  | .indexExpr ty vs b, .indexExpr ty' vs' b' => ty == ty' && vs == vs' && b.same b'
  | .neg ty a, .neg ty' a' => ty == ty' && a.same a'
  | .binary ty op a b, .binary ty' op' a' b' =>
    ty == ty' && op == op' && a.same a' && b.same b'
  | _, _ => false

/-- Comparison in order. -/
def Expr.sameAll : List Expr → List Expr → Bool
  | [], [] => true
  | e :: es, e' :: es' => e.same e' && Expr.sameAll es es'
  | _, _ => false

/-- Comparison of optional expressions. -/
def Expr.sameOption : Option Expr → Option Expr → Bool
  | none, none => true
  | some e, some e' => e.same e'
  | _, _ => false

/-- Comparison of operations. -/
def Prim.same : Prim → Prim → Bool
  | .literal l, .literal l' => l.sameValue l'
  | .fieldRead f, .fieldRead f' => f == f'
  | .tensorRead, .tensorRead => true
  | .tupleRead, .tupleRead => true
  | .edgeRead k, .edgeRead k' => k == k'
  | .length d, .length d' => d == d'
  | .load, .load => true
  | .call f, .call f' => f.same f'
  | _, _ => false

/-- Comparison of instructions. -/
def Instr.same : Instr → Instr → Bool
  | .assign v e, .assign v' e' => v == v' && e.same e'
  | .call rs f es, .call rs' f' es' => rs == rs' && f.same f' && Expr.sameAll es es'
  | .map rs f t n ps red, .map rs' f' t' n' ps' red' =>
    rs == rs' && f.same f' && t.same t' && Expr.sameOption n n' && Expr.sameAll ps ps'
      && red == red'
  | .fieldWrite t field e, .fieldWrite t' field' e' => t.same t' && field == field' && e.same e'
  | .tensorWrite t is e, .tensorWrite t' is' e' => t.same t' && Expr.sameAll is is' && e.same e'
  | .store b i e, .store b' i' e' => b.same b' && i.same i' && e.same e'
  | .pass, .pass => true
  | .varDecl v, .varDecl v' => v == v'
  | _, _ => false

/-- Comparison of loop domains. -/
def LoopDomain.same : LoopDomain → LoopDomain → Bool
  | .dim d, .dim d' => d == d'
  | .range a b, .range a' b' => a.same a' && b.same b'
  | _, _ => false

/-- Structural comparison of statements. -/
def Stmt.same : Stmt → Stmt → Bool
  | .instr i, .instr i' => i.same i'
  | .forLoop v d body, .forLoop v' d' body' => v == v' && d.same d' && body.same body'
  | .ifThenElse c t e, .ifThenElse c' t' e' => c.same c' && t.same t' && Stmt.sameOption e e'
  | .block ss, .block ss' => Stmt.sameAll ss ss'
  | _, _ => false

/-- Comparison in order. -/
def Stmt.sameAll : List Stmt → List Stmt → Bool
  | [], [] => true
  | s :: ss, s' :: ss' => s.same s' && Stmt.sameAll ss ss'
  | _, _ => false

/-- Comparison of optional statements. -/
def Stmt.sameOption : Option Stmt → Option Stmt → Bool
  | none, none => true
  | some s, some s' => s.same s'
  | _, _ => false

/-- Comparison of functions: by identity first, then by content. -/
def Func.same : Func → Func → Bool
  | ⟨id, name, kind, args, results, body⟩, ⟨id', name', kind', args', results', body'⟩ =>
    id == id' ||
      (name == name' && kind == kind' && args == args' && results == results'
        && Stmt.sameOption body body')

end

end TensorIR
