import TensorIR.Proofs.FirstDefinitions
import TensorIR.Proofs.Relabelling

/-! # Relabelled statements

What `TensorIR.Proofs.Relabelling` says of expressions, said of statements and functions. The check
for flatness finds the same violations in a relabelled statement, up to the texts of expressions
(`Stmt.violations_relabel`), and the declaration pass inserts the same declarations, relabelled
(`Stmt.declare_relabel`).

**Key idea**: the passes see a statement as a node over expressions and statements. What they are
seen to do to a node, one case for each kind of it, they do to a whole statement by induction.
-/

namespace TensorIR

section

variable (ρ : Relabelling)

/-! ### Nodes -/

namespace Instr

def relabel : Instr → Instr
  | .assign v e => .assign (ρ.var v) (e.relabel ρ)
  | .call rs f as => .call (rs.map ρ.var) f (as.map (·.relabel ρ))
  | .map rs f t n ps red =>
    .map (rs.map ρ.var) f (t.relabel ρ) (n.map (·.relabel ρ)) (ps.map (·.relabel ρ)) red
  | .fieldWrite t field e => .fieldWrite (t.relabel ρ) field (e.relabel ρ)
  | .tensorWrite t is e => .tensorWrite (t.relabel ρ) (is.map (·.relabel ρ)) (e.relabel ρ)
  | .store b i e => .store (b.relabel ρ) (i.relabel ρ) (e.relabel ρ)
  | .pass => .pass
  | .varDecl v => .varDecl (ρ.var v)

theorem exprs_relabel (i : Instr) : (i.relabel ρ).exprs = i.exprs.map (·.relabel ρ) := by
  cases i with
  | map rs f t n ps red => cases n <;> simp [relabel, exprs]
  | _ => simp [relabel, exprs]

theorem defined_relabel (i : Instr) : (i.relabel ρ).defined = i.defined.map ρ.var := by
  cases i <;> rfl

theorem relabel_withExprs (i : Instr) (es : List Expr) :
    (i.withExprs es).relabel ρ = (i.relabel ρ).withExprs (es.map (·.relabel ρ)) := by
  cases i with
  | assign v e => rcases es with _ | ⟨e', _ | ⟨_, _⟩⟩ <;> rfl
  | map rs f t n ps red =>
    -- how many are left for the target and its neighbours decides
    simp only [withExprs, relabel, List.length_map, ← List.map_drop, ← List.map_take]
    cases n <;> rcases es.drop ps.length with _ | ⟨t', _ | ⟨n', _ | ⟨_, _⟩⟩⟩ <;> rfl
  | fieldWrite t field e => rcases es with _ | ⟨t', _ | ⟨e', _ | ⟨_, _⟩⟩⟩ <;> rfl
  | tensorWrite t is e =>
    cases es with
    | nil => rfl
    | cons t' rest =>
      simp only [withExprs, relabel, List.map_cons, List.getLast?_map, ← List.map_dropLast]
      cases rest.getLast? <;> rfl
  | store b i e => rcases es with _ | ⟨b', _ | ⟨i', _ | ⟨e', _ | ⟨_, _⟩⟩⟩⟩ <;> rfl
  | _ => rfl

end Instr

namespace LoopDomain

def relabel : LoopDomain → LoopDomain
  | .dim d => .dim d
  | .range start stop => .range (start.relabel ρ) (stop.relabel ρ)

theorem exprs_relabel (d : LoopDomain) : (d.relabel ρ).exprs = d.exprs.map (·.relabel ρ) := by
  cases d <;> rfl

theorem relabel_withExprs (d : LoopDomain) (es : List Expr) :
    (d.withExprs es).relabel ρ = (d.relabel ρ).withExprs (es.map (·.relabel ρ)) := by
  cases d with
  | dim d => rfl
  | range start stop => rcases es with _ | ⟨start', _ | ⟨stop', _ | ⟨_, _⟩⟩⟩ <;> rfl

end LoopDomain

namespace Stmt

mutual

/-- The statement with its variables and index variables relabelled. -/
def relabel : Stmt → Stmt
  | .instr i => .instr (i.relabel ρ)
  | .forLoop v d body => .forLoop (ρ.var v) (d.relabel ρ) body.relabel
  | .ifThenElse c t none => .ifThenElse (c.relabel ρ) t.relabel none
  | .ifThenElse c t (some e) => .ifThenElse (c.relabel ρ) t.relabel (some e.relabel)
  | .block ss => .block (relabelAll ss)

/-- The statements, relabelled. -/
def relabelAll : List Stmt → List Stmt
  | [] => []
  | s :: ss => s.relabel :: relabelAll ss

end

theorem relabelAll_eq (ss : List Stmt) : relabelAll ρ ss = ss.map (relabel ρ) := by
  induction ss with
  | nil => rfl
  | cons s ss ih => rw [relabelAll, ih, List.map_cons]

@[simp] theorem relabel_block (ss : List Stmt) :
    (Stmt.block ss).relabel ρ = .block (ss.map (relabel ρ)) := by
  rw [relabel, relabelAll_eq]

@[simp] theorem relabel_assign (v : Var) (e : Expr) :
    (Stmt.assign v e).relabel ρ = .assign (ρ.var v) (e.relabel ρ) := rfl

@[simp] theorem relabel_call (rs : List Var) (f : Func) (as : List Expr) :
    (Stmt.call rs f as).relabel ρ = .call (rs.map ρ.var) f (as.map (·.relabel ρ)) := rfl

@[simp] theorem relabel_varDecl (v : Var) :
    (Stmt.varDecl v).relabel ρ = .varDecl (ρ.var v) := rfl

variable (s : Stmt)

@[simp] theorem exprs_relabel : (s.relabel ρ).exprs = s.exprs.map (·.relabel ρ) := by
  cases s with
  | instr i => exact i.exprs_relabel ρ
  | forLoop v d body => exact d.exprs_relabel ρ
  | ifThenElse c t e => cases e <;> rfl
  | block ss => rw [relabel_block]; rfl

@[simp] theorem children_relabel : (s.relabel ρ).children = s.children.map (relabel ρ) := by
  cases s with
  | ifThenElse c t e => cases e <;> rfl
  | block ss => rw [relabel_block]; rfl
  | _ => rfl

theorem relabel_withParts (es : List Expr) (ss : List Stmt) :
    (s.withParts es ss).relabel ρ =
      (s.relabel ρ).withParts (es.map (·.relabel ρ)) (ss.map (relabel ρ)) := by
  cases s with
  | instr i => exact congrArg Stmt.instr (i.relabel_withExprs ρ es)
  | forLoop v d body =>
    rcases ss with _ | ⟨body', _ | ⟨_, _⟩⟩
    · rfl
    · simp [withParts, relabel, d.relabel_withExprs ρ es]
    · rfl
  | ifThenElse c t e =>
    cases e with
    | none =>
      rcases es with _ | ⟨c', _ | ⟨_, _⟩⟩ <;> rcases ss with _ | ⟨t', _ | ⟨_, _⟩⟩ <;> rfl
    | some e =>
      rcases es with _ | ⟨c', _ | ⟨_, _⟩⟩ <;>
        rcases ss with _ | ⟨t', _ | ⟨e', _ | ⟨_, _⟩⟩⟩ <;> rfl
  | block ss => rw [relabel_block, withParts, withParts, relabel_block]

theorem relabel_rebuild (outs : List (Transformed Expr)) (inner : List (Transformed Stmt)) :
    (s.relabel ρ).rebuild (outs.map (Transformed.map (·.relabel ρ)))
        (inner.map (Transformed.map (relabel ρ))) =
      (s.rebuild outs inner).map (relabel ρ) := by
  unfold rebuild
  rw [Transformed.anyChanged_map, Transformed.anyChanged_map, Transformed.values_map,
    Transformed.values_map, ← relabel_withParts]
  split <;> rfl

theorem relabel_after (pending : List Stmt) :
    (s.after pending).relabel ρ = (s.relabel ρ).after (pending.map (relabel ρ)) := by
  unfold after
  rw [List.isEmpty_map]
  split
  · rfl
  · rw [relabel_block, List.map_append, List.map_singleton]

/-- Functions are called as before. -/
theorem callee?_relabel : (s.relabel ρ).callee? = s.callee? := by
  cases s with
  | instr i => cases i <;> rfl
  | ifThenElse c t e => cases e <;> rfl
  | block ss => rw [relabel_block]; rfl
  | _ => rfl

theorem isCall_relabel : (s.relabel ρ).isCall = s.isCall := by
  rw [isCall_eq, isCall_eq, callee?_relabel]

theorem isOrdinary_relabel : (s.relabel ρ).isOrdinary = s.isOrdinary := by
  cases s with
  | instr i => cases i <;> rfl
  | ifThenElse c t e => cases e <;> rfl
  | block ss => rw [relabel_block]; rfl
  | _ => rfl

end Stmt

/-! ### One after another -/

section

variable {V : Vocabulary} {ρ σ τ : Relabelling} (hc : Relabelling.Chain V ρ σ τ)

include hc

theorem Instr.relabel_relabel {i : Instr} (h : (Stmt.instr i).Within V) :
    (i.relabel ρ).relabel σ = i.relabel τ := by
  obtain ⟨hexprs, htargets⟩ := Stmt.Everywhere.root h
  have hmap : ∀ es : List Expr, (∀ e ∈ es, e.Within V) →
      (es.map (·.relabel ρ)).map (·.relabel σ) = es.map (·.relabel τ) := by
    intro es hes
    rw [List.map_map]
    exact List.map_congr_left fun e he => Expr.relabel_relabel hc (hes e he)
  cases i with
  | assign v e =>
    have he := Expr.relabel_relabel hc (hexprs e (by simp [Stmt.exprs, exprs]))
    exact congrArg₂ Instr.assign (hc.var v (htargets v (by simp [Stmt.targets, defined]))) he
  | call rs f as =>
    exact congrArg₂ (Instr.call · f ·) (hc.map_var htargets) (hmap as hexprs)
  | map rs f t n ps red =>
    have hrs : (rs.map ρ.var).map σ.var = rs.map τ.var := hc.map_var htargets
    have hps := hmap ps fun e he => hexprs e (by simp [Stmt.exprs, exprs, he])
    have ht := Expr.relabel_relabel hc (hexprs t (by simp [Stmt.exprs, exprs]))
    simp only [relabel, hrs, ht, hps]
    cases n with
    | none => rfl
    | some n =>
      have hn := Expr.relabel_relabel hc (hexprs n (by simp [Stmt.exprs, exprs]))
      simp only [Option.map_some, hn]
  | fieldWrite t field e =>
    have ht := Expr.relabel_relabel hc (hexprs t (by simp [Stmt.exprs, exprs]))
    have he := Expr.relabel_relabel hc (hexprs e (by simp [Stmt.exprs, exprs]))
    exact congrArg₂ (Instr.fieldWrite · field ·) ht he
  | tensorWrite t is e =>
    have ht := Expr.relabel_relabel hc (hexprs t (by simp [Stmt.exprs, exprs]))
    have his := hmap is fun e he => hexprs e (by simp [Stmt.exprs, exprs, he])
    have he := Expr.relabel_relabel hc (hexprs e (by simp [Stmt.exprs, exprs]))
    simp only [relabel, ht, his, he]
  | store b i e =>
    have hb := Expr.relabel_relabel hc (hexprs b (by simp [Stmt.exprs, exprs]))
    have hi := Expr.relabel_relabel hc (hexprs i (by simp [Stmt.exprs, exprs]))
    have he := Expr.relabel_relabel hc (hexprs e (by simp [Stmt.exprs, exprs]))
    simp only [relabel, hb, hi, he]
  | pass => rfl
  | varDecl v => exact congrArg Instr.varDecl (hc.var v (htargets v (by simp [Stmt.targets])))

theorem LoopDomain.relabel_relabel {d : LoopDomain} (h : ∀ e ∈ d.exprs, e.Within V) :
    (d.relabel ρ).relabel σ = d.relabel τ := by
  cases d with
  | dim d => rfl
  | range start stop =>
    have hstart := Expr.relabel_relabel hc (h start (by simp [exprs]))
    have hstop := Expr.relabel_relabel hc (h stop (by simp [exprs]))
    exact congrArg₂ LoopDomain.range hstart hstop

/-- A statement is relabelled node by node. -/
theorem Stmt.relabel_relabel {s : Stmt} (h : s.Within V) :
    (s.relabel ρ).relabel σ = s.relabel τ := by
  induction s with
  | instr i => exact congrArg Stmt.instr (Instr.relabel_relabel hc h)
  | forLoop v d body ih =>
    have hv := hc.var v ((Everywhere.root h).2 v (by simp [targets]))
    have hd := LoopDomain.relabel_relabel hc (Everywhere.root h).1
    have hbody := ih (h.child (by simp [children]))
    simp only [relabel, hv, hd, hbody]
  | ifThenElse c t e iht ihe =>
    have hcond := Expr.relabel_relabel hc ((Everywhere.root h).1 c (by simp [exprs]))
    have ht := iht (h.child (by simp [children]))
    cases e with
    | none => simp only [relabel, hcond, ht]
    | some e =>
      have he := ihe e rfl (h.child (by simp [children]))
      simp only [relabel, hcond, ht, he]
  | block ss ih =>
    rw [relabel_block, relabel_block, relabel_block, List.map_map]
    exact congrArg Stmt.block
      (List.map_congr_left fun s hs => ih s hs (within_block.1 h s hs))

end

@[simp] theorem Stmt.relabel_refl (s : Stmt) : s.relabel .refl = s := by
  induction s with
  | instr i =>
    cases i with
    | map rs f t n ps red => cases n <;> simp [relabel, Instr.relabel]
    | _ => simp [relabel, Instr.relabel]
  | forLoop v d body ih => cases d <;> simp [relabel, LoopDomain.relabel, ih]
  | ifThenElse c t e iht ihe =>
    cases e with
    | none => simp [relabel, iht]
    | some e => simp [relabel, iht, ihe e rfl]
  | block ss ih => rw [relabel_block, List.map_congr_left ih, List.map_id']

/-- The function with its identity, its variables and its body relabelled. -/
def Func.relabel (f : Func) : Func :=
  { f with
    id := ρ.id f.id
    args := f.args.map ρ.var
    results := f.results.map ρ.var
    body := f.body.map (Stmt.relabel ρ) }

theorem Func.relabel_relabel {V : Vocabulary} {ρ σ τ : Relabelling}
    (hc : Relabelling.Chain V ρ σ τ) {f : Func} (hid : σ.id (ρ.id f.id) = τ.id f.id)
    (h : f.Within V) : (f.relabel ρ).relabel σ = f.relabel τ := by
  have hbody : (f.body.map (Stmt.relabel ρ)).map (Stmt.relabel σ) =
      f.body.map (Stmt.relabel τ) := by
    rw [Option.map_map]
    exact Option.map_congr fun body hb => Stmt.relabel_relabel hc (h.body body hb)
  simp only [relabel, hid, hc.map_var h.args, hc.map_var h.results, hbody]

@[simp] theorem Func.relabel_refl (f : Func) : f.relabel .refl = f := by
  have hbody : f.body.map (Stmt.relabel .refl) = f.body := by
    cases f.body with
    | none => rfl
    | some body => rw [Option.map_some, body.relabel_refl]
  simp only [relabel, Relabelling.map_var_refl, hbody]
  cases f
  rfl

end

/-! ### Violations of flatness -/

/-- An error without the texts of the expressions it is about. They are written with the names of
variables, and nothing else in an error is. -/
def Error.withoutTexts : Error → Error
  | .nonScalarOperand op _ ty => .nonScalarOperand op "" ty
  | .indexArityMismatch _ expected found => .indexArityMismatch "" expected found
  | .nestedIndexExpr _ => .nestedIndexExpr ""
  | .unspilledOperand context _ => .unspilledOperand context ""
  | e => e

/-- An error, and the one about relabelled expressions in its place. -/
inductive Error.Relabelled (ρ : Relabelling) : Error → Error → Prop
  | nonScalarOperand (op : BinaryOp) (a : Expr) (ty : Ty) :
    Relabelled ρ (.nonScalarOperand op a.text ty) (.nonScalarOperand op (a.relabel ρ).text ty)
  | indexArityMismatch (a : Expr) (expected found : Nat) :
    Relabelled ρ (.indexArityMismatch a.text expected found)
      (.indexArityMismatch (a.relabel ρ).text expected found)
  | nestedIndexExpr (a : Expr) :
    Relabelled ρ (.nestedIndexExpr a.text) (.nestedIndexExpr (a.relabel ρ).text)
  | unspilledOperand (context : String) (a : Expr) :
    Relabelled ρ (.unspilledOperand context a.text) (.unspilledOperand context (a.relabel ρ).text)
  /-- Any other error. -/
  | same (e : Error) : Relabelled ρ e e

namespace Error.Relabelled

variable {ρ : Relabelling} {e e' : Error}

theorem toList {x y : Option Error} (h : Option.Rel (Relabelled ρ) x y) :
    List.Forall₂ (Relabelled ρ) x.toList y.toList := by
  cases h with
  | some h => exact .cons h .nil
  | none => exact .nil

theorem flatMap {α : Type} {f g : α → List Error} {as : List α}
    (h : ∀ a ∈ as, List.Forall₂ (Relabelled ρ) (f a) (g a)) :
    List.Forall₂ (Relabelled ρ) (as.flatMap f) (as.flatMap g) := by
  induction as with
  | nil => exact .nil
  | cons a as ih =>
    rw [List.flatMap_cons, List.flatMap_cons]
    exact List.rel_append (h a (by simp)) (ih fun a' ha' => h a' (by simp [ha']))

theorem withoutTexts (h : Relabelled ρ e e') : e'.withoutTexts = e.withoutTexts := by
  cases h <;> rfl

/-- Where names keep, errors do. -/
theorem eq (hρ : ρ.name = fun x => x) (h : Relabelled ρ e e') : e' = e := by
  cases h <;> simp only [Expr.text_relabel hρ]

end Error.Relabelled

section

variable (ρ : Relabelling)

theorem Expr.violation?_relabel (inside : Bool) (e : Expr) :
    Option.Rel (Error.Relabelled ρ) (e.violation? inside) ((e.relabel ρ).violation? inside) := by
  cases e with
  | indexed ty t vs =>
    rw [relabel_indexed, violation?, violation?, isIndexExpr_relabel, ty_relabel, List.length_map]
    split_ifs
    · exact .some (.nestedIndexExpr (.indexed ty t vs))
    · exact .some (.indexArityMismatch (.indexed ty t vs) _ _)
    · exact .none
  | indexExpr ty vs b =>
    cases inside with
    | true => exact .some (.nestedIndexExpr (.indexExpr ty vs b))
    | false => exact .none
  | prim ty op es =>
    rw [relabel_prim]
    exact .none
  | _ => exact .none

theorem Expr.violations_relabel (inside : Bool) (e : Expr) :
    List.Forall₂ (Error.Relabelled ρ) (e.violations inside) ((e.relabel ρ).violations inside) := by
  induction e using children_induction generalizing inside with
  | step e ih =>
    rw [violations_eq, violations_eq inside (e.relabel ρ), children_relabel, isIndexExpr_relabel,
      List.flatMap_map]
    refine List.rel_append (Error.Relabelled.toList (e.violation?_relabel ρ inside)) ?_
    exact Error.Relabelled.flatMap fun c hc => ih c hc _

theorem Stmt.violation?_relabel (s : Stmt) :
    Option.Rel (Error.Relabelled ρ) s.violation? (s.relabel ρ).violation? := by
  unfold violation?
  cases s with
  | instr i =>
    cases i with
    | call rs f as =>
      have hfind : (as.map (·.relabel ρ)).find? (fun a => a.ty.isWhole && !a.isVar) =
          (as.find? fun a => a.ty.isWhole && !a.isVar).map (·.relabel ρ) := by
        rw [List.find?_map]
        refine congrArg _ (congrArg (List.find? · as) (funext fun a => ?_))
        simp
      rw [relabel_call, FlatnessCheck.unspilled?, FlatnessCheck.unspilled?, hfind]
      cases as.find? fun a => a.ty.isWhole && !a.isVar with
      | none => exact .none
      | some a => exact .some (.unspilledOperand f.name a)
    | _ => exact .none
  | ifThenElse c t e => cases e <;> exact .none
  | block ss =>
    rw [relabel_block]
    exact .none
  | _ => exact .none

theorem Stmt.violations_relabel (s : Stmt) :
    List.Forall₂ (Error.Relabelled ρ) s.violations (s.relabel ρ).violations := by
  induction s using children_induction with
  | step s ih =>
    rw [violations_eq, violations_eq (s.relabel ρ), exprs_relabel, children_relabel,
      List.flatMap_map, List.flatMap_map]
    refine List.rel_append (Error.Relabelled.toList (s.violation?_relabel ρ)) ?_
    refine List.rel_append ?_ (Error.Relabelled.flatMap ih)
    exact Error.Relabelled.flatMap fun e _ => e.violations_relabel ρ false

/-! ### Declarations -/

namespace Definitions

def relabel (d : Definitions) : Definitions := ⟨d.defined.map ρ.var, d.bound.map ρ.var⟩

theorem define_relabel (d : Definitions) (v : Var) :
    (d.relabel ρ).define (ρ.var v) = (d.define v).relabel ρ := by
  simp only [define, relabel, List.contains_eq_mem, ρ.mem_map_var]
  split
  · rfl
  · rw [List.map_append, List.map_singleton]

theorem foldl_define_relabel (vs : List Var) (d : Definitions) :
    (vs.map ρ.var).foldl define (d.relabel ρ) = (vs.foldl define d).relabel ρ := by
  induction vs generalizing d with
  | nil => rfl
  | cons v vs ih => rw [List.map_cons, List.foldl_cons, define_relabel, ih, List.foldl_cons]

theorem unbind_relabel (d : Definitions) : (d.relabel ρ).unbind = d.unbind.relabel ρ := by
  rw [unbind, relabel, unbind, relabel, List.map_tail]

end Definitions

namespace Stmt

open Definitions (visitor)

theorem run_definitionsAll_relabel {ss : List Stmt} (h : ∀ s ∈ ss, ∀ d : Definitions,
      ((s.relabel ρ).visitM visitor).run (d.relabel ρ) =
        ((), ((s.visitM visitor).run d).2.relabel ρ)) (d : Definitions) :
    (visitAll visitor (ss.map (relabel ρ))).run (d.relabel ρ) =
      ((), ((visitAll visitor ss).run d).2.relabel ρ) := by
  induction ss generalizing d with
  | nil => rfl
  | cons s ss ih =>
    show (visitAll visitor (ss.map (relabel ρ))).run
      (((s.relabel ρ).visitM visitor).run (d.relabel ρ)).2 = _
    rw [h s (by simp), ih fun s' hs' => h s' (by simp [hs'])]
    rfl

/-- The collectors of a statement and of the relabelled one go side by side. -/
theorem run_definitions_relabel (s : Stmt) (d : Definitions) :
    ((s.relabel ρ).visitM visitor).run (d.relabel ρ) =
      ((), ((s.visitM visitor).run d).2.relabel ρ) := by
  induction s using children_induction generalizing d with
  | step s ih =>
    have hwalk := run_definitionsAll_relabel ρ ih
    rw [visitM_eq, visitM_eq, visitExprs_definitions, visitExprs_definitions, pure_bind, pure_bind,
      children_relabel]
    cases s with
    | instr i =>
      have hdefined := Definitions.foldl_define_relabel ρ i.defined d
      rw [← Instr.defined_relabel] at hdefined
      cases i with
      | varDecl v => rfl
      | _ => exact congrArg (Prod.mk ()) hdefined
    | forLoop v domain body =>
      show ((), ((visitAll visitor ((forLoop v domain body).children.map (relabel ρ))).run
        ((d.bind v).relabel ρ)).2.unbind) = _
      rw [hwalk, Definitions.unbind_relabel]
      rfl
    | ifThenElse c t e => cases e <;> exact hwalk d
    | block ss =>
      rw [relabel_block]
      exact hwalk d

theorem definitions_relabel (s : Stmt) : (s.relabel ρ).definitions = s.definitions.map ρ.var :=
  congrArg (fun r => r.2.defined) (s.run_definitions_relabel ρ {})

theorem undeclared_relabel (known : Declared) (s : Stmt) :
    (s.relabel ρ).undeclared (known.map ρ.var) = (s.undeclared known).map ρ.var := by
  rw [undeclared, definitions_relabel, List.filter_map]
  refine congrArg _ (List.filter_congr fun v _ => ?_)
  simp only [Function.comp, List.contains_eq_mem, ρ.mem_map_var]

theorem declared_relabel (known : Declared) (s : Stmt) :
    (s.relabel ρ).declared (known.map ρ.var) = (s.declared known).map (relabel ρ) := by
  simp [declared, undeclared_relabel, Function.comp_def]

end Stmt

/-- Relabelled statements get the declarations relabelled. -/
theorem DeclaresTo.relabel {known known' : Declared} {ss : List Stmt}
    {out : Transformed (List Stmt)} (h : DeclaresTo known ss out known') :
    DeclaresTo (known.map ρ.var) (ss.map (Stmt.relabel ρ))
      (out.map (List.map (Stmt.relabel ρ))) (known'.map ρ.var) := by
  induction h with
  | nil => exact .nil
  | varDecl _ ih => exact .varDecl ih
  | block _ _ ihi ihr =>
    have hblock := DeclaresTo.block ihi ihr
    simpa [Transformed.map] using hblock
  | @ordinary known s ss rest known' hs _ ih =>
    rw [List.map_append, ← Stmt.undeclared_relabel] at ih
    have hordinary := DeclaresTo.ordinary ((s.isOrdinary_relabel ρ).trans hs) ih
    rw [Stmt.declared_relabel, Stmt.undeclared_relabel] at hordinary
    simpa [Transformed.map] using hordinary

theorem Stmt.declare_relabel (s : Stmt) (known : Declared) :
    ((s.relabel ρ).declare.run (known.map ρ.var)).1 = (s.declare.run known).1.map (relabel ρ) := by
  by_cases hs : s.isOrdinary = true
  · rw [run_declare_of_isOrdinary hs, run_declare_of_isOrdinary ((s.isOrdinary_relabel ρ).trans hs),
      undeclared_relabel, List.isEmpty_map, declared_relabel, ← relabel_block]
    dsimp only
    split <;> rfl
  · cases s with
    | instr i =>
      cases i with
      | varDecl v => rfl
      | _ => exact absurd rfl hs
    | block ss =>
      obtain ⟨out, known', hout⟩ := exists_declaresTo known ss
      have hout' := hout.relabel ρ
      rw [relabel_block, hout.run_block hout.run, hout'.run_block hout'.run]
      simp [Transformed.map]
    | _ => exact absurd rfl hs

end

end TensorIR
