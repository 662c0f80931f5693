import TensorIR.Expr.Typed
import TensorIR.Proofs.Declaring

/-! # Where declarations stand

In a body without declarations, every variable that is defined outside all loops that bind it, and
that is no parameter or result, is declared exactly once, right before the first statement of the
body in which it is so defined (`Func.insertDeclarations_exact`).

**Key idea**: blocks only group statements. Read as one sequence, with blocks expanded
(`Stmt.sequence`), the body gets in front of each statement the declarations of what is defined
there and in no statement before (`Stmt.withDeclarations`). Having a declaration is then the same
as being known from the start or defined before.
-/

namespace TensorIR

namespace Stmt

/-! ### Definitions and declarations -/

mutual

/-- The variables that a statement defines outside every loop that binds them, in order. -/
def outerDefs : Stmt → List Var
  | .instr i => i.defined
  | .forLoop v _ body => body.outerDefs.filter (· != v)
  | .ifThenElse _ t none => t.outerDefs
  | .ifThenElse _ t (some e) => t.outerDefs ++ e.outerDefs
  | .block ss => outerDefsAll ss

/-- The variables that several statements so define, in order. -/
def outerDefsAll : List Stmt → List Var
  | [] => []
  | s :: ss => s.outerDefs ++ outerDefsAll ss

end

theorem outerDefsAll_eq (ss : List Stmt) : outerDefsAll ss = ss.flatMap outerDefs := by
  induction ss with
  | nil => rfl
  | cons s ss ih => rw [outerDefsAll, ih, List.flatMap_cons]

/-- The variable that the statement declares, if it is a declaration. -/
def declaredVar? : Stmt → Option Var
  | .instr (.varDecl v) => some v
  | _ => none

/-- The variables that are declared in a statement or inside it, once for each declaration. -/
def declaredVars (s : Stmt) : List Var := s.nodes.filterMap declaredVar?

theorem declaredVars_eq (s : Stmt) :
    s.declaredVars = s.declaredVar?.toList ++ s.children.flatMap declaredVars := by
  unfold declaredVars
  rw [nodes_eq, List.filterMap_cons, List.filterMap_flatMap]
  cases s.declaredVar? <;> rfl

end Stmt

namespace Definitions

/-! ### What is collected -/

/-- A variable that a definition would add. -/
def New (d : Definitions) (v : Var) : Prop := v ∉ d.bound ∧ v ∉ d.defined

instance (d : Definitions) (v : Var) : Decidable (d.New v) := inferInstanceAs (Decidable (_ ∧ _))

theorem define_eq (d : Definitions) (v : Var) :
    d.define v = if d.New v then { d with defined := d.defined ++ [v] } else d := by
  unfold define New
  by_cases hb : v ∈ d.bound <;> by_cases hd : v ∈ d.defined <;> simp [hb, hd]

/-- Variables defined one after another are added at their first definitions. -/
theorem foldl_define (d : Definitions) (vs : List Var) :
    vs.foldl define d = { d with defined := d.defined ++ (vs.filter (d.New ·)).eraseDups } := by
  induction vs generalizing d with
  | nil => simp
  | cons v vs ih =>
    rw [List.foldl_cons, ih, define_eq]
    by_cases hv : d.New v
    · -- from now on the variable is one that was defined
      have hnew : ∀ w, New { d with defined := d.defined ++ [v] } w ↔ w ≠ v ∧ d.New w := by
        intro w
        simp [New]
        tauto
      rw [if_pos hv, List.filter_cons_of_pos (by simpa using hv), List.eraseDups_cons,
        List.filter_filter]
      simp only [List.append_assoc, List.singleton_append]
      congr 4
      refine List.filter_congr fun w _ => ?_
      rw [Bool.eq_iff_iff]
      simp [hnew]
    · rw [if_neg hv, List.filter_cons_of_neg (by simpa using hv)]

/-- While a variable is bound, its definitions are passed over. -/
theorem foldl_define_bind (d : Definitions) (v : Var) (vs : List Var) :
    (vs.foldl define (d.bind v)).unbind = (vs.filter (· != v)).foldl define d := by
  rw [foldl_define, foldl_define, List.filter_filter]
  have hnew : (vs.filter ((d.bind v).New ·)) = vs.filter fun w => decide (d.New w) && w != v := by
    refine List.filter_congr fun w _ => ?_
    rw [Bool.eq_iff_iff]
    simp only [Bool.and_eq_true, decide_eq_true_eq, bne_iff_ne]
    simp only [New, bind, List.mem_cons, not_or]
    tauto
  rw [hnew]
  rfl

end Definitions

namespace Stmt

/-- A visit to expressions collects nothing. -/
theorem visitExprs_definitions (es : List Expr) :
    Expr.visitAll Definitions.visitor es = pure () := by
  induction es with
  | nil => rfl
  | cons e es ih =>
    rw [Expr.visitAll, ih, Expr.visitM_eq]
    rfl

/-- What a visit collects of the statements it goes through, given what it collects of each. -/
theorem run_definitionsAll {ss : List Stmt} (h : ∀ s ∈ ss, ∀ d : Definitions,
      (s.visitM Definitions.visitor).run d = ((), s.outerDefs.foldl Definitions.define d))
    (d : Definitions) :
    (visitAll Definitions.visitor ss).run d =
      ((), (ss.flatMap outerDefs).foldl Definitions.define d) := by
  induction ss generalizing d with
  | nil => rfl
  | cons s ss ih =>
    show (visitAll Definitions.visitor ss).run ((s.visitM Definitions.visitor).run d).2 = _
    rw [h s (by simp), ih fun t ht => h t (by simp [ht]), List.flatMap_cons, List.foldl_append]

/-- Of a statement without declarations, the definitions outside all loops that bind them are
collected. -/
theorem run_definitions {s : Stmt} (h : s.declaredVars = []) (d : Definitions) :
    (s.visitM Definitions.visitor).run d = ((), s.outerDefs.foldl Definitions.define d) := by
  induction s using children_induction generalizing d with
  | step s ih =>
    obtain ⟨hroot, hinner⟩ := List.append_eq_nil_iff.1 (s.declaredVars_eq ▸ h)
    have hwalk := run_definitionsAll fun c hc =>
      ih c hc (List.flatMap_eq_nil_iff.1 hinner c hc)
    rw [visitM_eq, visitExprs_definitions, pure_bind]
    cases s with
    | instr i =>
      cases i with
      | varDecl v => cases hroot
      | _ => rfl
    | forLoop v dom body =>
      show ((), ((visitAll Definitions.visitor [body]).run (d.bind v)).2.unbind) = _
      have hbody := hwalk (d.bind v)
      simp only [children, List.flatMap_cons, List.flatMap_nil, List.append_nil] at hbody
      rw [hbody, Definitions.foldl_define_bind]
      rfl
    | ifThenElse c t e =>
      show (visitAll Definitions.visitor _).run d = _
      rw [hwalk d]
      cases e <;> simp [children, outerDefs]
    | block ss =>
      show (visitAll Definitions.visitor _).run d = _
      rw [hwalk d, outerDefs, outerDefsAll_eq]
      rfl

/-- The definitions of a statement without declarations, each at its first place. -/
theorem definitions_eq {s : Stmt} (h : s.declaredVars = []) :
    s.definitions = s.outerDefs.eraseDups := by
  unfold definitions
  rw [run_definitions h, Definitions.foldl_define]
  simp [Definitions.New]

theorem isVarDecl_eq_false {s : Stmt} (h : s.declaredVars = []) : s.isVarDecl = false := by
  cases s with
  | instr i =>
    cases i with
    | varDecl v => cases h
    | _ => rfl
  | _ => rfl

/-! ### Sequences -/

mutual

/-- The statements that a statement groups, blocks within blocks expanded. What is inside loops
and conditionals stays there. -/
def sequence : Stmt → List Stmt
  | .instr i => [.instr i]
  | .forLoop v d body => [.forLoop v d body]
  | .ifThenElse c t e => [.ifThenElse c t e]
  | .block ss => sequenceAll ss

/-- The statements that several statements group, in order. -/
def sequenceAll : List Stmt → List Stmt
  | [] => []
  | s :: ss => s.sequence ++ sequenceAll ss

end

theorem sequenceAll_eq (ss : List Stmt) : sequenceAll ss = ss.flatMap sequence := by
  induction ss with
  | nil => rfl
  | cons s ss ih => rw [sequenceAll, ih, List.flatMap_cons]

theorem sequence_of_not_block {s : Stmt} (h : s.isBlock = false) : s.sequence = [s] := by
  cases s with
  | block ss => cases h
  | _ => rfl

theorem sequence_of_isOrdinary {s : Stmt} (h : s.isOrdinary = true) : s.sequence = [s] := by
  refine sequence_of_not_block ?_
  simp only [isOrdinary, Bool.not_eq_true', Bool.or_eq_false_iff] at h
  exact h.1

theorem sequence_varDecls (vs : List Var) :
    (vs.map varDecl).flatMap sequence = vs.map varDecl := by
  induction vs with
  | nil => rfl
  | cons v vs ih =>
    rw [List.map_cons, List.flatMap_cons, ih]
    rfl

/-- What can be read off a block statement by statement can be read off its sequence. -/
theorem flatMap_sequence {α : Type} {f : Stmt → List α}
    (hblock : ∀ ss, f (.block ss) = ss.flatMap f) (s : Stmt) : s.sequence.flatMap f = f s := by
  induction s with
  | block ss ih =>
    rw [sequence, sequenceAll_eq, List.flatMap_assoc, hblock]
    exact List.flatMap_congr ih
  | _ => simp [sequence]

theorem outerDefs_sequence (s : Stmt) : s.sequence.flatMap outerDefs = s.outerDefs :=
  flatMap_sequence (fun ss => by rw [outerDefs, outerDefsAll_eq]) s

theorem declaredVars_sequence (s : Stmt) : s.sequence.flatMap declaredVars = s.declaredVars :=
  flatMap_sequence (fun ss => declaredVars_eq (.block ss)) s

/-! ### First definitions -/

/-- What a statement defines in a sequence, in order of the first definition in it, as far as it is
neither known from the start nor defined in the statements before. -/
def firstDefs (known : List Var) (before : List Stmt) (s : Stmt) : List Var :=
  s.outerDefs.eraseDups.filter fun v => v ∉ known ∧ ∀ t ∈ before, v ∉ t.outerDefs

/-- The sequence that goes on after the statements `before`, with the declarations of what each
statement is the first to define right before that statement. -/
def withDeclarations (known : List Var) (before : List Stmt) : List Stmt → List Stmt
  | [] => []
  | s :: ss =>
    (s.firstDefs known before).map varDecl ++ s :: withDeclarations known (before ++ [s]) ss

variable {known : List Var} {before ss ts : List Stmt} {s : Stmt} {v : Var}

theorem mem_firstDefs : v ∈ s.firstDefs known before ↔
    v ∈ s.outerDefs ∧ v ∉ known ∧ ∀ t ∈ before, v ∉ t.outerDefs := by
  simp [firstDefs]

theorem withDeclarations_append :
    withDeclarations known before (ss ++ ts) =
      withDeclarations known before ss ++ withDeclarations known (before ++ ss) ts := by
  induction ss generalizing before with
  | nil => simp [withDeclarations]
  | cons s ss ih => simp [withDeclarations, ih]

/-- Without the declarations it is the sequence again. -/
theorem filter_withDeclarations (h : ∀ s ∈ ss, s.isVarDecl = false) :
    (withDeclarations known before ss).filter (!·.isVarDecl) = ss := by
  induction ss generalizing before with
  | nil => rfl
  | cons s ss ih =>
    have hdecls : ((s.firstDefs known before).map varDecl).filter (!·.isVarDecl) = [] := by
      simp [isVarDecl]
    rw [withDeclarations, List.filter_append, hdecls, List.nil_append,
      List.filter_cons_of_pos (by simp [h s]), ih fun t ht => h t (by simp [ht])]

theorem declaredVars_varDecls (vs : List Var) : (vs.map varDecl).flatMap declaredVars = vs := by
  induction vs with
  | nil => rfl
  | cons v vs ih =>
    rw [List.map_cons, List.flatMap_cons, ih]
    rfl

theorem nodup_eraseDups : ∀ vs : List Var, vs.eraseDups.Nodup
  | [] => List.nodup_nil
  | v :: vs => by
    rw [List.eraseDups_cons]
    exact List.nodup_cons.2 ⟨by simp, nodup_eraseDups _⟩
termination_by vs => vs.length
decreasing_by exact Nat.lt_succ_of_le (List.length_filter_le _ _)

/-- What is declared is what the statements are the first to define, each once. -/
theorem declaredVars_withDeclarations (h : ∀ s ∈ ss, s.declaredVars = []) :
    ((withDeclarations known before ss).flatMap declaredVars).Nodup ∧
      ∀ v, v ∈ (withDeclarations known before ss).flatMap declaredVars ↔
        v ∈ ss.flatMap outerDefs ∧ v ∉ known ∧ ∀ t ∈ before, v ∉ t.outerDefs := by
  induction ss generalizing before with
  | nil => simp [withDeclarations]
  | cons s ss ih =>
    obtain ⟨hnodup, hmem⟩ := @ih (before ++ [s]) fun t ht => h t (by simp [ht])
    rw [withDeclarations, List.flatMap_append, declaredVars_varDecls, List.flatMap_cons,
      h s (by simp), List.nil_append]
    refine ⟨List.nodup_append.2 ⟨(nodup_eraseDups _).filter _, hnodup, ?_⟩, fun v => ?_⟩
    · -- what is declared later is not defined here
      rintro v hv w hw rfl
      have hlater := ((hmem v).1 hw).2.2 s (by simp)
      exact hlater (mem_firstDefs.1 hv).1
    · rw [List.mem_append, mem_firstDefs, hmem, List.flatMap_cons, List.mem_append]
      simp only [List.mem_append, List.mem_singleton, or_imp, forall_and, forall_eq]
      tauto

end Stmt

/-! ### What the pass puts where -/

/-- What is declared is known from the start or defined in the statements before. -/
def Declared.Covers (declared : Declared) (known : List Var) (before : List Stmt) : Prop :=
  ∀ v, v ∈ declared ↔ v ∈ known ∨ ∃ t ∈ before, v ∈ t.outerDefs

section

variable {declared declared' : Declared} {known : List Var} {before ss : List Stmt} {s : Stmt}

/-- Of a statement without declarations, what has none yet is what it is the first to define. -/
theorem Declared.Covers.undeclared_eq (h : declared.Covers known before)
    (hs : s.declaredVars = []) : s.undeclared declared = s.firstDefs known before := by
  unfold Stmt.undeclared Stmt.firstDefs
  rw [Stmt.definitions_eq hs]
  refine List.filter_congr fun v _ => ?_
  rw [Bool.eq_iff_iff]
  simp [h v]

theorem Declared.Covers.undeclared (h : declared.Covers known before) (hs : s.declaredVars = []) :
    Declared.Covers (declared ++ s.undeclared declared) known (before ++ [s]) := by
  intro v
  rw [h.undeclared_eq hs, List.mem_append, h v, Stmt.mem_firstDefs]
  simp only [List.mem_append, List.mem_singleton, or_and_right, exists_or, exists_eq_left]
  by_cases hk : v ∈ known <;> by_cases hb : ∃ t ∈ before, v ∈ t.outerDefs <;> simp_all

/-- Statements without declarations become, as a sequence, the sequence with its declarations. -/
theorem DeclaresTo.sequence {out : Transformed (List Stmt)}
    (h : DeclaresTo declared ss out declared') (hss : ∀ s ∈ ss, s.declaredVars = [])
    (hcovers : declared.Covers known before) :
    out.value.flatMap Stmt.sequence =
        Stmt.withDeclarations known before (ss.flatMap Stmt.sequence) ∧
      declared'.Covers known (before ++ ss.flatMap Stmt.sequence) := by
  induction h generalizing before with
  | nil => exact ⟨rfl, by simpa using hcovers⟩
  | @varDecl declared v ss rest declared' _ _ =>
    have hv : (Stmt.varDecl v).declaredVars = [] := hss _ (by simp)
    cases hv
  | @block declared ts inner declared₁ ss rest declared' _ _ ihi ihr =>
    have hts : ∀ t ∈ ts, t.declaredVars = [] := by
      have hblock := hss (.block ts) (by simp)
      rw [Stmt.declaredVars_eq] at hblock
      exact List.flatMap_eq_nil_iff.1 hblock
    obtain ⟨hinner, hcovers₁⟩ := ihi hts hcovers
    obtain ⟨hrest, hcovers'⟩ := ihr (fun s hs => hss s (by simp [hs])) hcovers₁
    simp only [List.flatMap_cons, Stmt.sequence, Stmt.sequenceAll_eq]
    rw [hinner, hrest, Stmt.withDeclarations_append]
    exact ⟨rfl, by simpa using hcovers'⟩
  | @ordinary declared s ss rest declared' hs _ ih =>
    have hdecl : s.declaredVars = [] := hss s (by simp)
    have hseq : s.sequence = [s] := Stmt.sequence_of_isOrdinary hs
    obtain ⟨hrest, hcovers'⟩ := ih (fun s hs => hss s (by simp [hs])) (hcovers.undeclared hdecl)
    rw [List.flatMap_append, Stmt.declared, List.flatMap_append, Stmt.sequence_varDecls, hrest,
      List.flatMap_cons, hseq, hcovers.undeclared_eq hdecl]
    exact ⟨by simp [hseq, Stmt.withDeclarations], by simpa [hseq] using hcovers'⟩

end

namespace Func

/-- Inserting declarations into a function whose body has none is exact. The variables declared
anywhere in the new body are those defined in the old one outside every loop that binds them, apart
from parameters and results, and each is declared once. As a sequence, the new body is the old one
with each declaration right before the first statement that so defines the variable, behind other
declarations only, in the order of first definition; without the declarations it is the old
sequence again. -/
theorem insertDeclarations_exact {f : Func} {body : Stmt} (hbody : f.body = some body)
    (hdecl : body.declaredVars = []) (st : Fresh) :
    ∃ body', (f.insertDeclarations.run st).1.value.body = some body' ∧
      body'.declaredVars.Nodup ∧
      (∀ v, v ∈ body'.declaredVars ↔ v ∈ body.outerDefs ∧ v ∉ f.args ∧ v ∉ f.results) ∧
      body'.sequence = Stmt.withDeclarations (f.args ++ f.results) [] body.sequence ∧
      body'.sequence.filter (!·.isVarDecl) = body.sequence := by
  refine ⟨_, (rebodied_insertDeclarations hbody st).body_eq, ?_⟩
  obtain ⟨out, declared', hout⟩ := exists_declaresTo (f.args ++ f.results) [body]
  obtain ⟨x, hrun, hx⟩ := Stmt.run_declare hout
  rw [hrun]
  dsimp only
  have hseq : x.sequence = Stmt.withDeclarations (f.args ++ f.results) [] body.sequence := by
    have hcovers : Declared.Covers (f.args ++ f.results) (f.args ++ f.results) [] := by
      simp [Declared.Covers]
    have h := (hout.sequence (by simpa using hdecl) hcovers).1
    obtain hx | ⟨_, rfl⟩ := hx
    · simpa [hx] using h
    · simpa [Stmt.sequence, Stmt.sequenceAll_eq] using h
  have hno : ∀ s ∈ body.sequence, s.declaredVars = [] :=
    List.flatMap_eq_nil_iff.1 (body.declaredVars_sequence.trans hdecl)
  obtain ⟨hnodup, hmem⟩ :=
    @Stmt.declaredVars_withDeclarations (f.args ++ f.results) [] body.sequence hno
  rw [← hseq, Stmt.declaredVars_sequence] at hnodup hmem
  refine ⟨hnodup, fun v => ?_, hseq, ?_⟩
  · rw [hmem v, Stmt.outerDefs_sequence]
    simp
  · rw [hseq]
    exact Stmt.filter_withDeclarations fun s hs => Stmt.isVarDecl_eq_false (hno s hs)

/-- A variable that is bound by one loop and an ordinary local elsewhere, with a definition in a
block and one in a branch:

    for v { v = x; y = x; } { z = y; w = z; } if (x) { v = w; w = v; }

for the parameter `x` and the result `z`. It needs declarations of `y` before the loop, of `w`
before the assignment to it, and of `v` before the conditional only. -/
def scattered : Func :=
  let var (k : Nat) (name : String) : Var := ⟨k, name, .int⟩
  let (v, w, x, y, z) := (var 0 "v", var 1 "w", var 2 "x", var 3 "y", var 4 "z")
  let copy (v w : Var) : Stmt := .assign v (.ofVar w)
  let body : Stmt := .block [
    .forLoop v (.dim (.range 3)) (.block [copy v x, copy y x]),
    .block [copy z y, copy w z],
    .ifThenElse (.ofVar x) (.block [copy v w, copy w v]) none]
  ⟨5, "f", .internal, [x], [z], some body⟩

theorem insertDeclarations_scattered :
    ∃ body, scattered.body = some body ∧ body.declaredVars = [] ∧
      ∃ body', (scattered.insertDeclarations.run ⟨6, {}⟩).1.value.body = some body' ∧
        body'.declaredVars.Nodup ∧
        (∀ v, v ∈ body'.declaredVars ↔
          v ∈ body.outerDefs ∧ v ∉ scattered.args ∧ v ∉ scattered.results) ∧
        body'.sequence = Stmt.withDeclarations (scattered.args ++ scattered.results) []
          body.sequence ∧
        body'.sequence.filter (!·.isVarDecl) = body.sequence :=
  ⟨_, rfl, rfl, insertDeclarations_exact rfl rfl _⟩

end Func

end TensorIR
