import TensorIR.Proofs.FirstDefinitions

/-! # Definitions in the scope of a declaration

A definition is *covered* if its variable is a parameter or a result, the variable of a loop around
it, or declared before it in its own sequence of statements or in one around it. Loop bodies and
branches are sequences of their own, blocks are not. Bodies may have declarations anywhere; this
module says exactly when inserting declarations covers every definition
(`Func.insertDeclarations_covers_iff`).

**Key idea**: two ways to keep track of what is declared differ only in what is left of it once a
loop or a branch is done (`Scoping`). In the scopes of the language nothing is left. The collector
of definitions has one stack for everything: a branch leaves on it all that it declares, and a loop
that declares something takes the latest declaration off in place of its own variable. A definition
of a variable that is so left on the stack is passed over. The pass covers a definition if and only
if the variable is noticed at some definition of it in the same statement, or was declared before.
-/

namespace TensorIR

namespace Stmt

/-- The variable that a statement binds: a declaration its own, a loop that of the loop. -/
def bound? : Stmt → Option Var
  | .instr (.varDecl v) | .forLoop v _ _ => some v
  | _ => none

/-- The variables that are declared in a statement, or are those of loops in it. -/
def binders (s : Stmt) : List Var := s.nodes.filterMap bound?

theorem binders_eq (s : Stmt) :
    s.binders = s.bound?.toList ++ s.children.flatMap binders := by
  unfold binders
  rw [nodes_eq, List.filterMap_cons, List.filterMap_flatMap]
  cases s.bound? <;> rfl

end Stmt

/-! ### Scopings -/

/-- What is left of the declarations in a loop or a branch when it is done. The latest comes
first. -/
structure Scoping where
  /-- What a loop leaves, given its variable and what is declared in its body. -/
  loop : Var → List Var → List Var
  /-- What a branch leaves. -/
  branch : List Var → List Var

namespace Scoping

/-- The scopes of the language: what is declared in a loop or a branch is gone after it. -/
def lexical : Scoping where
  loop _ _ := []
  branch _ := []

/-- What the collector of definitions takes to be bound: everything stays on its stack, but a loop
takes the latest entry off, which is its own variable if its body declares nothing. -/
def collector : Scoping where
  loop v declared := (declared ++ [v]).tail
  branch declared := declared

variable (σ : Scoping)

mutual

/-- What a statement leaves declared for the statements after it. -/
def left : Stmt → List Var
  | .instr (.varDecl v) => [v]
  | .instr _ => []
  | .forLoop v _ body => σ.loop v (left body)
  | .ifThenElse _ t none => σ.branch (left t)
  | .ifThenElse _ t (some e) => σ.branch (left e) ++ σ.branch (left t)
  | .block ss => leftAll ss

/-- What several statements leave declared. -/
def leftAll : List Stmt → List Var
  | [] => []
  | s :: ss => leftAll ss ++ left s

end

mutual

/-- The definitions in a statement of variables that are not declared there, where `Γ` is declared
before the statement. -/
def exposed (Γ : List Var) : Stmt → List Var
  | .instr i => i.defined.filter fun v => v ∉ Γ
  | .forLoop v _ body => exposed (v :: Γ) body
  | .ifThenElse _ t none => exposed Γ t
  | .ifThenElse _ t (some e) => exposed Γ t ++ exposed (σ.branch (σ.left t) ++ Γ) e
  | .block ss => exposedAll Γ ss

/-- The same for several statements, one after another. -/
def exposedAll (Γ : List Var) : List Stmt → List Var
  | [] => []
  | s :: ss => exposed Γ s ++ exposedAll (σ.left s ++ Γ) ss

end

variable {σ} {Γ Δ : List Var} {s : Stmt} {ss ts : List Stmt} {v : Var}

theorem leftAll_append : σ.leftAll (ss ++ ts) = σ.leftAll ts ++ σ.leftAll ss := by
  induction ss with
  | nil => simp [leftAll]
  | cons s ss ih => simp [leftAll, ih]

theorem exposedAll_append :
    σ.exposedAll Γ (ss ++ ts) = σ.exposedAll Γ ss ++ σ.exposedAll (σ.leftAll ss ++ Γ) ts := by
  induction ss generalizing Γ with
  | nil => rfl
  | cons s ss ih => simp [exposedAll, leftAll, ih]

theorem leftAll_varDecls (vs : List Var) : σ.leftAll (vs.map .varDecl) = vs.reverse := by
  induction vs with
  | nil => rfl
  | cons v vs ih => rw [List.map_cons, leftAll, ih, List.reverse_cons, left]

theorem exposedAll_varDecls (vs : List Var) : σ.exposedAll Γ (vs.map .varDecl) = [] := by
  induction vs generalizing Γ with
  | nil => rfl
  | cons v vs ih => rw [List.map_cons, exposedAll, ih]; rfl

/-- More that is declared before hides the definitions of just that. -/
theorem mem_exposed_append :
    v ∈ σ.exposed (Δ ++ Γ) s ↔ v ∈ σ.exposed Δ s ∧ v ∉ Γ := by
  induction s generalizing Δ with
  | instr i =>
    simp only [exposed, List.mem_filter, List.mem_append, not_or, decide_eq_true_eq]
    tauto
  | forLoop w d body ih => exact @ih (w :: Δ)
  | ifThenElse c t e iht ihe =>
    cases e with
    | none => exact iht
    | some e =>
      have ihe' := @ihe e rfl (σ.branch (σ.left t) ++ Δ)
      rw [exposed, exposed, List.mem_append, List.mem_append, ← List.append_assoc, iht, ihe',
        or_and_right]
  | block ss ih =>
    rw [exposed, exposed]
    induction ss generalizing Δ with
    | nil => simp [exposedAll]
    | cons s ss ihs =>
      rw [exposedAll, exposedAll, List.mem_append, List.mem_append, ← List.append_assoc,
        ih s (by simp), ihs fun t ht => ih t (by simp [ht]), or_and_right]

/-- What is exposed is not declared before, and exposed if nothing is. -/
theorem mem_exposed : v ∈ σ.exposed Γ s ↔ v ∈ σ.exposed [] s ∧ v ∉ Γ :=
  @mem_exposed_append σ Γ [] s v

/-- Only the members of what is declared before matter. -/
theorem exposed_eq_nil_congr (h : ∀ v, v ∈ Γ ↔ v ∈ Δ) :
    σ.exposed Γ s = [] ↔ σ.exposed Δ s = [] := by
  simp only [List.eq_nil_iff_forall_not_mem]
  refine forall_congr' fun v => ?_
  rw [mem_exposed, mem_exposed (Γ := Δ), h]

/-! ### Variables that are nowhere bound -/

/-- A loop leaves at most its variable and what is declared in it, a branch what is declared in
it. -/
structure Local (σ : Scoping) : Prop where
  loop : ∀ v ds, ∀ w ∈ σ.loop v ds, w = v ∨ w ∈ ds
  branch : ∀ ds, ∀ w ∈ σ.branch ds, w ∈ ds

theorem local_lexical : lexical.Local where
  loop _ _ _ h := nomatch h
  branch _ _ h := nomatch h

theorem local_collector : collector.Local where
  loop v ds w h := by
    rcases List.mem_append.1 (List.mem_of_mem_tail h) with h | h
    · exact .inr h
    · exact .inl (List.mem_singleton.1 h)
  branch _ _ h := h

/-- What is left behind a statement is bound in it. -/
theorem mem_binders_of_mem_left (hσ : σ.Local) (h : v ∈ σ.left s) : v ∈ s.binders := by
  induction s with
  | instr i =>
    cases i with
    | varDecl w => exact h
    | _ => cases h
  | forLoop w d body ih =>
    rw [Stmt.binders_eq, Stmt.children, List.flatMap_singleton, List.mem_append]
    exact (hσ.loop w _ v h).imp List.mem_singleton.2 ih
  | ifThenElse c t e iht ihe =>
    cases e with
    | none =>
      rw [Stmt.binders_eq, Stmt.children]
      simpa [Stmt.bound?] using iht (hσ.branch _ v h)
    | some e =>
      rw [Stmt.binders_eq, Stmt.children]
      rcases List.mem_append.1 h with h | h
      · simpa [Stmt.bound?] using .inr (ihe e rfl (hσ.branch _ v h))
      · simpa [Stmt.bound?] using .inl (iht (hσ.branch _ v h))
  | block ss ih =>
    rw [Stmt.binders_eq]
    change v ∈ ss.flatMap Stmt.binders
    change v ∈ σ.leftAll ss at h
    induction ss with
    | nil => cases h
    | cons s ss ihs =>
      rw [List.flatMap_cons, List.mem_append]
      rcases List.mem_append.1 h with h | h
      · exact .inr (ihs (fun t ht => ih t (by simp [ht])) h)
      · exact .inl (ih s (by simp) h)

/-- Where a variable is not bound, all its definitions are exposed under every scoping. -/
theorem mem_exposed_of_not_mem_binders (hσ : σ.Local) (hv : v ∉ s.binders) :
    v ∈ σ.exposed Γ s ↔ v ∈ s.outerDefs ∧ v ∉ Γ := by
  -- nothing of the variable is left behind a part either
  have hleft : ∀ {t : Stmt} {Γ : List Var} {P : Prop}, v ∉ t.binders →
      (P ∧ v ∉ σ.left t ++ Γ ↔ P ∧ v ∉ Γ) := by
    intro t Γ P ht
    rw [List.mem_append, or_iff_right fun h => ht (mem_binders_of_mem_left hσ h)]
  induction s generalizing Γ with
  | instr i => simp [exposed, Stmt.outerDefs]
  | forLoop w d body ih =>
    rw [Stmt.binders_eq, Stmt.children, List.flatMap_singleton, List.mem_append, not_or] at hv
    have hw : v ≠ w := fun h => hv.1 (List.mem_singleton.2 h)
    have hbody : v ∈ σ.exposed (w :: Γ) body ↔ v ∈ body.outerDefs ∧ v ∉ w :: Γ := ih hv.2
    rw [exposed, hbody, Stmt.outerDefs]
    simp [hw]
  | ifThenElse c t e iht ihe =>
    cases e with
    | none =>
      rw [Stmt.binders_eq, Stmt.children] at hv
      exact iht (by simpa [Stmt.bound?] using hv)
    | some e =>
      rw [Stmt.binders_eq, Stmt.children] at hv
      obtain ⟨ht, he⟩ : v ∉ t.binders ∧ v ∉ e.binders := by simpa [Stmt.bound?] using hv
      have hbranch : v ∉ σ.branch (σ.left t) := fun h =>
        ht (mem_binders_of_mem_left hσ (hσ.branch _ v h))
      have hthen : v ∈ σ.exposed Γ t ↔ v ∈ t.outerDefs ∧ v ∉ Γ := iht ht
      have helse : v ∈ σ.exposed (σ.branch (σ.left t) ++ Γ) e ↔ v ∈ e.outerDefs ∧ v ∉ _ ++ Γ :=
        ihe e rfl he
      rw [exposed, List.mem_append, hthen, helse, List.mem_append, or_iff_right hbranch,
        Stmt.outerDefs, List.mem_append, or_and_right]
  | block ss ih =>
    rw [Stmt.binders_eq] at hv
    change v ∉ ss.flatMap Stmt.binders at hv
    rw [exposed, Stmt.outerDefs, Stmt.outerDefsAll_eq]
    induction ss generalizing Γ with
    | nil => simp [exposedAll]
    | cons s ss ihs =>
      rw [List.flatMap_cons, List.mem_append, not_or] at hv
      have hfirst : v ∈ σ.exposed Γ s ↔ v ∈ s.outerDefs ∧ v ∉ Γ := ih s (by simp) hv.1
      have hrest : v ∈ σ.exposedAll (σ.left s ++ Γ) ss ↔
          v ∈ ss.flatMap Stmt.outerDefs ∧ v ∉ σ.left s ++ Γ :=
        ihs (fun t ht => ih t (by simp [ht])) hv.2
      rw [exposedAll, List.mem_append, hfirst, hrest, hleft hv.1, List.flatMap_cons,
        List.mem_append, or_and_right]

/-! ### The collector keeps to its scoping -/

/-- From whatever is bound before, the visit collects `found`, and leaves bound what was and
`left`. -/
def Collects (act : StateM Definitions Unit) (found : List Var → List Var) (left : List Var) :
    Prop :=
  ∀ d, ∃ d', act.run d = ((), d') ∧ d'.bound = left ++ d.bound ∧
    ∀ v, v ∈ d'.defined ↔ v ∈ d.defined ∨ v ∈ found d.bound

theorem Collects.nil : Collects (pure ()) (fun _ => []) [] := fun d => ⟨d, rfl, rfl, by simp⟩

theorem Collects.append {a b : StateM Definitions Unit} {f g : List Var → List Var}
    {l m : List Var} (ha : Collects a f l) (hb : Collects b g m) :
    Collects (do a; b) (fun Γ => f Γ ++ g (l ++ Γ)) (m ++ l) := by
  intro d
  obtain ⟨d₁, hrun₁, hbound₁, hdef₁⟩ := ha d
  obtain ⟨d₂, hrun₂, hbound₂, hdef₂⟩ := hb d₁
  refine ⟨d₂, ?_, by rw [hbound₂, hbound₁, List.append_assoc], fun v => ?_⟩
  · show b.run (a.run d).2 = _
    rw [hrun₁]
    exact hrun₂
  · rw [hdef₂, hdef₁, hbound₁, List.mem_append, or_assoc]

/-- A visit to several statements, given the visits to each. -/
theorem collects_visitAll (h : ∀ s ∈ ss,
      Collects (s.visitM Definitions.visitor) (collector.exposed · s) (collector.left s)) :
    Collects (Stmt.visitAll Definitions.visitor ss) (collector.exposedAll · ss)
      (collector.leftAll ss) := by
  induction ss with
  | nil => exact .nil
  | cons s ss ih => exact (h s (by simp)).append (ih fun t ht => h t (by simp [ht]))

/-- Definitions are noted unless they are of bound variables. -/
theorem collects_define (vs : List Var) :
    Collects (modify fun d => vs.foldl Definitions.define d) (fun Γ => vs.filter fun v => v ∉ Γ)
      [] := by
  intro d
  refine ⟨vs.foldl Definitions.define d, rfl, ?_, fun v => ?_⟩
  · rw [Definitions.foldl_define]
    rfl
  · simp only [Definitions.foldl_define, Definitions.New, List.mem_append, List.mem_eraseDups,
      List.mem_filter, decide_eq_true_eq]
    by_cases hv : v ∈ d.defined <;> simp [hv]

/-- To the collector branches are statements one after another. -/
theorem collector_branches (c : Expr) (t : Stmt) (e : Option Stmt) :
    (collector.exposed · (.ifThenElse c t e)) = (collector.exposedAll · (t :: e.toList)) ∧
      collector.left (.ifThenElse c t e) = collector.leftAll (t :: e.toList) := by
  cases e with
  | none => exact ⟨funext fun Γ => by simp [exposed, exposedAll], by simp [left, leftAll, collector]⟩
  | some e =>
    exact ⟨funext fun Γ => by simp [exposed, exposedAll, collector],
      by simp [left, leftAll, collector]⟩

/-- The collector collects what is exposed under its scoping. -/
theorem collects_visit (s : Stmt) :
    Collects (s.visitM Definitions.visitor) (collector.exposed · s) (collector.left s) := by
  induction s using Stmt.children_induction with
  | step s ih =>
    have hwalk := collects_visitAll ih
    rw [Stmt.visitM_eq, Stmt.visitExprs_definitions, pure_bind]
    cases s with
    | instr i =>
      cases i with
      | varDecl v =>
        exact fun d => ⟨d.bind v, rfl, rfl, fun w => (or_iff_left List.not_mem_nil).symm⟩
      | _ => exact collects_define _
    | forLoop v dom body =>
      intro d
      -- the body is visited with the variable of the loop on the stack, and one entry is taken off
      obtain ⟨d', hrun, hbound, hdef⟩ := hwalk (d.bind v)
      simp only [Stmt.children, leftAll, exposedAll, List.nil_append, List.append_nil] at hbound hdef
      refine ⟨d'.unbind, ?_, ?_, hdef⟩
      · show ((), ((Stmt.visitAll Definitions.visitor [body]).run (d.bind v)).2.unbind) = _
        exact congrArg (fun r => ((), r.2.unbind)) hrun
      · show d'.bound.tail = (collector.left body ++ [v]).tail ++ d.bound
        rw [hbound, ← List.tail_append_of_ne_nil (by simp)]
        simp [Definitions.bind]
    | ifThenElse c t e =>
      obtain ⟨hexposed, hleft⟩ := collector_branches c t e
      rw [hexposed, hleft]
      exact hwalk
    | block ss => exact hwalk

/-- A statement defines, for the pass, what is exposed to the collector in it. -/
theorem mem_definitions {s : Stmt} {v : Var} :
    v ∈ s.definitions ↔ v ∈ collector.exposed [] s := by
  obtain ⟨d, hrun, _, hdef⟩ := collects_visit s {}
  unfold Stmt.definitions
  rw [hrun, hdef]
  simp

end Scoping

namespace Stmt

open Scoping

/-! ### Covered definitions -/

/-- Every definition of a variable that is not in `Γ` is in the scope of a declaration, or inside
the loop that binds the variable. -/
def Covered (Γ : List Var) (s : Stmt) : Prop := lexical.exposed Γ s = []

instance (Γ : List Var) (s : Stmt) : Decidable (s.Covered Γ) :=
  inferInstanceAs (Decidable (_ = _))

/-- No sequence of statements declares a variable behind a statement that defines it. -/
def DeclaresFirst (s : Stmt) : Prop :=
  s.Everywhere fun n => n.sequence.Pairwise fun t u => ∀ v ∈ t.outerDefs, u.declaredVar? ≠ some v

instance (s : Stmt) : Decidable s.DeclaresFirst := inferInstanceAs (Decidable (s.Everywhere _))

/-- What has a declaration behind a statement in a sequence: what the statement declares, and what
is noticed of its definitions. -/
def settledVars (s : Stmt) : List Var := lexical.left s ++ collector.exposed [] s

/-- In a sequence in front of which `Γ` is declared, no variable is missed: if a statement defines
a variable that it does not declare and that has no declaration yet, some definition of that
variable in the statement is exposed to the collector. -/
def Noticed (Γ : List Var) : List Stmt → Prop
  | [] => True
  | s :: ss => (∀ v ∈ lexical.exposed Γ s, v ∈ collector.exposed [] s) ∧
    Noticed (Γ ++ s.settledVars) ss

instance Noticed.decidable : (Γ : List Var) → (ss : List Stmt) → Decidable (Noticed Γ ss)
  | _, [] => inferInstanceAs (Decidable True)
  | Γ, s :: ss =>
    have := Noticed.decidable (Γ ++ s.settledVars) ss
    inferInstanceAs (Decidable (_ ∧ _))

variable {Γ Δ : List Var} {s : Stmt} {ss ts : List Stmt} {v : Var}

theorem noticed_append :
    Noticed Γ (ss ++ ts) ↔ Noticed Γ ss ∧ Noticed (Γ ++ ss.flatMap settledVars) ts := by
  induction ss generalizing Γ with
  | nil => simp [Noticed]
  | cons s ss ih => simp [Noticed, ih, and_assoc]

/-- No variable is missed if no statement binds a variable inside that it also defines out of the
scope of that. -/
theorem noticed_of_apart (h : ∀ s ∈ ss, ∀ v ∈ lexical.exposed [] s, v ∉ s.binders) :
    Noticed Γ ss := by
  induction ss generalizing Γ with
  | nil => trivial
  | cons s ss ih =>
    refine ⟨fun v hv => ?_, ih fun t ht => h t (by simp [ht])⟩
    have hexposed : v ∈ lexical.exposed [] s := (mem_exposed.1 hv).1
    have hbinders := h s (by simp) v hexposed
    rw [mem_exposed_of_not_mem_binders local_lexical hbinders] at hexposed
    exact (mem_exposed_of_not_mem_binders local_collector hbinders).2 hexposed

/-- Only the members of what is declared matter. -/
theorem noticed_congr (h : ∀ v, v ∈ Γ ↔ v ∈ Δ) : Noticed Γ ss ↔ Noticed Δ ss := by
  induction ss generalizing Γ Δ with
  | nil => exact Iff.rfl
  | cons s ss ih =>
    refine and_congr (forall_congr' fun v => ?_) (ih fun v => by simp [h])
    rw [mem_exposed, mem_exposed (Γ := Δ), h]

/-- A loop, a conditional or an instruction declares nothing for what comes after it. -/
theorem left_lexical_of_isOrdinary (h : s.isOrdinary = true) : lexical.left s = [] := by
  cases s with
  | instr i =>
    cases i with
    | varDecl v => cases h
    | _ => rfl
  | forLoop v d body => rfl
  | ifThenElse c t e => cases e <;> rfl
  | block ss => cases h

end Stmt

/-! ### What the pass covers -/

namespace DeclaresTo

open Scoping

variable {known known' : Declared} {ss : List Stmt} {out : Transformed (List Stmt)} {v : Var}

/-- The variables that a statement defines and that have no declaration are noticed in it. -/
theorem mem_undeclared {s : Stmt} :
    v ∈ s.undeclared known ↔ v ∈ collector.exposed [] s ∧ v ∉ known := by
  simp [Stmt.undeclared, mem_definitions]

/-- What is declared in the end was declared before, or is declared or noticed in the statements. -/
theorem mem_known (h : DeclaresTo known ss out known') :
    v ∈ known' ↔ v ∈ known ∨ v ∈ (ss.flatMap Stmt.sequence).flatMap Stmt.settledVars := by
  induction h with
  | nil => simp
  | @varDecl known w ss rest known' _ ih =>
    have hw : (Stmt.varDecl w).settledVars = [w] := rfl
    rw [ih, List.mem_cons, List.flatMap_cons, List.flatMap_append, List.mem_append]
    simp only [Stmt.sequence, List.flatMap_cons, List.flatMap_nil, List.append_nil, hw,
      List.mem_singleton]
    tauto
  | block _ _ ihi ihr =>
    rw [ihr, ihi, List.flatMap_cons, List.flatMap_append, List.mem_append, Stmt.sequence,
      Stmt.sequenceAll_eq, or_assoc]
  | @ordinary known s ss rest known' hs _ ih =>
    rw [ih, List.mem_append, mem_undeclared, List.flatMap_cons, List.flatMap_append,
      List.mem_append, Stmt.sequence_of_isOrdinary hs]
    simp only [List.flatMap_cons, List.flatMap_nil, List.append_nil, Stmt.settledVars,
      Stmt.left_lexical_of_isOrdinary hs, List.nil_append]
    tauto

/-- What is declared in the end is what has a declaration in the scopes of the language. -/
theorem mem_leftAll (h : DeclaresTo known ss out known') :
    v ∈ lexical.leftAll out.value ++ known ↔ v ∈ known' := by
  induction h with
  | nil => exact Iff.rfl
  | varDecl _ ih => rw [← ih, leftAll, List.append_assoc]; rfl
  | block _ _ ihi ihr =>
    rw [← ihr, leftAll, List.append_assoc, List.mem_append, left, ihi, ← List.mem_append]
  | @ordinary known s ss rest known' hs _ ih =>
    rw [← ih, leftAll_append, Stmt.declared, leftAll_append, leftAll_varDecls]
    simp only [leftAll, Stmt.left_lexical_of_isOrdinary hs, List.nil_append, List.mem_append,
      List.mem_reverse]
    tauto

/-- The statements become covered exactly if no variable in them is missed. -/
theorem covered_iff (h : DeclaresTo known ss out known') :
    lexical.exposedAll known out.value = [] ↔
      Stmt.Noticed known (ss.flatMap Stmt.sequence) := by
  induction h with
  | nil => simp [exposedAll, Stmt.Noticed]
  | @varDecl known w ss rest known' _ ih =>
    rw [exposedAll, List.flatMap_cons, Stmt.sequence, List.singleton_append, Stmt.Noticed,
      and_iff_right (by rintro v ⟨⟩)]
    refine ih.trans (Stmt.noticed_congr fun v => ?_)
    simp [Stmt.settledVars, left, exposed, Instr.defined, or_comm]
  | @block known ts inner known₁ ss rest known' hinner _ ihi ihr =>
    rw [exposedAll, List.append_eq_nil_iff, List.flatMap_cons, Stmt.noticed_append,
      Stmt.sequence, Stmt.sequenceAll_eq]
    refine and_congr ihi ?_
    have hleft : lexical.exposed (lexical.leftAll inner.value ++ known) (.block rest.value) = [] ↔
        lexical.exposed known₁ (.block rest.value) = [] :=
      exposed_eq_nil_congr fun v => hinner.mem_leftAll
    refine hleft.trans (ihr.trans (Stmt.noticed_congr fun v => ?_))
    rw [hinner.mem_known, List.mem_append]
  | @ordinary known s ss rest known' hs _ ih =>
    have hleft : lexical.left s = [] := Stmt.left_lexical_of_isOrdinary hs
    rw [Stmt.declared, List.append_assoc, exposedAll_append, exposedAll_varDecls, leftAll_varDecls,
      List.nil_append, List.singleton_append, exposedAll, List.append_eq_nil_iff, hleft,
      List.nil_append, List.flatMap_cons, Stmt.sequence_of_isOrdinary hs, List.singleton_append,
      Stmt.Noticed]
    refine and_congr ?_ ?_
    · -- behind the declarations nothing is exposed but what was not noticed
      rw [List.eq_nil_iff_forall_not_mem]
      refine forall_congr' fun v => ?_
      rw [mem_exposed, mem_exposed (Γ := known), List.mem_append, List.mem_reverse, mem_undeclared]
      tauto
    · have hrest : lexical.exposed ((s.undeclared known).reverse ++ known) (.block rest.value) = [] ↔
          lexical.exposed (known ++ s.undeclared known) (.block rest.value) = [] :=
        exposed_eq_nil_congr fun v => by simp [or_comm]
      refine hrest.trans (ih.trans (Stmt.noticed_congr fun v => ?_))
      rw [List.mem_append, List.mem_append, mem_undeclared, Stmt.settledVars, hleft,
        List.nil_append]
      tauto

end DeclaresTo

/-- A statement becomes covered exactly if no variable in it is missed. -/
theorem Stmt.covered_declare_iff (s : Stmt) (known : Declared) :
    (s.declare.run known).1.value.Covered known ↔ Noticed known s.sequence := by
  obtain ⟨out, declared', hout⟩ := exists_declaresTo known [s]
  obtain ⟨x, hrun, hx⟩ := run_declare hout
  have hiff := hout.covered_iff
  rw [List.flatMap_singleton] at hiff
  rw [hrun, ← hiff]
  obtain hx | ⟨_, rfl⟩ := hx
  · rw [hx, Scoping.exposedAll, Scoping.exposedAll, List.append_nil]
    rfl
  · rfl

namespace Func

variable {f : Func} {body : Stmt}

/-- Inserting declarations covers every definition in the body of a function exactly if no variable
in the body is missed. -/
theorem insertDeclarations_covers_iff (hbody : f.body = some body) (st : Fresh) :
    ∃ body', (f.insertDeclarations.run st).1.value.body = some body' ∧
      (body'.Covered (f.args ++ f.results) ↔
        Stmt.Noticed (f.args ++ f.results) body.sequence) :=
  ⟨_, (rebodied_insertDeclarations hbody st).body_eq, body.covered_declare_iff _⟩

/-- A variable that is local to a loop body as well as to the function:

    for v { var y; y = v; x = y; } if (c) { var z; z = x; } else { y = x; }

for the parameter `c`. The declaration in the loop does not hide the definition behind it. -/
def twiceLocal : Func :=
  let c : Var := ⟨0, "c", .bool⟩
  let var (k : Nat) (name : String) : Var := ⟨k, name, .int⟩
  let (v, x, y, z) := (var 1 "v", var 2 "x", var 3 "y", var 4 "z")
  let copy (v w : Var) : Stmt := .assign v (.ofVar w)
  let body : Stmt := .block [
    .forLoop v (.dim (.range 3)) (.block [.varDecl y, copy y v, copy x y]),
    .ifThenElse (.ofVar c) (.block [.varDecl z, copy z x]) (some (copy y x))]
  ⟨5, "f", .internal, [c], [], some body⟩

theorem insertDeclarations_twiceLocal :
    ∃ body, twiceLocal.body = some body ∧
      Stmt.Noticed (twiceLocal.args ++ twiceLocal.results) body.sequence ∧
      ∃ body', (twiceLocal.insertDeclarations.run ⟨6, {}⟩).1.value.body = some body' ∧
        (body'.Covered (twiceLocal.args ++ twiceLocal.results) ↔
          Stmt.Noticed (twiceLocal.args ++ twiceLocal.results) body.sequence) :=
  ⟨_, rfl, by decide, insertDeclarations_covers_iff rfl _⟩

/-- In a body that does not reuse variables, every definition is covered: no statement of its
sequence binds a variable inside, by a declaration or a loop, and defines it out of the scope of
that. -/
theorem insertDeclarations_covers (hbody : f.body = some body)
    (h : ∀ s ∈ body.sequence, ∀ v ∈ Scoping.lexical.exposed [] s, v ∉ s.binders) (st : Fresh) :
    ∃ body', (f.insertDeclarations.run st).1.value.body = some body' ∧
      body'.Covered (f.args ++ f.results) :=
  ⟨_, (rebodied_insertDeclarations hbody st).body_eq,
    (body.covered_declare_iff _).2 (Stmt.noticed_of_apart h)⟩

/-- Declarations that hide definitions out of their scope:

    if (c) { var x; x = a; for v { var y; y = v; } v = x; } else { x = a; }

for the parameters `c` and `a`. The loop takes the declaration of `y` off the stack in place of
its own variable, so `v = x` behind the loop is passed over; the first branch leaves `x` on it, so
`x = a` in the second one is, too. -/
def hiddenLocals : Func :=
  let c : Var := ⟨0, "c", .bool⟩
  let var (k : Nat) (name : String) : Var := ⟨k, name, .int⟩
  let (a, v, x, y) := (var 1 "a", var 2 "v", var 3 "x", var 4 "y")
  let copy (v w : Var) : Stmt := .assign v (.ofVar w)
  let body : Stmt := .block [
    .ifThenElse (.ofVar c)
      (.block [.varDecl x, copy x a,
        .forLoop v (.dim (.range 3)) (.block [.varDecl y, copy y v]), copy v x])
      (some (copy x a))]
  ⟨5, "f", .internal, [c, a], [], some body⟩

/-- A body in which no declaration comes late, with two definitions that stay uncovered. -/
theorem insertDeclarations_hiddenLocals :
    ∃ body, hiddenLocals.body = some body ∧ body.DeclaresFirst ∧
      ∃ body', (hiddenLocals.insertDeclarations.run ⟨6, {}⟩).1.value.body = some body' ∧
        ¬ body'.Covered (hiddenLocals.args ++ hiddenLocals.results) :=
  ⟨_, rfl, by decide, _, rfl, by decide⟩

end Func

end TensorIR
