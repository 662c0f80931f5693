import TensorIR.Proofs.Simulation

/-! # Flattening keeps the meaning of programs

A statement without reductions does the same after flattening as before, in all variables but the
temporaries: from every store, whatever the operations, the calls and the extents of the
dimensions are (`Stmt.exec_flatten`).

**Key idea**: a statement and its flattened form stay in step from stores that agree below a
counter, as long as the counter is no further than the one the flattener starts from
(`Interp.Refines`). Each form of statement hands this on from the values of its expressions and
from the statements inside it; a loop does so by going through its places.
-/

namespace TensorIR

/-! ### The statements in question -/

/-- Assignments, calls, and instructions that do nothing. -/
def Instr.isPlain : Instr → Bool
  | .assign _ _ | .call _ _ _ | .pass | .varDecl _ => true
  | _ => false

namespace Stmt

mutual

/-- Whether a statement is made of assignments, calls and control flow. -/
def isPlain : Stmt → Bool
  | .instr i => i.isPlain
  | .forLoop _ _ body => body.isPlain
  | .ifThenElse _ t none => t.isPlain
  | .ifThenElse _ t (some e) => t.isPlain && e.isPlain
  | .block ss => isPlainAll ss

/-- The same for several statements. -/
def isPlainAll : List Stmt → Bool
  | [] => true
  | s :: ss => s.isPlain && isPlainAll ss

end

theorem isPlainAll_iff {ss : List Stmt} :
    isPlainAll ss = true ↔ ∀ s ∈ ss, s.isPlain = true := by
  induction ss with
  | nil => simp [isPlainAll]
  | cons s ss ih => simp [isPlainAll, ih]

theorem isPlain_of_mem_children {s c : Stmt} (h : s.isPlain = true) (hc : c ∈ s.children) :
    c.isPlain = true := by
  cases s with
  | instr i => cases hc
  | forLoop v d body =>
    rw [children, List.mem_singleton] at hc
    rw [hc]
    exact h
  | ifThenElse e t o =>
    cases o with
    | none =>
      rw [children, Option.toList_none, List.mem_singleton] at hc
      rw [hc]
      exact h
    | some e' =>
      obtain ⟨ht, he⟩ := Bool.and_eq_true_iff.1 h
      rcases List.mem_cons.1 hc with rfl | hc
      · exact ht
      · rw [Option.toList_some, List.mem_singleton] at hc
        rw [hc]
        exact he
  | block ss => exact isPlainAll_iff.1 h c hc

/-- No read captures an index variable. -/
def Hygienic (s : Stmt) : Prop := s.ForExprs Expr.Hygienic

instance (s : Stmt) : Decidable s.Hygienic := inferInstanceAs (Decidable (s.ForExprs _))

end Stmt

/-! ### Statements in step -/

namespace Interp

variable {β : Type} (I : Interp β) {n : Nat} {σ σ' : Store β}

/-- From stores that agree below `n`, the second statement leaves what the first one leaves. -/
def Refines (n : Nat) (s s' : Stmt) : Prop :=
  ∀ σ σ', σ'.AgreeBelow n σ → (I.exec s' σ').AgreeBelow n (I.exec s σ)

/-- What is put in front of a statement runs first. -/
theorem exec_after (pending : List Stmt) (s : Stmt) (σ : Store β) :
    I.exec (s.after pending) σ = I.exec s (I.execAll pending σ) := by
  unfold Stmt.after
  split
  · next h =>
    rw [List.isEmpty_iff.1 h]
    rfl
  · exact execAll_append I _ _ _

variable {I}

theorem refines_execAll {ss ss' : List Stmt} (h : List.Forall₂ (I.Refines n) ss ss')
    (hσ : σ'.AgreeBelow n σ) : (I.execAll ss' σ').AgreeBelow n (I.execAll ss σ) := by
  induction h generalizing σ σ' with
  | nil => exact hσ
  | cons hs _ ih => exact ih (hs _ _ hσ)

/-- The bodies of a loop stay in step, one place after another. -/
theorem refines_foldl {body body' : Stmt} (h : I.Refines n body body') (v : Var)
    (places : List Rat) (hσ : σ'.AgreeBelow n σ) :
    (places.foldl (fun σ i => I.exec body' (σ.set v (.scalar i))) σ').AgreeBelow n
      (places.foldl (fun σ i => I.exec body (σ.set v (.scalar i))) σ) := by
  induction places generalizing σ σ' with
  | nil => exact hσ
  | cons i is ih => exact ih (h _ _ (hσ.set v _))

/-- Expressions of the same values are as many. -/
theorem length_eq_of_values {es xs : List Expr} (h : xs.map (I.value σ') = es.map (I.value σ)) :
    xs.length = es.length := by
  simpa using congrArg List.length h

/-- Bounds of the same values give the same places. -/
theorem places_withExprs {d : LoopDomain} {xs : List Expr}
    (h : xs.map (I.value σ') = d.exprs.map (I.value σ)) :
    I.places σ' (d.withExprs xs) = I.places σ d := by
  cases d with
  | dim d =>
    rw [List.map_eq_nil_iff.1 h]
    rfl
  | range start stop =>
    obtain ⟨start', stop', rfl⟩ := List.length_eq_two.1 (length_eq_of_values h)
    obtain ⟨hstart, hstop⟩ : I.value σ' start' = I.value σ start ∧
        I.value σ' stop' = I.value σ stop := by simpa [LoopDomain.exprs] using h
    show I.places σ' (.range start' stop') = _
    rw [places, places, hstart, hstop]

/-- A plain instruction over expressions of the same values. -/
theorem run_withExprs {i : Instr} (hi : i.isPlain = true) {xs : List Expr}
    (h : xs.map (I.value σ') = i.exprs.map (I.value σ)) (hσ : σ'.AgreeBelow n σ) :
    (I.run (i.withExprs xs) σ').AgreeBelow n (I.run i σ) := by
  cases i with
  | assign v e =>
    obtain ⟨x, rfl⟩ := List.length_eq_one_iff.1 (length_eq_of_values h)
    have hx : I.value σ' x = I.value σ e := List.singleton_inj.1 h
    show (σ'.set v (I.value σ' x)).AgreeBelow n (σ.set v (I.value σ e))
    rw [hx]
    exact hσ.set v _
  | call rs f es =>
    have hes : xs.map (I.value σ') = es.map (I.value σ) := h
    show (σ'.setAll (rs.zip (I.call f (xs.map (I.value σ'))))).AgreeBelow n
      (σ.setAll (rs.zip (I.call f (es.map (I.value σ)))))
    rw [hes]
    exact hσ.setAll _
  | pass =>
    rw [List.map_eq_nil_iff.1 h]
    exact hσ
  | varDecl v =>
    rw [List.map_eq_nil_iff.1 h]
    exact hσ
  | _ => cases hi

/-- A statement over expressions of the same values, and over statements in step. -/
theorem exec_withParts {s : Stmt} (hs : s.isPlain = true) {xs : List Expr} {ss : List Stmt}
    (h : xs.map (I.value σ') = s.exprs.map (I.value σ))
    (hss : List.Forall₂ (I.Refines n) s.children ss) (hσ : σ'.AgreeBelow n σ) :
    (I.exec (s.withParts xs ss) σ').AgreeBelow n (I.exec s σ) := by
  cases s with
  | instr i => exact run_withExprs hs h hσ
  | forLoop v d body =>
    obtain ⟨body', _, hbody, hnil, rfl⟩ := List.forall₂_cons_left_iff.1 hss
    cases hnil
    show (I.exec (.forLoop v (d.withExprs xs) body') σ').AgreeBelow n _
    rw [exec, exec, places_withExprs h]
    exact refines_foldl hbody v _ hσ
  | ifThenElse c t o =>
    obtain ⟨c', rfl⟩ := List.length_eq_one_iff.1 (length_eq_of_values h)
    have hc : I.value σ' c' = I.value σ c := List.singleton_inj.1 h
    obtain ⟨t', _, ht, hrest, rfl⟩ := List.forall₂_cons_left_iff.1 hss
    cases o with
    | none =>
      cases hrest
      show (I.exec (.ifThenElse c' t' none) σ').AgreeBelow n _
      rw [exec, exec, hc]
      split
      · exact ht _ _ hσ
      · exact hσ
    | some e =>
      obtain ⟨e', _, he, hnil, rfl⟩ := List.forall₂_cons_left_iff.1 hrest
      cases hnil
      show (I.exec (.ifThenElse c' t' (some e')) σ').AgreeBelow n _
      rw [exec, exec, hc]
      split
      · exact ht _ _ hσ
      · exact he _ _ hσ
  | block ss' => exact refines_execAll hss hσ

end Interp

/-! ### Flattened statements -/

section

variable {β : Type} {I : Interp β} {n : Nat}

/-- Once what they left pending has run, flattened expressions have their values from before. -/
theorem Interp.SimulatesAll.values {es xs : List Expr} {st st' : Flattener} {σ σ' : Store β}
    (h : I.SimulatesAll [] es st.own xs st') (hes : ∀ e ∈ es, e.Drawn n) (hn : n ≤ st.nextId)
    (hσ : σ'.AgreeBelow n σ) :
    (I.prepared st' σ').AgreeBelow n σ ∧
      xs.map (I.value (I.prepared st' σ')) = es.map (I.value σ) := by
  refine ⟨((h.agree σ').mono hn).trans hσ, (h.eval σ' _ (by rintro v ⟨⟩)).trans ?_⟩
  exact List.map_congr_left fun e he => eval_of_agreeBelow I (hes e he) hσ _

/-- A plain statement with tame expressions is kept by flattening. -/
def StmtFlattensTo.Keeps (I : Interp β) (n : Nat) (s : Stmt) : Prop :=
  ∀ s' st st', StmtFlattensTo s st s' st' → s.isPlain = true → s.ForExprs (Expr.Tame n []) →
    n ≤ st.nextId → I.Refines n s s'

/-- One statement, given the statements inside it. -/
theorem StmtFlattensTo.keeps_step {s : Stmt} (ih : ∀ c ∈ s.children, Keeps I n c) :
    Keeps I n s := by
  intro s' st st' h hplain htame hn σ σ' hσ
  obtain ⟨hte, htc⟩ := Stmt.forExprs_iff.1 htame
  have hdrawn : ∀ e ∈ s.exprs, e.Drawn n := fun e he => (hte e he).drawn
  cases h with
  | @call rs f as _ xs st₁ hthreads =>
    have hsim : I.SimulatesAll [] as st.own xs st₁ := hthreads.simulates
      (fun a _ st x st' hr ha hst => hr.simulates ha hst) (fun a ha => (hte a ha).mono hn)
      (Flattener.closed_own st)
    obtain ⟨hagree, hvalues⟩ := hsim.values hdrawn hn hσ
    rw [Interp.exec_after]
    exact Interp.exec_withParts (s := .call rs f as) hplain hvalues .nil hagree
  | @parts _ _ xs st₁ ss st₂ _ hexprs hstmts =>
    have hsim : I.SimulatesAll [] s.exprs st.own xs st₁ := hexprs.simulates
      (fun e _ st x st' hr he hst => hr.simulates he hst) (fun e he => (hte e he).mono hn)
      (Flattener.closed_own st)
    obtain ⟨hagree, hvalues⟩ := hsim.values hdrawn hn hσ
    have hinner := (hstmts.of_le fun _ _ _ _ _ hr => hr.nextId_le).forall₂
      fun c hc st s' st' ⟨hst, hr⟩ => ih c hc s' st st' hr (Stmt.isPlain_of_mem_children hplain hc)
        (htc c hc) (Nat.le_trans hn (Nat.le_trans hsim.nextId_le hst))
    rw [Interp.exec_after, hstmts.pending_eq]
    exact Interp.exec_withParts hplain hvalues hinner hagree

end

/-- Flattening a statement without reductions keeps what it does, in every interpretation and from
every store, to all variables but the temporaries: if every operand of a sum that becomes an index
expression is closed, and no index variable is captured by inlining. -/
theorem Stmt.exec_flatten {β : Type} (I : Interp β) {s : Stmt} {st : Flattener}
    (hplain : s.isPlain = true) (hclosed : s.Closed) (hunreduced : s.ForExprs Expr.Unreduced)
    (hshape : s.WellShaped) (hdrawn : s.ForExprs (Expr.Drawn st.nextId))
    (hcontained : s.Contained) (hhygienic : s.Hygienic) :
    ∃ out st', s.flatten.run.run st = (.ok out, st') ∧
      ∀ σ v, v.id < st.nextId → I.exec out.value σ v = I.exec s σ v := by
  obtain ⟨out, st', hrun, _, _⟩ := Flattening.progresses hshape st
  have htame : s.ForExprs (Expr.Tame st.nextId []) := fun e he =>
    { drawn := hdrawn e he
      scope := by simp
      loose := Expr.closed_iff.1 (hclosed e he)
      unreduced := hunreduced e he
      wellShaped := hshape e he
      contained := hcontained e he
      hygienic := hhygienic e he }
  have hkeeps : StmtFlattensTo.Keeps I st.nextId s :=
    Stmt.children_induction (fun _ => StmtFlattensTo.keeps_step) s
  refine ⟨out, st', hrun, fun σ => ?_⟩
  exact hkeeps _ _ _ (Stmt.flattensTo_of_run hrun) hplain htame (Nat.le_refl _) σ σ (.refl _ _)

/-- Functions that return the second component of their argument, and nothing else of interest. -/
def Interp.second : Interp Unit where
  setSize _ := 0
  dynamicSize := 0
  prim _ _ vs := .scalar ((vs.headD (.other ())).comp [1])
  call _ _ := []
  truth _ := true
  effect _ _ σ := σ

/-- The index variable `j` of the statement below. -/
def Stmt.rowIndex : IndexVar := ⟨1, "j", .range 3, none⟩

/-- `x = (j: (i: f((v: A{i,v}))){j} + b{j})`. -/
def Stmt.rowSum (v : IndexVar) : Stmt :=
  let i : IndexVar := ⟨0, "i", .range 3, none⟩
  let A : Expr := .ofVar ⟨3, "A", .matrix 3 3⟩
  let b : Expr := .ofVar ⟨4, "b", .vector 3⟩
  let f : Func := ⟨5, "f", .external, [⟨6, "p", .vector 3⟩], [⟨7, "q", .float⟩], none⟩
  let row : Expr := .build [i] (.prim .float (.call f) [.build [v] (A.index [i, v])])
  .assign ⟨8, "x", .vector 3⟩
    (.build [rowIndex] (.binaryOf .add (row.index [rowIndex]) (b.index [rowIndex])))

/-- With a variable of its own the row keeps its meaning. -/
theorem Stmt.exec_flatten_rowSum :
    ∃ out st', (rowSum ⟨2, "k", .range 3, none⟩).flatten.run.run (.ofFresh ⟨9, {}⟩) =
        (.ok out, st') ∧
      ∀ σ v, v.id < 9 → Interp.second.exec out.value σ v =
        Interp.second.exec (rowSum ⟨2, "k", .range 3, none⟩) σ v :=
  exec_flatten Interp.second (by decide) (by decide) (by decide)
    (by decide) (by decide) (by decide) (by decide)

/-- With the variable of the read its place is captured: of the matrix only the diagonal is left. -/
theorem Stmt.exec_flatten_captured :
    (rowSum rowIndex).isPlain = true ∧ (rowSum rowIndex).Closed ∧
      (rowSum rowIndex).ForExprs Expr.Unreduced ∧ (rowSum rowIndex).WellShaped ∧
      (rowSum rowIndex).ForExprs (Expr.Drawn 9) ∧ (rowSum rowIndex).Contained ∧
      ∃ out st' σ v, (rowSum rowIndex).flatten.run.run (.ofFresh ⟨9, {}⟩) = (.ok out, st') ∧
        v.id < 9 ∧ (Interp.second.exec out.value σ v).comp [0] ≠
          (Interp.second.exec (rowSum rowIndex) σ v).comp [0] := by
  refine ⟨by decide, by decide, by decide, by decide, by decide, by decide, _, _,
    fun _ => .tensor fun is => if is = [0, 1] then 1 else 0, ⟨8, "x", .vector 3⟩, rfl, by decide, ?_⟩
  decide +kernel

/-- An operand that needs an index variable from around it has to be kept in place: moved to a
temporary it is the same number everywhere. -/
theorem Stmt.exec_flatten_uncontained :
    openOperand.isPlain = true ∧ openOperand.Closed ∧ openOperand.ForExprs Expr.Unreduced ∧
      openOperand.WellShaped ∧ openOperand.ForExprs (Expr.Drawn 4) ∧ openOperand.Hygienic ∧
      ∃ out st' σ v, openOperand.flatten.run.run (.ofFresh ⟨4, {}⟩) = (.ok out, st') ∧
        v.id < 4 ∧ (Interp.second.exec out.value σ v).comp [1] ≠
          (Interp.second.exec openOperand σ v).comp [1] := by
  refine ⟨by decide, by decide, by decide, by decide, by decide, by decide, _, _,
    fun _ => .tensor fun is => if is = [1] then 1 else 0, ⟨3, "x", .vector 3⟩, rfl, by decide, ?_⟩
  decide +kernel

end TensorIR
