import Mathlib.Data.List.Nodup
import TensorIR.Proofs.Conservation

/-! # The discipline of temporaries

Flattening a statement makes temporaries, puts their assignments in front of the statements that
need them, and changes nothing else but expressions (`Stmt.flatten_temporaries`).

**Key idea**: a flattened statement is a statement of the program over its new parts, behind the
assignments that its own expressions left pending (`StmtFlattensTo.moves`); what is inside it has
seen to itself. So everything about a flattened statement is the sum of what is known of its own
expressions, where reads are conserved, and of the statements inside.
-/

namespace TensorIR

namespace Stmt

/-! ### What a statement reads and writes -/

/-- The variables that are read in a statement, as often as they are. -/
def reads (s : Stmt) : List Var := s.allExprs.flatMap Expr.reads

/-- The variables that a statement itself assigns, declares or counts with. -/
def targets : Stmt → List Var
  | .instr (.varDecl v) | .forLoop v _ _ => [v]
  | .instr i => i.defined
  | _ => []

/-- The variables that are assigned, declared or counted with in a statement, in order. -/
def writes (s : Stmt) : List Var := s.nodes.flatMap targets

/-- The variable of an assignment. -/
def assigned? : Stmt → Option Var
  | .instr (.assign v _) => some v
  | _ => none

theorem reads_eq (s : Stmt) :
    s.reads = s.exprs.flatMap Expr.reads ++ s.children.flatMap reads := by
  unfold reads
  rw [allExprs_eq, List.flatMap_append, List.flatMap_assoc]

theorem writes_eq (s : Stmt) : s.writes = s.targets ++ s.children.flatMap writes := by
  unfold writes
  rw [nodes_eq, List.flatMap_cons, List.flatMap_assoc]

theorem mem_targets_of_assigned? {s : Stmt} {v : Var} (h : s.assigned? = some v) :
    v ∈ s.targets := by
  unfold assigned? at h
  split at h
  · cases h
    exact List.mem_singleton.2 rfl
  · cases h

/-- The variables from identity `n` on that are written in a statement, in order. -/
def newVars (n : Nat) (s : Stmt) : List Var := s.writes.filter fun v => n ≤ v.id

/-! ### Outlines -/

/-- What stands for an expression where it does not matter. -/
def hole : Expr := .prim .bool (.literal (.bool true)) []

mutual

/-- The statements one after another, without the blocks they are grouped in, without their
expressions, and without the assignments to variables that are to be dropped. -/
def outline (drop : Var → Bool) : Stmt → List Stmt
  | .instr i =>
    if (Stmt.instr i).assigned?.any drop then []
    else [.instr (i.withExprs (i.exprs.map fun _ => hole))]
  | .forLoop v d body =>
    [.forLoop v (d.withExprs (d.exprs.map fun _ => hole)) (.block (outline drop body))]
  | .ifThenElse _ t none => [.ifThenElse hole (.block (outline drop t)) none]
  | .ifThenElse _ t (some e) =>
    [.ifThenElse hole (.block (outline drop t)) (some (.block (outline drop e)))]
  | .block ss => outlineAll drop ss

/-- The same for several statements. -/
def outlineAll (drop : Var → Bool) : List Stmt → List Stmt
  | [] => []
  | s :: ss => outline drop s ++ outlineAll drop ss

end

theorem outlineAll_eq (drop : Var → Bool) (ss : List Stmt) :
    outlineAll drop ss = ss.flatMap (outline drop) := by
  induction ss with
  | nil => rfl
  | cons s ss ih => rw [outlineAll, ih, List.flatMap_cons]

/-- A statement that is neither dropped nor a block keeps its kind. -/
theorem outline_eq {drop : Var → Bool} {s : Stmt} (hb : s.isBlock = false)
    (hd : s.assigned?.any drop = false) :
    s.outline drop =
      [s.withParts (s.exprs.map fun _ => hole) (s.children.map fun c => .block (c.outline drop))] := by
  cases s with
  | instr i => rw [outline, if_neg (by simp [hd])]; rfl
  | forLoop v d body => rfl
  | ifThenElse c t e => cases e <;> rfl
  | block ss => cases hb

end Stmt

/-! ### Statements over other parts -/

/-- Of the expressions that an instruction is given, the last count. -/
theorem Instr.withExprs_withExprs {i : Instr} {es es' : List Expr}
    (h : es.length = i.exprs.length) (h' : es'.length = i.exprs.length) :
    (i.withExprs es).withExprs es' = i.withExprs es' := by
  cases i with
  | assign v e =>
    obtain ⟨_, rfl⟩ := List.length_eq_one_iff.1 h
    obtain ⟨_, rfl⟩ := List.length_eq_one_iff.1 h'
    rfl
  | call rs f as => rfl
  | map rs f t n ps red =>
    -- as many partial actuals as before, then the target and perhaps its neighbours
    have htake : (es.take ps.length).length = ps.length := by simp [exprs] at h ⊢; omega
    cases n with
    | none =>
      obtain ⟨t', ht'⟩ := List.length_eq_one_iff.1
        (show (es.drop ps.length).length = 1 by simp [exprs] at h ⊢; omega)
      obtain ⟨t'', ht''⟩ := List.length_eq_one_iff.1
        (show (es'.drop ps.length).length = 1 by simp [exprs] at h' ⊢; omega)
      simp only [withExprs, ht', htake, ht'']
    | some n =>
      obtain ⟨t', n', ht'⟩ := List.length_eq_two.1
        (show (es.drop ps.length).length = 2 by simp [exprs] at h ⊢; omega)
      obtain ⟨t'', n'', ht''⟩ := List.length_eq_two.1
        (show (es'.drop ps.length).length = 2 by simp [exprs] at h' ⊢; omega)
      simp only [withExprs, ht', htake, ht'']
  | fieldWrite t f e =>
    obtain ⟨_, _, rfl⟩ := List.length_eq_two.1 h
    obtain ⟨_, _, rfl⟩ := List.length_eq_two.1 h'
    rfl
  | tensorWrite t is e =>
    obtain _ | ⟨t', rest⟩ := es
    · cases h
    obtain _ | ⟨t'', rest'⟩ := es'
    · cases h'
    have hne : rest ≠ [] := by rintro rfl; simp [exprs] at h
    have hne' : rest' ≠ [] := by rintro rfl; simp [exprs] at h'
    simp only [withExprs, List.getLast?_eq_some_getLast hne, List.getLast?_eq_some_getLast hne']
  | store b i e =>
    obtain ⟨_, _, _, rfl⟩ := List.length_eq_three.1 h
    obtain ⟨_, _, _, rfl⟩ := List.length_eq_three.1 h'
    rfl
  | pass => rw [List.length_eq_zero_iff.1 h, List.length_eq_zero_iff.1 h']; rfl
  | varDecl v => rw [List.length_eq_zero_iff.1 h, List.length_eq_zero_iff.1 h']; rfl

theorem LoopDomain.withExprs_withExprs {d : LoopDomain} {es es' : List Expr}
    (h : es.length = d.exprs.length) (h' : es'.length = d.exprs.length) :
    (d.withExprs es).withExprs es' = d.withExprs es' := by
  cases d with
  | dim d => rw [List.length_eq_zero_iff.1 h, List.length_eq_zero_iff.1 h']; rfl
  | range start stop =>
    obtain ⟨_, _, rfl⟩ := List.length_eq_two.1 h
    obtain ⟨_, _, rfl⟩ := List.length_eq_two.1 h'
    rfl

/-- An instruction over other expressions writes the same variables. -/
theorem Instr.targets_withExprs (i : Instr) (es : List Expr) :
    (Stmt.instr (i.withExprs es)).targets = (Stmt.instr i).targets := by
  unfold withExprs
  split <;> first | rfl | split <;> rfl

theorem Instr.assigned?_withExprs (i : Instr) (es : List Expr) :
    (Stmt.instr (i.withExprs es)).assigned? = (Stmt.instr i).assigned? := by
  unfold withExprs
  split <;> first | rfl | split <;> rfl

namespace Stmt

section

variable {s : Stmt} {es es' : List Expr} {ss ss' : List Stmt}

theorem withParts_withParts (hes : es.length = s.exprs.length) (hes' : es'.length = s.exprs.length)
    (hss : ss.length = s.children.length) (hss' : ss'.length = s.children.length) :
    (s.withParts es ss).withParts es' ss' = s.withParts es' ss' := by
  cases s with
  | instr i => exact congrArg Stmt.instr (Instr.withExprs_withExprs hes hes')
  | forLoop v d body =>
    obtain ⟨_, rfl⟩ := List.length_eq_one_iff.1 hss
    obtain ⟨_, rfl⟩ := List.length_eq_one_iff.1 hss'
    exact congrArg (Stmt.forLoop v · _) (LoopDomain.withExprs_withExprs hes hes')
  | ifThenElse c t e =>
    obtain ⟨_, rfl⟩ := List.length_eq_one_iff.1 hes
    obtain ⟨_, rfl⟩ := List.length_eq_one_iff.1 hes'
    cases e with
    | none =>
      obtain ⟨_, rfl⟩ := List.length_eq_one_iff.1 hss
      obtain ⟨_, rfl⟩ := List.length_eq_one_iff.1 hss'
      rfl
    | some e =>
      obtain ⟨_, _, rfl⟩ := List.length_eq_two.1 hss
      obtain ⟨_, _, rfl⟩ := List.length_eq_two.1 hss'
      rfl
  | block ss => rfl

theorem targets_withParts (s : Stmt) (es : List Expr) (ss : List Stmt) :
    (s.withParts es ss).targets = s.targets := by
  unfold withParts
  split <;> first | rfl | exact Instr.targets_withExprs _ _

theorem assigned?_withParts (s : Stmt) (es : List Expr) (ss : List Stmt) :
    (s.withParts es ss).assigned? = s.assigned? := by
  unfold withParts
  split <;> first | rfl | exact Instr.assigned?_withExprs _ _

theorem isBlock_withParts (s : Stmt) (es : List Expr) (ss : List Stmt) :
    (s.withParts es ss).isBlock = s.isBlock := by
  unfold withParts
  split <;> rfl

theorem reads_withParts (hes : es.length = s.exprs.length) (hss : ss.length = s.children.length) :
    (s.withParts es ss).reads = es.flatMap Expr.reads ++ ss.flatMap reads := by
  rw [reads_eq, exprs_withParts hes hss, children_withParts hes hss]

theorem writes_withParts (hes : es.length = s.exprs.length)
    (hss : ss.length = s.children.length) :
    (s.withParts es ss).writes = s.targets ++ ss.flatMap writes := by
  rw [writes_eq, targets_withParts, children_withParts hes hss]

/-- The outline of a statement is made of those of the statements inside. -/
theorem outline_withParts {drop keep : Var → Bool} (hes : es.length = s.exprs.length)
    (hss : ss.map (outline drop) = s.children.map (outline keep))
    (hdrop : s.assigned?.any drop = false) (hkeep : s.assigned?.any keep = false) :
    (s.withParts es ss).outline drop = s.outline keep := by
  have hlen : ss.length = s.children.length := by simpa using congrArg List.length hss
  cases hb : s.isBlock with
  | false =>
    -- as many expressions as before, and the same outlines inside
    have hholes : (es.map fun _ => hole) = s.exprs.map fun _ => hole := by
      rw [List.map_const', List.map_const', hes]
    have hinner : (ss.map fun c => Stmt.block (c.outline drop)) =
        s.children.map fun c => .block (c.outline keep) := by
      simpa only [List.map_map, Function.comp_def] using congrArg (List.map Stmt.block) hss
    rw [outline_eq ((isBlock_withParts s es ss).trans hb) (by rw [assigned?_withParts, hdrop]),
      outline_eq hb hkeep, exprs_withParts hes hlen, children_withParts hes hlen, hholes, hinner,
      withParts_withParts hes (List.length_map _) hlen (List.length_map _)]
  | true =>
    cases s with
    | block cs =>
      show outlineAll drop ss = outlineAll keep cs
      rw [outlineAll_eq, outlineAll_eq, List.flatMap_def, List.flatMap_def]
      exact congrArg List.flatten hss
    | _ => cases hb

end

/-! ### Statements behind assignments -/

/-- What lists the contents of blocks one after another does so behind pending statements. -/
theorem flatMap_after {α : Type} {f : Stmt → List α} (hf : ∀ ss, f (.block ss) = ss.flatMap f)
    (pending : List Stmt) (s : Stmt) : f (s.after pending) = pending.flatMap f ++ f s := by
  unfold after
  split
  · next h => rw [List.isEmpty_iff.1 h, List.flatMap_nil, List.nil_append]
  · rw [hf, List.flatMap_append, List.flatMap_singleton]

theorem reads_after (p : List (Var × Expr)) (s : Stmt) :
    (s.after (assigns p)).reads = Expr.readsOf p ++ s.reads := by
  have hassign : ∀ c : Var × Expr, (Stmt.assign c.1 c.2).reads = c.2.reads := fun c => by
    simp [reads_eq (.assign c.1 c.2), exprs, Instr.exprs, children]
  rw [flatMap_after (f := reads) fun ss => reads_eq _, assigns, List.flatMap_map, Expr.readsOf]
  simp only [hassign]

theorem writes_after (p : List (Var × Expr)) (s : Stmt) :
    (s.after (assigns p)).writes = p.map Prod.fst ++ s.writes := by
  have hassign : ∀ c : Var × Expr, (Stmt.assign c.1 c.2).writes = [c.1] := fun c => by
    simp [writes_eq (.assign c.1 c.2), targets, Instr.defined, children]
  rw [flatMap_after (f := writes) fun ss => writes_eq _, assigns, List.flatMap_map, List.map_eq_flatMap]
  simp only [hassign]

/-- Assignments that are dropped leave the outline as it was. -/
theorem outline_after {drop : Var → Bool} {p : List (Var × Expr)} (s : Stmt)
    (hp : ∀ c ∈ p, drop c.1 = true) : (s.after (assigns p)).outline drop = s.outline drop := by
  rw [flatMap_after (f := outline drop) fun ss => outlineAll_eq drop ss, assigns, List.flatMap_map]
  have hdropped : (p.flatMap fun c => (Stmt.assign c.1 c.2).outline drop) = [] :=
    List.flatMap_eq_nil_iff.2 fun c hc => by simp [outline, assigned?, hp c hc]
  rw [hdropped, List.nil_append]

theorem mem_nodes_after {pending : List Stmt} {s b : Stmt} (hb : b ∈ s.nodes) :
    b ∈ (s.after pending).nodes := by
  unfold after
  split
  · exact hb
  · exact mem_nodes_of_child (by simp [children]) hb

end Stmt

/-- A statement is flattened to one over new parts. What its own expressions leave pending is put
in front of it, and the statements inside see to themselves. -/
theorem StmtFlattensTo.moves {s s' : Stmt} {st st' : Flattener} (h : StmtFlattensTo s st s' st') :
    ∃ xs ss p st₁ st₂, xs.length = s.exprs.length ∧
      st.own.Moves (s.exprs.flatMap Expr.reads) (xs.flatMap Expr.reads) p st₁ ∧
      Flattening.Threads StmtFlattensTo s.children st₁ ss st₂ ∧
      s' = (s.withParts xs ss).after (Stmt.assigns p) ∧ st' = st₂.resume st := by
  cases h with
  | call hthreads =>
    obtain ⟨p, hp⟩ := hthreads.moves fun _ _ _ _ _ hr => hr.moves
    refine ⟨_, [], p, _, _, hthreads.length_eq, hp, .nil, ?_, rfl⟩
    rw [hp.pending]
    rfl
  | parts _ hexprs hstmts =>
    obtain ⟨p, hp⟩ := hexprs.moves fun _ _ _ _ _ hr => hr.moves
    refine ⟨_, _, p, _, _, hexprs.length_eq, hp, hstmts, ?_, rfl⟩
    rw [hstmts.pending_eq, hp.pending]
    rfl

/-! ### The discipline -/

namespace Stmt

/-- In the block `b` the variable `t` is assigned among other variables from identity `n` on. Last
comes a statement of `s` over new parts. After the assignment, `t` is read once, in a value that
is assigned later or in an expression that the last statement evaluates itself. -/
def Spills (n : Nat) (s b : Stmt) (t : Var) : Prop :=
  ∃ (p q : List (Var × Expr)) (value : Expr) (last : Stmt),
    b = .block (assigns (p ++ (t, value) :: q) ++ [last]) ∧ (∀ c ∈ p ++ q, n ≤ c.1.id) ∧
    (∃ m ∈ s.nodes, last = m.withParts last.exprs last.children) ∧
    (Expr.readsOf q ++ last.exprs.flatMap Expr.reads).count t = 1

/-- What flattening leaves of a statement, as far as variables from identity `n` on are new. -/
structure Keeps (n : Nat) (s s' : Stmt) : Prop where
  /-- All is read as often as before, and every new variable once. -/
  count : ∀ v, s'.reads.count v = s.reads.count v + (s'.newVars n).count v
  spills : ∀ t ∈ s'.newVars n, ∃ b ∈ s'.nodes, s.Spills n b t
  /-- Without the assignments to new variables, only expressions have changed. -/
  outline : s'.outline (fun v => n ≤ v.id) = s.outline fun _ => false

end Stmt

section

variable {n : Nat} {s s' : Stmt} {st st' : Flattener}

/-- The statement reads and writes variables below identity `n` only. -/
def Stmt.Old (n : Nat) (s : Stmt) : Prop := (∀ v ∈ s.reads, v.id < n) ∧ ∀ v ∈ s.writes, v.id < n

instance : Decidable (s.Old n) := inferInstanceAs (Decidable (_ ∧ _))

theorem Stmt.Old.child {c : Stmt} (h : s.Old n) (hc : c ∈ s.children) : c.Old n := by
  refine ⟨fun v hv => h.1 v ?_, fun v hv => h.2 v ?_⟩
  · rw [reads_eq]
    exact List.mem_append_right _ (List.mem_flatMap.2 ⟨c, hc, hv⟩)
  · rw [writes_eq]
    exact List.mem_append_right _ (List.mem_flatMap.2 ⟨c, hc, hv⟩)

theorem Stmt.Old.reads_exprs (h : s.Old n) : ∀ v ∈ s.exprs.flatMap Expr.reads, v.id < n :=
  fun v hv => h.1 v (by rw [reads_eq]; exact List.mem_append_left _ hv)

theorem Stmt.Old.targets (h : s.Old n) : ∀ v ∈ s.targets, v.id < n :=
  fun v hv => h.2 v (by rw [writes_eq]; exact List.mem_append_left _ hv)

theorem Stmt.Old.assigned? (h : s.Old n) : s.assigned?.any (fun v => n ≤ v.id) = false := by
  cases ha : s.assigned? with
  | none => rfl
  | some v => simpa using h.targets v (mem_targets_of_assigned? ha)

section

variable {xs : List Expr} {ss : List Stmt} {p : List (Var × Expr)} (hxs : xs.length = s.exprs.length)
  (hss : ss.length = s.children.length)

include hxs hss

/-- The temporaries in front of a statement come first, then those inside it. -/
theorem Stmt.newVars_after (hs : s.Old n) (hp : ∀ t ∈ p.map Prod.fst, n ≤ t.id) :
    ((s.withParts xs ss).after (assigns p)).newVars n =
      p.map Prod.fst ++ ss.flatMap (newVars n) := by
  have htargets : s.targets.filter (fun v => n ≤ v.id) = [] :=
    List.filter_eq_nil_iff.2 fun v hv => by simpa using hs.targets v hv
  have hnew : (p.map Prod.fst).filter (fun v => n ≤ v.id) = p.map Prod.fst :=
    List.filter_eq_self.2 fun t ht => by simpa using hp t ht
  rw [newVars, writes_after, writes_withParts hxs hss, List.filter_append, List.filter_append,
    htargets, hnew, List.nil_append, List.filter_flatMap]
  rfl

/-- What a statement's own expressions move is assigned in front of it, where the statement, or a
value that is assigned later, reads it. -/
theorem Flattener.Moves.spills {rs : List Var} (h : st.Moves rs (xs.flatMap Expr.reads) p st')
    (hrs : ∀ v ∈ rs, v.id < st.nextId) (hn : n ≤ st.nextId) :
    ∀ t ∈ p.map Prod.fst, s.Spills n ((s.withParts xs ss).after (Stmt.assigns p)) t := by
  intro t ht
  obtain ⟨⟨t, value⟩, hmem, rfl⟩ := List.mem_map.1 ht
  obtain ⟨p₁, p₂, rfl⟩ := List.append_of_mem hmem
  have hnew : ∀ c ∈ p₁ ++ (t, value) :: p₂, n ≤ c.1.id := fun c hc =>
    Nat.le_trans hn (h.issues.ids c.1 (List.mem_map_of_mem hc)).1
  refine ⟨p₁, p₂, value, s.withParts xs ss, ?_, ?_, ⟨s, s.self_mem_nodes, ?_⟩, ?_⟩
  · rw [Stmt.after, if_neg (by simp [Stmt.assigns])]
  · intro c hc
    rcases List.mem_append.1 hc with hc | hc
    · exact hnew c (by simp [hc])
    · exact hnew c (by simp [hc])
  · rw [Stmt.exprs_withParts hxs hss, Stmt.children_withParts hxs hss]
  · rw [Stmt.exprs_withParts hxs hss]
    -- in all it is read once, and not before it is assigned
    have hcount := h.count t
    have hold : rs.count t = 0 := List.count_eq_zero_of_not_mem fun hmem =>
      Nat.not_lt.2 (h.issues.ids t (by simp)).1 (hrs t hmem)
    have hone : ((p₁ ++ (t, value) :: p₂).map Prod.fst).count t = 1 :=
      List.count_eq_one_of_mem h.issues.nodup (by simp)
    have hbefore : (Expr.readsOf (p₁ ++ [(t, value)])).count t = 0 :=
      List.count_eq_zero_of_not_mem (h.not_mem_readsOf hrs)
    rw [hold, hone, ← List.singleton_append, ← List.append_assoc] at hcount
    simp only [Expr.readsOf, List.flatMap_append, List.count_append] at hcount hbefore ⊢
    omega

end

theorem Stmt.Spills.of_child {c b : Stmt} {t : Var} (h : c.Spills n b t) (hc : c ∈ s.children) :
    s.Spills n b t := by
  obtain ⟨p, q, value, last, hb, hpq, ⟨m, hm, hlast⟩, hcount⟩ := h
  exact ⟨p, q, value, last, hb, hpq, ⟨m, mem_nodes_of_child hc hm, hlast⟩, hcount⟩

/-- A statement draws what is drawn for its parts. -/
theorem Flattener.Issues.of_own {ts : List Var} (h : st.own.Issues ts st') :
    st.Issues ts (st'.resume st) :=
  ⟨h.names, h.supply, h.nextId_le, h.ids, h.ascending⟩

/-- What flattening keeps of a statement, and what it makes on the way. -/
def StmtFlattensTo.Disciplined (n : Nat) (s : Stmt) : Prop :=
  ∀ s' st st', StmtFlattensTo s st s' st' → s.Old n → n ≤ st.nextId →
    s.Keeps n s' ∧ st.Issues (s'.newVars n) st'

/-- Several statements, one after another. -/
theorem Flattening.Threads.disciplined {cs ss : List Stmt}
    (h : Flattening.Threads StmtFlattensTo cs st ss st')
    (ih : ∀ c ∈ cs, StmtFlattensTo.Disciplined n c) (hcs : ∀ c ∈ cs, c.Old n)
    (hn : n ≤ st.nextId) :
    List.Forall₂ (Stmt.Keeps n) cs ss ∧ st.Issues (ss.flatMap (Stmt.newVars n)) st' := by
  induction h with
  | nil => exact ⟨.nil, .nil rfl (Nat.le_refl _)⟩
  | cons hr _ ihs =>
    obtain ⟨hkeeps, hissues⟩ := ih _ (by simp) _ _ _ hr (hcs _ (by simp)) hn
    obtain ⟨hrest, hissues'⟩ := ihs (fun c h => ih c (by simp [h])) (fun c h => hcs c (by simp [h]))
      (Nat.le_trans hn hissues.nextId_le)
    exact ⟨.cons hkeeps hrest, hissues.append hissues'⟩

/-- The reads of statements that keep theirs. -/
theorem Stmt.count_reads_of_keeps {cs ss : List Stmt} (h : List.Forall₂ (Keeps n) cs ss) (v : Var) :
    (ss.flatMap reads).count v =
      (cs.flatMap reads).count v + (ss.flatMap (newVars n)).count v := by
  induction h with
  | nil => rfl
  | cons hk _ ih =>
    have hcount := hk.count v
    simp only [List.flatMap_cons, List.count_append]
    omega

/-- The outlines of statements that keep theirs. -/
theorem Stmt.map_outline_of_keeps {cs ss : List Stmt} (h : List.Forall₂ (Keeps n) cs ss) :
    ss.map (outline fun v => n ≤ v.id) = cs.map (outline fun _ => false) :=
  (map_eq_map_of_forall₂ (h.imp fun _ _ hk => hk.outline.symm)).symm

/-- One statement, given the statements inside it. -/
theorem StmtFlattensTo.disciplined_step (ih : ∀ c ∈ s.children, Disciplined n c) :
    Disciplined n s := by
  intro s' st st' h hold hn
  obtain ⟨xs, ss, p, st₁, st₂, hxs, hmoves, hstmts, rfl, rfl⟩ := h.moves
  have hss : ss.length = s.children.length := hstmts.length_eq
  obtain ⟨hinner, hissues⟩ := hstmts.disciplined ih (fun c hc => hold.child hc)
    (Nat.le_trans hn hmoves.issues.nextId_le)
  have hnew : ∀ t ∈ p.map Prod.fst, n ≤ t.id := fun t ht =>
    Nat.le_trans hn (hmoves.issues.ids t ht).1
  have hvars := Stmt.newVars_after hxs hss hold hnew
  have hreads : ∀ v ∈ s.exprs.flatMap Expr.reads, v.id < st.own.nextId := fun v hv =>
    Nat.lt_of_lt_of_le (hold.reads_exprs v hv) hn
  refine ⟨⟨fun v => ?_, fun t ht => ?_, ?_⟩, ?_⟩
  · have hown := hmoves.count v
    have hinside := Stmt.count_reads_of_keeps hinner v
    rw [hvars, Stmt.reads_after, Stmt.reads_withParts hxs hss, Stmt.reads_eq]
    simp only [List.count_append]
    omega
  · rw [hvars, List.mem_append] at ht
    rcases ht with ht | ht
    · exact ⟨_, Stmt.self_mem_nodes _, hmoves.spills hxs hss hreads hn t ht⟩
    · obtain ⟨c', hc', ht⟩ := List.mem_flatMap.1 ht
      obtain ⟨c, hc, hkeeps⟩ := exists_of_mem_right hinner hc'
      obtain ⟨b, hb, hspills⟩ := hkeeps.spills t ht
      have hchild : c' ∈ (s.withParts xs ss).children := by rwa [Stmt.children_withParts hxs hss]
      exact ⟨b, Stmt.mem_nodes_after (Stmt.mem_nodes_of_child hchild hb), hspills.of_child hc⟩
  · rw [Stmt.outline_after _ fun c hc => by simpa using hnew c.1 (List.mem_map_of_mem hc)]
    exact Stmt.outline_withParts hxs (Stmt.map_outline_of_keeps hinner) hold.assigned?
      (by cases s.assigned? <;> rfl)
  · rw [hvars]
    exact (hmoves.issues.append hissues).of_own

end

namespace Stmt

/-- The temporaries of a flattened statement are its new variables. They are made in the order in
which they are assigned, with the names next in supply. Each of them is assigned once and read
once, further on in the block that ends with the statement it was made for. Without their
assignments, the statement has changed in its expressions only. -/
theorem flatten_temporaries {s : Stmt} {st st' : Flattener} {out : Transformed Stmt}
    (hs : s.Old st.nextId) (h : s.flatten.run.run st = (.ok out, st')) :
    st.Issues (out.value.newVars st.nextId) st' ∧
      (∀ t ∈ out.value.newVars st.nextId,
        out.value.writes.count t = 1 ∧ out.value.reads.count t = 1 ∧
          ∃ b ∈ out.value.nodes, s.Spills st.nextId b t) ∧
      out.value.outline (fun v => st.nextId ≤ v.id) = s.outline fun _ => false := by
  obtain ⟨hkeeps, hissues⟩ := children_induction (motive := StmtFlattensTo.Disciplined st.nextId)
    (fun _ => StmtFlattensTo.disciplined_step) s _ _ _ (flattensTo_of_run h) hs (Nat.le_refl _)
  refine ⟨hissues, fun t ht => ⟨?_, ?_, hkeeps.spills t ht⟩, hkeeps.outline⟩
  · have hnew : decide (st.nextId ≤ t.id) = true := (List.mem_filter.1 ht).2
    rw [← List.count_filter (p := fun v : Var => decide (st.nextId ≤ v.id)) hnew]
    exact List.count_eq_one_of_mem hissues.nodup ht
  · have hold : s.reads.count t = 0 := List.count_eq_zero_of_not_mem fun hmem =>
      Nat.not_lt.2 (hissues.ids t ht).1 (hs.1 t hmem)
    rw [hkeeps.count, hold, List.count_eq_one_of_mem hissues.nodup ht]

/-- Temporaries for a sum within a sum and for an actual of a call, in the branches of a loop:

    for v in 3: if b: x = (: a{r}) + c - c; else: x = f(a * (c - (: a{r}))); -/
def nestedSums : Stmt :=
  let r : IndexVar := ⟨0, "r", .range 3, some .sum⟩
  let a : Expr := .ofVar ⟨1, "a", .vector 3⟩
  let c : Expr := .ofVar ⟨2, "c", .float⟩
  let x : Var := ⟨3, "x", .float⟩
  let f : Func := ⟨6, "f", .external, [⟨7, "y", .vector 3⟩], [⟨8, "z", .float⟩], none⟩
  let total : Expr := .build [] (a.index [r])
  .forLoop ⟨4, "v", .int⟩ (.dim (.range 3)) (.ifThenElse (.ofVar ⟨5, "b", .bool⟩)
    (.assign x (.binaryOf .sub (.binaryOf .add total c) c))
    (some (.call [x] f [.binaryOf .mul a (.binaryOf .sub c total)])))

theorem flatten_temporaries_nestedSums :
    nestedSums.Old 9 ∧ ∃ out st', nestedSums.flatten.run.run (.ofFresh ⟨9, {}⟩) = (.ok out, st') ∧
      (out.value.newVars 9).map Var.name = ["tmp0", "tmp1", "tmp2", "tmp3"] ∧
      (Flattener.ofFresh ⟨9, {}⟩).Issues (out.value.newVars 9) st' ∧
      (∀ t ∈ out.value.newVars 9, out.value.writes.count t = 1 ∧ out.value.reads.count t = 1 ∧
        ∃ b ∈ out.value.nodes, nestedSums.Spills 9 b t) ∧
      out.value.outline (fun v => 9 ≤ v.id) = nestedSums.outline fun _ => false :=
  ⟨by decide, _, _, rfl, rfl,
    @flatten_temporaries nestedSums (.ofFresh ⟨9, {}⟩) _ _ (by decide) rfl⟩

end Stmt

end TensorIR
