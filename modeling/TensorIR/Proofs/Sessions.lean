import TensorIR.Proofs.Provenance

/-! # Sessions

A *session* is any number of builders, passes and pipelines that share one generator of temporary
names, and serve requests one after another. However the requests come, and however many of them
fail, no name is drawn twice, and no two temporaries have one name (`Session.names_unique`).

**Key idea**: a ledger has one entry for each name that was drawn, with the temporary it was drawn
for, if any. One request adds to the ledger what it draws (`Session.records_serve`), so a session
has written down every name, in order. What is returned, and was not handed in, is a temporary of
the ledger.
-/

namespace TensorIR

namespace TempNames

/-- From one state of the generator to another, the names `xs` are drawn. -/
inductive Draws : TempNames → List String → TempNames → Prop
  | nil {t} : Draws t [] t
  | cons {t x t₁ xs t'} : t.draw = (x, t₁) → Draws t₁ xs t' → Draws t (x :: xs) t'

/-- Names are numbered in the order in which they are drawn. -/
theorem draws_iff {t t' : TempNames} {xs : List String} :
    Draws t xs t' ↔ xs = (List.range' t.issued xs.length).map (name t.stem) ∧
      t' = { t with issued := t.issued + xs.length } := by
  constructor
  · intro h
    induction h with
    | nil => exact ⟨rfl, rfl⟩
    | @cons t x t₁ xs t' hdraw _ ih =>
      cases hdraw
      obtain ⟨hxs, ht'⟩ := ih
      refine ⟨?_, ?_⟩
      · rw [List.length_cons, List.range'_succ, List.map_cons]
        exact congrArg _ hxs
      · rw [ht', List.length_cons, Nat.add_comm xs.length, ← Nat.add_assoc]
  · rintro ⟨hxs, rfl⟩
    induction xs generalizing t with
    | nil => exact .nil
    | cons x xs ih =>
      rw [List.length_cons, List.range'_succ, List.map_cons, List.cons.injEq] at hxs
      have hrest := @ih { t with issued := t.issued + 1 } hxs.2
      rw [Nat.add_assoc, Nat.add_comm 1] at hrest
      exact .cons (Prod.ext hxs.1.symm rfl) hrest

theorem Draws.append {t t₁ t' : TempNames} {xs ys : List String} (h : Draws t xs t₁)
    (h' : Draws t₁ ys t') : Draws t (xs ++ ys) t' := by
  induction h with
  | nil => exact h'
  | cons hdraw _ ih => exact .cons hdraw (ih h')

theorem Draws.nodup {t t' : TempNames} {xs : List String} (h : Draws t xs t') : xs.Nodup := by
  rw [(draws_iff.1 h).1]
  exact List.Nodup.map (name_injective t.stem) List.nodup_range'

end TempNames

/-! ### Variables of a program -/

/-- The variables that are read, assigned, declared or counted with in a statement. -/
def Stmt.vars (s : Stmt) : List Var := s.reads ++ s.writes

/-- The parameters and results of a function, and the variables of its body. -/
def Func.vars (f : Func) : List Var :=
  f.args ++ f.results ++ f.body.toList.flatMap Stmt.vars

section

variable {V : Vocabulary}

theorem Expr.within_iff_reads (hV : ∀ v, V.indexVar v) {e : Expr} :
    e.Within V ↔ ∀ v ∈ e.reads, V.var v := by
  induction e using Expr.children_induction with
  | step e ih =>
    have hparts : e.Within V ↔ Expr.OverNode V.var V.indexVar e ∧ ∀ c ∈ e.children, c.Within V :=
      Expr.everywhere_iff
    have hroot : Expr.OverNode V.var V.indexVar e ↔ ∀ v ∈ e.var?.toList, V.var v := by
      cases e <;> simp [Expr.OverNode, Expr.var?, hV]
    rw [hparts, hroot, Expr.reads_eq]
    simp only [List.mem_append, List.mem_flatMap, or_imp, forall_and, forall_exists_index, and_imp]
    refine and_congr_right fun _ => ⟨fun h v c hc => (ih c hc).1 (h c hc) v, fun h c hc => ?_⟩
    exact (ih c hc).2 fun v hv => h v c hc hv

theorem Stmt.within_iff_vars (hV : ∀ v, V.indexVar v) {s : Stmt} :
    s.Within V ↔ ∀ v ∈ s.vars, V.var v := by
  have hexprs : (s.Everywhere fun n => ∀ e ∈ n.exprs, e.Within V) ↔ ∀ v ∈ s.reads, V.var v := by
    rw [← forExprs_iff_everywhere]
    simp only [ForExprs, reads, List.mem_flatMap, forall_exists_index, and_imp,
      Expr.within_iff_reads hV]
    exact ⟨fun h v e he hv => h e he v hv, fun h e he v hv => h v e he hv⟩
  have hwrites : (s.Everywhere fun n => ∀ v ∈ n.targets, V.var v) ↔ ∀ v ∈ s.writes, V.var v := by
    simp only [Everywhere, writes, List.mem_flatMap, forall_exists_index, and_imp]
    exact ⟨fun h v n hn hv => h n hn v hv, fun h n hn v hv => h v n hn hv⟩
  rw [vars, List.forall_mem_append, ← hexprs, ← hwrites]
  exact ⟨fun h => ⟨fun n hn => (h n hn).1, fun n hn => (h n hn).2⟩,
    fun h n hn => ⟨h.1 n hn, h.2 n hn⟩⟩

theorem Func.within_iff_vars (hV : ∀ v, V.indexVar v) {f : Func} :
    f.Within V ↔ ∀ v ∈ f.vars, V.var v := by
  have hbody : (∀ body ∈ f.body, body.Within V) ↔ ∀ v ∈ f.body.toList.flatMap Stmt.vars, V.var v := by
    cases f.body <;> simp [Stmt.within_iff_vars hV]
  rw [vars, List.forall_mem_append, List.forall_mem_append, ← hbody]
  exact ⟨fun h => ⟨⟨h.args, h.results⟩, h.body⟩, fun h => ⟨h.1.1, h.1.2, h.2⟩⟩

end

/-! ### Requests -/

/-- What can be asked of a session. Builders and passes are told apart by numbers; each has done
nothing before the first request that names it. A pipeline keeps nothing from one request to the
next, so its configuration stands for it. -/
inductive Request where
  /-- A name is drawn for its own sake. -/
  | name
  /-- The program makes a variable, an index variable or a function of its own. -/
  | identity
  | temporary (builder : Nat) (ty : Ty)
  | lower (pass : Nat) (s : Stmt)
  | flatten (pass : Nat) (s : Stmt)
  | spill (pass : Nat) (a : Expr)
  | run (config : Config) (f : Func)
  | runStmt (config : Config) (s : Stmt)

/-- What a session answers. -/
inductive Answer where
  | name (x : String)
  | identity (n : Nat)
  | var (v : Var)
  | expr (e : Expr)
  | stmt (s : Stmt)
  | func (f : Func)
  | failed (e : Error)

/-- The variables that are handed in with a request. -/
def Request.vars : Request → List Var
  | .name | .identity | .temporary _ _ => []
  | .lower _ s | .flatten _ s | .runStmt _ s => s.vars
  | .spill _ a => a.reads
  | .run _ f => f.vars

/-- The variables that come back with an answer. -/
def Answer.vars : Answer → List Var
  | .name _ | .identity _ | .failed _ => []
  | .var v => [v]
  | .expr e => e.reads
  | .stmt s => s.vars
  | .func f => f.vars

/-- The name that was drawn for its own sake. -/
def Answer.name? : Answer → Option String
  | .name x => some x
  | _ => none

/-- The answer that an outcome makes. -/
def Answer.ofOutcome {α : Type} (answer : α → Answer) : Except Error (Transformed α) → Answer
  | .ok out => answer out.value
  | .error e => .failed e

theorem Answer.name?_ofOutcome {α : Type} {answer : α → Answer}
    (h : ∀ a, (answer a).name? = none) (out : Except Error (Transformed α)) :
    (ofOutcome answer out).name? = none := by
  cases out with
  | ok out => exact h out.value
  | error e => rfl

/-- Builders, passes and pipelines with one generator of names. -/
structure Session where
  supply : Fresh
  builders : Nat → IndexNames := fun _ => {}
  lowerings : Nat → IndexNames := fun _ => {}
  flattenings : Nat → IndexNames × Splicer := fun _ => ({}, {})

namespace Session

/-- A session that has served nothing: the names have the given stem, and identities from `n` on
are free. -/
def opened (stem : String) (n : Nat) : Session := { supply := ⟨n, { stem }⟩ }

variable (s : Session)

/-- The builder with the given number. -/
def builder (k : Nat) : Builder := { s.supply with indexNames := s.builders k }

def setBuilder (k : Nat) (b : Builder) : Session :=
  { s with supply := b.toFresh, builders := Function.update s.builders k b.indexNames }

/-- The builder of the lowering pass with the given number. -/
def lowering (k : Nat) : Builder := { s.supply with indexNames := s.lowerings k }

def setLowering (k : Nat) (b : Builder) : Session :=
  { s with supply := b.toFresh, lowerings := Function.update s.lowerings k b.indexNames }

/-- The flattener with the given number. -/
def flattener (k : Nat) : Flattener :=
  { s.supply with indexNames := (s.flattenings k).1, toSplicer := (s.flattenings k).2 }

def setFlattener (k : Nat) (st : Flattener) : Session :=
  { s with
    supply := st.toFresh
    flattenings := Function.update s.flattenings k (st.indexNames, st.toSplicer) }

/-- Serves one request. -/
def serve : Request → Session → Answer × Session
  | .name, s =>
    let (x, names) := s.supply.names.draw
    (.name x, { s with supply := { s.supply with names } })
  | .identity, s =>
    let (n, supply) := Fresh.newId.run s.supply
    (.identity n, { s with supply })
  | .temporary k ty, s =>
    let (v, b) := (Builder.temporary ty).run (s.builder k)
    (.var v, s.setBuilder k b)
  | .lower k t, s =>
    let (out, b) := t.lower.run.run (s.lowering k)
    (.ofOutcome .stmt out, s.setLowering k b)
  | .flatten k t, s =>
    let (out, st) := t.flatten.run.run (s.flattener k)
    (.ofOutcome .stmt out, s.setFlattener k st)
  | .spill k a, s =>
    let (out, st) := a.spill.run.run (s.flattener k)
    (.ofOutcome .expr out, s.setFlattener k st)
  | .run config f, s =>
    let (out, supply) := (Pipeline.run config f).run.run s.supply
    (.ofOutcome .func out, { s with supply })
  | .runStmt config t, s =>
    let (out, supply) := (Pipeline.runStmt config t).run.run s.supply
    (.ofOutcome .stmt out, { s with supply })

/-- Serves requests one after another. -/
def serveAll : List Request → Session → List Answer × Session
  | [], s => ([], s)
  | r :: rs, s =>
    let (a, s) := serve r s
    let (as, s) := serveAll rs s
    (a :: as, s)

/-- A statement that waits in one of the flatteners. -/
def Pending (s : Session) (t : Stmt) : Prop := ∃ k, t ∈ (s.flattener k).pending

/-- While the requests are served, `v` comes back with an answer or comes to wait in a flattener,
and it was handed in neither with the requests up to then nor among `seen`. -/
inductive Makes (v : Var) : List Var → List Request → Session → Prop
  | now {seen r rs s} : v ∉ r.vars ++ seen →
    (v ∈ (serve r s).1.vars ∨ ∃ t, (serve r s).2.Pending t ∧ v ∈ t.vars) →
    Makes v seen (r :: rs) s
  | later {seen r rs s} : Makes v (r.vars ++ seen) rs (serve r s).2 → Makes v seen (r :: rs) s

/-! ### What one request introduces -/

instance : Supplied Session := ⟨supply, Pending⟩

/-- The vocabulary has the given variables, and all index variables. -/
def HasVars (xs : List Var) (V : Vocabulary) : Prop :=
  (∀ v, V.indexVar v) ∧ ∀ v ∈ xs, V.var v

section

variable {α : Type} {pre : Vocabulary → Prop}

theorem introduces_onSupply {f : Fresh → α × Fresh} {post : Vocabulary → α → Prop}
    (h : Introduces pre f post) :
    Introduces pre (fun s : Session => ((f s.supply).1, { s with supply := (f s.supply).2 })) post :=
  Introduces.embed (i := supply) (b := fun s supply => { s with supply }) h (fun _ => rfl)
    (fun _ _ h => h.elim) (fun _ _ => rfl) fun _ _ _ h => .inl h

theorem introduces_onBuilder (k : Nat) {f : Builder → α × Builder} {post : Vocabulary → α → Prop}
    (h : Introduces pre f post) :
    Introduces pre (fun s : Session => ((f (s.builder k)).1, s.setBuilder k (f (s.builder k)).2))
      post :=
  Introduces.embed (i := fun s : Session => s.builder k) (b := fun s b => s.setBuilder k b) h (fun _ => rfl)
    (fun _ _ h => h.elim) (fun _ _ => rfl) fun _ _ _ h => .inl h

theorem introduces_onLowering (k : Nat) {f : Builder → α × Builder} {post : Vocabulary → α → Prop}
    (h : Introduces pre f post) :
    Introduces pre
      (fun s : Session => ((f (s.lowering k)).1, s.setLowering k (f (s.lowering k)).2)) post :=
  Introduces.embed (i := fun s : Session => s.lowering k) (b := fun s b => s.setLowering k b) h (fun _ => rfl)
    (fun _ _ h => h.elim) (fun _ _ => rfl) fun _ _ _ h => .inl h

theorem introduces_onFlattener (k : Nat) {f : Flattener → α × Flattener}
    {post : Vocabulary → α → Prop} (h : Introduces pre f post) :
    Introduces pre
      (fun s : Session => ((f (s.flattener k)).1, s.setFlattener k (f (s.flattener k)).2)) post := by
  refine Introduces.embed (i := fun s : Session => s.flattener k) (b := fun s st => s.setFlattener k st) h
    (fun _ => rfl) (fun _ _ h => ⟨k, h⟩) (fun _ _ => rfl) ?_
  rintro s st t ⟨l, ht⟩
  -- one flattener has what it is left with, the others have what they had
  by_cases hl : l = k
  · subst hl
    right
    show t ∈ st.pending
    simpa [flattener, setFlattener] using ht
  · left
    exact ⟨l, by simpa [flattener, setFlattener, Function.update_of_ne hl] using ht⟩

end

/-- The variables of what an action returns. -/
theorem introduces_outcome {α : Type} {f : Session → Except Error (Transformed α) × Session}
    {pre : Vocabulary → Prop} {p : Vocabulary → α → Prop} (answer : α → Answer)
    (h : Introduces pre f fun V r => ∀ out, r = .ok out → p V out.value)
    (hp : ∀ V a, pre V → p V a → ∀ v ∈ (answer a).vars, V.var v) :
    Introduces pre (fun s => (Answer.ofOutcome answer (f s).1, (f s).2))
      fun V a => ∀ v ∈ a.vars, V.var v := by
  refine Introduces.map (k := Answer.ofOutcome answer) h fun V r hV hr => ?_
  cases r with
  | ok out => exact hp V out.value hV (hr out rfl)
  | error e => exact fun v hv => by cases hv

/-- Whatever is asked but a name, what comes back is made of what was handed in, what waited, and
the temporaries that are made. -/
theorem introduces_serve {r : Request} (hr : r ≠ .name) :
    Introduces (HasVars r.vars) (serve r) fun V a => ∀ v ∈ a.vars, V.var v := by
  have hstmt : ∀ {t : Stmt} V, HasVars t.vars V → t.Within V := fun V hV =>
    (Stmt.within_iff_vars hV.1).2 hV.2
  have hback : ∀ {xs : List Var} V (t : Stmt), HasVars xs V → t.Within V →
      ∀ v ∈ (Answer.stmt t).vars, V.var v := fun V t hV ht => (Stmt.within_iff_vars hV.1).1 ht
  cases r with
  | name => exact absurd rfl hr
  | identity =>
    exact Introduces.map (k := Answer.identity) (introduces_onSupply introduces_newId)
      fun V n _ _ v hv => by cases hv
  | temporary k ty =>
    refine Introduces.map (k := Answer.var)
      (introduces_onBuilder k (Builder.introduces_temporary ty)) fun V v _ hv => ?_
    simpa [Answer.vars] using hv
  | lower k t =>
    exact introduces_outcome .stmt
      ((introduces_onLowering k t.introduces_lower).mono hstmt fun _ _ _ h => h) hback
  | flatten k t =>
    exact introduces_outcome .stmt
      ((introduces_onFlattener k t.introduces_flatten).mono hstmt fun _ _ _ h => h) hback
  | spill k a =>
    exact introduces_outcome .expr
      ((introduces_onFlattener k (Flattening.introduces_spill Flattening.conserves_flatten a)).mono
        (fun V hV => (Expr.within_iff_reads hV.1).2 hV.2) fun _ _ _ h => h)
      fun V e hV he => (Expr.within_iff_reads hV.1).1 he
  | run config f =>
    exact introduces_outcome .func
      ((introduces_onSupply Pipeline.introduces_run).mono
        (fun V hV => (Func.within_iff_vars hV.1).2 hV.2) fun _ _ _ h => h)
      fun V f hV hf => (Func.within_iff_vars hV.1).1 hf
  | runStmt config t =>
    exact introduces_outcome .stmt
      ((introduces_onSupply Pipeline.introduces_flatten).mono hstmt fun _ _ _ h => h) hback

/-! ### The ledger -/

/-- The names that were drawn, each with the temporary that has it. A name that was drawn for its
own sake has none. -/
abbrev Ledger := List (String × Option Var)

/-- The names that were drawn for their own sake. -/
def Ledger.plain (ledger : Ledger) : List String :=
  ledger.filterMap fun entry => if entry.2.isNone then some entry.1 else none

/-- The ledger has all names that were drawn from the start, and of the statements that wait all
variables that were not handed in. -/
structure Records (stem : String) (ledger : Ledger) (seen : List Var) (s : Session) : Prop where
  drawn : TempNames.Draws { stem } (ledger.map Prod.fst) s.supply.names
  pending : ∀ t, s.Pending t → ∀ v ∈ t.vars, v ∈ seen ∨ (v.name, some v) ∈ ledger

variable {stem : String} {ledger : Ledger} {seen : List Var} {s}

theorem records_opened (stem : String) (n : Nat) : Records stem [] [] (opened stem n) where
  drawn := .nil
  pending := by
    rintro t ⟨k, ht⟩
    cases ht

/-- The entries of temporaries. -/
def Ledger.ofTemporaries (ts : List Var) : Ledger := ts.map fun t => (t.name, some t)

theorem Ledger.map_fst_ofTemporaries (ts : List Var) :
    (ofTemporaries ts).map Prod.fst = ts.map Var.name := by
  simp [ofTemporaries]

theorem Ledger.plain_ofTemporaries (ts : List Var) : (ofTemporaries ts).plain = [] := by
  simp [ofTemporaries, plain]

/-- Only who asks for a name is told one. -/
theorem name?_serve {r : Request} (hr : r ≠ .name) : (serve r s).1.name? = none := by
  cases r with
  | name => exact absurd rfl hr
  | identity => rfl
  | temporary k ty => rfl
  | lower k t | flatten k t | spill k a | run config f | runStmt config t =>
    exact Answer.name?_ofOutcome (fun _ => rfl) _

/-- A name drawn for its own sake is put into the ledger as such. -/
theorem records_serve_name (h : Records stem ledger seen s) :
    Records stem (ledger ++ [(s.supply.names.draw.1, none)]) seen (serve .name s).2 where
  drawn := by
    rw [List.map_append]
    exact h.drawn.append (.cons rfl .nil)
  pending := fun t ht v hv => (h.pending t ht v hv).imp_right (List.mem_append_left _)

/-- Any other request puts the temporaries into the ledger that it makes. -/
theorem records_serve_temporaries (h : Records stem ledger seen s) {r : Request}
    (hr : r ≠ .name) :
    ∃ ts, Records stem (ledger ++ .ofTemporaries ts) (r.vars ++ seen) (serve r s).2 ∧
      ∀ v ∈ (serve r s).1.vars, v ∈ r.vars ++ seen ∨
        (v.name, some v) ∈ ledger ++ .ofTemporaries ts := by
  obtain ⟨ts, hts, hV⟩ := introduces_serve hr s
  -- the vocabulary of all that was handed in or is in the ledger
  let V : Vocabulary :=
    ⟨fun v => v ∈ r.vars ++ seen ∨ (v.name, some v) ∈ ledger ++ .ofTemporaries ts, fun _ => True⟩
  have hadmits : V.Admits ts s.supply (serve r s).2.supply := by
    refine ⟨fun t ht => .inr (List.mem_append_right _ ?_), fun _ _ _ => trivial⟩
    exact List.mem_map.2 ⟨t, ht, rfl⟩
  have hwithin : ∀ {t : Stmt}, t.Within V ↔ ∀ v ∈ t.vars, V.var v :=
    Stmt.within_iff_vars fun _ => trivial
  obtain ⟨hpending, hanswer⟩ := hV V hadmits
    ⟨fun _ => trivial, fun v hv => .inl (List.mem_append_left _ hv)⟩ fun t ht =>
      hwithin.2 fun v hv => (h.pending t ht v hv).imp (List.mem_append_right _)
        (List.mem_append_left _)
  refine ⟨ts, ⟨?_, fun t ht => hwithin.1 (hpending t ht)⟩, hanswer⟩
  rw [List.map_append, Ledger.map_fst_ofTemporaries]
  refine h.drawn.append (TempNames.draws_iff.2 ⟨?_, ?_⟩)
  · rw [List.length_map]
    exact hts.names
  · rw [List.length_map]
    exact hts.supply

/-- One request adds to the ledger what it draws. -/
theorem records_serve (h : Records stem ledger seen s) (r : Request) :
    ∃ new : Ledger, Records stem (ledger ++ new) (r.vars ++ seen) (serve r s).2 ∧
      new.plain = (serve r s).1.name?.toList ∧
      ∀ v ∈ (serve r s).1.vars, v ∈ r.vars ++ seen ∨ (v.name, some v) ∈ ledger ++ new := by
  by_cases hr : r = .name
  · subst hr
    exact ⟨_, records_serve_name h, rfl, fun v hv => by cases hv⟩
  · obtain ⟨ts, hrecords, hanswer⟩ := records_serve_temporaries h hr
    refine ⟨.ofTemporaries ts, hrecords, ?_, hanswer⟩
    rw [Ledger.plain_ofTemporaries, name?_serve hr]
    rfl

/-- So do requests one after another. -/
theorem records_serveAll (h : Records stem ledger seen s) (rs : List Request) :
    ∃ new : Ledger,
      Records stem (ledger ++ new) (rs.reverse.flatMap Request.vars ++ seen) (serveAll rs s).2 ∧
      new.plain = (serveAll rs s).1.filterMap Answer.name? ∧
      ∀ v, Makes v seen rs s → (v.name, some v) ∈ ledger ++ new := by
  induction rs generalizing ledger seen s with
  | nil => exact ⟨[], by simpa [serveAll] using h, rfl, fun v hv => by cases hv⟩
  | cons r rs ih =>
    obtain ⟨new, hrecords, hplain, hanswer⟩ := records_serve h r
    obtain ⟨rest, hrecords', hplain', hmakes⟩ := ih hrecords
    refine ⟨new ++ rest, ?_, ?_, fun v hv => ?_⟩
    · simpa [serveAll, List.append_assoc, List.flatMap_append] using hrecords'
    · have happend : Ledger.plain (new ++ rest) = new.plain ++ rest.plain :=
        List.filterMap_append
      have hcons : (serveAll (r :: rs) s).1 = (serve r s).1 :: (serveAll rs (serve r s).2).1 := rfl
      rw [happend, hplain, hplain', hcons]
      cases hname : (serve r s).1.name? <;> simp [hname]
    · rw [← List.append_assoc]
      cases hv with
      | now hnew hv =>
        refine List.mem_append_left _ ?_
        rcases hv with hv | ⟨t, ht, hv⟩
        · exact (hanswer v hv).resolve_left hnew
        · exact (hrecords.pending t ht v hv).resolve_left hnew
      | later hv => exact hmakes v hv

/-- Whatever a session is asked, in whatever order and with whatever failures: the names it draws
are its stem with the numbers from 0 on, in this order and each of them once; the generator counts
them; the names drawn for their own sake are among them, and every temporary that comes back or
comes to wait has one of the others to itself. -/
theorem names_unique (stem : String) (n : Nat) (rs : List Request) :
    ∃ ledger : Ledger,
      TempNames.Draws { stem } (ledger.map Prod.fst) (serveAll rs (opened stem n)).2.supply.names ∧
      ledger.map Prod.fst = (List.range ledger.length).map (fun k => stem ++ toString k) ∧
      (ledger.map Prod.fst).Nodup ∧
      (serveAll rs (opened stem n)).2.supply.names.issued = ledger.length ∧
      (serveAll rs (opened stem n)).1.filterMap Answer.name? = ledger.plain ∧
      (∀ v, Makes v [] rs (opened stem n) → (v.name, some v) ∈ ledger) ∧
      ∀ v w, Makes v [] rs (opened stem n) → Makes w [] rs (opened stem n) → v.name = w.name →
        v = w := by
  obtain ⟨ledger, hrecords, hplain, hmakes⟩ := records_serveAll (records_opened stem n) rs
  rw [List.nil_append] at hrecords hmakes
  obtain ⟨hnames, hsupply⟩ := TempNames.draws_iff.1 hrecords.drawn
  refine ⟨ledger, hrecords.drawn, ?_, hrecords.drawn.nodup, ?_, hplain.symm, hmakes, ?_⟩
  · rw [List.length_map, ← List.range_eq_range'] at hnames
    exact hnames
  · rw [hsupply]
    simp
  · intro v w hv hw heq
    -- both stand behind the one entry of their name
    have hentry : (v.name, some v) = (w.name, some w) :=
      List.inj_on_of_nodup_map hrecords.drawn.nodup (hmakes v hv) (hmakes w hw) heq
    exact Option.some.inj (congrArg Prod.snd hentry)

end Session

end TensorIR
