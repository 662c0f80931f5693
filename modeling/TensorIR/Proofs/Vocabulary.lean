import TensorIR.Proofs.Outcomes
import TensorIR.Proofs.Temporaries

/-! # Vocabularies

The variables and index variables that a program is written in, and what a run adds to them
(`Introduces`).

**Key idea**: a run that fails half-way has drawn names all the same. So the rules of this module
speak of all runs, successful or not: from every state, some temporaries are made in a row, and any
vocabulary that has the input and what is drawn has the outcome. The temporaries do not depend on
the vocabulary, so it may be chosen once they are known.
-/

namespace TensorIR

/-! ### Vocabularies -/

/-- What may occur in a program. -/
structure Vocabulary where
  var : Var → Prop
  indexVar : IndexVar → Prop

section

variable {V : Vocabulary}

/-- The expression is written in the vocabulary. -/
def Expr.Within (V : Vocabulary) (e : Expr) : Prop := e.Over V.var V.indexVar

/-- The statement is written in the vocabulary, with the variables it assigns, declares or counts
with. -/
def Stmt.Within (V : Vocabulary) (s : Stmt) : Prop :=
  s.Everywhere fun n => (∀ e ∈ n.exprs, e.Within V) ∧ ∀ v ∈ n.targets, V.var v

/-- The function is written in the vocabulary. -/
structure Func.Within (V : Vocabulary) (f : Func) : Prop where
  args : ∀ v ∈ f.args, V.var v
  results : ∀ v ∈ f.results, V.var v
  body : ∀ body ∈ f.body, body.Within V

section

variable (V) [DecidablePred V.var] [DecidablePred V.indexVar]

instance (e : Expr) : Decidable (e.Within V) := inferInstanceAs (Decidable (e.Everywhere _))

instance (s : Stmt) : Decidable (s.Within V) := inferInstanceAs (Decidable (s.Everywhere _))

instance (f : Func) : Decidable (f.Within V) :=
  decidable_of_iff ((∀ v ∈ f.args, V.var v) ∧ (∀ v ∈ f.results, V.var v) ∧
      ∀ body ∈ f.body, body.Within V)
    ⟨fun h => ⟨h.1, h.2.1, h.2.2⟩, fun h => ⟨h.args, h.results, h.body⟩⟩

end

namespace Expr

variable {vs : List IndexVar} {e t d : Expr}

theorem Within.child {c : Expr} (h : e.Within V) (hc : c ∈ e.children) : c.Within V :=
  Everywhere.child h hc

theorem Within.index (h : t.Within V) (hvs : ∀ v ∈ vs, V.indexVar v) : (t.index vs).Within V :=
  over_indexed.2 ⟨hvs, h⟩

theorem Within.build (h : e.Within V) (hvs : ∀ v ∈ vs, V.indexVar v) :
    (Expr.build vs e).Within V :=
  over_indexExpr.2 ⟨hvs, h⟩

theorem within_ofVar {v : Var} : (Expr.ofVar v).Within V ↔ V.var v := over_var

/-- A node over other parts has no more in it than the parts and itself. -/
theorem Within.rebuild {outs : List (Transformed Expr)} (h : e.Within V)
    (hlen : outs.length = e.children.length) (houts : ∀ out ∈ outs, out.value.Within V) :
    (e.rebuild outs).value.Within V := by
  unfold Expr.rebuild
  split
  · refine everywhere_iff.2 ⟨?_, ?_⟩
    · have hroot : OverNode V.var V.indexVar e := Everywhere.root h
      unfold Expr.withChildren Transformed.replace
      dsimp only
      split <;> exact hroot
    · rw [Transformed.value_replace, children_withChildren (by simpa [Transformed.values] using hlen)]
      intro c hc
      obtain ⟨out, hout, rfl⟩ := List.mem_map.1 hc
      exact houts out hout
  · exact h

theorem Within.operandRead (h : e.Within V) (hvs : ∀ v ∈ vs, V.indexVar v) :
    (e.operandRead vs).Within V := by
  unfold Expr.operandRead
  split
  · exact h
  · exact h.index hvs

/-- A distributed read is made of the operands and of the variables of the read. -/
theorem Within.distributeIndex? (h : t.Within V) (hvs : ∀ v ∈ vs, V.indexVar v)
    (hd : t.distributeIndex? vs = some d) : d.Within V := by
  cases t with
  | neg ty a =>
    rw [distributeIndex?_neg] at hd
    split at hd
    · cases hd
      exact over_neg.2 (Within.operandRead (over_neg.1 h) hvs)
    · cases hd
  | binary ty op a b =>
    rw [distributeIndex?_binary] at hd
    split at hd
    · cases hd
      obtain ⟨ha, hb⟩ := over_binary.1 h
      exact over_binary.2 ⟨Within.operandRead ha hvs, Within.operandRead hb hvs⟩
    · cases hd
  | _ => cases hd

theorem Within.wholeTensor (h : e.Within V) : (Flattening.wholeTensor e).Within V := by
  unfold Flattening.wholeTensor
  split
  · split
    · exact h.child (by simp [children])
    · exact h
  · exact h

end Expr

namespace Stmt

variable {s : Stmt}

theorem within_assign {v : Var} {value : Expr} :
    (Stmt.assign v value).Within V ↔ value.Within V ∧ V.var v := by
  simp [Within, exprs, Instr.exprs, targets, Instr.defined]

theorem within_varDecl {v : Var} : (Stmt.varDecl v).Within V ↔ V.var v := by
  simp [Within, exprs, Instr.exprs, targets]

theorem within_block {ss : List Stmt} : (Stmt.block ss).Within V ↔ ∀ s ∈ ss, s.Within V := by
  simp [Within, exprs, targets]

theorem within_call {rs : List Var} {f : Func} {as : List Expr} :
    (Stmt.call rs f as).Within V ↔ (∀ a ∈ as, a.Within V) ∧ ∀ v ∈ rs, V.var v := by
  simp [Within, exprs, Instr.exprs, targets, Instr.defined]

theorem Within.child {c : Stmt} (h : s.Within V) (hc : c ∈ s.children) : c.Within V :=
  Everywhere.child h hc

theorem Within.exprs (h : s.Within V) {e : Expr} (he : e ∈ s.exprs) : e.Within V :=
  (Everywhere.root h).1 e he

/-- A statement over other parts has no more in it than the parts and itself. -/
theorem Within.rebuild {outs : List (Transformed Expr)} {inner : List (Transformed Stmt)}
    (h : s.Within V) (hlen : outs.length = s.exprs.length)
    (hlen' : inner.length = s.children.length) (houts : ∀ out ∈ outs, out.value.Within V)
    (hinner : ∀ out ∈ inner, out.value.Within V) : (s.rebuild outs inner).value.Within V := by
  have hxs : (Transformed.values outs).length = s.exprs.length := by
    simpa [Transformed.values] using hlen
  have hss : (Transformed.values inner).length = s.children.length := by
    simpa [Transformed.values] using hlen'
  unfold Stmt.rebuild
  split
  · refine everywhere_iff.2 ⟨⟨?_, ?_⟩, ?_⟩
    · rw [Transformed.value_replace, exprs_withParts hxs hss]
      intro x hx
      obtain ⟨out, hout, rfl⟩ := List.mem_map.1 hx
      exact houts out hout
    · rw [Transformed.value_replace, targets_withParts]
      exact (Everywhere.root h).2
    · rw [Transformed.value_replace, children_withParts hxs hss]
      intro c hc
      obtain ⟨out, hout, rfl⟩ := List.mem_map.1 hc
      exact hinner out hout
  · exact h

theorem Within.mono {W : Vocabulary} (h : s.Within V) (hvar : ∀ v, V.var v → W.var v)
    (hindex : ∀ v, V.indexVar v → W.indexVar v) : s.Within W := fun n hn =>
  ⟨fun e he => Expr.Over.imp ((h n hn).1 e he) hvar hindex, fun v hv => hvar v ((h n hn).2 v hv)⟩

theorem Within.after {pending : List Stmt} (h : s.Within V) (hp : ∀ s' ∈ pending, s'.Within V) :
    (s.after pending).Within V :=
  (everywhere_after fun _ => by simp [Stmt.exprs, targets]).2 ⟨hp, h⟩

end Stmt

theorem Func.Within.mono {W : Vocabulary} {f : Func} (h : f.Within V)
    (hvar : ∀ v, V.var v → W.var v) (hindex : ∀ v, V.indexVar v → W.indexVar v) : f.Within W :=
  ⟨fun v hv => hvar v (h.args v hv), fun v hv => hvar v (h.results v hv),
    fun body hbody => (h.body body hbody).mono hvar hindex⟩

end

/-! ### What a run introduces -/

/-- Different numbers make different names: a number can be read back from its digits. -/
theorem TempNames.name_injective (stem : String) : Function.Injective (name stem) := by
  intro k l h
  have hchars := congrArg String.toList h
  simp only [name, String.toList_append] at hchars
  have hdigits := congrArg (fun ds => Nat.ofDigitChars 10 ds 0) (List.append_cancel_left hchars)
  simpa [Nat.toString_eq_ofList_toDigits] using hdigits

/-- From `s` to `s'` the temporaries `ts` are made, one after another. -/
def Fresh.Issues (s : Fresh) (ts : List Var) (s' : Fresh) : Prop :=
  Flattener.Issues ts (.ofFresh s) (.ofFresh s')

theorem Fresh.Issues.nil {s s' : Fresh} (hnames : s'.names = s.names) (hle : s.nextId ≤ s'.nextId) :
    s.Issues [] s' :=
  Flattener.Issues.nil hnames hle

/-- The vocabulary has the temporaries, and the index variables with identities that were drawn. -/
structure Vocabulary.Admits (V : Vocabulary) (ts : List Var) (s s' : Fresh) : Prop where
  var : ∀ t ∈ ts, V.var t
  indexVar : ∀ v : IndexVar, s.nextId ≤ v.id → v.id < s'.nextId → V.indexVar v

/-- States with a supply of identities and names, and with statements that wait. -/
class Supplied (σ : Type) where
  fresh : σ → Fresh
  Waits : σ → Stmt → Prop

open Supplied (fresh Waits)

instance : Supplied Fresh := ⟨id, fun _ _ => False⟩

instance : Supplied Builder := ⟨Builder.toFresh, fun _ _ => False⟩

instance : Supplied Flattener := ⟨fun st => st.toFresh, fun st s => s ∈ st.pending⟩

section

variable {σ τ α β ε : Type} [Supplied σ] [Supplied τ] {pre pre' : Vocabulary → Prop}

/-- From every state, some temporaries are made. Any vocabulary that has them, and has what the
run is given, has what it leaves waiting, and has its result. -/
def Introduces (pre : Vocabulary → Prop) (f : σ → α × σ) (post : Vocabulary → α → Prop) : Prop :=
  ∀ st, ∃ ts, (fresh st).Issues ts (fresh (f st).2) ∧
    ∀ V : Vocabulary, V.Admits ts (fresh st) (fresh (f st).2) → pre V →
      (∀ s, Waits st s → s.Within V) → (∀ s, Waits (f st).2 s → s.Within V) ∧ post V (f st).1

namespace Introduces

theorem pure {post : Vocabulary → α → Prop} {a : α} (h : ∀ V, pre V → post V a) :
    Introduces pre (fun st : σ => (a, st)) post :=
  fun _ => ⟨[], .nil rfl (Nat.le_refl _), fun V _ hV hst => ⟨hst, h V hV⟩⟩

theorem mono {f : σ → α × σ} {post post' : Vocabulary → α → Prop} (h : Introduces pre f post)
    (hpre : ∀ V, pre' V → pre V) (hpost : ∀ V a, pre' V → post V a → post' V a) :
    Introduces pre' f post' := by
  intro st
  obtain ⟨ts, hts, hV⟩ := h st
  refine ⟨ts, hts, fun V hadmits hV' hst => ?_⟩
  obtain ⟨hst', hresult⟩ := hV V hadmits (hpre V hV') hst
  exact ⟨hst', hpost V _ hV' hresult⟩

/-- One run after another: the temporaries of the first, then those of the second. -/
theorem seq {f : σ → α × σ} {g : α → σ → β × σ} {M : Vocabulary → α → Prop}
    {post : Vocabulary → β → Prop} (hf : Introduces pre f M)
    (hg : ∀ a, Introduces (fun V => pre V ∧ M V a) (g a) post) :
    Introduces pre (fun st => g (f st).1 (f st).2) post := by
  intro st
  obtain ⟨ts, hts, hf'⟩ := hf st
  obtain ⟨us, hus, hg'⟩ := hg (f st).1 (f st).2
  refine ⟨ts ++ us, Flattener.Issues.append hts hus, fun V hV hpre hst => ?_⟩
  have hts' : V.Admits ts (fresh st) (fresh (f st).2) :=
    ⟨fun t ht => hV.var t (List.mem_append_left _ ht), fun v hlo hhi =>
      hV.indexVar v hlo (Nat.lt_of_lt_of_le hhi hus.nextId_le)⟩
  have hus' : V.Admits us (fresh (f st).2) (fresh (g (f st).1 (f st).2).2) :=
    ⟨fun t ht => hV.var t (List.mem_append_right _ ht), fun v hlo hhi =>
      hV.indexVar v (Nat.le_trans hts.nextId_le hlo) hhi⟩
  obtain ⟨hmid, hresult⟩ := hf' V hts' hpre hst
  exact hg' V hus' ⟨hpre, hresult⟩ hmid

/-- A run whose result is put to use. -/
theorem map {f : σ → α × σ} {k : α → β} {M : Vocabulary → α → Prop}
    {post : Vocabulary → β → Prop} (h : Introduces pre f M)
    (hk : ∀ V a, pre V → M V a → post V (k a)) :
    Introduces pre (fun st => (k (f st).1, (f st).2)) post := by
  intro st
  obtain ⟨ts, hts, hV⟩ := h st
  refine ⟨ts, hts, fun V hadmits hpre hst => ?_⟩
  obtain ⟨hst', hresult⟩ := hV V hadmits hpre hst
  exact ⟨hst', hk V _ hpre hresult⟩

/-- A run on a part of the state that has the supply. -/
theorem embed {f : τ → α × τ} {post : Vocabulary → α → Prop} (h : Introduces pre f post)
    {i : σ → τ} {b : σ → τ → σ} (hinto : ∀ st, fresh (i st) = fresh st)
    (hwaits : ∀ st s, Waits (i st) s → Waits st s) (hback : ∀ st t, fresh (b st t) = fresh t)
    (hwaits' : ∀ st t s, Waits (b st t) s → Waits st s ∨ Waits t s) :
    Introduces pre (fun st => ((f (i st)).1, b st (f (i st)).2)) post := by
  intro st
  obtain ⟨ts, hts, hf⟩ := h (i st)
  rw [hinto] at hts
  refine ⟨ts, ?_, fun V hV hpre hst => ?_⟩
  · dsimp only
    rwa [hback]
  · dsimp only at hV ⊢
    rw [hback] at hV
    rw [hinto] at hf
    obtain ⟨hst', hresult⟩ := hf V hV hpre fun s hs => hst s (hwaits st s hs)
    refine ⟨fun s hs => ?_, hresult⟩
    rcases hwaits' _ _ s hs with hs | hs
    · exact hst s hs
    · exact hst' s hs

end Introduces

/-! ### Actions that may fail -/

/-- What an action introduces, whether or not it succeeds. Of failures nothing more is asked. -/
abbrev Action.Introduces (pre : Vocabulary → Prop) (act : ExceptT ε (StateM σ) α)
    (post : Vocabulary → α → Prop) : Prop :=
  TensorIR.Introduces pre (fun st => act.run.run st) fun V r => ∀ a, r = .ok a → post V a

namespace Action.Introduces

variable {post : Vocabulary → α → Prop}

theorem pure {a : α} (h : ∀ V, pre V → post V a) :
    Introduces pre (pure a : ExceptT ε (StateM σ) α) post :=
  TensorIR.Introduces.pure fun V hV b hb => by
    cases hb
    exact h V hV

theorem throw (e : ε) : Introduces pre (throw e : ExceptT ε (StateM σ) α) post :=
  TensorIR.Introduces.pure fun V _ b hb => by cases hb

/-- An action that cannot fail. -/
theorem modifyGet {f : σ → α × σ} (h : TensorIR.Introduces pre f post) :
    Introduces pre (modifyGet f : ExceptT ε (StateM σ) α) post := by
  intro st
  obtain ⟨ts, hts, hV⟩ := h st
  refine ⟨ts, hts, fun V hadmits hpre hst => ?_⟩
  obtain ⟨hst', hresult⟩ := hV V hadmits hpre hst
  refine ⟨hst', fun a ha => ?_⟩
  cases ha
  exact hresult

theorem mono {act : ExceptT ε (StateM σ) α} {post' : Vocabulary → α → Prop}
    (h : Introduces pre act post) (hpre : ∀ V, pre' V → pre V)
    (hpost : ∀ V a, pre' V → post V a → post' V a) : Introduces pre' act post' :=
  TensorIR.Introduces.mono h hpre fun V _ hV hr a ha => hpost V a hV (hr a ha)

theorem bind {act : ExceptT ε (StateM σ) α} {k : α → ExceptT ε (StateM σ) β}
    {M : Vocabulary → α → Prop} {post : Vocabulary → β → Prop} (h : Introduces pre act M)
    (hk : ∀ a, Introduces (fun V => pre V ∧ M V a) (k a) post) :
    Introduces pre (act >>= k) post := by
  -- what comes second is the failure of the first part, or the rest
  let rest : Except ε α → σ → Except ε β × σ := fun r st =>
    match r with
    | .ok a => (k a).run.run st
    | .error e => (.error e, st)
  have hrun : ∀ st, (act >>= k).run.run st = rest (act.run.run st).1 (act.run.run st).2 := by
    intro st
    rw [Action.run_bind]
    rcases act.run.run st with ⟨_ | _, _⟩ <;> rfl
  have hrest : ∀ r, TensorIR.Introduces (fun V => pre V ∧ ∀ a, r = .ok a → M V a) (rest r)
      fun V r => ∀ b, r = .ok b → post V b := by
    intro r
    cases r with
    | ok a => exact (hk a).mono (fun V hV => ⟨hV.1, hV.2 a rfl⟩) fun V b _ hb => hb
    | error e => exact TensorIR.Introduces.pure fun V _ b hb => by cases hb
  intro st
  simp only [hrun]
  exact TensorIR.Introduces.seq h hrest st

/-- Elements treated one after another. -/
theorem mapM' {f : α → ExceptT ε (StateM σ) β} {post : Vocabulary → β → Prop} {as : List α}
    (h : ∀ a ∈ as, Introduces pre (f a) post) :
    Introduces pre (as.mapM' f) fun V bs => bs.length = as.length ∧ ∀ b ∈ bs, post V b := by
  induction as with
  | nil => exact pure fun V _ => ⟨rfl, by simp⟩
  | cons a as ih =>
    refine (h a (by simp)).bind fun b => ?_
    refine ((ih fun a' h' => h a' (by simp [h'])).mono (fun V hV => hV.1)
      fun V bs _ h => h).bind fun bs => ?_
    exact pure fun V ⟨⟨_, hb⟩, hlen, hbs⟩ => ⟨by simp [hlen], by simpa using ⟨hb, hbs⟩⟩

/-- A sequence that starts with a check. -/
theorem check {c : Prop} [Decidable c] {e : ε} {k : PUnit → ExceptT ε (StateM σ) α}
    (h : Introduces pre (k ⟨⟩) post) :
    Introduces pre (if c then k ⟨⟩ else MonadExcept.throw e >>= k) post := by
  split
  · exact h
  · have hthrow : Introduces pre (MonadExcept.throw e : ExceptT ε (StateM σ) PUnit)
        fun _ _ => True := throw e
    exact hthrow.bind fun _ => h.mono (fun V hV => hV.1) fun V a _ ha => ha

end Action.Introduces

end

end TensorIR
