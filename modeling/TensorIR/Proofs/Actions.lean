import Mathlib.Data.List.Forall2

/-! # Actions that may fail

The passes are actions that hand on a state and may fail. What an action did to the state before
it failed stays done.

**Key idea**: what a pass establishes in its results while it keeps an invariant of the state is
closed under sequencing (`Action.Establishes`), and so is having nothing to do, which for an
action means to be equal to `pure`. Proofs about a pass go through it with these rules.
-/

namespace TensorIR

namespace Action

variable {ε σ α β : Type}

/-! ### Runs -/

/-- A sequence runs its second part if the first succeeds. -/
theorem run_bind (act : ExceptT ε (StateM σ) α) (k : α → ExceptT ε (StateM σ) β) (st : σ) :
    (act >>= k).run.run st =
      match act.run.run st with
      | (.ok a, st') => (k a).run.run st'
      | (.error e, st') => (.error e, st') := by
  simp only [ExceptT.run, StateT.run, bind, ExceptT.bind, ExceptT.mk, StateT.bind]
  rcases act st with ⟨_ | _, _⟩ <;> rfl

/-- A sequence succeeds if both parts do. -/
theorem run_bind_ok {act : ExceptT ε (StateM σ) α} {k : α → ExceptT ε (StateM σ) β}
    {st st' : σ} {b : β} :
    (act >>= k).run.run st = (.ok b, st') ↔
      ∃ a st₁, act.run.run st = (.ok a, st₁) ∧ (k a).run.run st₁ = (.ok b, st') := by
  rw [run_bind]
  rcases act.run.run st with ⟨_ | a, st₁⟩
  · constructor
    · intro h; cases h
    · rintro ⟨_, _, h, _⟩; cases h
  · constructor
    · intro h; exact ⟨a, st₁, rfl, h⟩
    · rintro ⟨_, _, h, h'⟩; cases h; exact h'

theorem run_pure_ok {a b : α} {st st' : σ} :
    (pure a : ExceptT ε (StateM σ) α).run.run st = (.ok b, st') ↔ a = b ∧ st = st' := by
  constructor
  · intro h; cases h; exact ⟨rfl, rfl⟩
  · rintro ⟨rfl, rfl⟩; rfl

theorem run_throw_ok {e : ε} {a : α} {st st' : σ} :
    ¬ (throw e : ExceptT ε (StateM σ) α).run.run st = (.ok a, st') := by
  intro h
  cases h

/-- An action that cannot fail. -/
theorem run_lift_ok {act : StateM σ α} {a : α} {st st' : σ} :
    (liftM act : ExceptT ε (StateM σ) α).run.run st = (.ok a, st') ↔ act.run st = (a, st') := by
  constructor
  · intro h
    cases h
    rfl
  · intro h
    show (Except.ok (act.run st).1, (act.run st).2) = _
    rw [h]

/-- What has failed already, or not. -/
theorem run_ofExcept_ok {x : Except ε α} {a : α} {st st' : σ} :
    (MonadExcept.ofExcept x : ExceptT ε (StateM σ) α).run.run st = (.ok a, st') ↔
      x = .ok a ∧ st = st' := by
  cases x with
  | ok b =>
    refine run_pure_ok.trans ?_
    simp
  | error e =>
    constructor
    · intro h; exact absurd h run_throw_ok
    · rintro ⟨h, _⟩; cases h

/-- What an action that succeeds leaves behind need not be known. -/
theorem exists_run_ok {act : ExceptT ε (StateM σ) α} {a : α} {st : σ}
    (h : (act.run.run st).1 = .ok a) : ∃ st', act.run.run st = (.ok a, st') :=
  ⟨_, Prod.ext h rfl⟩

/-- A sequence that starts with a check goes on if the condition holds. -/
theorem run_check_ok {c : Prop} [Decidable c] {e : ε} {k : PUnit → ExceptT ε (StateM σ) α} {a : α}
    {st st' : σ} :
    (if c then k ⟨⟩ else throw e >>= k).run.run st = (.ok a, st') ↔
      c ∧ (k ⟨⟩).run.run st = (.ok a, st') := by
  by_cases hc : c
  · rw [if_pos hc, and_iff_right hc]
  · rw [if_neg hc, run_bind_ok]
    constructor
    · rintro ⟨_, _, h, _⟩
      exact absurd h run_throw_ok
    · exact fun h => absurd h.1 hc

/-! ### What actions establish -/

/-- From every state that satisfies `I`, a successful run leaves a state that satisfies `I`, and
its result satisfies `p`. -/
def Establishes (I : σ → Prop) (act : ExceptT ε (StateM σ) α) (p : α → Prop) : Prop :=
  ∀ st a st', act.run.run st = (.ok a, st') → I st → I st' ∧ p a

namespace Establishes

variable {I : σ → Prop} {p : α → Prop} {q : β → Prop}

theorem pure {a : α} (h : p a) : Establishes I (pure a : ExceptT ε (StateM σ) α) p := by
  intro st b st' hrun hst
  obtain ⟨rfl, rfl⟩ := run_pure_ok.1 hrun
  exact ⟨hst, h⟩

theorem bind {act : ExceptT ε (StateM σ) α} {k : α → ExceptT ε (StateM σ) β}
    (h : Establishes I act p) (hk : ∀ a, p a → Establishes I (k a) q) :
    Establishes I (act >>= k) q := by
  intro st b st' hrun hst
  obtain ⟨a, st₁, ha, hb⟩ := run_bind_ok.1 hrun
  obtain ⟨hst₁, hp⟩ := h st a st₁ ha hst
  exact hk a hp st₁ b st' hb hst₁

/-- Elements treated one after another. -/
theorem mapM' {R : α → β → Prop} {f : α → ExceptT ε (StateM σ) β} {as : List α}
    (h : ∀ a ∈ as, Establishes I (f a) (R a)) :
    Establishes I (as.mapM' f) (List.Forall₂ R as) := by
  induction as with
  | nil => exact Establishes.pure .nil
  | cons a as ih =>
    apply (h a (by simp)).bind
    intro b hb
    apply (ih fun a' h' => h a' (by simp [h'])).bind
    intro bs hbs
    exact Establishes.pure (.cons hb hbs)

end Establishes

/-! ### Actions that have nothing to do -/

/-- Elements none of which there is anything to do about. -/
theorem mapM'_eq_pure {m : Type → Type} [Monad m] [LawfulMonad m] {f : α → m β} {g : α → β}
    {as : List α} (h : ∀ a ∈ as, f a = pure (g a)) : as.mapM' f = pure (as.map g) := by
  induction as with
  | nil => rfl
  | cons a as ih =>
    rw [List.mapM'_cons, h a (by simp), ih fun a' h' => h a' (by simp [h']), pure_bind, pure_bind]
    rfl

end Action

end TensorIR
