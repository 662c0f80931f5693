import TensorIR.Proofs.RelabelledStatements

/-! # Two runs side by side

One run starts later than another, when more identities and names have been drawn (`Delay`). What it
makes is what the other makes, relabelled.

**Key idea**: this is a statement about two runs side by side, and it is closed under putting actions
together. So there is one rule for each way to do that (`Mirrors`, `Action.Mirrors`). Where a decision
is taken, both runs take the same one, since it is not about identities or names.
-/

namespace TensorIR

/-! ### Two starts -/

namespace TempNames

/-- The name with another number. A name that is not numbered keeps. -/
noncomputable def renumber (stem : String) (number : Nat → Nat) : String → String :=
  Function.extend (name stem) (fun k => name stem (number k)) fun x => x

variable {stem : String} {number : Nat → Nat}

@[simp] theorem renumber_name (k : Nat) :
    renumber stem number (name stem k) = name stem (number k) :=
  (name_injective stem).extend_apply _ _ k

theorem renumber_of_ne {x : String} (h : ∀ k, name stem k ≠ x) : renumber stem number x = x :=
  Function.extend_apply' _ _ _ fun ⟨k, hk⟩ => h k hk

theorem renumber_injective (h : Function.Injective number) :
    Function.Injective (renumber stem number) := by
  intro x y hxy
  by_cases hx : ∃ k, name stem k = x <;> by_cases hy : ∃ k, name stem k = y
  · obtain ⟨k, rfl⟩ := hx
    obtain ⟨l, rfl⟩ := hy
    rw [renumber_name, renumber_name] at hxy
    rw [h (name_injective stem hxy)]
  · obtain ⟨k, rfl⟩ := hx
    rw [renumber_name, renumber_of_ne (not_exists.1 hy)] at hxy
    exact absurd ⟨_, hxy⟩ hy
  · obtain ⟨l, rfl⟩ := hy
    rw [renumber_name, renumber_of_ne (not_exists.1 hx)] at hxy
    exact absurd ⟨_, hxy.symm⟩ hx
  · rwa [renumber_of_ne (not_exists.1 hx), renumber_of_ne (not_exists.1 hy)] at hxy

end TempNames

/-- How much later a run starts than another. -/
structure Delay where
  /-- Smaller identities were drawn before either run starts. -/
  known : Nat
  /-- What names of temporaries start with. -/
  stem : String
  /-- The number of identities that are drawn between the starts. -/
  ids : Nat
  /-- The number of names that are drawn between the starts. -/
  names : Nat

/-- What the earlier run makes, as the later one makes it. -/
noncomputable def Delay.relabelling (D : Delay) : Relabelling where
  known := D.known
  id n := if n < D.known then n else n + D.ids
  name := TempNames.renumber D.stem (· + D.names)
  id_of_lt n h := if_pos h
  id_injective m n h := by
    dsimp only at h
    split at h <;> split at h <;> omega
  name_injective := TempNames.renumber_injective fun k l h => Nat.add_right_cancel h

theorem Delay.name_name (D : Delay) (k : Nat) :
    D.relabelling.name (TempNames.name D.stem k) = TempNames.name D.stem (k + D.names) := by
  show TempNames.renumber D.stem (· + D.names) _ = _
  rw [TempNames.renumber_name]

/-- States that a later run can be in. -/
class Delayable (σ : Type) where
  /-- The state of the later run that goes with one of the earlier run. -/
  later : Delay → σ → σ

open Delayable (later)
open Supplied (fresh)

instance : Delayable Fresh where
  later D s := ⟨s.nextId + D.ids, { s.names with issued := s.names.issued + D.names }⟩

instance : Delayable Builder where
  later D b := { b with toFresh := later D b.toFresh }

noncomputable instance : Delayable Flattener where
  later D st :=
    { st with
      toBuilder := later D st.toBuilder
      pending := st.pending.map (Stmt.relabel D.relabelling) }

/-- The state is one of the earlier run. -/
structure Delay.Covers (D : Delay) (s : Fresh) : Prop where
  known_le : D.known ≤ s.nextId
  stem_eq : s.names.stem = D.stem

theorem Delay.Covers.id_nextId {D : Delay} {s : Fresh} (h : D.Covers s) :
    D.relabelling.id s.nextId = s.nextId + D.ids :=
  if_neg (Nat.not_lt.2 h.known_le)

/-! ### Runs side by side -/

section

variable {σ τ α α' β β' : Type} [Supplied σ] [Delayable σ] [Supplied τ] [Delayable τ] (D : Delay)

/-- From every state `f` and, later, `g` give results related by `R`, and the states they leave
correspond. -/
def Mirrors (R : α → α' → Prop) (f : σ → α × σ) (g : σ → α' × σ) : Prop :=
  ∀ st, D.Covers (fresh st) → R (f st).1 (g (later D st)).1 ∧
    (g (later D st)).2 = later D (f st).2 ∧ D.Covers (fresh (f st).2)

namespace Mirrors

variable {D} {R : α → α' → Prop} {S : β → β' → Prop}

theorem pure {a : α} {b : α'} (h : R a b) : Mirrors D R (fun st : σ => (a, st)) fun st => (b, st) :=
  fun _ hst => ⟨h, rfl, hst⟩

theorem seq {f : σ → α × σ} {g : σ → α' × σ} {k : α → σ → β × σ} {l : α' → σ → β' × σ}
    (h : Mirrors D R f g) (hk : ∀ a b, R a b → Mirrors D S (k a) (l b)) :
    Mirrors D S (fun st => k (f st).1 (f st).2) fun st => l (g st).1 (g st).2 := by
  intro st hst
  obtain ⟨hR, hst', hcovers⟩ := h st hst
  dsimp only
  rw [hst']
  exact hk _ _ hR _ hcovers

theorem map {f : σ → α × σ} {g : σ → α' × σ} {k : α → β} {l : α' → β'} (h : Mirrors D R f g)
    (hk : ∀ a b, R a b → S (k a) (l b)) :
    Mirrors D S (fun st => (k (f st).1, (f st).2)) fun st => (l (g st).1, (g st).2) := by
  intro st hst
  obtain ⟨hR, hst'⟩ := h st hst
  exact ⟨hk _ _ hR, hst'⟩

/-- Runs on a part of the state that has the supply. -/
theorem embed {f : τ → α × τ} {g : τ → α' × τ} (h : Mirrors D R f g) {i : σ → τ} {b : σ → τ → σ}
    (hinto : ∀ st, fresh (i st) = fresh st) (hlater : ∀ st, i (later D st) = later D (i st))
    (hback : ∀ st t, fresh (b st t) = fresh t)
    (hlater' : ∀ st t, b (later D st) (later D t) = later D (b st t)) :
    Mirrors D R (fun st => ((f (i st)).1, b st (f (i st)).2))
      fun st => ((g (i st)).1, b st (g (i st)).2) := by
  intro st hst
  obtain ⟨hR, hst', hcovers⟩ := h (i st) (by rwa [hinto])
  dsimp only
  rw [hlater, hst', hlater', hback]
  exact ⟨hR, rfl, hcovers⟩

end Mirrors

/-! ### Actions that may fail -/

/-- What the failures of two runs have in common. -/
class Failure (ε : Type) where
  kind : ε → ε

instance : Failure Error := ⟨Error.withoutTexts⟩

instance : Failure BuildError := ⟨fun e => e⟩

/-- What a failure comes to in a run that makes other identities and names. -/
class Relabels (ε : Type) extends Failure ε where
  Relabelled : Relabelling → ε → ε → Prop
  same : ∀ ρ e, Relabelled ρ e e
  kind_eq : ∀ {ρ e e'}, Relabelled ρ e e' → kind e' = kind e

instance : Relabels Error where
  Relabelled := Error.Relabelled
  same _ := .same
  kind_eq := Error.Relabelled.withoutTexts

instance : Relabels BuildError where
  Relabelled _ e e' := e' = e
  same _ _ := rfl
  kind_eq h := h

section

variable {ε : Type} [Failure ε]

/-- Both are successful, with results that correspond, or both are failures of one kind. -/
inductive Alike (r : α → α') : Except ε α → Except ε α' → Prop
  | ok (a : α) : Alike r (.ok a) (.ok (r a))
  | error {e e' : ε} : Failure.kind e' = Failure.kind e → Alike r (.error e) (.error e')

theorem Alike.congr {r q : α → α'} {x : Except ε α} {y : Except ε α'} (h : Alike r x y)
    (heq : ∀ a, x = .ok a → r a = q a) : Alike q x y := by
  cases h with
  | ok a =>
    rw [heq a rfl]
    exact .ok a
  | error h => exact .error h

/-- Where relabelling can be undone, the outcomes can be taken the other way round. -/
theorem Alike.symm {r : α → α'} {q : α' → α} {x : Except ε α} {y : Except ε α'} (h : Alike r x y)
    (heq : ∀ a, x = .ok a → q (r a) = a) : Alike q y x := by
  cases h with
  | ok a =>
    have hback : Alike q (.ok (r a) : Except ε α') (.ok (q (r a))) := .ok (r a)
    rwa [heq a rfl] at hback
  | error h => exact .error h.symm

end

/-- Both are successful, with results that correspond, or both are failures, one of them
relabelled. -/
inductive Corresponds {ε : Type} [Relabels ε] (ρ : Relabelling) (r : α → α') :
    Except ε α → Except ε α' → Prop
  | ok (a : α) : Corresponds ρ r (.ok a) (.ok (r a))
  | error {e e' : ε} : Relabels.Relabelled ρ e e' → Corresponds ρ r (.error e) (.error e')

namespace Corresponds

variable {ρ : Relabelling} {r : α → α'}

theorem alike {ε : Type} [Relabels ε] {x : Except ε α} {y : Except ε α'}
    (h : Corresponds ρ r x y) : Alike r x y := by
  cases h with
  | ok a => exact .ok a
  | error h => exact .error (Relabels.kind_eq h)

/-- Where names keep, failures do. -/
theorem map_eq (hρ : ρ.name = fun x => x) {x : Except Error α} {y : Except Error α'}
    (h : Corresponds ρ r x y) : x.map r = y := by
  cases h with
  | ok a => rfl
  | error h =>
    rw [Error.Relabelled.eq hρ h]
    rfl

theorem builder {x : Except BuildError α} {y : Except BuildError α'} (h : Corresponds ρ r x y) :
    Corresponds ρ r (x.mapError Error.builder) (y.mapError Error.builder) := by
  cases h with
  | ok a => exact .ok a
  | @error e e' h =>
    have heq : e' = e := h
    rw [heq]
    exact .error (.same (.builder e))

end Corresponds

variable {ε : Type} [Relabels ε]

/-- The later action has the outcome of the earlier one. -/
abbrev Action.Mirrors (r : α → α') (act : ExceptT ε (StateM σ) α)
    (act' : ExceptT ε (StateM σ) α') : Prop :=
  TensorIR.Mirrors D (Corresponds D.relabelling r) (fun st => act.run.run st) fun st => act'.run.run st

namespace Action.Mirrors

variable {D} {r : α → α'} {q : β → β'}

theorem pure {a : α} {b : α'} (h : b = r a) :
    Mirrors D r (pure a : ExceptT ε (StateM σ) α) (pure b) := by
  subst h
  exact TensorIR.Mirrors.pure (.ok a)

theorem throw {e e' : ε} (h : Relabels.Relabelled D.relabelling e e') :
    Mirrors D r (throw e : ExceptT ε (StateM σ) α) (throw e') :=
  TensorIR.Mirrors.pure (.error h)

/-- Actions that cannot fail. -/
theorem modifyGet {f : σ → α × σ} {g : σ → α' × σ} (h : TensorIR.Mirrors D (fun a b => b = r a) f g) :
    Mirrors D r (modifyGet f : ExceptT ε (StateM σ) α) (modifyGet g) := by
  intro st hst
  obtain ⟨hr, hst'⟩ := h st hst
  refine ⟨?_, hst'⟩
  show Corresponds D.relabelling r (.ok (f st).1) (.ok (g (later D st)).1)
  rw [hr]
  exact .ok _

/-- What has failed already, or not. -/
theorem ofExcept {x : Except ε α} {y : Except ε α'} (h : Corresponds D.relabelling r x y) :
    Mirrors D r (MonadExcept.ofExcept x : ExceptT ε (StateM σ) α) (MonadExcept.ofExcept y) := by
  cases h with
  | ok a => exact pure rfl
  | error h => exact throw h

theorem bind {act : ExceptT ε (StateM σ) α} {act' : ExceptT ε (StateM σ) α'}
    {k : α → ExceptT ε (StateM σ) β} {l : α' → ExceptT ε (StateM σ) β'} (h : Mirrors D r act act')
    (hk : ∀ a, Mirrors D q (k a) (l (r a))) : Mirrors D q (act >>= k) (act' >>= l) := by
  intro st hst
  obtain ⟨hout, hst', hcovers⟩ := h st hst
  dsimp only at hout hst' hcovers ⊢
  rw [run_bind, run_bind]
  rcases hrun : act.run.run st with ⟨x, st₁⟩
  rcases hrun' : act'.run.run (later D st) with ⟨y, st₁'⟩
  rw [hrun] at hout hst' hcovers
  rw [hrun'] at hout hst'
  dsimp only at hout hst' hcovers ⊢
  subst hst'
  -- both go on, or both have failed
  cases hout with
  | ok a => exact hk a st₁ hcovers
  | error h => exact ⟨.error h, rfl, hcovers⟩

/-- Elements treated one after another. -/
theorem mapM' {r : α → α'} {f : α → ExceptT ε (StateM σ) β} {g : α' → ExceptT ε (StateM σ) β'}
    {as : List α} (h : ∀ a ∈ as, Mirrors D q (f a) (g (r a))) :
    Mirrors D (List.map q) (as.mapM' f) ((as.map r).mapM' g) := by
  induction as with
  | nil => exact pure rfl
  | cons a as ih =>
    rw [List.map_cons, List.mapM'_cons, List.mapM'_cons]
    refine (h a (by simp)).bind fun b => ?_
    refine (ih fun a' h' => h a' (by simp [h'])).bind fun bs => ?_
    exact pure rfl

/-- Sequences that start with one check. -/
theorem check {c : Prop} [Decidable c] {e e' : ε} {k : PUnit → ExceptT ε (StateM σ) α}
    {l : PUnit → ExceptT ε (StateM σ) α'} (he : Relabels.Relabelled D.relabelling e e')
    (h : Mirrors D r (k ⟨⟩) (l ⟨⟩)) :
    Mirrors D r (if c then k ⟨⟩ else MonadExcept.throw e >>= k)
      (if c then l ⟨⟩ else MonadExcept.throw e' >>= l) := by
  split
  · exact h
  · have hthrow : Mirrors D (fun u => u) (MonadExcept.throw e : ExceptT ε (StateM σ) PUnit)
        (MonadExcept.throw e') := throw he
    exact hthrow.bind fun _ => h

end Action.Mirrors

end

end TensorIR
