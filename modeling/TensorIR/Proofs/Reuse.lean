import TensorIR.Proofs.RunOrder

/-! # Reusing a flattener

A flattener may have statements waiting that belong to no statement any more: they were left by a
spill, or by a flattening that failed. They get into nothing that it flattens later
(`Stmt.flatten_reused`).

**Key idea**: a statement starts with nothing pending, so its run is the run of a flattener without
leftovers, with the leftovers put back in front (`Stmt.run_flatten_own`). Two flatteners without
leftovers that draw the same names can differ in the identities that come next. Then the one that is
ahead mirrors the other (`Stmt.mirrors_flatten`).
-/

namespace TensorIR

open Delayable (later)

/-- What has a smaller identity. Identities are given out once, so this is all that there is when
`n` is the next one. -/
def Vocabulary.below (n : Nat) : Vocabulary := ⟨fun v => v.id < n, fun v => v.id < n⟩

instance (n : Nat) : DecidablePred (Vocabulary.below n).var := fun v =>
  inferInstanceAs (Decidable (v.id < n))

instance (n : Nat) : DecidablePred (Vocabulary.below n).indexVar := fun v =>
  inferInstanceAs (Decidable (v.id < n))

namespace Stmt

variable {s : Stmt} {st new : Flattener}

/-- A statement keeps if all its identities do. -/
theorem relabel_of_below {ρ : Relabelling} (h : s.Within (.below ρ.known)) : s.relabel ρ = s := by
  rw [← (s.relabel ρ).relabel_refl, relabel_relabel ρ.chain_known h, relabel_refl]

/-- What waits before a statement waits again after it, in front of what the statement leaves. -/
theorem run_flatten_own (s : Stmt) (st : Flattener) :
    s.flatten.run.run st =
      ((s.flatten.run.run st.own).1,
        { (s.flatten.run.run st.own).2 with
          pending := st.pending ++ (s.flatten.run.run st.own).2.pending }) := by
  have hown : st.own.own = st.own := rfl
  rw [flatten_eq, Flattening.run_withOwnPending, Flattening.run_withOwnPending, hown]
  -- a failure leaves what it has spilled, a success has taken all of it along
  rcases s.flattenParts.run.run st.own with ⟨_ | out, st'⟩
  · rfl
  · show _ = (_, { st' with toSplicer := ⟨st.pending ++ []⟩ })
    rw [List.append_nil]
    rfl

end Stmt

/-! ### Flatteners that draw the same names -/

/-- Nothing waits in either, and the next names are the same. -/
structure Flattener.Fits (st new : Flattener) : Prop where
  pending_eq : st.pending = []
  pending_eq' : new.pending = []
  names_eq : new.names = st.names
  indexNames_eq : new.indexNames = st.indexNames

theorem TempNames.renumber_id (stem : String) : renumber stem (fun k => k) = fun x => x := by
  funext x
  by_cases hx : ∃ k, name stem k = x
  · obtain ⟨k, rfl⟩ := hx
    exact renumber_name k
  · exact renumber_of_ne (not_exists.1 hx)

namespace Delay

variable {s s' : Fresh}

theorem names_between (h : s'.names = s.names) : (between s s').names = 0 := by
  rw [between, h, Nat.sub_self]

/-- Where no names are drawn between the starts, names keep. -/
theorem name_between (h : s'.names = s.names) : (between s s').relabelling.name = fun x => x := by
  show TempNames.renumber s.names.stem (· + (between s s').names) = _
  rw [names_between h]
  exact TempNames.renumber_id s.names.stem

end Delay

/-- Where the first run draws no names, names keep. -/
theorem Relabelling.name_exchanging {s s₁ s₂ : Fresh} (h : s₁.names = s.names) :
    (exchanging s s₁ s₂).name = fun x => x := by
  -- to exchange names with those of a run that draws none is to keep them
  have hkeep : exchange s.names.issued 0 (s₂.names.issued - s.names.issued) = fun m => m := by
    funext m
    unfold exchange
    split_ifs <;> omega
  show TempNames.renumber s.names.stem (exchange s.names.issued
    (s₁.names.issued - s.names.issued) (s₂.names.issued - s.names.issued)) = _
  rw [h, Nat.sub_self, hkeep, TempNames.renumber_id]

namespace Flattener

variable {st new : Flattener}

theorem Fits.symm (h : Fits st new) : Fits new st :=
  ⟨h.pending_eq', h.pending_eq, h.names_eq.symm, h.indexNames_eq.symm⟩

/-- The one that is ahead starts later. -/
theorem Fits.later_eq (h : Fits st new) (hle : st.nextId ≤ new.nextId) :
    later (Delay.between st.toFresh new.toFresh) st = new := by
  have hfresh : later (Delay.between st.toFresh new.toFresh) st.toFresh = new.toFresh :=
    Fresh.Issues.later_between (.nil h.names_eq hle)
  obtain ⟨⟨s, indexNames⟩, ⟨pending⟩⟩ := st
  obtain ⟨⟨s', indexNames'⟩, ⟨pending'⟩⟩ := new
  obtain ⟨hpending, hpending', _, hindex⟩ := h
  dsimp only at hpending hpending' hindex hfresh
  subst hpending hpending' hindex
  show Flattener.mk ⟨later (Delay.between s s') s, _⟩ ⟨[]⟩ = _
  rw [hfresh]

end Flattener

namespace Stmt

variable {s : Stmt} {st new : Flattener}

/-- From a flattener that is ahead, the outcome is relabelled, and so is what is left waiting. -/
theorem flatten_ahead (h : st.Fits new) (hle : st.nextId ≤ new.nextId)
    (hs : s.Within (.below st.nextId)) :
    s.flatten.run.run new =
      ((s.flatten.run.run st).1.map (Transformed.map
          (relabel (Delay.between st.toFresh new.toFresh).relabelling)),
        later (Delay.between st.toFresh new.toFresh) (s.flatten.run.run st).2) := by
  have hcovers : (Delay.between st.toFresh new.toFresh).Covers st.toFresh := ⟨Nat.le_refl _, rfl⟩
  obtain ⟨hout, hstate, _⟩ := s.mirrors_flatten (Delay.between st.toFresh new.toFresh) st hcovers
  have hkeep : s.relabel (Delay.between st.toFresh new.toFresh).relabelling = s :=
    relabel_of_below hs
  dsimp only at hout hstate
  -- the delayed run is that of the other flattener, on the same statement
  rw [h.later_eq hle, hkeep] at hout hstate
  exact Prod.ext (hout.map_eq (Delay.name_between h.names_eq)).symm hstate

/-- What is flattened, and what is left waiting, is made of the statement and of what is drawn. -/
theorem exists_issues_of_flatten (hs : s.Within (.below st.nextId)) (hst : st.pending = []) :
    ∃ ts, st.toFresh.Issues ts (s.flatten.run.run st).2.toFresh ∧
      (∀ s' ∈ (s.flatten.run.run st).2.pending,
        s'.Within (.drawn st.toFresh ts (s.flatten.run.run st).2.toFresh)) ∧
      ∀ out, (s.flatten.run.run st).1 = .ok out →
        out.value.Within (.drawn st.toFresh ts (s.flatten.run.run st).2.toFresh) := by
  obtain ⟨ts, hts, hV⟩ := s.introduces_flatten st
  refine ⟨ts, hts, ?_⟩
  have hadmits : (Vocabulary.drawn st.toFresh ts (s.flatten.run.run st).2.toFresh).Admits ts
      st.toFresh (s.flatten.run.run st).2.toFresh :=
    ⟨fun t ht => .inr ht, fun v _ hv => hv⟩
  have hwithin : s.Within (.drawn st.toFresh ts (s.flatten.run.run st).2.toFresh) :=
    hs.mono (fun v hv => .inl hv) fun v hv => Nat.lt_of_lt_of_le hv hts.nextId_le
  refine hV _ hadmits hwithin fun s' hs' => ?_
  have hmem : s' ∈ st.pending := hs'
  rw [hst] at hmem
  cases hmem

/-- Two runs with the same outcome up to identities. All that was there before either of them keeps,
and so do the names. -/
structure SameRun (n : Nat) (run run' : Except Error (Transformed Stmt) × Flattener) : Prop where
  relabelled : ∃ ρ : Relabelling, ρ.known = n ∧ (ρ.name = fun x => x) ∧
    run.1 = run'.1.map (Transformed.map (relabel ρ)) ∧
    run.2.pending = run'.2.pending.map (relabel ρ)
  names : run.2.names = run'.2.names
  indexNames : run.2.indexNames = run'.2.indexNames

theorem sameRun_ahead (h : st.Fits new) (hle : st.nextId ≤ new.nextId)
    (hs : s.Within (.below st.nextId)) :
    SameRun st.nextId (s.flatten.run.run new) (s.flatten.run.run st) := by
  rw [flatten_ahead h hle hs]
  refine ⟨⟨(Delay.between st.toFresh new.toFresh).relabelling, rfl, Delay.name_between h.names_eq,
    rfl, rfl⟩, ?_, rfl⟩
  show TempNames.mk _ (_ + (Delay.between st.toFresh new.toFresh).names) = _
  rw [Delay.names_between h.names_eq]
  rfl

/-- Seen from the one that is ahead, what is drawn comes back to where the other draws it. -/
theorem sameRun_behind (h : st.Fits new) (hle : st.nextId ≤ new.nextId)
    (hs : s.Within (.below st.nextId)) :
    SameRun st.nextId (s.flatten.run.run st) (s.flatten.run.run new) := by
  obtain ⟨_, hnames, hindexNames⟩ := sameRun_ahead h hle hs
  obtain ⟨ts, hts, hpending, hout⟩ := exists_issues_of_flatten hs h.pending_eq
  -- the identities between the two starts, and those drawn from the first, change places
  have hgap : st.toFresh.Issues [] new.toFresh := .nil h.names_eq hle
  have hback := Relabelling.chain_second hgap hts
  refine ⟨⟨.exchanging st.toFresh new.toFresh (s.flatten.run.run st).2.toFresh, rfl,
    Relabelling.name_exchanging h.names_eq, ?_, ?_⟩, hnames.symm, hindexNames.symm⟩
  · rw [flatten_ahead h hle hs]
    rcases hrun : (s.flatten.run.run st).1 with e | out
    · rfl
    · have hvalue := relabel_relabel hback (hout out hrun)
      rw [relabel_refl] at hvalue
      exact congrArg (fun value => Except.ok (Transformed.mk value out.changed)) hvalue.symm
  · rw [flatten_ahead h hle hs]
    show _ = ((s.flatten.run.run st).2.pending.map (relabel _)).map (relabel _)
    have hkeep : ∀ s' ∈ (s.flatten.run.run st).2.pending,
        (s'.relabel (Delay.between st.toFresh new.toFresh).relabelling).relabel
          (.exchanging st.toFresh new.toFresh (s.flatten.run.run st).2.toFresh) = s' := by
      intro s' hs'
      rw [relabel_relabel hback (hpending s' hs'), relabel_refl]
    rw [List.map_map]
    exact ((List.map_congr_left hkeep).trans (List.map_id _)).symm

/-- Flatteners that draw the same names run in the same way. -/
theorem sameRun_of_fits (h : st.Fits new) (hs : s.Within (.below (min st.nextId new.nextId))) :
    SameRun (min st.nextId new.nextId) (s.flatten.run.run st) (s.flatten.run.run new) := by
  rcases Nat.le_total st.nextId new.nextId with hle | hle
  · rw [Nat.min_eq_left hle] at hs ⊢
    exact sameRun_behind h hle hs
  · rw [Nat.min_eq_right hle] at hs ⊢
    exact sameRun_ahead h.symm hle hs

/-- Leftovers do not leak. A statement is flattened in the same way, with the same names, by a
flattener with statements waiting and by one without, up to the identities of what is drawn: `ρ`
changes neither a name nor an identity that was there before. After a success just the same
statements wait. After a failure they wait first, and behind them what the other flattener is left
with. -/
theorem flatten_reused (s : Stmt) {st new : Flattener} (hpending : new.pending = [])
    (hnames : new.names = st.names) (hindexNames : new.indexNames = st.indexNames)
    (hs : s.Within (.below (min st.nextId new.nextId))) :
    let (x, st') := s.flatten.run.run st
    let (y, new') := s.flatten.run.run new
    (∃ ρ : Relabelling, ρ.known = min st.nextId new.nextId ∧ (ρ.name = fun x => x) ∧
      x = y.map (Transformed.map (relabel ρ)) ∧
      st'.pending = st.pending ++ new'.pending.map (relabel ρ)) ∧
    (st'.names = new'.names ∧ st'.indexNames = new'.indexNames) ∧
    match x with
    | .ok _ => st'.pending = st.pending
    | .error _ => st.pending <+: st'.pending := by
  -- compared is the flattener without what waits, which comes back in front afterwards
  have hfits : st.own.Fits new := ⟨rfl, hpending, hnames, hindexNames⟩
  have hsame : SameRun _ (s.flatten.run.run st.own) (s.flatten.run.run new) := sameRun_of_fits hfits hs
  have hrun := s.run_flatten_own st
  have hok : ∀ out st', s.flatten.run.run st = (.ok out, st') → st'.pending = st.pending :=
    fun out st' h => (flattensTo_of_run h).pending_eq
  generalize s.flatten.run.run st.own = own at hsame hrun
  generalize s.flatten.run.run new = run' at hsame ⊢
  rw [hrun] at hok ⊢
  obtain ⟨x, st'⟩ := own
  obtain ⟨y, new'⟩ := run'
  obtain ⟨⟨ρ, hknown, hname, hout, hleft⟩, hnames', hindexNames'⟩ := hsame
  refine ⟨⟨ρ, hknown, hname, hout, congrArg (st.pending ++ ·) hleft⟩, ⟨hnames', hindexNames'⟩, ?_⟩
  cases x with
  | ok out => exact hok out _ rfl
  | error e => exact List.prefix_append _ _

/-- A statement that needs a temporary:

    z = (i: -a{i} + a{i});
-/
def negated : Stmt :=
  let i : IndexVar := ⟨0, "i", .range 3, none⟩
  let a : Var := ⟨1, "a", .vector 3⟩
  let z : Var := ⟨2, "z", .vector 3⟩
  let read : Expr := (Expr.ofVar a).index [i]
  .assign z (.build [i] (.binaryOf .add read.negOf read))

/-- A flattener that a failure has left with an assignment to a temporary. -/
def interrupted : Flattener where
  nextId := 9
  names := { issued := 1 }
  indexNames := ⟨2⟩
  pending := [.assign ⟨8, "tmp0", .vector 3⟩ (.ofVar ⟨1, "a", .vector 3⟩)]

/-- A flattener that has made as many names, but is done with them. -/
def rested : Flattener where
  nextId := 5
  names := { issued := 1 }
  indexNames := ⟨2⟩

theorem flatten_reused_interrupted :
    (rested.pending = [] ∧ rested.names = interrupted.names ∧
      rested.indexNames = interrupted.indexNames ∧
      negated.Within (.below (min interrupted.nextId rested.nextId))) ∧
    let (x, st') := negated.flatten.run.run interrupted
    let (y, new') := negated.flatten.run.run rested
    (∃ ρ : Relabelling, ρ.known = min interrupted.nextId rested.nextId ∧ (ρ.name = fun x => x) ∧
      x = y.map (Transformed.map (relabel ρ)) ∧
      st'.pending = interrupted.pending ++ new'.pending.map (relabel ρ)) ∧
    (st'.names = new'.names ∧ st'.indexNames = new'.indexNames) ∧
    match x with
    | .ok _ => st'.pending = interrupted.pending
    | .error _ => interrupted.pending <+: st'.pending := by
  have hwithin : negated.Within (.below (min interrupted.nextId rested.nextId)) := by decide
  have hpending : rested.pending = [] := rfl
  have hnames : rested.names = interrupted.names := rfl
  have hindexNames : rested.indexNames = interrupted.indexNames := rfl
  exact ⟨⟨hpending, hnames, hindexNames, hwithin⟩,
    negated.flatten_reused hpending hnames hindexNames hwithin⟩

end Stmt

end TensorIR
