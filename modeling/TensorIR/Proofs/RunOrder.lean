import TensorIR.Proofs.LaterRuns
import TensorIR.Proofs.Provenance

/-! # The order of runs

The runs of one pipeline draw from one supply, so what a run makes depends on the runs before it. It
does so in no more than identities and names: whichever of two functions is normalized first, both
have the same outcomes, up to one relabelling of what the two runs draw (`Pipeline.run_order`).

**Key idea**: the function that comes second mirrors the run that it would have had as the first
(`Pipeline.mirrors_run`). So exchanging the two is exchanging two stretches of identities, and two of
names, that lie side by side (`exchange`).
-/

namespace TensorIR

/-! ### Exchanging two stretches -/

/-- From `n` on, the next `a` numbers change places with the `b` numbers after them. -/
def exchange (n a b m : Nat) : Nat :=
  if m < n then m else if m < n + a then m + b else if m < n + a + b then m - a else m

section

variable {n a b m : Nat}

theorem exchange_of_lt (h : m < n) : exchange n a b m = m := if_pos h

theorem exchange_of_le (h : n + a + b ≤ m) : exchange n a b m = m := by
  unfold exchange
  split_ifs <;> omega

/-- The first stretch goes behind the second. -/
theorem exchange_first (hlo : n ≤ m) (hhi : m < n + a) : exchange n a b m = m + b := by
  unfold exchange
  split_ifs <;> omega

/-- The second stretch goes to where the first was. -/
theorem exchange_second (hlo : n ≤ m) (hhi : m < n + b) : exchange n a b (m + a) = m := by
  unfold exchange
  split_ifs <;> omega

/-- What moves stays within the two stretches. -/
theorem exchange_mem (h : exchange n a b m ≠ m) :
    (n ≤ m ∧ m < n + a + b) ∧ n ≤ exchange n a b m ∧ exchange n a b m < n + a + b := by
  unfold exchange at h ⊢
  split_ifs at h ⊢ <;> omega

theorem exchange_injective (n a b : Nat) : Function.Injective (exchange n a b) := by
  intro m m' h
  unfold exchange at h
  split_ifs at h <;> omega

end

/-- What is drawn between `s` and `s'` gets new identities and names. All else keeps its own. -/
structure Relabelling.Between (s s' : Fresh) (ρ : Relabelling) : Prop where
  known_eq : ρ.known = s.nextId
  id : ∀ n, s'.nextId ≤ n → ρ.id n = n
  /-- Names of temporaries that were drawn get others of them. -/
  name : ∀ x, ρ.name x ≠ x → ∃ k l, x = TempNames.name s.names.stem k ∧
    ρ.name x = TempNames.name s.names.stem l ∧ (s.names.issued ≤ k ∧ k < s'.names.issued) ∧
    s.names.issued ≤ l ∧ l < s'.names.issued

/-- What is drawn from `s` to `s₁` changes places with as much as is drawn from `s` to `s₂`. -/
noncomputable def Relabelling.exchanging (s s₁ s₂ : Fresh) : Relabelling where
  known := s.nextId
  id := exchange s.nextId (s₁.nextId - s.nextId) (s₂.nextId - s.nextId)
  name := TempNames.renumber s.names.stem
    (exchange s.names.issued (s₁.names.issued - s.names.issued)
      (s₂.names.issued - s.names.issued))
  id_of_lt _ h := exchange_of_lt h
  id_injective := exchange_injective _ _ _
  name_injective := TempNames.renumber_injective (exchange_injective _ _ _)

/-- How much later a run starts that starts from `s'` and not from `s`. -/
def Delay.between (s s' : Fresh) : Delay where
  known := s.nextId
  stem := s.names.stem
  ids := s'.nextId - s.nextId
  names := s'.names.issued - s.names.issued

section

variable {s s₁ s₂ : Fresh} {ts us : List Var}

theorem Fresh.Issues.names_eq (h : s.Issues ts s₁) :
    s₁.names = { s.names with issued := s.names.issued + ts.length } := h.supply

theorem Fresh.Issues.issued_eq (h : s.Issues ts s₁) :
    s₁.names.issued = s.names.issued + ts.length := by
  rw [h.names_eq]

theorem Fresh.Issues.nextId_le (h : s.Issues ts s₁) : s.nextId ≤ s₁.nextId :=
  Flattener.Issues.nextId_le h

theorem Fresh.Issues.later_between (h : s.Issues ts s₁) :
    Delayable.later (Delay.between s s₁) s = s₁ := by
  have hle := h.nextId_le
  have hnames := h.names_eq
  obtain ⟨n, names⟩ := s₁
  subst hnames
  show Fresh.mk (s.nextId + (n - s.nextId))
    { s.names with issued := s.names.issued + (s.names.issued + ts.length - s.names.issued) } = _
  rw [Nat.add_sub_cancel' hle, Nat.add_sub_cancel_left]

/-- What two runs leave of the supply does not depend on which was first. -/
theorem Delay.later_comm (h₁ : s.Issues ts s₁) (h₂ : s.Issues us s₂) :
    Delayable.later (Delay.between s s₂) s₁ = Delayable.later (Delay.between s s₁) s₂ := by
  have hle₁ := h₁.nextId_le
  have hle₂ := h₂.nextId_le
  have hissued₁ := h₁.issued_eq
  have hissued₂ := h₂.issued_eq
  have hids : s₁.nextId + (s₂.nextId - s.nextId) = s₂.nextId + (s₁.nextId - s.nextId) := by omega
  have hnames : s₁.names.issued + (s₂.names.issued - s.names.issued) =
      s₂.names.issued + (s₁.names.issued - s.names.issued) := by omega
  have hstem : s₁.names.stem = s₂.names.stem := by rw [h₁.names_eq, h₂.names_eq]
  show Fresh.mk (s₁.nextId + (s₂.nextId - s.nextId)) ⟨s₁.names.stem, _⟩ =
    Fresh.mk (s₂.nextId + (s₁.nextId - s.nextId)) ⟨s₂.names.stem, _⟩
  rw [hids, hstem]
  exact congrArg (fun k => Fresh.mk _ ⟨_, k⟩) hnames

namespace Relabelling

/-- Nothing is exchanged but what is drawn one after the other. -/
theorem between_exchanging (h₁ : s.Issues ts s₁) (h₂ : s.Issues us s₂) :
    (exchanging s s₁ s₂).Between s (Delayable.later (Delay.between s s₁) s₂) := by
  have hle₁ := h₁.nextId_le
  have hle₂ := h₂.nextId_le
  have hissued₁ := h₁.issued_eq
  have hissued₂ := h₂.issued_eq
  refine ⟨rfl, fun n hn => exchange_of_le ?_, fun x hx => ?_⟩
  · have hn' : s₂.nextId + (s₁.nextId - s.nextId) ≤ n := hn
    omega
  · by_cases hk : ∃ k, TempNames.name s.names.stem k = x
    · obtain ⟨k, rfl⟩ := hk
      have hname : (exchanging s s₁ s₂).name (TempNames.name s.names.stem k) =
        TempNames.name s.names.stem _ := TempNames.renumber_name k
      rw [hname] at hx ⊢
      obtain ⟨hfrom, hto⟩ := exchange_mem fun heq => hx (congrArg _ heq)
      refine ⟨k, _, rfl, rfl, ⟨hfrom.1, ?_⟩, hto.1, ?_⟩
      · show k < s₂.names.issued + (s₁.names.issued - s.names.issued)
        omega
      · show _ < s₂.names.issued + (s₁.names.issued - s.names.issued)
        omega
    · -- not the name of a temporary
      exact absurd (TempNames.renumber_of_ne (not_exists.1 hk)) hx

/-! ### What comes first and what comes second -/

variable {n k : Nat}

/-- What the first run draws comes after what the second one would have drawn. -/
theorem id_exchanging_first (hn : n < s₁.nextId) :
    (Delay.between s s₂).relabelling.id n = (exchanging s s₁ s₂).id n := by
  by_cases hlt : n < s.nextId
  · exact (if_pos hlt).trans (exchange_of_lt hlt).symm
  · exact (if_neg hlt).trans (exchange_first (by omega) (by omega)).symm

theorem name_exchanging_first (hlo : s.names.issued ≤ k) (hhi : k < s₁.names.issued) :
    (Delay.between s s₂).relabelling.name (TempNames.name s.names.stem k) =
      (exchanging s s₁ s₂).name (TempNames.name s.names.stem k) := by
  refine ((Delay.between s s₂).name_name k).trans ?_
  refine Eq.trans ?_ (TempNames.renumber_name k).symm
  rw [exchange_first hlo (by omega)]
  rfl

/-- What the second run draws comes to where it would have been without the first. -/
theorem id_exchanging_second (h₁ : s.Issues ts s₁) (hn : n < s₂.nextId) :
    (exchanging s s₁ s₂).id ((Delay.between s s₁).relabelling.id n) = n := by
  have hle := h₁.nextId_le
  by_cases hlt : n < s.nextId
  · have hid : (Delay.between s s₁).relabelling.id n = n := if_pos hlt
    rw [hid]
    exact exchange_of_lt hlt
  · have hid : (Delay.between s s₁).relabelling.id n = n + (s₁.nextId - s.nextId) := if_neg hlt
    rw [hid]
    exact exchange_second (by omega) (by omega)

theorem name_exchanging_second (hlo : s.names.issued ≤ k) (hhi : k < s₂.names.issued) :
    (exchanging s s₁ s₂).name
        ((Delay.between s s₁).relabelling.name (TempNames.name s.names.stem k)) =
      TempNames.name s.names.stem k := by
  have hname : (Delay.between s s₁).relabelling.name (TempNames.name s.names.stem k) =
    TempNames.name s.names.stem (k + (s₁.names.issued - s.names.issued)) :=
      (Delay.between s s₁).name_name k
  rw [hname]
  refine (TempNames.renumber_name _).trans ?_
  rw [exchange_second hlo (by omega)]

end Relabelling

end

/-! ### What a run draws -/

/-- Every identity in the function is smaller. As identities are given out once, this is so of every
function that there is when `n` is the next one. -/
structure Func.Drawn (n : Nat) (f : Func) : Prop where
  id_lt : f.id < n
  within : f.Within ⟨fun v => v.id < n, fun v => v.id < n⟩

instance (n : Nat) (f : Func) : Decidable (f.Drawn n) :=
  have : DecidablePred fun v : Var => v.id < n := fun _ => inferInstance
  have : DecidablePred fun v : IndexVar => v.id < n := fun _ => inferInstance
  decidable_of_iff (f.id < n ∧ f.Within ⟨fun v => v.id < n, fun v => v.id < n⟩)
    ⟨fun h => ⟨h.1, h.2⟩, fun h => ⟨h.id_lt, h.within⟩⟩

/-- Where all identities keep, relabelling changes nothing. -/
theorem Relabelling.chain_known (ρ : Relabelling) :
    Chain ⟨fun v => v.id < ρ.known, fun v => v.id < ρ.known⟩ ρ .refl .refl :=
  ⟨fun v hv => by rw [ρ.var_of_lt hv], fun v hv => by rw [ρ.index_of_lt hv]⟩

theorem Func.relabel_of_drawn {ρ : Relabelling} {f : Func} (h : f.Drawn ρ.known) :
    f.relabel ρ = f := by
  have hid : Relabelling.refl.id (ρ.id f.id) = Relabelling.refl.id f.id := ρ.id_of_lt _ h.id_lt
  rw [← (f.relabel ρ).relabel_refl, relabel_relabel ρ.chain_known hid h.within, relabel_refl]

/-- What was drawn before `s`, the temporaries `ts`, and the index variables drawn before `s'`. -/
def Vocabulary.drawn (s : Fresh) (ts : List Var) (s' : Fresh) : Vocabulary :=
  ⟨fun v => v.id < s.nextId ∨ v ∈ ts, fun v => v.id < s'.nextId⟩

section

variable {s s₁ s₂ : Fresh} {ts us : List Var}

/-- A temporary has an identity and a name that were drawn. -/
theorem Fresh.Issues.drawn (h : s.Issues ts s₁) {t : Var} (ht : t ∈ ts) :
    (s.nextId ≤ t.id ∧ t.id < s₁.nextId) ∧
      ∃ k, t.name = TempNames.name s.names.stem k ∧ s.names.issued ≤ k ∧ k < s₁.names.issued := by
  refine ⟨h.ids t ht, ?_⟩
  have hname : t.name ∈ ts.map Var.name := List.mem_map_of_mem ht
  rw [h.names] at hname
  obtain ⟨k, hk, hname⟩ := List.mem_map.1 hname
  obtain ⟨hlo, hhi⟩ := List.mem_range'_1.1 hk
  exact ⟨k, hname.symm, hlo, h.issued_eq ▸ hhi⟩

namespace Relabelling

theorem chain_first (s₂ : Fresh) (h₁ : s.Issues ts s₁) :
    Chain (.drawn s ts s₁) (Delay.between s s₂).relabelling .refl (exchanging s s₁ s₂) where
  var v hv := by
    rw [var_refl]
    rcases hv with hv | hv
    · exact (var_of_lt _ hv).trans (var_of_lt (exchanging s s₁ s₂) hv).symm
    · obtain ⟨⟨hle, hlt⟩, k, hname, hlo, hhi⟩ := h₁.drawn hv
      rw [var_of_le (Delay.between s s₂).relabelling hle, var_of_le (exchanging s s₁ s₂) hle,
        id_exchanging_first hlt, hname, name_exchanging_first hlo hhi]
  index v hv := congrArg (fun n => { v with id := n }) (id_exchanging_first hv)

theorem chain_second (h₁ : s.Issues ts s₁) (h₂ : s.Issues us s₂) :
    Chain (.drawn s us s₂) (Delay.between s s₁).relabelling (exchanging s s₁ s₂) .refl where
  var v hv := by
    rw [var_refl]
    rcases hv with hv | hv
    · rw [var_of_lt (Delay.between s s₁).relabelling hv]
      exact var_of_lt (exchanging s s₁ s₂) hv
    · obtain ⟨⟨hle, hlt⟩, k, hname, hlo, hhi⟩ := h₂.drawn hv
      have hle' : s.nextId ≤ (Delay.between s s₁).relabelling.id v.id := by
        have hid : (Delay.between s s₁).relabelling.id v.id = v.id + (s₁.nextId - s.nextId) :=
          if_neg (Nat.not_lt.2 hle)
        omega
      rw [← id_var] at hle'
      rw [var_of_le (exchanging s s₁ s₂) hle', id_var, ty_var, id_exchanging_second h₁ hlt,
        var_of_le (Delay.between s s₁).relabelling hle, hname, name_exchanging_second hlo hhi,
        ← hname]
  index v hv := congrArg (fun n => { v with id := n }) (id_exchanging_second h₁ hv)

end Relabelling

end

theorem Introduces.nextId_le {σ α : Type} [Supplied σ] {pre : Vocabulary → Prop} {f : σ → α × σ}
    {post : Vocabulary → α → Prop} (h : Introduces pre f post) (st : σ) :
    (Supplied.fresh st).nextId ≤ (Supplied.fresh (f st).2).nextId := by
  obtain ⟨ts, hts, _⟩ := h st
  exact hts.nextId_le

theorem Func.id_lt_insertDeclarations {f : Func} {st : Fresh} (hf : f.id < st.nextId) :
    (f.insertDeclarations.run st).1.value.id < (f.insertDeclarations.run st).2.nextId := by
  cases hbody : f.body with
  | none =>
    rw [insertDeclarations_of_body_eq_none hbody]
    exact hf
  | some body =>
    rw [run_insertDeclarations hbody]
    dsimp only
    split
    · exact Nat.lt_succ_self _
    · exact hf

namespace Pipeline

variable {config : Config} {f g : Func} {st : Fresh}

/-- The function that a run returns has an identity that was drawn. -/
theorem id_lt_of_run {out : Transformed Func} {st' : Fresh} (hf : f.id < st.nextId)
    (h : (run config f).run.run st = (.ok out, st')) : out.value.id < st'.nextId := by
  cases hbody : f.body with
  | none =>
    rw [run_of_body_eq_none hbody] at h
    obtain ⟨rfl, rfl⟩ := Action.run_pure_ok.1 h
    exact hf
  | some body =>
    rw [run_eq hbody] at h
    obtain ⟨lowered, st₁, hlow, h⟩ := Action.run_bind_ok.1 h
    obtain ⟨flat, st₂, hflat, h⟩ := Action.run_bind_ok.1 h
    obtain ⟨g, st₃, hg, h⟩ := Action.run_bind_ok.1 h
    -- a stage that changes nothing keeps the identity, so the supply must not go back
    have hle₁ : st.nextId ≤ ((lowerStage config body).run.run st).2.nextId :=
      Introduces.nextId_le introduces_lowerStage st
    have hle₂ : st₁.nextId ≤ ((flatten config lowered.value).run.run st₁).2.nextId :=
      Introduces.nextId_le introduces_flatten st₁
    rw [hlow] at hle₁
    rw [hflat] at hle₂
    have hf₂ : f.id < st₂.nextId := Nat.lt_of_lt_of_le hf (Nat.le_trans hle₁ hle₂)
    have hg₃ : g.id < st₃.nextId := by
      unfold bodyStage at hg
      split at hg
      · obtain ⟨id, st₄, hid, hg⟩ := Action.run_bind_ok.1 hg
        obtain ⟨rfl, rfl⟩ := Action.run_pure_ok.1 hg
        cases Action.run_lift_ok.1 hid
        exact Nat.lt_succ_self _
      · obtain ⟨rfl, rfl⟩ := Action.run_pure_ok.1 hg
        exact hf₂
    unfold declareStage at h
    split at h
    · obtain ⟨declared, st₄, hdeclared, h⟩ := Action.run_bind_ok.1 h
      obtain ⟨rfl, rfl⟩ := Action.run_pure_ok.1 h
      have hlt := Func.id_lt_insertDeclarations hg₃
      rwa [Action.run_lift_ok.1 hdeclared] at hlt
    · obtain ⟨rfl, rfl⟩ := Action.run_pure_ok.1 h
      exact hg₃

theorem exists_issues_of_run (config : Config) (hf : f.Drawn st.nextId) :
    ∃ ts, st.Issues ts ((run config f).run.run st).2 ∧
      ∀ out, ((run config f).run.run st).1 = .ok out →
        out.value.Within (.drawn st ts ((run config f).run.run st).2) ∧
          out.value.id < ((run config f).run.run st).2.nextId := by
  have hrun : Action.Introduces (fun V => f.Within V) (run config f)
      fun V out => out.value.Within V := introduces_run
  obtain ⟨ts, hts, hV⟩ := hrun st
  -- the vocabulary is that of these temporaries
  refine ⟨ts, hts, fun out hout => ⟨?_, id_lt_of_run hf.id_lt (Prod.ext hout rfl)⟩⟩
  have hadmits : (Vocabulary.drawn st ts ((run config f).run.run st).2).Admits ts st
      ((run config f).run.run st).2 :=
    ⟨fun t ht => .inr ht, fun v _ hv => hv⟩
  have hwithin : f.Within (.drawn st ts ((run config f).run.run st).2) :=
    hf.within.mono (fun v hv => .inl hv) fun v hv => Nat.lt_of_lt_of_le hv hts.nextId_le
  exact (hV _ hadmits hwithin fun s hs => hs.elim).2 out hout

/-! ### Two runs -/

/-- A run that starts later has the same outcome, relabelled, and draws as much. -/
theorem run_later (config : Config) (hf : f.Drawn st.nextId) {us : List Var} {st' : Fresh}
    (hus : st.Issues us st') :
    Alike (Transformed.map (Func.relabel (Delay.between st st').relabelling))
        ((run config f).run.run st).1 ((run config f).run.run st').1 ∧
      ((run config f).run.run st').2 =
        Delayable.later (Delay.between st st') ((run config f).run.run st).2 := by
  have hcovers : (Delay.between st st').Covers st := ⟨Nat.le_refl _, rfl⟩
  obtain ⟨hout, hstate, _⟩ := mirrors_run (Delay.between st st') config f st hcovers
  rw [hus.later_between, Func.relabel_of_drawn hf] at hout hstate
  exact ⟨hout.alike, hstate⟩

/-- The outcomes of two runs, one after the other, and what they leave of the supply. -/
def runTwo (config : Config) (f g : Func) (st : Fresh) :
    Except Error (Transformed Func) × Except Error (Transformed Func) × Fresh :=
  let first := (run config f).run.run st
  let second := (run config g).run.run first.2
  (first.1, second.1, second.2)

/-- The order in which two functions are normalized does not matter. Whatever the configuration and
the state, both have the same outcomes in either order, and as much is drawn, up to a relabelling,
one for all, of what is drawn in the two runs. -/
theorem run_order (config : Config) (hf : f.Drawn st.nextId) (hg : g.Drawn st.nextId) :
    ∃ ρ : Relabelling, ρ.Between st (runTwo config f g st).2.2 ∧
      (runTwo config g f st).2.2 = (runTwo config f g st).2.2 ∧
      Alike (Transformed.map (Func.relabel ρ)) (runTwo config f g st).1 (runTwo config g f st).2.1 ∧
      Alike (Transformed.map (Func.relabel ρ)) (runTwo config f g st).2.1
        (runTwo config g f st).1 := by
  obtain ⟨ts, hts, houtf⟩ := exists_issues_of_run config hf
  obtain ⟨us, hus, houtg⟩ := exists_issues_of_run config hg
  -- each function once more, after the other
  obtain ⟨halikef, hstatef⟩ := run_later config hf hus
  obtain ⟨halikeg, hstateg⟩ := run_later config hg hts
  unfold runTwo
  dsimp only
  rw [hstatef, hstateg]
  generalize (run config f).run.run st = first at *
  generalize (run config g).run.run st = second at *
  obtain ⟨x, s₁⟩ := first
  obtain ⟨y, s₂⟩ := second
  dsimp only at hts hus houtf houtg halikef halikeg ⊢
  -- what is drawn from `st` to `s₁` is for `f`, and from `st` to `s₂` for `g`
  refine ⟨.exchanging st s₁ s₂, ?_, ?_, ?_, ?_⟩
  · exact Relabelling.between_exchanging hts hus
  · exact Delay.later_comm hts hus
  · refine halikef.congr fun out hout => ?_
    obtain ⟨hwithin, hid⟩ := houtf out hout
    have hvalue := Func.relabel_relabel (Relabelling.chain_first s₂ hts)
      (Relabelling.id_exchanging_first hid) hwithin
    rw [Func.relabel_refl] at hvalue
    exact congrArg (Transformed.mk · out.changed) hvalue
  · refine halikeg.symm fun out hout => ?_
    obtain ⟨hwithin, hid⟩ := houtg out hout
    have hvalue := Func.relabel_relabel (Relabelling.chain_second hts hus)
      (Relabelling.id_exchanging_second hts hid) hwithin
    rw [Func.relabel_refl] at hvalue
    exact congrArg (Transformed.mk · out.changed) hvalue

/-- A function that needs a temporary:

    z = (l: (k: c{k} + d{k}){l} + c{l});

for the parameters `c` and `d` and the result `z`. -/
def shifted : Func :=
  let k : IndexVar := ⟨7, "k", .range 3, none⟩
  let l : IndexVar := ⟨8, "l", .range 3, none⟩
  let c : Var := ⟨9, "c", .vector 3⟩
  let d : Var := ⟨10, "d", .vector 3⟩
  let z : Var := ⟨11, "z", .vector 3⟩
  let sum : Expr :=
    .build [k] (.binaryOf .add ((Expr.ofVar c).index [k]) ((Expr.ofVar d).index [k]))
  let body : Stmt :=
    .assign z (.build [l] (.binaryOf .add (sum.index [l]) ((Expr.ofVar c).index [l])))
  ⟨12, "shifted", .internal, [c, d], [z], some body⟩

theorem run_order_scaled_shifted :
    (scaled.Drawn 13 ∧ shifted.Drawn 13) ∧ ∃ ρ : Relabelling,
      ρ.Between ⟨13, {}⟩ (runTwo {} scaled shifted ⟨13, {}⟩).2.2 ∧
      (runTwo {} shifted scaled ⟨13, {}⟩).2.2 = (runTwo {} scaled shifted ⟨13, {}⟩).2.2 ∧
      Alike (Transformed.map (Func.relabel ρ)) (runTwo {} scaled shifted ⟨13, {}⟩).1
        (runTwo {} shifted scaled ⟨13, {}⟩).2.1 ∧
      Alike (Transformed.map (Func.relabel ρ)) (runTwo {} scaled shifted ⟨13, {}⟩).2.1
        (runTwo {} shifted scaled ⟨13, {}⟩).1 := by
  have hscaled : scaled.Drawn 13 := by decide
  have hshifted : shifted.Drawn 13 := by decide
  exact ⟨⟨hscaled, hshifted⟩, run_order {} hscaled hshifted⟩

end Pipeline

end TensorIR
