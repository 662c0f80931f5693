import TensorIR.Declarations
import TensorIR.Proofs.Rebuilding

/-! # Runs of the declaration pass

What inserting declarations does to the statements of a block, told by four rules (`DeclaresTo`),
and why it has nothing left to do on its own outcome (`Stmt.declare_declare`).

**Key idea**: a statement that is neither a block nor a declaration is put behind the declarations
of what it defines (`Stmt.declared`). Whoever comes by again has seen these declarations when it
comes to the statement, and of what is declared only the members matter, not their order.
-/

namespace TensorIR

namespace Stmt

variable {s : Stmt} {ss ts : List Stmt} {known known' : Declared}

/-! ### What is declared -/

/-- The variables that a statement defines and that have no declaration. -/
def undeclared (known : Declared) (s : Stmt) : List Var :=
  s.definitions.filter fun v => !known.contains v

/-- The statement behind the declarations of what it defines. -/
def declared (known : Declared) (s : Stmt) : List Stmt :=
  (s.undeclared known).map .varDecl ++ [s]

/-- Nothing is left to declare behind the declarations. -/
theorem undeclared_eq_nil (h : ∀ v, v ∈ s.undeclared known ∨ v ∈ known → v ∈ known') :
    s.undeclared known' = [] := by
  refine List.filter_eq_nil_iff.2 fun v hv => ?_
  have hv' : v ∈ known' := by
    by_cases hk : v ∈ known
    · exact h v (.inr hk)
    · exact h v (.inl (List.mem_filter.2 ⟨hv, by simpa using hk⟩))
  simp [hv']

/-- Neither a block nor a declaration. -/
def isOrdinary (s : Stmt) : Bool := !(s.isBlock || s.isVarDecl)

end Stmt

/-! ### The rules -/

/-- The statements `ss` of a block become `out`; before, `known` is declared, and `known'`
afterwards. -/
inductive DeclaresTo : Declared → List Stmt → Transformed (List Stmt) → Declared → Prop
  | nil {known} : DeclaresTo known [] (.keep []) known
  | varDecl {known v ss rest known'} : DeclaresTo (v :: known) ss rest known' →
    DeclaresTo known (.varDecl v :: ss) ⟨.varDecl v :: rest.value, rest.changed⟩ known'
  | block {known ts inner known₁ ss rest known'} : DeclaresTo known ts inner known₁ →
    DeclaresTo known₁ ss rest known' →
    DeclaresTo known (.block ts :: ss)
      ⟨.block inner.value :: rest.value, inner.changed || rest.changed⟩ known'
  | ordinary {known s ss rest known'} : s.isOrdinary = true →
    DeclaresTo (known ++ s.undeclared known) ss rest known' →
    DeclaresTo known (s :: ss)
      ⟨s.declared known ++ rest.value, !(s.undeclared known).isEmpty || rest.changed⟩ known'

namespace DeclaresTo

variable {known known' : Declared} {ss : List Stmt} {out : Transformed (List Stmt)}

/-- Statements that are not changed stay as they are. -/
theorem faithful (h : DeclaresTo known ss out known') : Transformed.Faithful ss out := by
  induction h with
  | nil => exact fun _ => rfl
  | varDecl _ ih => exact fun hc => congrArg _ (ih hc)
  | block _ _ ihi ihr =>
    intro hc
    obtain ⟨hi, hr⟩ := Bool.or_eq_false_iff.1 hc
    exact congrArg₂ List.cons (congrArg Stmt.block (ihi hi)) (ihr hr)
  | @ordinary known s ss rest known' _ _ ih =>
    intro hc
    obtain ⟨hempty, hr⟩ := Bool.or_eq_false_iff.1 hc
    have hnil : s.undeclared known = [] := by simpa using hempty
    show s.declared known ++ rest.value = s :: ss
    rw [Stmt.declared, hnil, ih hr]
    rfl

/-- A block takes in the declarations of its statements. -/
theorem run_block (h : DeclaresTo known ss out known')
    (hrun : (Stmt.declareAll ss).run known = (out, known')) :
    (Stmt.block ss).declare.run known = (⟨.block out.value, out.changed⟩, known') := by
  have heq : (Stmt.block ss).declare.run known =
      let items := (Stmt.declareAll ss).run known
      (if items.1.changed then .replace (.block items.1.value) else .keep (.block ss),
        items.2) := rfl
  rw [heq, hrun]
  dsimp only
  cases hc : out.changed with
  | true => rfl
  | false =>
    rw [h.faithful hc]
    rfl

/-- The rules say what the pass does. -/
theorem run (h : DeclaresTo known ss out known') :
    (Stmt.declareAll ss).run known = (out, known') := by
  induction h with
  | nil => rfl
  | @varDecl known v ss rest known' _ ih =>
    have heq : (Stmt.declareAll (.varDecl v :: ss)).run known =
        let rest := (Stmt.declareAll ss).run (v :: known)
        (⟨.varDecl v :: rest.1.value, false || rest.1.changed⟩, rest.2) := rfl
    rw [heq, ih]
    rfl
  | @block known ts inner known₁ ss rest known' hinner _ ihi ihr =>
    have heq : (Stmt.declareAll (.block ts :: ss)).run known =
        let here := (Stmt.block ts).declare.run known
        let rest := (Stmt.declareAll ss).run here.2
        (⟨here.1.value :: rest.1.value, here.1.changed || rest.1.changed⟩, rest.2) := rfl
    rw [heq, hinner.run_block ihi]
    dsimp only
    rw [ihr]
  | @ordinary known s ss rest known' hs _ ih =>
    have heq : (Stmt.declareAll (s :: ss)).run known =
        let rest := (Stmt.declareAll ss).run (known ++ s.undeclared known)
        (⟨s.declared known ++ rest.1.value,
          !((s.undeclared known).map Stmt.varDecl).isEmpty || rest.1.changed⟩, rest.2) := by
      rw [Stmt.declareAll, if_neg (by simpa [Stmt.isOrdinary] using hs)]
      rfl
    rw [heq, List.isEmpty_map, ih]

end DeclaresTo

/-- The rules cover statements if they cover the blocks among them. -/
theorem exists_declaresTo_of_blocks {ss : List Stmt}
    (hss : ∀ ts, .block ts ∈ ss → ∀ known, ∃ out known', DeclaresTo known ts out known')
    (known : Declared) : ∃ out known', DeclaresTo known ss out known' := by
  induction ss generalizing known with
  | nil => exact ⟨_, _, .nil⟩
  | cons s ss ih =>
    have ih' := ih fun ts hts => hss ts (by simp [hts])
    by_cases hs : s.isOrdinary = true
    · obtain ⟨_, _, hrest⟩ := ih' (known ++ s.undeclared known)
      exact ⟨_, _, .ordinary hs hrest⟩
    · cases s with
      | instr i =>
        cases i with
        | varDecl v =>
          obtain ⟨_, _, hrest⟩ := ih' (v :: known)
          exact ⟨_, _, .varDecl hrest⟩
        | _ => exact absurd rfl hs
      | block ts =>
        obtain ⟨_, known₁, hinner⟩ := hss ts (by simp) known
        obtain ⟨_, _, hrest⟩ := ih' known₁
        exact ⟨_, _, .block hinner hrest⟩
      | _ => exact absurd rfl hs

/-- The rules cover all statements. -/
theorem exists_declaresTo (known : Declared) (ss : List Stmt) :
    ∃ out known', DeclaresTo known ss out known' := by
  -- the blocks within a block are smaller
  suffices hblock : ∀ s : Stmt, ∀ ts, s = .block ts → ∀ known, ∃ out known',
      DeclaresTo known ts out known' from hblock (.block ss) ss rfl known
  intro s
  induction s using Stmt.children_induction with
  | step s ih =>
    rintro ts rfl known
    exact exists_declaresTo_of_blocks (fun us hus => ih (.block us) hus us rfl) known

/-! ### What the pass keeps -/

namespace DeclaresTo

variable {known known' : Declared} {ss : List Stmt} {out : Transformed (List Stmt)}

/-- What is true of blocks and declarations stays true everywhere. -/
theorem everywhere {p : Stmt → Prop} (h : DeclaresTo known ss out known')
    (hblock : ∀ ss, p (.block ss)) (hdecl : ∀ v, p (.varDecl v))
    (hss : ∀ s ∈ ss, s.Everywhere p) : ∀ s ∈ out.value, s.Everywhere p := by
  induction h with
  | nil => exact hss
  | varDecl _ ih =>
    have hrest := ih fun s hs => hss s (by simp [hs])
    simpa [hdecl] using hrest
  | block _ _ ihi ihr =>
    have hinner := ihi (Stmt.everywhere_block.1 (hss _ (by simp))).2
    have hrest := ihr fun s hs => hss s (by simp [hs])
    simpa [hblock] using ⟨hinner, hrest⟩
  | ordinary _ _ ih =>
    have hs := hss _ List.mem_cons_self
    have hrest := ih fun s hs => hss s (by simp [hs])
    intro s hmem
    rcases List.mem_append.1 hmem with hmem | hmem
    · rcases List.mem_append.1 hmem with hmem | hmem
      · obtain ⟨v, _, rfl⟩ := List.mem_map.1 hmem
        exact Stmt.everywhere_instr.2 (hdecl v)
      · rwa [List.mem_singleton.1 hmem]
    · exact hrest s hmem

/-! ### The pass on its own outcome -/

/-- Declarations in front are passed over. -/
theorem varDecls (vs : List Var) (h : DeclaresTo (vs.reverse ++ known) ss out known') :
    DeclaresTo known (vs.map .varDecl ++ ss) ⟨vs.map .varDecl ++ out.value, out.changed⟩
      known' := by
  induction vs generalizing known with
  | nil => exact h
  | cons v vs ih =>
    rw [List.reverse_cons, List.append_assoc] at h
    exact .varDecl (ih h)

/-- Once declarations are inserted, there is nothing left to insert. -/
theorem again (h : DeclaresTo known ss out known') {known₁ : Declared}
    (hknown : ∀ v, v ∈ known₁ ↔ v ∈ known) :
    ∃ known₂, (∀ v, v ∈ known₂ ↔ v ∈ known') ∧
      DeclaresTo known₁ out.value (.keep out.value) known₂ := by
  induction h generalizing known₁ with
  | nil => exact ⟨known₁, hknown, .nil⟩
  | @varDecl known v ss rest known' _ ih =>
    obtain ⟨known₂, hknown₂, hrest⟩ := @ih (v :: known₁) (by simp [hknown])
    exact ⟨known₂, hknown₂, .varDecl hrest⟩
  | block _ _ ihi ihr =>
    obtain ⟨known₂, hknown₂, hinner⟩ := ihi hknown
    obtain ⟨known₃, hknown₃, hrest⟩ := ihr hknown₂
    exact ⟨known₃, hknown₃, .block hinner hrest⟩
  | @ordinary known s ss rest known' hs _ ih =>
    -- when the statement is met again, what it defines is declared
    let seen := (s.undeclared known).reverse ++ known₁
    have hseen : ∀ v, v ∈ seen ↔ v ∈ known ++ s.undeclared known := by
      intro v
      simp [seen, hknown, or_comm]
    have hnil : s.undeclared seen = [] := Stmt.undeclared_eq_nil fun v hv =>
      (hseen v).2 (List.mem_append.2 hv.symm)
    obtain ⟨known₂, hknown₂, hrest⟩ := @ih (seen ++ s.undeclared seen) (by
      rw [hnil, List.append_nil]
      exact hseen)
    have hagain : DeclaresTo seen (s :: rest.value) (.keep (s :: rest.value)) known₂ := by
      have h := DeclaresTo.ordinary hs hrest
      rwa [Stmt.declared, hnil] at h
    refine ⟨known₂, hknown₂, ?_⟩
    rw [Stmt.declared, List.append_assoc]
    exact varDecls _ hagain

end DeclaresTo

namespace Stmt

/-! ### Whole statements -/

variable {s : Stmt} {known known' : Declared}

/-- A statement that is neither a block nor a declaration makes a block with the declarations that
come with it. -/
theorem run_declare_of_isOrdinary (hs : s.isOrdinary = true) :
    s.declare.run known =
      (if (s.undeclared known).isEmpty then .keep s else .replace (.block (s.declared known)),
        known ++ s.undeclared known) := by
  have heq : s.declare.run known =
      (if ((s.undeclared known).map Stmt.varDecl).isEmpty then .keep s
        else .replace (.block (s.declared known)), known ++ s.undeclared known) := by
    cases s with
    | instr i =>
      cases i with
      | varDecl v => cases hs
      | _ => rfl
    | block ss => cases hs
    | _ => rfl
  rw [heq, List.isEmpty_map]

/-- A statement by itself is treated as in a block. If declarations come with it, they make a
block together. -/
theorem run_declare {out : Transformed (List Stmt)} (h : DeclaresTo known [s] out known') :
    ∃ x, s.declare.run known = (⟨x, out.changed⟩, known') ∧
      (out.value = [x] ∨ out.changed = true ∧ x = .block out.value) := by
  cases h with
  | varDecl hrest =>
    cases hrest
    exact ⟨_, rfl, .inl rfl⟩
  | block hinner hrest =>
    cases hrest
    rw [hinner.run_block hinner.run]
    exact ⟨_, by simp, .inl rfl⟩
  | ordinary hs hrest =>
    cases hrest
    rw [run_declare_of_isOrdinary hs]
    cases hu : s.undeclared known with
    | nil => exact ⟨s, rfl, .inl (by simp [declared, hu])⟩
    | cons v vs => exact ⟨.block (s.declared known), rfl, .inr ⟨rfl, by simp⟩⟩

/-- A statement that is not changed stays as it is. -/
theorem faithful_declare (s : Stmt) (known : Declared) :
    Transformed.Faithful s (s.declare.run known).1 := by
  obtain ⟨out, known', hout⟩ := exists_declaresTo known [s]
  obtain ⟨x, hrun, hx⟩ := run_declare hout
  rw [hrun]
  intro hc
  have hkept : out.value = [s] := hout.faithful hc
  obtain hx | ⟨hc', _⟩ := hx
  · exact List.singleton_inj.1 (hx.symm.trans hkept)
  · exact absurd hc' (by simpa using hc)

/-- What is true of blocks and declarations stays true everywhere. -/
theorem everywhere_declare {p : Stmt → Prop} (hblock : ∀ ss, p (.block ss))
    (hdecl : ∀ v, p (.varDecl v)) (h : s.Everywhere p) (known : Declared) :
    (s.declare.run known).1.value.Everywhere p := by
  obtain ⟨out, known', hout⟩ := exists_declaresTo known [s]
  have hall := hout.everywhere hblock hdecl (by simpa using h)
  obtain ⟨x, hrun, hx | ⟨_, rfl⟩⟩ := run_declare hout
  · rw [hrun]
    exact hall x (by simp [hx])
  · rw [hrun]
    exact everywhere_block.2 ⟨hblock _, hall⟩

/-- Once declarations are inserted, inserting them again does nothing. -/
theorem declare_declare (s : Stmt) {known known₁ : Declared} (h : ∀ v, v ∈ known₁ ↔ v ∈ known) :
    ((s.declare.run known).1.value.declare.run known₁).1 = .keep (s.declare.run known).1.value := by
  obtain ⟨out, known', hout⟩ := exists_declaresTo known [s]
  obtain ⟨known₂, _, hagain⟩ := hout.again h
  obtain ⟨x, hrun, hx | ⟨_, rfl⟩⟩ := run_declare hout
  · rw [hrun]
    rw [hx] at hagain
    obtain ⟨y, hrun', hy⟩ := run_declare hagain
    have hxy : x = y := by simpa using hy
    rw [hrun', ← hxy]
    rfl
  · rw [hrun]
    show ((Stmt.block out.value).declare.run known₁).1 = _
    rw [hagain.run_block hagain.run]
    rfl

end Stmt

/-! ### Functions -/

namespace Func

variable {f : Func} {body : Stmt}

theorem insertDeclarations_of_body_eq_none (hbody : f.body = none) :
    f.insertDeclarations = pure (.keep f) := by
  unfold insertDeclarations declare
  rw [hbody]
  rfl

/-- A function takes in the declarations of its body. If there are none, it is kept. -/
theorem run_insertDeclarations (hbody : f.body = some body) (st : Fresh) :
    f.insertDeclarations.run st =
      let out := (body.declare.run (f.args ++ f.results)).1
      if out.changed then
        (.replace (f.withBody st.nextId out.value), { st with nextId := st.nextId + 1 })
      else (.keep f, st) := by
  unfold insertDeclarations declare
  rw [hbody]
  let out := body.declare.run (f.args ++ f.results)
  let rest : StateT Declared (StateM Fresh) (Transformed Func) :=
    if out.1.changed then return .replace (f.withBody (← Fresh.newId) out.1.value)
    else return .keep f
  show (((rest.run out.2).run st).1.1, ((rest.run out.2).run st).2) = _
  dsimp only [rest, out]
  split <;> rfl

/-- `g` is `f` with the given body. -/
structure Rebodied (f g : Func) (body : Stmt) : Prop where
  name_eq : g.name = f.name
  kind_eq : g.kind = f.kind
  args_eq : g.args = f.args
  results_eq : g.results = f.results
  body_eq : g.body = some body

theorem Rebodied.refl (hbody : f.body = some body) : Rebodied f f body :=
  ⟨rfl, rfl, rfl, rfl, hbody⟩

theorem rebodied_withBody (f : Func) (id : Nat) (body : Stmt) :
    Rebodied f (f.withBody id body) body :=
  ⟨rfl, rfl, rfl, rfl, rfl⟩

theorem Rebodied.trans {g h : Func} {body' : Stmt} (hg : Rebodied f g body)
    (hh : Rebodied g h body') : Rebodied f h body' :=
  ⟨hh.name_eq.trans hg.name_eq, hh.kind_eq.trans hg.kind_eq, hh.args_eq.trans hg.args_eq,
    hh.results_eq.trans hg.results_eq, hh.body_eq⟩

/-- Of a function, only the body takes in declarations. -/
theorem rebodied_insertDeclarations (hbody : f.body = some body) (st : Fresh) :
    Rebodied f (f.insertDeclarations.run st).1.value
      (body.declare.run (f.args ++ f.results)).1.value := by
  rw [run_insertDeclarations hbody]
  dsimp only
  split
  · exact rebodied_withBody _ _ _
  · next hc =>
    rw [Stmt.faithful_declare body _ (by simpa using hc)]
    exact .refl hbody

end Func

end TensorIR
