import TensorIR.Proofs.Deferral
import TensorIR.Proofs.Grammar

/-! # Arithmetic that is written and read

The text of an arithmetic expression reads back to an expression of the same value
(`Expr.reads_text`).

**Key idea**: the right operand of `+` and `*` stands bare if its strength is that of the operator,
and is not read as an operand then: what is read is its first operand, and the others are taken one
by one from there. No value changes by that (`ReadsTo.chain`): `a + (b - c)` is `a + b - c`, and
`a * (b / c)` is `a * b / c`, for `c = 0` too.
-/

namespace TensorIR

/-! ### Values -/

namespace Expr

/-- Numbers, variables out of `vs`, and operators. -/
inductive Arithmetic (vs : List Var) : Expr → Prop
  | var {ty : Ty} {v : Var} : v ∈ vs → Arithmetic vs (.var ty v)
  | literal {ty : Ty} {l : Literal} : l.IsNumber → Arithmetic vs (.prim ty (.literal l) [])
  | neg {ty : Ty} {a : Expr} : Arithmetic vs a → Arithmetic vs (.neg ty a)
  | binary {ty : Ty} {o : BinaryOp} {a b : Expr} :
    Arithmetic vs a → Arithmetic vs b → Arithmetic vs (.binary ty o a b)

/-- The value of an arithmetic expression, given those of the variables. -/
def number (ρ : Var → ℚ) : Expr → ℚ
  | .var _ v => ρ v
  | .prim _ (.literal l) _ => l.value
  | .neg _ a => -a.number ρ
  | .binary _ o a b => o.apply (a.number ρ) (b.number ρ)
  | _ => 0

/-- That is the value in a program if all types are scalar and the literals mean what they say. -/
theorem Arithmetic.num_eq {β : Type} {I : Interp β} (σ : Store β)
    (hliteral : ∀ ty l, l.IsNumber → I.prim ty (.literal l) [] = .scalar l.value) {vs : List Var}
    {e : Expr} (he : e.Arithmetic vs) (hscalar : e.Everywhere fun n => n.ty.isScalar = true) :
    I.num σ e = fun _ => e.number fun v => (σ v).comp [] := by
  induction he with
  | @var ty v _ =>
    have hty : ty.isScalar = true := hscalar.root
    funext i
    show ((σ v).fit I.size ty).comp [] = _
    rw [Value.fit_scalar hty]
    rfl
  | @literal ty l hl =>
    have hty : ty.isScalar = true := hscalar.root
    funext i
    show ((I.prim ty (.literal l) []).fit I.size ty).comp [] = _
    rw [Value.fit_scalar hty, hliteral ty l hl]
    rfl
  | @neg ty a _ ih =>
    obtain ⟨hroot, ha⟩ := everywhere_neg.1 hscalar
    have hty : ty.isScalar = true := hroot
    rw [Interp.num_neg (Ty.dims_of_isScalar hty), ih ha]
    rfl
  | @binary ty o a b _ _ iha ihb =>
    obtain ⟨hroot, ha, hb⟩ := everywhere_binary.1 hscalar
    have hty : ty.isScalar = true := hroot
    rw [Interp.num_binary (Ty.dims_of_isScalar hty), iha ha, ihb hb]
    rfl

end Expr

/-! ### Chains -/

theorem Expr.strength_pos (e : Expr) : 0 < e.strength := by
  unfold strength
  split
  · split <;> decide
  · decide
  · decide

namespace BinaryOp

/-- Whether a right operand of the same strength stands bare. -/
def chains : BinaryOp → Bool
  | .add | .mul => true
  | .sub | .div => false

theorem rightStrength_eq (o : BinaryOp) :
    o.rightStrength o.strength = if o.chains then o.strength else o.strength + 1 := by
  cases o <;> rfl

/-- The first operand of a right operand can be taken first. -/
theorem apply_assoc {o o' : BinaryOp} (ho : o.chains = true) (hstrength : o'.strength = o.strength)
    (x y z : ℚ) : o'.apply (o.apply x y) z = o.apply x (o'.apply y z) := by
  cases o with
  | add =>
    cases o' with
    | add => exact add_assoc x y z
    | sub => exact add_sub_assoc x y z
    | mul => cases hstrength
    | div => cases hstrength
  | mul =>
    cases o' with
    | add => cases hstrength
    | sub => cases hstrength
    | mul => exact mul_assoc x y z
    | div => exact mul_div_assoc x y z
  | sub => cases ho
  | div => cases ho

theorem strength_le (o : BinaryOp) : o.strength ≤ 2 := by
  cases o <;> decide

end BinaryOp

/-- The tokens are an arithmetic expression with the given value. -/
def ReadsTo (vs : List Var) (n : Nat) (ts : List Token) (val : (Var → ℚ) → ℚ) : Prop :=
  ∃ e, Reads vs n ts e ∧ e.Arithmetic vs ∧ ∀ ρ, e.number ρ = val ρ

namespace ReadsTo

variable {vs : List Var} {n : Nat} {ts ts' : List Token} {val val' : (Var → ℚ) → ℚ} {o : BinaryOp}

theorem of_le {m : Nat} (hle : m ≤ n) (h : ReadsTo vs n ts val) : ReadsTo vs m ts val := by
  obtain ⟨e, hreads, hrest⟩ := h
  exact ⟨e, hreads.of_le hle, hrest⟩

theorem paren (h : ReadsTo vs 1 ts val) :
    ReadsTo vs 4 (.opening :: (ts ++ [.closing])) val := by
  obtain ⟨e, hreads, hrest⟩ := h
  exact ⟨e, hreads.paren, hrest⟩

theorem neg (h : ReadsTo vs 3 ts val) : ReadsTo vs 3 (.op .sub :: ts) fun ρ => -val ρ := by
  obtain ⟨e, hreads, hwf, hval⟩ := h
  exact ⟨e.negOf, hreads.neg, hwf.neg, fun ρ => congrArg Neg.neg (hval ρ)⟩

theorem binary (h : ReadsTo vs o.strength ts val) (h' : ReadsTo vs (o.strength + 1) ts' val') :
    ReadsTo vs o.strength (ts ++ .op o :: ts') fun ρ => o.apply (val ρ) (val' ρ) := by
  obtain ⟨a, ha, hawf, haval⟩ := h
  obtain ⟨b, hb, hbwf, hbval⟩ := h'
  refine ⟨.binaryOf o a b, ha.binary hb, hawf.binary hbwf, fun ρ => ?_⟩
  show o.apply (a.number ρ) (b.number ρ) = _
  rw [haval, hbval]

/-- A right operand of the same strength goes on with the sum or the product. -/
theorem chain (ho : o.chains = true) (h : ReadsTo vs o.strength ts val) {b : Expr}
    (hb : Reads vs n ts' b) (hn : n = o.strength) (hbwf : b.Arithmetic vs) :
    ReadsTo vs o.strength (ts ++ .op o :: ts') fun ρ => o.apply (val ρ) (b.number ρ) := by
  have hle := o.strength_le
  -- on the chain of the right operand, from its end
  induction hb with
  | word => omega
  | paren => omega
  | neg => omega
  | tighter hb =>
    rw [hn] at hb
    exact h.binary ⟨_, hb, hbwf, fun _ => rfl⟩
  | @binary o' us us' x y _ hy ihx _ =>
    cases hbwf with
    | binary hxwf hywf =>
      -- what is read up to here is the left operand of the last operator
      have hleft := ihx hn hxwf
      rw [← hn] at hleft
      have hread := hleft.binary ⟨y, hy, hywf, fun _ => rfl⟩
      rw [List.append_assoc, List.cons_append, hn] at hread
      obtain ⟨e, he, hwf, hval⟩ := hread
      refine ⟨e, he, hwf, fun ρ => (hval ρ).trans ?_⟩
      exact BinaryOp.apply_assoc ho hn (val ρ) (x.number ρ) (y.number ρ)

theorem right (h : ReadsTo vs o.strength ts val)
    (h' : ReadsTo vs (o.rightStrength o.strength) ts' val') :
    ReadsTo vs o.strength (ts ++ .op o :: ts') fun ρ => o.apply (val ρ) (val' ρ) := by
  rw [BinaryOp.rightStrength_eq] at h'
  cases ho : o.chains with
  | true =>
    rw [ho] at h'
    obtain ⟨b, hb, hbwf, hbval⟩ := h'
    rw [show val' = fun ρ => b.number ρ from funext fun ρ => (hbval ρ).symm]
    exact chain ho h hb rfl hbwf
  | false =>
    rw [ho] at h'
    exact h.binary h'

end ReadsTo

/-! ### Texts -/

/-- A piece of a text is an arithmetic expression with the given value. -/
def TextReadsTo (vs : List Var) (n : Nat) (text : String) (val : (Var → ℚ) → ℚ) : Prop :=
  ∃ ts, Lexes text.toList ts ∧ ReadsTo vs n ts val

namespace TextReadsTo

variable {vs : List Var} {n : Nat} {text text' : String} {val val' : (Var → ℚ) → ℚ}

theorem of_le {m : Nat} (hle : m ≤ n) (h : TextReadsTo vs n text val) :
    TextReadsTo vs m text val := by
  obtain ⟨ts, hlex, hreads⟩ := h
  exact ⟨ts, hlex, hreads.of_le hle⟩

theorem neg (h : TextReadsTo vs 3 text val) :
    TextReadsTo vs 3 ("-" ++ text) fun ρ => -val ρ := by
  obtain ⟨ts, hlex, hreads⟩ := h
  refine ⟨.op .sub :: ts, ?_, hreads.neg⟩
  rw [String.toList_append]
  exact hlex.cons rfl rfl

theorem paren (h : TextReadsTo vs 1 text val) : TextReadsTo vs 4 ("(" ++ text ++ ")") val := by
  obtain ⟨ts, hlex, hreads⟩ := h
  refine ⟨.opening :: (ts ++ [.closing]), ?_, hreads.paren⟩
  rw [String.toList_append, String.toList_append]
  exact hlex.paren

theorem binary {o : BinaryOp} (h : TextReadsTo vs o.strength text val)
    (h' : TextReadsTo vs (o.rightStrength o.strength) text' val') :
    TextReadsTo vs o.strength (text ++ " " ++ o.text ++ " " ++ text') fun ρ =>
      o.apply (val ρ) (val' ρ) := by
  obtain ⟨ts, hlex, hreads⟩ := h
  obtain ⟨ts', hlex', hreads'⟩ := h'
  refine ⟨ts ++ .op o :: ts', ?_, hreads.right hreads'⟩
  have hbinary := Lexes.binary o hlex hlex'
  simpa [String.toList_append] using hbinary

/-- An operand in its place. -/
theorem bracket {e : Expr} (h : TextReadsTo vs (min e.strength 3) e.text e.number) {least : Nat}
    (hleast : least ≤ 3) :
    TextReadsTo vs least (e.bracket least e.text) e.number := by
  have hpos := e.strength_pos
  unfold Expr.bracket
  -- in parentheses every sum is an operand; without them the strength is enough
  split
  · exact (h.of_le (by omega)).paren.of_le (by omega)
  · exact h.of_le (by omega)

/-- A number is read without its sign, and the sign as that of a negation. -/
theorem literal {l : Literal} (h : l.IsNumber) : TextReadsTo vs 3 l.text fun _ => l.value := by
  have hread : readNumeral l.unsigned.text.toList = some l.unsigned := Literal.readNumeral_text h
  have hword : readWord vs l.unsigned.text.toList = some (.literal l.unsigned) := by
    rw [readWord, hread]
  have hunsigned : TextReadsTo vs 3 l.unsigned.text fun _ => l.unsigned.value :=
    ⟨_, .word (isWord_of_readNumeral hread), _, (Reads.word hword).tighter,
      .literal (Literal.isNumber_unsigned h), fun _ => rfl⟩
  rw [Literal.text_eq_sign h, Literal.value_eq h]
  cases l.isSigned with
  | true => exact hunsigned.neg
  | false =>
    rw [if_neg Bool.false_ne_true, String.empty_append]
    exact hunsigned

end TextReadsTo

section Names

variable {vs : List Var} (hnames : ∀ v ∈ vs, isName v.name.toList = true)
  (hdistinct : (vs.map Var.name).Nodup)

include hnames hdistinct

/-- A name is read as the variable that it belongs to. -/
theorem readWord_name {v : Var} (hv : v ∈ vs) : readWord vs v.name.toList = some (.ofVar v) := by
  have hfind : vs.find? (fun u => u.name.toList = v.name.toList) = some v := by
    have hsome : (vs.find? fun u => u.name.toList = v.name.toList).isSome := by
      rw [List.find?_isSome]
      exact ⟨v, hv, by simp⟩
    obtain ⟨u, hu⟩ := Option.isSome_iff_exists.1 hsome
    have hname : u.name.toList = v.name.toList := by simpa using List.find?_some hu
    have huv : u = v := List.inj_on_of_nodup_map hdistinct (List.mem_of_find?_eq_some hu) hv
      (String.toList_inj.1 hname)
    rw [hu, huv]
  rw [readWord, readNumeral_eq_none_of_isName (hnames v hv), hfind]
  rfl

theorem Expr.Arithmetic.textReadsTo {e : Expr} (he : e.Arithmetic vs) :
    TextReadsTo vs (min e.strength 3) e.text e.number := by
  induction he with
  | @var ty v hv =>
    have hreads : Reads vs 4 [.word v.name.toList] (.ofVar v) :=
      .word (readWord_name hnames hdistinct hv)
    exact ⟨_, .word (isWord_of_isName (hnames v hv)), _, hreads.tighter, .var hv, fun _ => rfl⟩
  | literal hl => exact .literal hl
  | neg _ ih => exact (ih.bracket le_rfl).neg
  | @binary ty o a b _ _ iha ihb =>
    have hleft := o.strength_le
    have hright : o.rightStrength o.strength ≤ 3 := by cases o <;> decide
    -- no operand needs more than a sign does, so a negative number stands bare everywhere
    have hstrength : (Expr.binary ty o a b).strength = o.strength := rfl
    rw [hstrength, min_eq_left (by omega)]
    exact (iha.bracket (by omega)).binary (ihb.bracket hright)

/-- The text of an arithmetic expression is read in one way, as an arithmetic expression that has the
same value whatever those of the variables are. -/
theorem Expr.reads_text {e : Expr} (he : e.Arithmetic vs) :
    ∃ e', (∀ r, Reads vs 1 (lex e.text) r ↔ r = e') ∧ e'.Arithmetic vs ∧
      ∀ ρ, e'.number ρ = e.number ρ := by
  have hpos := e.strength_pos
  obtain ⟨ts, hlex, e', hreads, hwf, hval⟩ :=
    (he.textReadsTo hnames hdistinct).of_le (by omega : 1 ≤ min e.strength 3)
  rw [hlex.lex_eq]
  refine ⟨e', fun r => ⟨fun h => h.unique hreads, fun h => ?_⟩, hwf, hval⟩
  rw [h]
  exact hreads

end Names

/-- Two variables. -/
def Var.pair : List Var := [⟨0, "a", .float⟩, ⟨1, "b", .float⟩]

/-- The sum of `a` and a difference that is written without parentheses. -/
def Expr.bareDifference : Expr :=
  .binary .float .add (.var .float ⟨0, "a", .float⟩)
    (.binary .float .sub (.var .float ⟨1, "b", .float⟩)
      (.literal (.float (.ofFields true 1022 0))))

theorem Expr.reads_text_bareDifference :
    bareDifference.text = "a + b - -0.5" ∧
      ∃ e', (∀ r, Reads Var.pair 1 (lex bareDifference.text) r ↔ r = e') ∧
        e'.Arithmetic Var.pair ∧ ∀ ρ, e'.number ρ = bareDifference.number ρ :=
  ⟨by decide +kernel, reads_text (by decide) (by decide)
    (.binary (.var (by decide)) (.binary (.var (by decide)) (.literal rfl)))⟩

end TensorIR
