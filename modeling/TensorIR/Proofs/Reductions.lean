import TensorIR.Proofs.Deferral
import TensorIR.Proofs.Meaning

/-! # Flattening and the scope of reductions

The assignment of an index expression over a polynomial keeps its meaning exactly if it does not
matter that the sums within are put off (`Interp.SumsAgree`). They may be put off as long as
flattening moves no sum to where it ranges over something else (`Expr.SumsKept`). Both are said by
`Stmt.exec_flatten_polynomial`.

**Key idea**: a polynomial and the number that is left of it need not be the same, as long as they
are once each is summed over the reduction variables that the other has not (`Interp.Accounts`).
For a product this is a product of sums, for a sum both operands have to be summed over the same,
and at the index expression around the polynomial everything is summed over.
-/

namespace TensorIR

namespace Interp

variable {β : Type} (I : Interp β)

/-- Wherever the result variables stand in their ranges, the sum that is put off to the index
expression over `b` comes to the same as the sums where they are. -/
def SumsAgree (σ : Store β) (rs : List IndexVar) (b : Expr) : Prop :=
  ∀ is, inBox I.size (rs.map IndexVar.domain) is = true →
    sumOver I.size b.form.reductionVars (I.deferred σ b) (IndexEnv.bind (fun _ => 0) rs is) =
      sumOver I.size b.reductionVars (I.num σ b) (IndexEnv.bind (fun _ => 0) rs is)

/-! ### Accounting for the sums that are moved -/

/-- Once the polynomial is summed over what was taken out of it, and the number `f` that is left of
it over what was brought into its flattened form `x`, they are the same, wherever the other index
variables stand in their ranges. -/
def Accounts (σ : Store β) (e x : Expr) (f : IndexEnv → Rat) : Prop :=
  ∀ ρ, (∀ v ∈ e.loose, v ∉ e.beyond x → ρ v < I.size v.domain) →
    sumOver I.size (e.beyond x) (I.num σ e) ρ = sumOver I.size (x.beyond e) f ρ

variable {I} {σ : Store β} {a b e x y : Expr} {ty : Ty} {f g : IndexEnv → Rat}

/-- Where a reduction variable stands does not matter to a polynomial that does not have it. -/
theorem ignores_num {rs : List IndexVar} (h : ∀ r ∈ rs, r.isFree = false ∧ r ∉ e.reductionVars) :
    Ignores rs (I.num σ e) := by
  intro r hr ρ i
  refine congrArg (·.comp []) (eval_congr I (.of_forall fun _ => rfl) fun v hv => ?_)
  refine if_neg ?_
  rintro rfl
  exact (h v hr).2 (Expr.mem_reductionVars.2 ⟨hv, (h v hr).1⟩)

theorem ignores_deferred (he : e.isPolynomial true = true) (hw : e.WellShaped)
    {rs : List IndexVar} (h : ∀ r ∈ rs, r.isFree = false ∧ r ∉ e.form.reductionVars) :
    Ignores rs (I.deferred σ e) := by
  intro r hr ρ i
  apply deferred_congr he hw
  intro v hv
  refine if_neg ?_
  rintro rfl
  exact (h v hr).2 (Expr.mem_reductionVars.2 ⟨hv, (h v hr).1⟩)

/-- Reductions on both sides, and those that one side has and the other has not. -/
theorem perm_reductionVars (e x : Expr) :
    ((e.reductionVars.filter (· ∈ x.reductionVars)) ++ e.beyond x).Perm e.reductionVars := by
  have h := List.filter_append_perm (fun v => decide (v ∈ x.reductionVars)) e.reductionVars
  simpa [Expr.beyond] using h

/-- Summed over all their reductions, both are the same. -/
theorem Accounts.whole (h : I.Accounts σ e x f) {ρ : IndexEnv}
    (hρ : ∀ v ∈ e.loose, v.isFree = true → ρ v < I.size v.domain) :
    sumOver I.size e.reductionVars (I.num σ e) ρ = sumOver I.size x.reductionVars f ρ := by
  have hcommon : (e.reductionVars.filter (· ∈ x.reductionVars)).Perm
      (x.reductionVars.filter (· ∈ e.reductionVars)) := by
    refine (List.perm_ext_iff_of_nodup (e.nodup_reductionVars.filter _)
      (x.nodup_reductionVars.filter _)).2 fun v => ?_
    rw [List.mem_filter, List.mem_filter, decide_eq_true_iff, decide_eq_true_iff, and_comm]
  -- first over the reductions on both sides, then over those on one side only
  rw [← sumOver_perm (perm_reductionVars e x), ← sumOver_perm (perm_reductionVars x e),
    sumOver_append, sumOver_append, sumOver_perm hcommon.symm]
  apply sumOver_congr_range
  intro ρ' hout hin
  apply h ρ'
  intro v hv hbeyond
  by_cases hf : v.isFree = true
  · -- a free variable stands where it stood
    have hnot : v ∉ e.reductionVars.filter (· ∈ x.reductionVars) := fun hmem => by
      simp [(Expr.mem_reductionVars.1 (List.mem_filter.1 hmem).1).2] at hf
    rw [hout v hnot]
    exact hρ v hv hf
  · have hred := Expr.mem_reductionVars.2 ⟨hv, by simpa using hf⟩
    refine hin v (List.mem_filter.2 ⟨hred, ?_⟩)
    by_contra hx
    exact hbeyond (Expr.mem_beyond.2 ⟨hred, by simpa using hx⟩)

theorem Accounts.refl (σ : Store β) (e : Expr) : I.Accounts σ e e (I.num σ e) :=
  fun _ _ => rfl

theorem Accounts.neg (h : I.Accounts σ a x f) (hdims : ty.dims = []) :
    I.Accounts σ (.neg ty a) (.neg ty x) fun ρ => -f ρ := by
  intro ρ hρ
  rw [num_neg hdims, sumOver_neg, sumOver_neg]
  exact congrArg (fun r => -r) (h ρ hρ)

/-! ### Products -/

/-- What a product loses, its factors lose. -/
theorem perm_beyond_product {op : BinaryOp} (hab : Expr.Apart a x b y) (hba : Expr.Apart b y a x) :
    ((Expr.binary ty op a b).beyond (.binary ty op x y)).Perm (a.beyond x ++ b.beyond y) := by
  refine (List.perm_ext_iff_of_nodup Expr.nodup_beyond ?_).2 fun v => ?_
  · refine List.nodup_append.2 ⟨Expr.nodup_beyond, Expr.nodup_beyond, fun v hv w hw hvw => ?_⟩
    subst hvw
    exact (hab v (List.mem_append_left _ hv)).1 (Expr.mem_beyond.1 hw).1
  · rw [List.mem_append, Expr.mem_beyond, Expr.mem_reductionVars_binary,
      Expr.mem_reductionVars_binary, not_or]
    constructor
    · rintro ⟨ha | hb, hx, hy⟩
      · exact .inl (Expr.mem_beyond.2 ⟨ha, hx⟩)
      · exact .inr (Expr.mem_beyond.2 ⟨hb, hy⟩)
    · rintro (hv | hv)
      · obtain ⟨ha, hx⟩ := Expr.mem_beyond.1 hv
        exact ⟨.inl ha, hx, (hab v (List.mem_append_left _ hv)).2⟩
      · obtain ⟨hb, hy⟩ := Expr.mem_beyond.1 hv
        exact ⟨.inr hb, (hba v (List.mem_append_left _ hv)).2, hy⟩

/-- A product, summed over what its factors lose. -/
theorem sumOver_beyond_product {op : BinaryOp} (hab : Expr.Apart a x b y)
    (hba : Expr.Apart b y a x) (hf : Ignores (b.beyond y) f) (hg : Ignores (a.beyond x) g)
    (ρ : IndexEnv) :
    sumOver I.size ((Expr.binary ty op a b).beyond (.binary ty op x y)) (fun ρ => f ρ * g ρ) ρ =
      sumOver I.size (a.beyond x) f ρ * sumOver I.size (b.beyond y) g ρ := by
  rw [sumOver_perm (perm_beyond_product hab hba)]
  exact sumOver_mul hf hg ρ

theorem Accounts.product (ha : I.Accounts σ a x f) (hb : I.Accounts σ b y g)
    (hab : Expr.Apart a x b y) (hba : Expr.Apart b y a x) (hf : Ignores (y.beyond b) f)
    (hg : Ignores (x.beyond a) g) (hdims : ty.dims = []) :
    I.Accounts σ (.binary ty .mul a b) (.binary ty .mul x y) fun ρ => f ρ * g ρ := by
  intro ρ hρ
  -- what one factor loses, the other has not
  have hignores : ∀ {a b x y : Expr}, Expr.Apart a x b y → Ignores (a.beyond x) (I.num σ b) := by
    intro a b x y h
    refine ignores_num fun r hr => ⟨?_, (h r (List.mem_append_left _ hr)).1⟩
    exact (Expr.mem_reductionVars.1 (Expr.mem_beyond.1 hr).1).2
  have hloses : sumOver I.size ((Expr.binary ty .mul a b).beyond (.binary ty .mul x y))
      (I.num σ (.binary ty .mul a b)) ρ =
        sumOver I.size (a.beyond x) (I.num σ a) ρ * sumOver I.size (b.beyond y) (I.num σ b) ρ := by
    rw [num_binary hdims]
    exact sumOver_beyond_product hab hba (hignores hba) (hignores hab) ρ
  rw [hloses, sumOver_beyond_product hab.swap hba.swap hf hg]
  -- what one factor does not lose, the product does not lose either
  have hmem : ∀ v, v ∈ (Expr.binary ty .mul a b).beyond (.binary ty .mul x y) ↔
      v ∈ a.beyond x ∨ v ∈ b.beyond y := fun v =>
    (perm_beyond_product hab hba).mem_iff.trans List.mem_append
  have hfirst := ha ρ fun v hv hnot => by
    apply hρ v (List.mem_append_left _ hv)
    intro hv'
    apply ((hmem v).1 hv').elim hnot
    intro hvb
    have hred := (Expr.mem_reductionVars.1 (Expr.mem_beyond.1 hvb).1).2
    exact (hba v (List.mem_append_left _ hvb)).1 (Expr.mem_reductionVars.2 ⟨hv, hred⟩)
  have hsecond := hb ρ fun v hv hnot => by
    apply hρ v (List.mem_append_right _ hv)
    intro hv'
    refine ((hmem v).1 hv').elim (fun hva => ?_) hnot
    have hred := (Expr.mem_reductionVars.1 (Expr.mem_beyond.1 hva).1).2
    exact (hab v (List.mem_append_left _ hva)).1 (Expr.mem_reductionVars.2 ⟨hv, hred⟩)
  rw [hfirst, hsecond]

/-! ### Sums -/

/-- What a sum loses, each of its operands loses. -/
theorem perm_beyond_sum (ty : Ty) (op : BinaryOp) (h : Expr.Alike a x b y) :
    ((Expr.binary ty op a b).beyond (.binary ty op x y)).Perm (a.beyond x) ∧
      ((Expr.binary ty op a b).beyond (.binary ty op x y)).Perm (b.beyond y) := by
  have hab : ∀ v, v ∈ a.beyond x ↔ v ∈ b.beyond y := fun v => by
    rw [← List.mem_toFinset, h.1, List.mem_toFinset]
  have hmem : ∀ v, v ∈ (Expr.binary ty op a b).beyond (.binary ty op x y) ↔ v ∈ a.beyond x := by
    intro v
    rw [Expr.mem_beyond, Expr.mem_reductionVars_binary, Expr.mem_reductionVars_binary, not_or]
    constructor
    · rintro ⟨ha | hb, hx, hy⟩
      · exact Expr.mem_beyond.2 ⟨ha, hx⟩
      · exact (hab v).2 (Expr.mem_beyond.2 ⟨hb, hy⟩)
    · intro hv
      obtain ⟨ha, hx⟩ := Expr.mem_beyond.1 hv
      exact ⟨.inl ha, hx, (Expr.mem_beyond.1 ((hab v).1 hv)).2⟩
  exact ⟨(List.perm_ext_iff_of_nodup Expr.nodup_beyond Expr.nodup_beyond).2 hmem,
    (List.perm_ext_iff_of_nodup Expr.nodup_beyond Expr.nodup_beyond).2 fun v =>
      (hmem v).trans (hab v)⟩

/-- A sum, summed over what its operands lose. -/
theorem sumOver_beyond_sum {op : BinaryOp} (hop : op.isSum = true) (h : Expr.Alike a x b y)
    (f g : IndexEnv → Rat) (ρ : IndexEnv) :
    sumOver I.size ((Expr.binary ty op a b).beyond (.binary ty op x y))
        (fun ρ => op.apply (f ρ) (g ρ)) ρ =
      op.apply (sumOver I.size (a.beyond x) f ρ) (sumOver I.size (b.beyond y) g ρ) := by
  obtain ⟨ha, hb⟩ := perm_beyond_sum ty op h
  rw [sumOver_apply hop, sumOver_perm ha f, sumOver_perm hb g]

theorem Accounts.sum {op : BinaryOp} (hop : op.isSum = true) (ha : I.Accounts σ a x f)
    (hb : I.Accounts σ b y g) (h : Expr.Alike a x b y) (hdims : ty.dims = []) :
    I.Accounts σ (.binary ty op a b) (.binary ty op x y) fun ρ => op.apply (f ρ) (g ρ) := by
  intro ρ hρ
  obtain ⟨hpa, hpb⟩ := perm_beyond_sum ty op h
  have hfirst := ha ρ fun v hv hnot =>
    hρ v (List.mem_append_left _ hv) fun hv' => hnot (hpa.mem_iff.1 hv')
  have hsecond := hb ρ fun v hv hnot =>
    hρ v (List.mem_append_right _ hv) fun hv' => hnot (hpb.mem_iff.1 hv')
  rw [num_binary hdims, sumOver_beyond_sum hop h, sumOver_beyond_sum hop h.swap, hfirst, hsecond]

/-- An operand that is held by a temporary loses all its reductions. -/
theorem Accounts.settled (h : I.Accounts σ a a.form f) (ha : a.form.isPolynomial false = true) :
    I.Accounts σ a a.form.settledForm (I.settled a f) := by
  unfold Interp.settled
  by_cases hi : a.form.isIndexed = true
  · have hform : a.form.settledForm = a.form := if_pos hi
    rw [if_pos hi, hform]
    exact h
  · rw [if_neg hi]
    have hnone : a.form.settledForm.reductionVars = [] := by
      rw [List.eq_nil_iff_forall_not_mem]
      intro v hv
      obtain ⟨hmem, hf⟩ := Expr.mem_reductionVars.1 hv
      rw [Expr.loose_settledForm ha, if_neg hi] at hmem
      simp [(Expr.mem_freeIndexVars.1 hmem).2] at hf
    have hout : a.beyond a.form.settledForm = a.reductionVars := by
      unfold Expr.beyond
      rw [hnone]
      simp
    have hin : a.form.settledForm.beyond a = [] := by
      unfold Expr.beyond
      rw [hnone]
      rfl
    intro ρ hρ
    rw [hout] at hρ
    rw [hout, hin, sumOver]
    apply h.whole
    intro v hv hf
    apply hρ v hv
    intro hred
    simp [(Expr.mem_reductionVars.1 hred).2] at hf

/-! ### Reads -/

section

variable {rty : Ty} {rs vs : List IndexVar}

/-- A read of an index expression loses none of its own reductions, and brings in those of the
body. -/
theorem beyond_read (ty rty : Ty) (b : Expr) (hlen : rs.length = vs.length)
    (hrs : ∀ r ∈ rs, r.isFree = true)
    (hvs : ∀ v ∈ vs, v.isFree = false →
      v ∉ y.loose ∧ v ∈ (y.substitute (.ofPairs (rs.zip vs))).value.loose) :
    (Expr.indexed ty (.indexExpr rty rs b) vs).beyond
        (y.substitute (.ofPairs (rs.zip vs))).value = [] ∧
      ((y.substitute (.ofPairs (rs.zip vs))).value.beyond
        (.indexed ty (.indexExpr rty rs b) vs)).Perm y.reductionVars := by
  -- the reductions of the read are those among its variables
  have hread : ∀ v, v ∈ (Expr.indexed ty (.indexExpr rty rs b) vs).reductionVars ↔
      v ∈ vs ∧ v.isFree = false := by
    intro v
    rw [Expr.mem_reductionVars, Expr.loose, List.mem_append, Expr.mem_loose_indexExpr]
    constructor
    · rintro ⟨⟨_, hf, _⟩ | hv, hf'⟩
      · rw [hf'] at hf
        cases hf
      · exact ⟨hv, hf'⟩
    · rintro ⟨hv, hf⟩
      exact ⟨.inr hv, hf⟩
  -- those of the body keep their names
  have hkept : ∀ v : IndexVar, v.isFree = false → Renaming.ofPairs (rs.zip vs) v = none := by
    intro v hf
    apply (Renaming.ofPairs_zip_eq_none_iff hlen).2
    intro hmem
    rw [hrs v hmem] at hf
    cases hf
  constructor
  · rw [List.eq_nil_iff_forall_not_mem]
    intro v hv
    obtain ⟨hmem, hnot⟩ := Expr.mem_beyond.1 hv
    obtain ⟨hv, hf⟩ := (hread v).1 hmem
    exact hnot (Expr.mem_reductionVars.2 ⟨(hvs v hv hf).2, hf⟩)
  · apply (List.perm_ext_iff_of_nodup Expr.nodup_beyond y.nodup_reductionVars).2
    intro v
    rw [Expr.mem_beyond, hread, Expr.mem_reductionVars, Expr.mem_reductionVars]
    constructor
    · rintro ⟨⟨hmem, hf⟩, hnot⟩
      rcases Expr.loose_substitute hmem with ⟨hy, _⟩ | ⟨u, hu⟩
      · exact ⟨hy, hf⟩
      · exact absurd ⟨(List.of_mem_zip (Renaming.mem_of_ofPairs hu)).2, hf⟩ hnot
    · rintro ⟨hmem, hf⟩
      exact ⟨⟨Expr.mem_loose_substitute hmem (hkept v hf), hf⟩, fun hv => (hvs v hv.1 hf).1 hmem⟩

theorem Accounts.read (h : I.Accounts σ b y f)
    (hdims : rs.map IndexVar.domain = vs.map IndexVar.domain) (hrs : ∀ r ∈ rs, r.isFree = true)
    (hvs : ∀ v ∈ vs, v.isFree = false →
      v ∉ y.loose ∧ v ∈ (y.substitute (.ofPairs (rs.zip vs))).value.loose) :
    I.Accounts σ (.indexed ty (.indexExpr rty rs b) vs)
      (y.substitute (.ofPairs (rs.zip vs))).value fun ρ => f (ρ.bind rs (vs.map ρ)) := by
  have hlen : rs.length = vs.length := by simpa using congrArg List.length hdims
  obtain ⟨hout, hin⟩ := beyond_read ty rty b hlen hrs hvs
  intro ρ hρ
  rw [hout] at hρ ⊢
  have hrange : I.InRange ρ ((Expr.indexExpr rty rs b).loose ++ vs) := fun v hv =>
    hρ v hv List.not_mem_nil
  have hbox : inBox I.size (rs.map IndexVar.domain) (vs.map ρ) = true := by
    rw [hdims]
    exact inBox_of_inRange fun v hv => hrange v (List.mem_append_right _ hv)
  have hbound : I.InRange (ρ.bind rs (vs.map ρ)) ((Expr.indexExpr rty rs b).loose ++ rs) :=
    InRange.bind (fun v hv => hrange v (List.mem_append_left _ hv)) hbox
  have hvalue : I.num σ (.indexed ty (.indexExpr rty rs b) vs) ρ =
      sumOver I.size b.reductionVars (I.num σ b) (ρ.bind rs (vs.map ρ)) := by
    unfold num
    rw [Interp.eval, Interp.eval, Value.comp_box hbox]
    rfl
  rw [sumOver, hvalue, sumOver_perm hin, sumOver_bind]
  · refine h.whole fun v hv hf => hbound v (List.mem_append.2 ?_)
    by_cases hmem : v ∈ rs
    · exact .inr hmem
    · exact .inl (Expr.mem_loose_indexExpr.2 ⟨hv, hf, hmem⟩)
  · -- the reductions of the body are neither bound by the read nor among its variables
    intro r hr
    obtain ⟨hmem, hf⟩ := Expr.mem_reductionVars.1 hr
    refine ⟨fun hrs' => ?_, fun hvs' => (hvs r hvs' hf).1 hmem⟩
    rw [hrs r hrs'] at hf
    cases hf

end

/-! ### Polynomials that allow their sums to be put off -/

/-- What is left of a polynomial accounts for every sum that is moved. -/
theorem accounts_deferred (he : e.isPolynomial true = true) (hw : e.WellShaped)
    (hdims : e.ty.dims = []) (hk : e.SumsKept) : I.Accounts σ e e.form (I.deferred σ e) := by
  induction he using Expr.polynomial_induction with
  | var ty vty v vs => exact .refl σ (.indexed ty (.var vty v) vs)
  | read ty rty rs b vs _ hb _ ih =>
    obtain ⟨⟨_, hvs⟩, hwt⟩ := Expr.everywhere_indexed.1 hw
    obtain ⟨hwb, hs, hsame, hlen⟩ := Expr.WellShaped.readBody hwt hvs
    obtain ⟨hkb, hfree, hmeet⟩ := hk
    have hform : (Expr.indexed ty (.indexExpr rty rs b) vs).form =
        (b.form.substitute (.ofPairs (rs.zip vs))).value := by
      rw [Expr.form, Expr.form, Expr.readAt_indexExpr hlen]
    rw [hform] at hmeet ⊢
    exact (ih hwb (Ty.dims_of_isScalar hs) hkb).read hsame hfree hmeet
  | neg ty a _ ih =>
    obtain ⟨hty, hwa⟩ := Expr.everywhere_neg.1 hw
    replace hdims : ty.dims = [] := hdims
    exact (ih hwa (hty.symm.trans hdims) hk).neg hdims
  | binary ty op a b _ ha hb hdiv iha ihb =>
    obtain ⟨hok, hwa, hwb⟩ := Expr.everywhere_binary.1 hw
    replace hdims : ty.dims = [] := hdims
    obtain ⟨hna, hnb⟩ := Expr.dims_of_binary hok hdims
    obtain ⟨hka, hkb, hmoved⟩ := hk
    have haccountsa := iha hwa hna hka
    have haccountsb := ihb hwb hnb hkb
    by_cases hop : op.isSum = true
    · rw [if_pos hop] at hmoved
      have hdeferred : I.deferred σ (.binary ty op a b) = fun ρ =>
          op.apply (I.settled a (I.deferred σ a) ρ) (I.settled b (I.deferred σ b) ρ) :=
        funext fun ρ => deferred_sum hop ρ
      rw [Expr.form, if_pos hop, hdeferred]
      exact (haccountsa.settled (Expr.isPolynomial_form ha hwa).1).sum hop
        (haccountsb.settled (Expr.isPolynomial_form hb hwb).1) hmoved hdims
    · have hmul : op = .mul := by cases op <;> simp_all [BinaryOp.isSum]
      subst hmul
      obtain ⟨hab, hba⟩ := hmoved
      -- what is brought into one factor, the other has not
      have hignores : ∀ {a b : Expr}, a.isPolynomial true = true → a.WellShaped →
          Expr.Apart b b.form a a.form → Ignores (b.form.beyond b) (I.deferred σ a) := by
        intro a b ha hwa h
        refine ignores_deferred ha hwa fun r hr => ⟨?_, (h r (List.mem_append_right _ hr)).2⟩
        exact (Expr.mem_reductionVars.1 (Expr.mem_beyond.1 hr).1).2
      have hdeferred : I.deferred σ (.binary ty .mul a b) = fun ρ =>
          I.deferred σ a ρ * I.deferred σ b ρ :=
        funext fun ρ => deferred_product rfl ρ
      rw [Expr.form, if_neg hop, hdeferred]
      exact haccountsa.product haccountsb hab hba (hignores ha hwa hba) (hignores hb hwb hab) hdims

/-- If flattening moves no sum to where it ranges over something else, the sums agree, from every
store. -/
theorem sumsAgree_of_sumsKept {rs : List IndexVar} (hp : b.isPolynomial true = true)
    (hclosed : (Expr.indexExpr ty rs b).Closed) (hw : (Expr.indexExpr ty rs b).WellShaped)
    (hk : b.SumsKept) (σ : Store β) : I.SumsAgree σ rs b := by
  obtain ⟨⟨hs, _⟩, hwb⟩ := Expr.everywhere_indexExpr.1 hw
  have haccounts : I.Accounts σ b b.form (I.deferred σ b) :=
    accounts_deferred hp hwb (Ty.dims_of_isScalar hs) hk
  intro is hbox
  symm
  apply haccounts.whole
  intro v hv hf
  -- what is free in the body is bound, and within its dimension
  have hwithin := Expr.looseWithin_indexExpr.1 (Expr.closed_iff.1 hclosed) v hv hf
  exact InRange.bind (Γ := []) (by rintro v ⟨⟩) hbox v (by simpa using hwithin)

end Interp

/-! ### Assignments -/

/-- A flattened index expression has the value it had exactly if the sums agree. -/
theorem FlattensTo.value_iff_sumsAgree {β : Type} {I : Interp β} {ty : Ty} {rs : List IndexVar}
    {b x : Expr} {st st' : Flattener} (h : FlattensTo (.indexExpr ty rs b) st x st')
    (hp : b.isPolynomial true = true) (hclosed : (Expr.indexExpr ty rs b).Closed)
    (hw : (Expr.indexExpr ty rs b).WellShaped) (hd : (Expr.indexExpr ty rs b).Drawn st.nextId)
    (σ : Store β) :
    I.value (I.prepared st' σ) x = I.value (I.prepared st σ) (.indexExpr ty rs b) ↔
      I.SumsAgree (I.prepared st σ) rs b := by
  rw [h.value_polynomial hp hclosed hw hd σ]
  exact Value.box_eq_iff

/-- Flattening the assignment of an index expression over a polynomial succeeds. In every
interpretation and from every store, the outcome assigns the same value exactly if the sums agree,
and it changes no other variable but temporaries. The sums agree if flattening moves none of them
to where it ranges over something else. -/
theorem Stmt.exec_flatten_polynomial {β : Type} (I : Interp β) {v : Var} {ty : Ty}
    {rs : List IndexVar} {b : Expr} {st : Flattener} (hp : b.isPolynomial true = true)
    (hclosed : (Expr.indexExpr ty rs b).Closed) (hshape : (Expr.indexExpr ty rs b).WellShaped)
    (hdrawn : (Expr.indexExpr ty rs b).Drawn st.nextId) :
    ∃ out st', (Stmt.assign v (.indexExpr ty rs b)).flatten.run.run st = (.ok out, st') ∧ ∀ σ,
      (I.exec out.value σ v = I.exec (.assign v (.indexExpr ty rs b)) σ v ↔
        I.SumsAgree σ rs b) ∧
      (∀ w, w.id < st.nextId → w ≠ v → I.exec out.value σ w = σ w) ∧
      (b.SumsKept → I.SumsAgree σ rs b) := by
  obtain ⟨out, st', hrun, _, _⟩ := Flattening.progresses (Stmt.forExprs_assign.2 hshape) st
  refine ⟨out, st', hrun, fun σ => ?_⟩
  have hto := Stmt.flattensTo_of_run hrun
  generalize out.value = s' at hto ⊢
  cases hto with
  | @parts _ _ xs st₁ ss st₂ _ hexprs hstmts =>
    obtain _ | ⟨hx, hnil⟩ := hexprs
    cases hnil
    cases hstmts
    rw [Interp.exec_after]
    -- after what is pending, the flattened expression is assigned to the same variable
    refine ⟨?_, fun w hw hne => ?_, fun hk => ?_⟩
    · show (Store.set _ v _) v = (σ.set v _) v ↔ _
      rw [Store.set_self, Store.set_self]
      exact hx.value_iff_sumsAgree hp hclosed hshape hdrawn σ
    · exact (Store.set_of_ne _ hne _).trans (Interp.agreeBelow_flattensTo I hx σ w hw)
    · exact Interp.sumsAgree_of_sumsKept hp hclosed hshape hk σ

/-- The body of `y = (: (i: A{i,r} * b{r}){s} * (i: A{i,q} * b{q}){s})`, the squared norm of a
matrix times a vector, where `r` and `s` are summed over. -/
def Expr.squaredNorm (q : IndexVar) : Expr :=
  let i : IndexVar := ⟨0, "i", .range 3, none⟩
  let s : IndexVar := ⟨2, "s", .range 3, some .sum⟩
  let A : Expr := .ofVar ⟨4, "A", .matrix 3 3⟩
  let b : Expr := .ofVar ⟨5, "b", .vector 3⟩
  let row (r : IndexVar) : Expr := .build [i] (.binaryOf .mul (A.index [i, r]) (b.index [r]))
  .binaryOf .mul ((row ⟨1, "r", .range 3, some .sum⟩).index [s]) ((row q).index [s])

/-- `y`, a tensor without dimensions. -/
def Var.norm : Var := ⟨6, "y", .ofDims .float []⟩

/-- With reductions of their own the two factors are kept apart. -/
theorem Stmt.exec_flatten_squaredNorm :
    ∃ out st', (Stmt.assign .norm
        (.build [] (.squaredNorm ⟨3, "q", .range 3, some .sum⟩))).flatten.run.run
          (.ofFresh ⟨7, {}⟩) = (.ok out, st') ∧
      ∀ σ, Interp.second.exec out.value σ .norm = Interp.second.exec (.assign .norm
        (.build [] (.squaredNorm ⟨3, "q", .range 3, some .sum⟩))) σ .norm :=
  let ⟨out, st', hrun, h⟩ := exec_flatten_polynomial Interp.second (by decide) (by decide)
    (by decide) (by decide)
  ⟨out, st', hrun, fun σ => (h σ).1.2 ((h σ).2.2 (by decide))⟩

/-- With the same reduction in both, as in the product of an expression with itself, one sum is
left of two: for a matrix and a vector of ones 9 instead of 27. -/
theorem Stmt.exec_flatten_merged :
    let b := Expr.squaredNorm ⟨1, "r", .range 3, some .sum⟩
    b.isPolynomial true = true ∧ (Expr.build [] b).Closed ∧ (Expr.build [] b).WellShaped ∧
      (Expr.build [] b).Drawn 7 ∧ ∃ out st' σ,
        (Stmt.assign .norm (.build [] b)).flatten.run.run (.ofFresh ⟨7, {}⟩) = (.ok out, st') ∧
        (Interp.second.exec out.value σ .norm).comp [] = 9 ∧
        (Interp.second.exec (.assign .norm (.build [] b)) σ .norm).comp [] = 27 := by
  refine ⟨by decide, by decide, by decide, by decide, _, _, fun _ => .tensor fun _ => 1, rfl, ?_, ?_⟩
  · decide +kernel
  · decide +kernel

end TensorIR
