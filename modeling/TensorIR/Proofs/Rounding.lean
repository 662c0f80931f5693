import Mathlib.Data.Int.Log
import Mathlib.Data.Rat.Floor
import Mathlib.Tactic.FieldSimp
import Mathlib.Tactic.Linarith
import Mathlib.Tactic.NormNum
import Mathlib.Tactic.Positivity
import Mathlib.Tactic.Ring
import TensorIR.Binary64.Text

/-! # Rounding to binary numbers

Reading a decimal gives the binary number nearest to it, and of two equally near ones the even one
(`Binary64.nearest`). Written with the digits of `RoundingInterval.shortest`, a number reads back
(`Binary64.nearest_shortest`).

**Key idea**: in units of its last bit, the interval around a number reaches from half a unit below
the significand to half a unit above, so rounding finds the significand again. Only just below a
power of two the units are half as large. There rounding finds twice the significand, which is
encoded by the same bits.
-/

namespace TensorIR

/-! ### Naturals -/

/-- The natural number nearest to a number that is not negative; of two the even one. -/
def roundEven (t : ℚ) : ℕ :=
  if t - ⌊t⌋₊ < 1 / 2 ∨ t - ⌊t⌋₊ = 1 / 2 ∧ ⌊t⌋₊ % 2 = 0 then ⌊t⌋₊ else ⌊t⌋₊ + 1

theorem roundEven_eq {t : ℚ} {n : ℕ} (h0 : 0 ≤ t) (hlo : n - 1 / 2 ≤ t) (hhi : t ≤ n + 1 / 2)
    (htie : n % 2 = 0 ∨ (n - 1 / 2 < t ∧ t < n + 1 / 2)) : roundEven t = n := by
  unfold roundEven
  rcases lt_or_ge t n with hlt | hge
  · -- the number below is as far or farther
    obtain ⟨k, rfl⟩ : ∃ k, n = k + 1 := by
      refine ⟨n - 1, ?_⟩
      rcases Nat.eq_zero_or_pos n with rfl | hn
      · norm_num at hlt
        linarith
      · omega
    push_cast at hlo hhi hlt htie
    have hfloor : ⌊t⌋₊ = k := (Nat.floor_eq_iff h0).2 ⟨by linarith, by linarith⟩
    rw [hfloor, if_neg]
    rintro (h | ⟨h, heven⟩)
    · linarith
    · rcases htie with hodd | ⟨hlo', _⟩
      · omega
      · linarith
  · have hfloor : ⌊t⌋₊ = n := (Nat.floor_eq_iff h0).2 ⟨hge, by linarith⟩
    rw [hfloor, if_pos]
    rcases htie with heven | ⟨_, hhi'⟩
    · rcases lt_or_eq_of_le hhi with h | h
      · exact .inl (by linarith)
      · exact .inr ⟨by linarith, heven⟩
    · exact .inl (by linarith)

/-- One of the two exponents is zero. -/
theorem pow_toNat_div (b : ℚ) (i : ℤ) : b ^ i.toNat / b ^ (-i).toNat = b ^ i := by
  rcases le_total 0 i with hi | hi
  · have hneg : (-i).toNat = 0 := by omega
    rw [hneg, pow_zero, div_one, ← zpow_natCast, Int.toNat_of_nonneg hi]
  · have hpos : i.toNat = 0 := by omega
    rw [hpos, pow_zero, one_div, ← zpow_natCast, Int.toNat_of_nonneg (by omega), zpow_neg, inv_inv]

/-! ### Intervals -/

/-- The decimal as a number. -/
def Decimal.value (d : Decimal) : ℚ := d.coefficient * 10 ^ d.exponent

namespace RoundingInterval

/-- The number lies in the interval. -/
def Mem (r : RoundingInterval) (q : ℚ) : Prop :=
  if r.closed then r.low ≤ q * r.den ∧ q * r.den ≤ r.high
  else r.low < q * r.den ∧ q * r.den < r.high

theorem contains_iff {r : RoundingInterval} {c : ℕ} : r.contains c = true ↔ r.Mem c := by
  unfold contains Mem
  norm_cast
  split <;> simp

/-- Whatever the units, it is the same interval. -/
theorem mem_inUnits {r : RoundingInterval} {e : ℤ} {q : ℚ} :
    (r.inUnits e).Mem q ↔ r.Mem (q * 10 ^ e) := by
  have hup : (0 : ℚ) < 10 ^ (-e).toNat := by positivity
  have hunit : (10 : ℚ) ^ e.toNat = 10 ^ e * 10 ^ (-e).toNat := by
    rw [← pow_toNat_div]
    field_simp
  have hcast : ∀ n k : ℕ, ((n * Nat.pow 10 k : ℕ) : ℚ) = n * 10 ^ k := by
    intro n k
    push_cast [Nat.pow_eq]
    rfl
  have hscale : q * (r.den * 10 ^ e.toNat) = q * 10 ^ e * r.den * 10 ^ (-e).toNat := by
    rw [hunit]
    ring
  simp only [Mem, inUnits, hcast, hscale, mul_le_mul_iff_left₀ hup, mul_lt_mul_iff_left₀ hup]

/-! ### The shortest decimal -/

/-- The number lies inside the interval, which is not too narrow for seventeen digits. -/
structure Proper (r : RoundingInterval) : Prop where
  den_pos : 0 < r.den
  low_lt : r.low < r.value
  lt_high : r.value < r.high
  wide : r.value + 10 ^ 16 * r.low < 10 ^ 16 * r.high

theorem contains_of_nearest? {r : RoundingInterval} {c : ℕ} (h : r.nearest? = some c) :
    r.contains c = true := by
  unfold nearest? at h
  dsimp only at h
  split at h
  · cases h
  · next h₁ _ =>
    cases h
    exact h₁
  · next _ h₂ =>
    cases h
    exact h₂
  · next h₁ h₂ =>
    split at h <;> cases h
    · exact h₁
    · exact h₂

/-- An interval that is longer than a unit has one of the two naturals next to its number. -/
theorem isSome_nearest? {r : RoundingInterval} (hden : 0 < r.den) (hlow : r.low < r.value)
    (hhigh : r.value < r.high) (hlong : r.low + r.den < r.high) : r.nearest?.isSome = true := by
  have hle : r.value / r.den * r.den ≤ r.value := Nat.div_mul_le_self _ _
  have hlt : r.value < (r.value / r.den + 1) * r.den := by
    have h := Nat.div_add_mod r.value r.den
    have hmod := Nat.mod_lt r.value hden
    rw [Nat.add_mul, Nat.mul_comm]
    omega
  have hnext : (r.value / r.den + 1) * r.den = r.value / r.den * r.den + r.den := by ring
  -- if the interval ends before both, it is no longer than the unit between them
  have hone : r.contains (r.value / r.den) = true ∨ r.contains (r.value / r.den + 1) = true := by
    unfold contains
    split <;> simp only [Bool.and_eq_true, decide_eq_true_eq] <;> omega
  unfold nearest?
  dsimp only
  rcases hone with h | h
  · rw [h]
    split <;> simp_all
    split <;> rfl
  · rw [h]
    split <;> simp_all
    split <;> rfl

theorem le_of_length_toDigits {n : ℕ} (hn : 0 < n) : 10 ^ ((Nat.toDigits 10 n).length - 1) ≤ n := by
  rcases Nat.eq_zero_or_pos ((Nat.toDigits 10 n).length - 1) with h | h
  · rw [h]
    exact hn
  · have hlen := (Nat.length_toDigits_le_iff (n := n) (b := 10) (by norm_num) h).not
    omega

theorem magnitude_le {r : RoundingInterval} (hden : 0 < r.den) (hvalue : 0 < r.value) :
    (10 : ℚ) ^ (r.magnitude - 1) * r.den ≤ r.value := by
  unfold magnitude
  split
  · next hle =>
    have hdigits := le_of_length_toDigits (Nat.div_pos hle hden)
    have hpos := Nat.length_toDigits_pos (b := 10) (n := r.value / r.den)
    have hmul : 10 ^ ((Nat.toDigits 10 (r.value / r.den)).length - 1) * r.den ≤ r.value :=
      (Nat.le_div_iff_mul_le hden).1 hdigits
    have hexp : (((Nat.toDigits 10 (r.value / r.den)).length : ℤ) - 1) =
        (((Nat.toDigits 10 (r.value / r.den)).length - 1 : ℕ) : ℤ) := by omega
    rw [hexp, zpow_natCast]
    exact_mod_cast hmul
  · have hpos := Nat.length_toDigits_pos (b := 10) (n := (r.den - 1) / r.value)
    have hdigits := (Nat.length_toDigits_le_iff (by norm_num) hpos).1
      (Nat.le_refl (Nat.toDigits 10 ((r.den - 1) / r.value)).length)
    have hmul := (Nat.div_lt_iff_lt_mul hvalue).1 hdigits
    generalize (Nat.toDigits 10 ((r.den - 1) / r.value)).length = l at hmul
    have hle : r.den ≤ r.value * 10 ^ l := by
      rw [Nat.mul_comm]
      omega
    rw [show (1 : ℤ) - l - 1 = -l by ring, zpow_neg, zpow_natCast, inv_mul_le_iff₀ (by positivity),
      mul_comm]
    exact_mod_cast hle

/-- Seventeen digits make a grid with a unit that is small against the number. -/
theorem unit_le {r : RoundingInterval} (hden : 0 < r.den) (hvalue : 0 < r.value) :
    10 ^ 16 * (r.inUnits (r.magnitude - 17)).den ≤ (r.inUnits (r.magnitude - 17)).value := by
  have hle := magnitude_le hden hvalue
  rw [show r.magnitude - 1 = 16 + (r.magnitude - 17) by ring, zpow_add₀ (by norm_num),
    ← pow_toNat_div 10 (r.magnitude - 17)] at hle
  show 10 ^ 16 * (r.den * 10 ^ (r.magnitude - 17).toNat) ≤
    r.value * 10 ^ (-(r.magnitude - 17)).toNat
  generalize (r.magnitude - 17).toNat = k at hle ⊢
  generalize (-(r.magnitude - 17)).toNat = l at hle ⊢
  have hup : (0 : ℚ) < 10 ^ l := by positivity
  have hscaled : (10 : ℚ) ^ 16 * (r.den * 10 ^ k) ≤ r.value * 10 ^ l := by
    rw [← div_le_iff₀ hup]
    refine le_of_eq_of_le ?_ hle
    norm_cast
    push_cast
    ring
  exact_mod_cast hscaled

/-- On the finest grid there is a decimal in the interval. -/
theorem isSome_nearest?_inUnits {r : RoundingInterval} (h : r.Proper) :
    ((r.inUnits (r.magnitude - 17)).nearest?).isSome = true := by
  have hvalue : 0 < r.value := Nat.zero_lt_of_lt h.low_lt
  have hunit := unit_le h.den_pos hvalue
  have hwide := h.wide
  generalize r.magnitude - 17 = e at hunit ⊢
  have hup : 0 < Nat.pow 10 (-e).toNat := Nat.pow_pos (by norm_num)
  refine isSome_nearest? (Nat.mul_pos h.den_pos (Nat.pow_pos (by norm_num)))
    (Nat.mul_lt_mul_of_pos_right h.low_lt hup) (Nat.mul_lt_mul_of_pos_right h.lt_high hup) ?_
  have hscaled := Nat.mul_lt_mul_of_pos_right hwide hup
  rw [Nat.add_mul, Nat.mul_assoc, Nat.mul_assoc] at hscaled
  have hlow : (r.inUnits e).low = r.low * Nat.pow 10 (-e).toNat := rfl
  have hval : (r.inUnits e).value = r.value * Nat.pow 10 (-e).toNat := rfl
  have hhigh : (r.inUnits e).high = r.high * Nat.pow 10 (-e).toNat := rfl
  omega

theorem mem_shortest {r : RoundingInterval} (h : r.Proper) : r.Mem r.shortest.value := by
  obtain ⟨c, hc⟩ := Option.isSome_iff_exists.1 (isSome_nearest?_inUnits h)
  unfold shortest
  dsimp only
  generalize hfound : ((List.range 17).map fun n : ℕ => r.magnitude - (n + 1)).findSome?
    (fun e => (r.inUnits e).nearest?.map (Decimal.mk · e)) = found
  cases found with
  | none =>
    -- the search does not end without a decimal, as the last grid has one
    rw [List.findSome?_eq_none_iff] at hfound
    have hnone := hfound (r.magnitude - 17) (List.mem_map.2 ⟨16, by simp, by norm_num⟩)
    rw [hc] at hnone
    cases hnone
  | some d =>
    obtain ⟨e, _, hd⟩ := List.exists_of_findSome?_eq_some hfound
    obtain ⟨c, hc, rfl⟩ := Option.map_eq_some_iff.1 hd
    exact mem_inUnits.1 (contains_iff.1 (contains_of_nearest? hc))

end RoundingInterval

/-! ### Binary numbers -/

namespace Binary64

/-- The absolute value of a finite number. -/
def magnitude (x : Binary64) : ℚ := x.significand * 2 ^ x.scale

/-- The value of a finite number. -/
def value (x : Binary64) : ℚ := if x.negative then -x.magnitude else x.magnitude

/-- The number without its sign. -/
def unsigned (x : Binary64) : Binary64 := { x with negative := false }

/-- The exponent of the last significand bit in the rounding of a number that is not negative. It is
the least one for all that is below the least normal number. -/
def roundingScale (q : ℚ) : ℤ := if q < 2 ^ (-1022 : ℤ) then -1074 else Int.log 2 q - 52

/-- The nearest binary number to a number that is not negative, of two equally near ones the one
with the even significand. What is too large becomes infinite. A significand that is rounded up to
the next power of two goes over into the exponent. -/
def nearest (q : ℚ) : Binary64 :=
  let significand := roundEven (q / 2 ^ roundingScale q)
  ofBits (min ((roundingScale q + 1074).toNat * 2 ^ 52 + significand) (2047 * 2 ^ 52))

theorem roundingScale_eq {q : ℚ} {s : ℤ} (hs : -1074 ≤ s) (hlo : s = -1074 ∨ 2 ^ (52 + s) ≤ q)
    (hhi : q < 2 ^ (53 + s)) : roundingScale q = s := by
  unfold roundingScale
  split
  · next hsmall =>
    rcases hlo with rfl | hlo
    · rfl
    · have hlt := (zpow_lt_zpow_iff_right₀ (by norm_num)).1 (lt_of_le_of_lt hlo hsmall)
      omega
  · next hlarge =>
    rw [not_lt] at hlarge
    have hpos : 0 < q := lt_of_lt_of_le (zpow_pos (by norm_num) _) hlarge
    have hle : (2 : ℚ) ^ (52 + s) ≤ q := by
      rcases hlo with rfl | hlo
      · exact hlarge
      · exact hlo
    have h₁ : 52 + s ≤ Int.log 2 q := (Int.zpow_le_iff_le_log (by norm_num) hpos).1 (by exact_mod_cast hle)
    have h₂ : Int.log 2 q < 53 + s := (Int.lt_zpow_iff_log_lt (by norm_num) hpos).1 (by exact_mod_cast hhi)
    omega

theorem ofBits_eq (x : Binary64) :
    ofBits (x.exponent.val * 2 ^ 52 + x.fraction.val) = x.unsigned := by
  have hexponent := x.exponent.isLt
  have hfraction : x.fraction.val < 2 ^ 52 := x.fraction.isLt
  have hsign : ((x.exponent.val * 2 ^ 52 + x.fraction.val) >>> 63 % 2 == 1) = false := by
    rw [Nat.shiftRight_eq_div_pow, Nat.div_eq_of_lt (by omega)]
    rfl
  have hhigh : (x.exponent.val * 2 ^ 52 + x.fraction.val) >>> 52 = x.exponent.val := by
    rw [Nat.shiftRight_eq_div_pow]
    omega
  rw [ofBits, hsign, hhigh, ofFields, unsigned]
  have hlow : (x.exponent.val * 2 ^ 52 + x.fraction.val) % 1 <<< 52 = x.fraction.val := by
    show (x.exponent.val * 2 ^ 52 + x.fraction.val) % 2 ^ 52 = _
    omega
  simp only [hlow, Nat.mod_eq_of_lt hexponent]

section

variable {x : Binary64} {q : ℚ}

/-- The interval is measured in quarters of the last bit. -/
theorem unit_roundingInterval (x : Binary64) :
    ((1 <<< (x.scale - 2).toNat : ℕ) : ℚ) = 2 ^ x.scale / 4 * (1 <<< (2 - x.scale).toNat : ℕ) := by
  have hpow := pow_toNat_div 2 (x.scale - 2)
  have hden : (2 : ℚ) ^ (2 - x.scale).toNat ≠ 0 := by positivity
  rw [neg_sub, zpow_sub₀ (by norm_num), div_eq_iff hden] at hpow
  rw [Nat.one_shiftLeft, Nat.one_shiftLeft]
  push_cast
  rw [hpow]
  norm_num

/-- How far the rounding interval reaches below its number, in units of the last bit. -/
def reach (x : Binary64) : ℚ := if x.fraction.val = 0 ∧ 1 < x.exponent.val then 1 / 4 else 1 / 2

/-- What one unit of the last bit is in an interval. -/
def unit (x : Binary64) : ℚ := 2 ^ x.scale * x.roundingInterval.den

theorem den_pos (x : Binary64) : 0 < x.roundingInterval.den := by
  show 0 < 1 <<< (2 - x.scale).toNat
  rw [Nat.one_shiftLeft]
  positivity

theorem unit_pos (x : Binary64) : 0 < x.unit :=
  mul_pos (zpow_pos (by norm_num) _) (by exact_mod_cast x.den_pos)

theorem low_roundingInterval (hpos : 0 < x.significand) :
    (x.roundingInterval.low : ℚ) = (x.significand - x.reach) * x.unit := by
  show (((4 * x.significand - if x.fraction.val = 0 ∧ 1 < x.exponent.val then 1 else 2) *
    1 <<< (x.scale - 2).toNat : ℕ) : ℚ) = (_ - reach x) * (_ * (1 <<< (2 - x.scale).toNat : ℕ))
  rw [Nat.cast_mul, unit_roundingInterval, Nat.cast_sub (by split <;> omega), reach]
  split <;> push_cast <;> ring

theorem value_roundingInterval (x : Binary64) :
    (x.roundingInterval.value : ℚ) = x.significand * x.unit := by
  show ((4 * x.significand * 1 <<< (x.scale - 2).toNat : ℕ) : ℚ) =
    _ * (_ * (1 <<< (2 - x.scale).toNat : ℕ))
  rw [Nat.cast_mul, unit_roundingInterval]
  push_cast
  ring

theorem high_roundingInterval (x : Binary64) :
    (x.roundingInterval.high : ℚ) = (x.significand + 1 / 2) * x.unit := by
  show (((4 * x.significand + 2) * 1 <<< (x.scale - 2).toNat : ℕ) : ℚ) =
    _ * (_ * (1 <<< (2 - x.scale).toNat : ℕ))
  rw [Nat.cast_mul, unit_roundingInterval]
  push_cast
  ring

theorem bounds_of_mem (hpos : 0 < x.significand) (h : x.roundingInterval.Mem q) :
    x.significand - x.reach ≤ q / 2 ^ x.scale ∧ q / 2 ^ x.scale ≤ x.significand + 1 / 2 ∧
      (x.significand % 2 = 0 ∨
        x.significand - x.reach < q / 2 ^ x.scale ∧ q / 2 ^ x.scale < x.significand + 1 / 2) := by
  have hunit := x.unit_pos
  have hq : q * x.roundingInterval.den = q / 2 ^ x.scale * x.unit := by
    have hne : (2 : ℚ) ^ x.scale ≠ 0 := zpow_ne_zero _ (by norm_num)
    rw [unit]
    field_simp
  have hclosed : x.roundingInterval.closed = (x.significand % 2 == 0) := rfl
  rw [RoundingInterval.Mem, low_roundingInterval hpos, high_roundingInterval, hq, hclosed] at h
  simp only [mul_le_mul_iff_left₀ hunit, mul_lt_mul_iff_left₀ hunit, beq_iff_eq] at h
  split at h
  · next heven => exact ⟨h.1, h.2, .inl heven⟩
  · exact ⟨h.1.le, h.2.le, .inr h⟩

theorem significand_lt (x : Binary64) : x.significand < 2 ^ 53 := by
  have hfraction : x.fraction.val < 2 ^ 52 := x.fraction.isLt
  unfold significand
  split
  · omega
  · show 2 ^ 52 + x.fraction.val < _
    omega

theorem nearest_eq {s : ℤ} {n : ℕ} (hfinite : x.isFinite) (hscale : roundingScale q = s)
    (hround : roundEven (q / 2 ^ s) = n)
    (hbits : (s + 1074).toNat * 2 ^ 52 + n = x.exponent.val * 2 ^ 52 + x.fraction.val) :
    nearest q = x.unsigned := by
  have hexponent : x.exponent.val < 2047 := by
    have hne : x.exponent.val ≠ 2047 := by simpa [isFinite] using hfinite
    have hlt := x.exponent.isLt
    omega
  have hfraction : x.fraction.val < 2 ^ 52 := x.fraction.isLt
  rw [nearest, hscale, hround, hbits, Nat.min_eq_left (by omega), ofBits_eq]

theorem scale_eq (h : 0 < x.exponent.val) : x.scale = x.exponent.val - 1075 := by
  unfold scale
  rw [Nat.max_eq_left h]

theorem scale_of_le_one (h : x.exponent.val ≤ 1) : x.scale = -1074 := by
  unfold scale
  rw [Nat.max_eq_right h]
  rfl

theorem significand_eq (h : 0 < x.exponent.val) : x.significand = 2 ^ 52 + x.fraction.val :=
  if_neg (by omega)

/-- The scale and the significand make the bits. -/
theorem bits_eq (x : Binary64) :
    (x.scale + 1074).toNat * 2 ^ 52 + x.significand = x.exponent.val * 2 ^ 52 + x.fraction.val := by
  -- the leading bit of a normal significand stands for the one that the exponent is above the scale
  rcases Nat.eq_zero_or_pos x.exponent.val with h | h
  · have hsig : x.significand = x.fraction.val := if_pos h
    rw [scale_of_le_one (by omega), hsig, h]
    rfl
  · rw [scale_eq h, significand_eq h]
    omega

theorem reach_pos (x : Binary64) : 0 < x.reach := by
  unfold reach
  split <;> norm_num

theorem reach_le (x : Binary64) : x.reach ≤ 1 / 2 := by
  unfold reach
  split <;> norm_num

/-- In units of the last bit, an exponent is that much smaller. -/
theorem two_zpow_add_scale (x : Binary64) (k : ℤ) :
    (2 : ℚ) ^ (k + x.scale) = 2 ^ k * 2 ^ x.scale :=
  zpow_add₀ (by norm_num) k x.scale

theorem lt_of_mem (hpos : 0 < x.significand) (h : x.roundingInterval.Mem q) :
    q < 2 ^ (53 + x.scale) := by
  have hm : (x.significand : ℚ) + 1 ≤ 2 ^ 53 := by exact_mod_cast x.significand_lt
  obtain ⟨_, hhi, _⟩ := bounds_of_mem hpos h
  rw [two_zpow_add_scale, ← div_lt_iff₀ (zpow_pos (by norm_num) _)]
  norm_num
  linarith

/-- On the grid of the number itself the significand is found again. -/
theorem nearest_of_scale (hfinite : x.isFinite) (hpos : 0 < x.significand)
    (h : x.roundingInterval.Mem q) (hscale : roundingScale q = x.scale) :
    nearest q = x.unsigned := by
  obtain ⟨hlo, hhi, htie⟩ := bounds_of_mem hpos h
  have hreach := x.reach_le
  have hm : (1 : ℚ) ≤ x.significand := by exact_mod_cast hpos
  refine nearest_eq hfinite hscale (roundEven_eq (by linarith) (by linarith) hhi ?_) x.bits_eq
  rcases htie with heven | ⟨hlo', hhi'⟩
  · exact .inl heven
  · exact .inr ⟨by linarith, hhi'⟩

/-- What rounds up to a power of two is nearer to it than a quarter of the last bit. -/
theorem bounds_of_below (hexp : 1 < x.exponent.val) (h : x.roundingInterval.Mem q)
    (hlt : q / 2 ^ x.scale < 2 ^ 52) :
    x.fraction.val = 0 ∧ (2 : ℚ) ^ 52 - 1 / 4 ≤ q / 2 ^ x.scale := by
  have hsig := significand_eq (x := x) (by omega)
  obtain ⟨hlo, _, _⟩ := bounds_of_mem (by omega) h
  norm_num at hlt
  have hfraction : x.fraction.val = 0 := by
    -- any other significand is farther away than half a bit
    by_contra hne
    have hge : (4503599627370497 : ℚ) ≤ x.significand := by
      have hge' : 4503599627370497 ≤ x.significand := by omega
      exact_mod_cast hge'
    have hreach := x.reach_le
    linarith
  have hreach : x.reach = 1 / 4 := if_pos ⟨hfraction, hexp⟩
  rw [hreach, hsig, hfraction] at hlo
  norm_num at hlo
  refine ⟨hfraction, ?_⟩
  norm_num
  linarith

/-- The grid below a power of two is twice as fine. -/
theorem roundingScale_below (hexp : 1 < x.exponent.val) (hlo : 2 ^ 51 ≤ q / 2 ^ x.scale)
    (hlt : q / 2 ^ x.scale < 2 ^ 52) : roundingScale q = x.scale - 1 := by
  have hu : (0 : ℚ) < 2 ^ x.scale := zpow_pos (by norm_num) _
  have hscale := scale_eq (x := x) (by omega)
  refine roundingScale_eq (by omega) (.inr ?_) ?_
  · rw [show 52 + (x.scale - 1) = 51 + x.scale by ring, two_zpow_add_scale, ← le_div_iff₀ hu]
    exact_mod_cast hlo
  · rw [show 53 + (x.scale - 1) = 52 + x.scale by ring, two_zpow_add_scale, ← div_lt_iff₀ hu]
    exact_mod_cast hlt

/-- Just below a power of two, twice the significand is found on a grid twice as fine. -/
theorem nearest_of_below (hfinite : x.isFinite) (hexp : 1 < x.exponent.val)
    (h : x.roundingInterval.Mem q) (hlt : q / 2 ^ x.scale < 2 ^ 52) : nearest q = x.unsigned := by
  obtain ⟨hfraction, hlo⟩ := bounds_of_below hexp h hlt
  norm_num at hlo hlt
  have hscale : roundingScale q = x.scale - 1 :=
    roundingScale_below hexp (by norm_num; linarith) (by norm_num; exact hlt)
  have hdouble : q / 2 ^ (x.scale - 1) = 2 * (q / 2 ^ x.scale) := by
    rw [zpow_sub₀ (by norm_num), zpow_one]
    field_simp
  have hround : roundEven (q / 2 ^ (x.scale - 1)) = 2 ^ 53 := by
    rw [hdouble]
    refine roundEven_eq (by linarith) ?_ ?_ (.inl (by norm_num)) <;> norm_num <;> linarith
  -- the significand that is rounded up carries into the exponent
  refine nearest_eq hfinite hscale hround ?_
  rw [scale_eq (by omega), hfraction]
  omega

/-- Every number in the rounding interval rounds to the number. -/
theorem nearest_of_mem (hfinite : x.isFinite) (hpos : 0 < x.significand)
    (h : x.roundingInterval.Mem q) : nearest q = x.unsigned := by
  have hupper := lt_of_mem hpos h
  rcases Nat.lt_or_ge 1 x.exponent.val with hexp | hexp
  · rcases lt_or_ge (q / 2 ^ x.scale) (2 ^ 52) with hlt | hge
    · exact nearest_of_below hfinite hexp h hlt
    · have hscale := scale_eq (x := x) (by omega)
      rw [le_div_iff₀ (zpow_pos (by norm_num) _)] at hge
      have hlower : 2 ^ (52 + x.scale) ≤ q := by
        rw [two_zpow_add_scale]
        exact_mod_cast hge
      exact nearest_of_scale hfinite hpos h (roundingScale_eq (by omega) (.inr hlower) hupper)
  · -- the grid does not get finer near zero
    have hscale := scale_of_le_one hexp
    exact nearest_of_scale hfinite hpos h (roundingScale_eq (by omega) (.inl hscale) hupper)

/-- Seventeen digits tell the ends of the interval apart. Where it reaches less far down the
significand is small. -/
theorem significand_lt_reach (x : Binary64) :
    (x.significand : ℚ) < 10 ^ 16 * (1 / 2 + x.reach) := by
  unfold reach
  split
  · next h =>
    rw [significand_eq (by omega), h.1]
    norm_num
  · have hlt : (x.significand : ℚ) < 2 ^ 53 := by exact_mod_cast x.significand_lt
    refine hlt.trans ?_
    norm_num

theorem proper_roundingInterval (hpos : 0 < x.significand) : x.roundingInterval.Proper where
  den_pos := x.den_pos
  low_lt := by
    rw [← Nat.cast_lt (α := ℚ), low_roundingInterval hpos, value_roundingInterval]
    have hreach := x.reach_pos
    exact mul_lt_mul_of_pos_right (by linarith) x.unit_pos
  lt_high := by
    rw [← Nat.cast_lt (α := ℚ), value_roundingInterval, high_roundingInterval]
    exact mul_lt_mul_of_pos_right (by linarith) x.unit_pos
  wide := by
    rw [← Nat.cast_lt (α := ℚ)]
    push_cast
    rw [low_roundingInterval hpos, value_roundingInterval, high_roundingInterval]
    have hwide := mul_lt_mul_of_pos_right x.significand_lt_reach x.unit_pos
    linarith

theorem nearest_zero : nearest 0 = zero := by
  have hscale : roundingScale 0 = -1074 := if_pos (zpow_pos (by norm_num) _)
  rw [nearest, hscale, zero_div]
  have hround : roundEven 0 = 0 := by
    unfold roundEven
    norm_num
  rw [hround]
  rfl

/-- A number is the nearest one to the decimal that it is written as. -/
theorem nearest_shortest (hfinite : x.isFinite) (hpos : 0 < x.significand) :
    nearest x.roundingInterval.shortest.value = x.unsigned :=
  nearest_of_mem hfinite hpos (RoundingInterval.mem_shortest (proper_roundingInterval hpos))

end

end Binary64

end TensorIR
