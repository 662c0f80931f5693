import TensorIR.Literal
import TensorIR.Proofs.Rounding

/-! # Numerals

How numbers are read (`readNumeral`), and that the texts of numbers read back
(`Literal.readNumeral_text`): a binary number is nearest to its shortest decimal.

**Key idea**: whatever the notation, the digits of a decimal are written without the zeros at their
end, and where the point stands makes up for those. So the number that is read is the number of the
digits, times a power of ten that depends on the position of the point alone (`Decimal.value_eq`).
-/

namespace TensorIR

/-! ### Reading -/

/-- The natural number that decimal digits stand for. -/
def digitsValue (ds : List Char) : ℕ := Nat.ofDigitChars 10 ds 0

/-- One digit or more, and nothing else. -/
def IsDigits (ds : List Char) : Prop := ds ≠ [] ∧ ∀ c ∈ ds, c.isDigit = true

instance (ds : List Char) : Decidable (IsDigits ds) :=
  decidable_of_iff (ds ≠ [] ∧ ds.all Char.isDigit = true) (and_congr_right fun _ => List.all_eq_true)

/-- Reads an integer. -/
def readInt : List Char → Option ℤ
  | '-' :: ds => if IsDigits ds then some (-digitsValue ds) else none
  | ds => if IsDigits ds then some (digitsValue ds) else none

/-- Reads what comes after the digits: nothing, or `e` and an integer. -/
def readExponent : List Char → Option ℤ
  | [] => some 0
  | 'e' :: cs => readInt cs
  | _ => none

/-- Reads a number without a sign. Digits by themselves are an integer; with a point among them or
an exponent behind them they are a binary number, the one that is nearest. -/
def readNumeral (cs : List Char) : Option Literal :=
  let whole := cs.takeWhile Char.isDigit
  if whole = [] then none
  else
    match cs.dropWhile Char.isDigit with
    | [] => some (.int (digitsValue whole))
    | '.' :: rest =>
      let part := rest.takeWhile Char.isDigit
      if part = [] then none
      else (readExponent (rest.dropWhile Char.isDigit)).map fun e : ℤ =>
        .float (.nearest ((digitsValue (whole ++ part) : ℚ) * 10 ^ (e - part.length)))
    | rest => (readExponent rest).map fun e : ℤ =>
      .float (.nearest ((digitsValue whole : ℚ) * 10 ^ e))

/-- Digits end where something else begins. -/
theorem IsDigits.span {ds : List Char} (h : IsDigits ds) (rest : List Char)
    (hrest : ∀ c ∈ rest.head?, c.isDigit = false) :
    (ds ++ rest).takeWhile Char.isDigit = ds ∧ (ds ++ rest).dropWhile Char.isDigit = rest := by
  have hend : rest.takeWhile Char.isDigit = [] ∧ rest.dropWhile Char.isDigit = rest := by
    cases rest with
    | nil => exact ⟨rfl, rfl⟩
    | cons c cs =>
      have hc : c.isDigit = false := hrest c rfl
      rw [List.takeWhile_cons, List.dropWhile_cons, hc]
      exact ⟨rfl, rfl⟩
  rw [List.takeWhile_append_of_pos h.2, List.dropWhile_append_of_pos h.2, hend.1, hend.2,
    List.append_nil]
  exact ⟨rfl, rfl⟩

theorem readNumeral_digits {ds : List Char} (h : IsDigits ds) :
    readNumeral ds = some (.int (digitsValue ds)) := by
  have hspan := h.span [] (by simp)
  rw [List.append_nil] at hspan
  unfold readNumeral
  rw [hspan.1, hspan.2]
  exact if_neg h.1

/-- A number with a point. -/
theorem readNumeral_point {whole part rest : List Char} {e : ℤ} (hwhole : IsDigits whole)
    (hpart : IsDigits part) (hrest : ∀ c ∈ rest.head?, c.isDigit = false)
    (he : readExponent rest = some e) :
    readNumeral (whole ++ '.' :: (part ++ rest)) =
      some (.float (.nearest ((digitsValue (whole ++ part) : ℚ) * 10 ^ (e - part.length)))) := by
  have hspan := hwhole.span ('.' :: (part ++ rest)) (by simp)
  have hspan' := hpart.span rest hrest
  unfold readNumeral
  rw [hspan.1, hspan.2]
  refine (if_neg hwhole.1).trans ?_
  show (if (part ++ rest).takeWhile Char.isDigit = [] then none else _) = _
  rw [hspan'.1, hspan'.2, he, if_neg hpart.1]
  rfl

/-- A number with an exponent and no point. -/
theorem readNumeral_exponent {whole rest : List Char} {e : ℤ} (hwhole : IsDigits whole)
    (he : readExponent ('e' :: rest) = some e) :
    readNumeral (whole ++ 'e' :: rest) =
      some (.float (.nearest ((digitsValue whole : ℚ) * 10 ^ e))) := by
  have hspan := hwhole.span ('e' :: rest) (by simp)
  unfold readNumeral
  rw [hspan.1, hspan.2]
  refine (if_neg hwhole.1).trans ?_
  show (readExponent ('e' :: rest)).map _ = _
  rw [he]
  rfl

theorem isDigits_toDigits (n : ℕ) : IsDigits (Nat.toDigits 10 n) :=
  ⟨Nat.toDigits_ne_nil, fun _ hc => Nat.isDigit_of_mem_toDigits (by norm_num) (by norm_num) hc⟩

@[simp] theorem digitsValue_toDigits (n : ℕ) : digitsValue (Nat.toDigits 10 n) = n :=
  Nat.ofDigitChars_ten_toDigits

/-- An integer is written with a sign if it is negative. -/
theorem toList_toString_int (i : ℤ) :
    (toString i).toList = if i < 0 then '-' :: Nat.toDigits 10 i.natAbs else Nat.toDigits 10 i.natAbs := by
  cases i with
  | ofNat n =>
    show n.repr.toList = _
    rw [Nat.toList_repr, if_neg (by simp)]
    rfl
  | negSucc n =>
    show ("-" ++ (n + 1).repr).toList = _
    rw [String.toList_append, Nat.toList_repr, if_pos (Int.negSucc_lt_zero n)]
    rfl

theorem readInt_digits {ds : List Char} (h : IsDigits ds) : readInt ds = some ↑(digitsValue ds) := by
  unfold readInt
  split
  · next ds =>
    have hminus : '-'.isDigit = true := h.2 '-' (by simp)
    cases hminus
  · exact if_pos h

theorem readInt_toString (i : ℤ) : readInt (toString i).toList = some i := by
  have hdigits := isDigits_toDigits i.natAbs
  rw [toList_toString_int]
  split
  · next hi =>
    show (if IsDigits (Nat.toDigits 10 i.natAbs) then _ else none) = _
    rw [if_pos hdigits, digitsValue_toDigits]
    congr 1
    omega
  · next hi =>
    rw [readInt_digits hdigits, digitsValue_toDigits]
    congr 1
    omega

/-! ### Decimals -/

/-- Zeros in front do not count. -/
theorem digitsValue_zeros_append (k : ℕ) (ds : List Char) :
    digitsValue (List.replicate k '0' ++ ds) = digitsValue ds := by
  rw [digitsValue, Nat.ofDigitChars_append, Nat.ofDigitChars_replicate_zero]
  rfl

/-- Each zero at the end counts for a factor of ten. -/
theorem digitsValue_append_zeros (ds : List Char) (k : ℕ) :
    digitsValue (ds ++ List.replicate k '0') = 10 ^ k * digitsValue ds := by
  rw [digitsValue, Nat.ofDigitChars_append, Nat.ofDigitChars_replicate_zero]
  rfl

theorem isDigits_append {ds es : List Char} (h : ds ++ es ≠ []) (hds : ∀ c ∈ ds, c.isDigit = true)
    (hes : ∀ c ∈ es, c.isDigit = true) : IsDigits (ds ++ es) := by
  refine ⟨h, fun c hc => ?_⟩
  rcases List.mem_append.1 hc with hc | hc
  · exact hds c hc
  · exact hes c hc

theorem isDigit_of_mem_zeros {k : ℕ} (c : Char) (h : c ∈ List.replicate k '0') :
    c.isDigit = true := by
  rw [List.eq_of_mem_replicate h]
  rfl

theorem isDigits_zero : IsDigits ['0'] :=
  ⟨List.cons_ne_nil '0' [], fun c hc => isDigit_of_mem_zeros (k := 1) c hc⟩

namespace Decimal

/-- The digits are those of the coefficient, without the zeros at the end. -/
theorem exists_toDigits_eq (d : Decimal) :
    ∃ k, Nat.toDigits 10 d.coefficient = d.digits ++ List.replicate k '0' := by
  have hsplit := List.takeWhile_append_dropWhile (p := (· == '0'))
    (l := (Nat.toDigits 10 d.coefficient).reverse)
  have hzeros : ∀ c ∈ (Nat.toDigits 10 d.coefficient).reverse.takeWhile (· == '0'), c = '0' :=
    fun c hc => by simpa using List.all_eq_true.1 List.all_takeWhile c hc
  rw [List.eq_replicate_of_mem hzeros] at hsplit
  have hback := congrArg List.reverse hsplit
  rw [List.reverse_append, List.reverse_replicate, List.reverse_reverse] at hback
  unfold digits
  split
  · next hnil =>
    -- nothing but zeros, so the number is zero
    rw [hnil, List.nil_append] at hback
    have hvalue := digitsValue_toDigits d.coefficient
    rw [← hback, digitsValue, Nat.ofDigitChars_replicate_zero, Nat.mul_zero] at hvalue
    rw [← hvalue]
    exact ⟨0, rfl⟩
  · exact ⟨_, hback.symm⟩

theorem isDigits_digits (d : Decimal) : IsDigits d.digits := by
  obtain ⟨k, hk⟩ := d.exists_toDigits_eq
  refine ⟨?_, fun c hc => ?_⟩
  · unfold digits
    split
    · simp
    · next hne => exact hne
  · have hmem : c ∈ Nat.toDigits 10 d.coefficient := by
      rw [hk]
      exact List.mem_append_left _ hc
    exact (isDigits_toDigits d.coefficient).2 c hmem

/-- The number is that of its digits, with the point in its place. -/
theorem value_eq (d : Decimal) :
    d.value = digitsValue d.digits * 10 ^ (d.point - d.digits.length) := by
  obtain ⟨k, hk⟩ := d.exists_toDigits_eq
  -- the coefficient has `k` zeros more at its end than the digits, and the point counts them
  have hvalue := digitsValue_toDigits d.coefficient
  rw [hk, digitsValue_append_zeros] at hvalue
  have hpoint : d.point - d.digits.length = k + d.exponent := by
    unfold point
    rw [hk, List.length_append, List.length_replicate]
    push_cast
    ring
  rw [hpoint, zpow_add₀ (by norm_num), zpow_natCast, value, ← hvalue]
  push_cast
  ring

/-- Below one: a zero, the point, and zeros in front of the digits. -/
theorem readNumeral_fraction {d : Decimal} (h : d.point ≤ 0) :
    readNumeral ('0' :: '.' :: (List.replicate (-d.point).toNat '0' ++ d.digits)) =
      some (.float (.nearest d.value)) := by
  have hdigits := d.isDigits_digits
  have hpart : IsDigits (List.replicate (-d.point).toNat '0' ++ d.digits) :=
    isDigits_append (by simp [hdigits.1]) isDigit_of_mem_zeros hdigits.2
  have hend : readExponent [] = some 0 := rfl
  have hread := readNumeral_point isDigits_zero hpart (by simp) hend
  -- the zeros on both sides of the point are in front of the digits
  have hzeros : ['0'] ++ (List.replicate (-d.point).toNat '0' ++ d.digits) =
    List.replicate ((-d.point).toNat + 1) '0' ++ d.digits := rfl
  rw [List.append_nil, hzeros, digitsValue_zeros_append] at hread
  refine hread.trans ?_
  rw [value_eq, List.length_append, List.length_replicate]
  congr 5
  push_cast
  omega

/-- Zeros behind the digits, the point, and one more zero. -/
theorem readNumeral_integral {d : Decimal} (h : d.digits.length ≤ d.point) :
    readNumeral (d.digits ++ List.replicate (d.point - d.digits.length).toNat '0' ++ ['.', '0']) =
      some (.float (.nearest d.value)) := by
  have hdigits := d.isDigits_digits
  have hwhole : IsDigits (d.digits ++ List.replicate (d.point - d.digits.length).toNat '0') :=
    isDigits_append (by simp [hdigits.1]) hdigits.2 isDigit_of_mem_zeros
  have hend : readExponent [] = some 0 := rfl
  have hread := readNumeral_point hwhole isDigits_zero (by simp) hend
  -- the zero behind the point is one more behind the digits, and the point takes it back
  have hzeros : d.digits ++ List.replicate (d.point - d.digits.length).toNat '0' ++ ['0'] =
      d.digits ++ List.replicate ((d.point - d.digits.length).toNat + 1) '0' := by
    rw [List.append_assoc, ← List.replicate_succ']
  rw [hzeros, digitsValue_append_zeros] at hread
  refine hread.trans ?_
  rw [value_eq]
  have hexp : d.point - d.digits.length = ((d.point - d.digits.length).toNat + 1 : ℕ) + -1 := by
    omega
  have hone : (0 : ℤ) - ['0'].length = -1 := rfl
  generalize (d.point - d.digits.length).toNat = k at hexp ⊢
  rw [hexp, hone, zpow_add₀ (by norm_num), zpow_natCast]
  push_cast
  congr 3
  ring

/-- The point among the digits. -/
theorem readNumeral_mixed {d : Decimal} (hpos : 0 < d.point) (h : d.point < d.digits.length) :
    readNumeral (d.digits.take d.point.toNat ++ '.' :: d.digits.drop d.point.toNat) =
      some (.float (.nearest d.value)) := by
  have hdigits := d.isDigits_digits
  have hwhole : IsDigits (d.digits.take d.point.toNat) := by
    refine ⟨?_, fun c hc => hdigits.2 c (List.mem_of_mem_take hc)⟩
    rw [ne_eq, List.take_eq_nil_iff, not_or]
    exact ⟨by omega, hdigits.1⟩
  have hpart : IsDigits (d.digits.drop d.point.toNat) := by
    refine ⟨?_, fun c hc => hdigits.2 c (List.mem_of_mem_drop hc)⟩
    rw [ne_eq, List.drop_eq_nil_iff]
    omega
  have hend : readExponent [] = some 0 := rfl
  have hread := readNumeral_point hwhole hpart (by simp) hend
  rw [List.append_nil, List.take_append_drop] at hread
  refine hread.trans ?_
  rw [value_eq, List.length_drop]
  congr 5
  omega

theorem readNumeral_positional (d : Decimal) :
    readNumeral d.positional = some (.float (.nearest d.value)) := by
  unfold positional
  dsimp only
  split
  · next hpoint => exact readNumeral_fraction hpoint
  · next hpoint =>
    -- the point is among the digits, with no zeros, or behind them, with nothing left to follow it
    rcases lt_or_ge d.point d.digits.length with hlt | hge
    · have hzeros : (d.point - d.digits.length).toNat = 0 := by omega
      have hne : (d.digits.drop d.point.toNat).isEmpty = false := by
        rw [List.isEmpty_eq_false_iff, ne_eq, List.drop_eq_nil_iff]
        omega
      rw [hzeros, List.replicate_zero, List.append_nil, hne]
      exact readNumeral_mixed (by omega) hlt
    · have hle : d.digits.length ≤ d.point.toNat := by omega
      rw [List.take_of_length_le hle, List.drop_of_length_le hle]
      exact readNumeral_integral hge

/-- One digit, perhaps the point and others, and what the point is away from there. -/
theorem readNumeral_scientific (d : Decimal) :
    readNumeral d.scientific = some (.float (.nearest d.value)) := by
  have hdigits := d.isDigits_digits
  have hexp : readExponent ('e' :: (toString (d.point - 1)).toList) = some (d.point - 1) :=
    readInt_toString _
  rw [value_eq]
  unfold scientific
  dsimp only
  -- no point behind a digit that is the only one
  rcases hds : d.digits with _ | ⟨c, _ | ⟨c', rest⟩⟩
  · exact absurd hds hdigits.1
  · rw [hds] at hdigits
    exact readNumeral_exponent hdigits hexp
  · rw [hds] at hdigits
    have hwhole : IsDigits [c] := ⟨by simp, fun x hx => hdigits.2 x (by simp_all)⟩
    have hpart : IsDigits (c' :: rest) := ⟨by simp, fun x hx => hdigits.2 x (by simp_all)⟩
    have hread := readNumeral_point hwhole hpart (by simp) hexp
    refine hread.trans ?_
    congr 5
    simp
    omega

theorem readNumeral_text (d : Decimal) :
    readNumeral d.text.toList = some (.float (.nearest d.value)) := by
  unfold text
  rw [String.toList_ofList]
  split
  · exact d.readNumeral_positional
  · exact d.readNumeral_scientific

end Decimal

/-! ### Literals -/

namespace Binary64

variable {x : Binary64}

theorem significand_pos (hzero : x.isZero = false) : 0 < x.significand := by
  unfold significand
  split
  · next hexp =>
    rw [isZero, hexp] at hzero
    have hne : x.fraction.val ≠ 0 := by simpa using hzero
    omega
  · show 0 < 2 ^ 52 + x.fraction.val
    omega

theorem text_of_finite (hfinite : x.isFinite) :
    x.text = (if x.negative then "-" else "") ++
      if x.isZero then "0.0" else x.roundingInterval.shortest.text := by
  have hne : x.exponent.val ≠ 2047 := by simpa [isFinite] using hfinite
  have hnan : x.isNaN = false := by simp [isNaN, hne]
  have hinf : x.isInfinite = false := by simp [isInfinite, hne]
  unfold text
  rw [hnan, hinf]
  rfl

/-- Without its sign, a finite number reads back. -/
theorem readNumeral_text (hfinite : x.isFinite) :
    readNumeral x.unsigned.text.toList = some (.float x.unsigned) := by
  have hfinite' : x.unsigned.isFinite := hfinite
  have hzero : x.unsigned.isZero = x.isZero := rfl
  have hinterval : x.unsigned.roundingInterval = x.roundingInterval := rfl
  rw [text_of_finite hfinite', hzero, hinterval]
  show readNumeral ("" ++ _ : String).toList = _
  rw [String.empty_append]
  cases hz : x.isZero with
  | true =>
    have hend : readExponent [] = some 0 := rfl
    have hread := readNumeral_point isDigits_zero isDigits_zero (by simp) hend
    have hvalue : digitsValue (['0'] ++ ['0']) = 0 := by decide
    rw [hvalue, Nat.cast_zero, zero_mul, nearest_zero] at hread
    have hfields : x.exponent.val = 0 ∧ x.fraction.val = 0 := by simpa [isZero] using hz
    have hunsigned : x.unsigned = zero := by
      unfold unsigned zero
      congr 1
      · exact Fin.ext hfields.1
      · exact Fin.ext hfields.2
    rw [hunsigned, if_pos rfl]
    exact hread
  | false =>
    rw [if_neg Bool.false_ne_true, Decimal.readNumeral_text,
      nearest_shortest hfinite (significand_pos hz)]

/-- The sign is written in front. -/
theorem text_eq_sign (hfinite : x.isFinite) :
    x.text = (if x.negative then "-" else "") ++ x.unsigned.text := by
  have hfinite' : x.unsigned.isFinite := hfinite
  rw [text_of_finite hfinite, text_of_finite hfinite']
  show _ = _ ++ ("" ++ _)
  rw [String.empty_append]
  rfl

end Binary64

namespace Literal

/-- An integer or a finite binary number. -/
def IsNumber : Literal → Prop
  | .int _ => True
  | .float x => x.isFinite
  | _ => False

/-- The value of a number. -/
def value : Literal → ℚ
  | .int n => n
  | .float x => x.value
  | _ => 0

/-- Whether a number is written with a sign. -/
def isSigned : Literal → Bool
  | .int n => n < 0
  | .float x => x.negative
  | _ => false

/-- A number without its sign. -/
def unsigned : Literal → Literal
  | .int n => .int n.natAbs
  | .float x => .float x.unsigned
  | l => l

variable {l : Literal}

theorem value_eq (h : l.IsNumber) :
    l.value = if l.isSigned then -l.unsigned.value else l.unsigned.value := by
  cases l with
  | int n =>
    show (n : ℚ) = if decide (n < 0) then -((n.natAbs : ℤ) : ℚ) else ((n.natAbs : ℤ) : ℚ)
    split
    · next hn =>
      rw [decide_eq_true_eq] at hn
      rw [← Int.cast_neg]
      congr 1
      omega
    · next hn =>
      rw [decide_eq_true_eq] at hn
      congr 1
      omega
  | float x => rfl
  | bool b => cases h
  | dense xs => cases h

theorem isNumber_unsigned (h : l.IsNumber) : l.unsigned.IsNumber := by
  cases l with
  | int n => trivial
  | float x => exact h
  | bool b => cases h
  | dense xs => cases h

theorem text_eq_sign (h : l.IsNumber) :
    l.text = (if l.isSigned then "-" else "") ++ l.unsigned.text := by
  cases l with
  | int n =>
    show toString n = (if decide (n < 0) then "-" else "") ++ toString (n.natAbs : ℤ)
    rw [← String.toList_inj, String.toList_append, toList_toString_int, toList_toString_int,
      if_neg (by omega : ¬(n.natAbs : ℤ) < 0), Int.natAbs_natCast]
    by_cases hn : n < 0 <;> simp [hn]
  | float x => exact x.text_eq_sign h
  | bool b => cases h
  | dense xs => cases h

/-- Without its sign, a number reads back. -/
theorem readNumeral_text (h : l.IsNumber) :
    readNumeral l.unsigned.text.toList = some l.unsigned := by
  cases l with
  | int n =>
    show readNumeral (toString (n.natAbs : ℤ)).toList = some (.int n.natAbs)
    have hread := readNumeral_digits (isDigits_toDigits n.natAbs)
    rw [digitsValue_toDigits] at hread
    rw [toList_toString_int, if_neg (by omega)]
    exact hread
  | float x => exact x.readNumeral_text h
  | bool b => cases h
  | dense xs => cases h

end Literal

end TensorIR
