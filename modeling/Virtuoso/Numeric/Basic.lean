import Virtuoso.Lib.Radix
import Virtuoso.Lib.Scan
import Mathlib.Tactic.Positivity

/-!
# Decimal numbers (`numeric_s`)

A number of the NUMERIC package is a header (digits before and after the
decimal point, a NaN/Inf mark, a sign) and a store of digits, one to a byte,
most significant first.  The store is longer than the digits in use: what lies
behind them is whatever the memory held before, and some operations let it
through, so the whole store is part of the model.

This file has the record, the helpers that every operation uses
(`NUM_SET_0`, `numeric_copy`, `_num_normalize`, `_numeric_normalize`) and the
canonical form.  An `assert` of the source that fails is `none`.
-/

namespace Virtuoso

variable {n : Numeric}

/-- The mark `n_invalid`: 0, `NDF_NAN` or `NDF_INF`. -/
inductive Invalid
  | valid
  | nan
  | inf
deriving DecidableEq, Repr

/-- `struct numeric_s`. -/
structure Numeric where
  /-- The number of digits before the decimal point. -/
  len : ℕ
  /-- The number of digits after the decimal point. -/
  scale : ℕ
  invalid : Invalid
  neg : Bool
  /-- The bytes from `n_value` on. -/
  value : ℕ → ℕ

namespace Numeric

open Lib.Radix

/-- `NUMERIC_STS_…`. -/
inductive Status
  | success
  | overflow
  | underflow
  | invalidNum
  | invalidStr
  | divideZero
  | marshalling
deriving DecidableEq, Repr

abbrev numericMaxPrecision : ℕ := 40
abbrev numericMaxScale : ℕ := 15
abbrev numericExtraScale : ℕ := 5
abbrev numericMaxPrecisionInt : ℕ := numericMaxPrecision + numericExtraScale
abbrev numericMaxScaleInt : ℕ := numericMaxScale + numericExtraScale
abbrev numericMaxDataBytes : ℕ := 2 * numericMaxPrecisionInt + 4
abbrev numericStackBytes : ℕ := 104

theorem numericMaxPrecisionInt_eq : numericMaxPrecisionInt = 45 := rfl
theorem numericMaxScaleInt_eq : numericMaxScaleInt = 20 := rfl
theorem numericMaxDataBytes_eq : numericMaxDataBytes = 94 := rfl

/-! ## Tests and assignments -/

abbrev IsZero (n : Numeric) : Prop := n.len + n.scale = 0
abbrev IsInvalid (n : Numeric) : Prop := n.invalid ≠ .valid
abbrev IsNan (n : Numeric) : Prop := n.invalid = .nan
abbrev IsInf (n : Numeric) : Prop := n.invalid = .inf
abbrev IsPlusInf (n : Numeric) : Prop := n.IsInf ∧ n.neg = false
abbrev IsMinusInf (n : Numeric) : Prop := n.IsInf ∧ n.neg = true

/-- `NUM_SET_0`: one 64-bit store clears the header and the first four digits. -/
def numSet0 (n : Numeric) : Numeric where
  len := 0
  scale := 0
  invalid := .valid
  neg := false
  value i := if i < 4 then 0 else n.value i

/-- `NUM_SET_0_REST`: five more 64-bit stores clear the digits 4 to 43. -/
def numSet0Rest (n : Numeric) : Numeric :=
  { n with value := fun i => if 4 ≤ i ∧ i < 44 then 0 else n.value i }

/-- `NUM_SET_1`. -/
def numSet1 (n : Numeric) : Numeric where
  len := 1
  scale := 0
  invalid := .valid
  neg := false
  value i := if i = 0 then 1 else if i < 4 then 0 else n.value i

/-- `_numeric_nan`. -/
def numericNan (n : Numeric) : Status × Numeric :=
  (.invalidNum, { numSet0 n with invalid := .nan })

/-- `_numeric_inf`. -/
def numericInf (n : Numeric) (neg : Bool) : Status × Numeric :=
  (if neg then .underflow else .overflow, { numSet0 n with invalid := .inf, neg := neg })

/-- The digits `numeric_copy` moves: whole words up to the last digit in use. -/
def copiedBytes (valueBytes : ℕ) : ℕ :=
  if valueBytes > numericStackBytes then 4
  else if valueBytes > 44 then valueBytes
  else if valueBytes > 20 then 44
  else if valueBytes > 12 then 20
  else if valueBytes > 4 then 12
  else 4

/-- `numeric_copy`, for two different objects. -/
def numericCopy (result n : Numeric) : Status × Numeric :=
  (if n.len + n.scale > numericStackBytes then .marshalling else .success,
    { n with value := fun i =>
        if i < copiedBytes (n.len + n.scale) then n.value i else result.value i })

/-! ## Stripping zeros -/

/-- The loop of `_num_normalize`: skip zeros in the integer digits, of which
`bytes` remain from `src` on. -/
def skipZeros (value : ℕ → ℕ) : (bytes src : ℕ) → ℕ
  | 0, src => src
  | bytes + 1, src => if value src = 0 then skipZeros value bytes (src + 1) else src

/-- `_num_normalize`: move the digits over the leading zeros of the integer part. -/
def numNormalize (n : Numeric) : Numeric :=
  if n.value 0 = 0 then
    let src := skipZeros n.value n.len 0
    let bytes := n.len - src
    { n with
      len := bytes
      value := fun i => if i < bytes + n.scale then n.value (src + i) else n.value i }
  else n

/-- The loop that drops trailing zeros of the fraction that starts at `first`. -/
def dropZeros (value : ℕ → ℕ) (first : ℕ) : (scale : ℕ) → ℕ
  | 0 => 0
  | scale + 1 => if value (first + scale) = 0 then dropZeros value first scale else scale + 1

/-- `_numeric_normalize`: what every arithmetic operation ends with. -/
def numericNormalize (n : Numeric) : Option (Status × Numeric) :=
  if n.len > numericMaxPrecision then
    some (numericInf n false)
  else
    let newScale := min (numericMaxPrecisionInt - n.len) numericMaxScaleInt
    let scale := min n.scale newScale
    let scale' := dropZeros n.value n.len scale
    -- the sign is dropped only where a fraction was there to be stripped
    let neg := if scale ≠ 0 ∧ scale' = 0 ∧ n.len = 0 then false else n.neg
    if neg = true ∧ n.len + scale' = 0 then none
    else some (.success, { n with scale := scale', neg := neg })

/-! ## What a number denotes -/

/-- The digits in use, read as an integer. -/
def mag (n : Numeric) : ℕ := val 10 n.value 0 (n.len + n.scale)

def toRat (n : Numeric) : ℚ := (if n.neg then -1 else 1) * (n.mag / 10 ^ n.scale)

def DigitsBelow (b : ℕ) (n : Numeric) : Prop := ∀ i < n.len + n.scale, n.value i < b

/-- The canonical form: decimal digits, no leading zero in the integer part, no
trailing zero in the fraction, within the internal precision, and one zero. -/
structure Canonical (n : Numeric) : Prop where
  digits : n.DigitsBelow 10
  leading : 0 < n.len → n.value 0 ≠ 0
  trailing : 0 < n.scale → n.value (n.len + n.scale - 1) ≠ 0
  len_le : n.len ≤ numericMaxPrecision
  total_le : n.len + n.scale ≤ numericMaxPrecisionInt
  zero : n.mag = 0 → n.len = 0 ∧ n.scale = 0 ∧ n.neg = false

/-- Equal headers and equal digits in use: the bytes behind the digits may differ. -/
structure Same (m n : Numeric) : Prop where
  len : m.len = n.len
  scale : m.scale = n.scale
  invalid : m.invalid = n.invalid
  neg : m.neg = n.neg
  value : ∀ i < n.len + n.scale, m.value i = n.value i

theorem mag_eq_zero_iff : n.mag = 0 ↔ ∀ i < n.len + n.scale, n.value i = 0 := by
  rw [mag, val_eq_zero_iff (by omega)]
  simp only [Nat.zero_add]

/-- Without leading and trailing zeros only the empty digit string writes zero. -/
theorem isZero_of_mag_eq_zero (hlead : 0 < n.len → n.value 0 ≠ 0)
    (htrail : 0 < n.scale → n.value (n.len + n.scale - 1) ≠ 0) (h : n.mag = 0) : n.IsZero := by
  rw [mag_eq_zero_iff] at h
  by_contra hne
  rcases Nat.eq_zero_or_pos n.len with hlen | hlen
  · exact htrail (by omega) (h _ (by omega))
  · exact hlead hlen (h 0 (by omega))

/-- The condition on zero is one on the sign of the empty digit string. -/
theorem canonical_of_digits (hdigits : n.DigitsBelow 10) (hlead : 0 < n.len → n.value 0 ≠ 0)
    (htrail : 0 < n.scale → n.value (n.len + n.scale - 1) ≠ 0) (hlen : n.len ≤ numericMaxPrecision)
    (htotal : n.len + n.scale ≤ numericMaxPrecisionInt) (hsign : n.IsZero → n.neg = false) :
    n.Canonical where
  digits := hdigits
  leading := hlead
  trailing := htrail
  len_le := hlen
  total_le := htotal
  zero h0 := by
    have hz := isZero_of_mag_eq_zero hlead htrail h0
    exact ⟨by omega, by omega, hsign hz⟩

/-- In a canonical number the sign of zero is plus. -/
theorem Canonical.neg_of_isZero (h : n.Canonical) (hz : n.IsZero) : n.neg = false := by
  have hmag : n.mag = 0 := by rw [mag, hz, val_zero]
  exact (h.zero hmag).2.2

theorem Canonical.mag_pos (h : n.Canonical) (hz : ¬ n.IsZero) : 0 < n.mag := by
  rw [Nat.pos_iff_ne_zero]
  intro h0
  obtain ⟨hlen, hscale, -⟩ := h.zero h0
  exact hz (by omega)

namespace Same

variable {m n : Numeric}

theorem mag_eq (h : Same m n) : m.mag = n.mag := by
  rw [mag, mag, h.len, h.scale]
  refine val_congr fun i hi => ?_
  rw [Nat.zero_add]
  exact h.value i hi

theorem toRat_eq (h : Same m n) : m.toRat = n.toRat := by
  rw [toRat, toRat, h.mag_eq, h.neg, h.scale]

/-- The canonical form looks only at the header and the digits in use. -/
theorem canonical (h : Same m n) (hn : n.Canonical) : m.Canonical where
  digits i hi := by
    rw [h.len, h.scale] at hi
    rw [h.value i hi]
    exact hn.digits i hi
  leading hlen := by
    rw [h.len] at hlen
    rw [h.value 0 (by omega)]
    exact hn.leading hlen
  trailing hscale := by
    rw [h.scale] at hscale
    rw [h.len, h.scale, h.value _ (by omega)]
    exact hn.trailing hscale
  len_le := h.len ▸ hn.len_le
  total_le := h.len ▸ h.scale ▸ hn.total_le
  zero h0 := by
    rw [h.mag_eq] at h0
    rw [h.len, h.scale, h.neg]
    exact hn.zero h0

end Same

/-! ## What the helpers do -/

/-- `numeric_copy` copies the number. -/
theorem numericCopy_same (result n : Numeric) (h : n.len + n.scale ≤ numericStackBytes) :
    Same (numericCopy result n).2 n where
  len := rfl
  scale := rfl
  invalid := rfl
  neg := rfl
  value i hi := by
    refine if_pos ?_
    unfold copiedBytes
    split_ifs <;> omega

/-- Leading zeros are skipped up to the first other digit or the end. -/
theorem skipZeros_spec (value : ℕ → ℕ) (bytes src : ℕ) :
    src ≤ skipZeros value bytes src ∧ skipZeros value bytes src ≤ src + bytes ∧
      (∀ i, src ≤ i → i < skipZeros value bytes src → value i = 0) ∧
      (skipZeros value bytes src < src + bytes → value (skipZeros value bytes src) ≠ 0) :=
  Lib.pass_spec (fun _ => rfl) (fun _ _ => rfl) bytes src

/-- Trailing zeros are dropped back to the last other digit or the point. -/
theorem dropZeros_spec (value : ℕ → ℕ) (first scale : ℕ) :
    dropZeros value first scale ≤ scale ∧
      (∀ i, dropZeros value first scale ≤ i → i < scale → value (first + i) = 0) ∧
      (0 < dropZeros value first scale →
        value (first + dropZeros value first scale - 1) ≠ 0) := by
  induction scale with
  | zero =>
    exact ⟨le_rfl, fun i h₁ h₂ => absurd h₂ (by omega), fun h => absurd h (by simp [dropZeros])⟩
  | succ scale ih =>
    simp only [dropZeros]
    split
    · next h0 =>
      obtain ⟨h₁, h₂, h₃⟩ := ih
      refine ⟨by omega, fun i hi hlt => ?_, h₃⟩
      rcases Nat.lt_succ_iff_lt_or_eq.mp hlt with hlt | rfl
      · exact h₂ i hi hlt
      · exact h0
    · next h0 => exact ⟨le_rfl, fun i h₁ h₂ => absurd h₂ (by omega), fun _ => by simpa using h0⟩

/-- `m` is `n` without `k` leading zeros, and has no leading zero left. -/
structure Stripped (k : ℕ) (n m : Numeric) : Prop where
  len : m.len + k = n.len
  scale : m.scale = n.scale
  invalid : m.invalid = n.invalid
  neg : m.neg = n.neg
  zeros : ∀ i < k, n.value i = 0
  value : ∀ i < m.len + m.scale, m.value i = n.value (k + i)
  leading : 0 < m.len → m.value 0 ≠ 0

/-- Stripping leading zeros keeps the number. -/
theorem Stripped.mag_eq {k : ℕ} {m : Numeric} (h : Stripped k n m) : m.mag = n.mag := by
  have hsum : n.len + n.scale = k + (m.len + m.scale) := by have := h.len; have := h.scale; omega
  have hzero : val 10 n.value 0 k = 0 := val_eq_zero fun i hi => by
    rw [Nat.zero_add]; exact h.zeros i hi
  rw [mag, mag, hsum, val_append _ n.value, hzero, zero_mul, zero_add]
  refine val_congr fun i hi => ?_
  rw [Nat.zero_add, Nat.zero_add]
  exact h.value i hi

/-- `_num_normalize` strips the leading zeros. -/
theorem numNormalize_spec (n : Numeric) : ∃ k, Stripped k n (numNormalize n) := by
  by_cases h0 : n.value 0 = 0
  · obtain ⟨-, hle, hzeros, hstop⟩ := skipZeros_spec n.value n.len 0
    simp only [Nat.zero_add] at hle hstop
    refine ⟨skipZeros n.value n.len 0, ?_⟩
    rw [numNormalize, if_pos h0]
    exact {
      len := Nat.sub_add_cancel hle
      scale := rfl
      invalid := rfl
      neg := rfl
      zeros := fun i hi => hzeros i (Nat.zero_le i) hi
      value := fun i hi => if_pos hi
      leading := fun hpos => by
        have hlt : skipZeros n.value n.len 0 < n.len := Nat.lt_of_sub_pos hpos
        simp only
        rw [if_pos (by omega), Nat.add_zero]
        exact hstop hlt }
  · refine ⟨0, ?_⟩
    rw [numNormalize, if_neg h0]
    exact {
      len := rfl
      scale := rfl
      invalid := rfl
      neg := rfl
      zeros := fun i hi => absurd hi (Nat.not_lt_zero i)
      value := fun i _ => by rw [Nat.zero_add]
      leading := fun _ => h0 }

/-- The fraction digits `_numeric_normalize` looks at. -/
def keptScale (n : Numeric) : ℕ :=
  min n.scale (min (numericMaxPrecisionInt - n.len) numericMaxScaleInt)

/-- `m` is `n` cut to the internal precision and without trailing zeros. -/
structure Truncated (n m : Numeric) : Prop where
  len : m.len = n.len
  invalid : m.invalid = n.invalid
  neg : m.neg = true → n.neg = true
  value : m.value = n.value
  scale_le : m.scale ≤ n.keptScale
  zeros : ∀ i, m.scale ≤ i → i < n.keptScale → n.value (n.len + i) = 0
  trailing : 0 < m.scale → m.value (m.len + m.scale - 1) ≠ 0
  plus : m.IsZero → m.neg = false

/-- What is too long becomes an infinity, of positive sign. -/
theorem numericNormalize_of_lt (h : numericMaxPrecision < n.len) :
    numericNormalize n = some (numericInf n false) := if_pos h

/-- `_numeric_normalize` truncates what fits, provided minus is the sign of a
number with digits. -/
theorem numericNormalize_of_le (hlen : n.len ≤ numericMaxPrecision)
    (hneg : n.neg = true → ¬ n.IsZero) :
    ∃ m, numericNormalize n = some (.success, m) ∧ Truncated n m := by
  obtain ⟨hle, hzeros, htrail⟩ := dropZeros_spec n.value n.len n.keptScale
  have hkept : n.len = 0 → ¬ n.IsZero → n.keptScale ≠ 0 := by
    intro h₁ h₂
    simp only [keptScale, numericMaxPrecisionInt_eq, numericMaxScaleInt_eq]
    omega
  have hfrac : min n.scale (min (numericMaxPrecisionInt - n.len) numericMaxScaleInt) =
    n.keptScale := rfl
  simp only [numericNormalize, if_neg (Nat.not_lt.mpr hlen), hfrac]
  have hplus : ∀ b, b = (if n.keptScale ≠ 0 ∧ dropZeros n.value n.len n.keptScale = 0 ∧
      n.len = 0 then false else n.neg) → (b = true → n.neg = true) ∧
      (n.len + dropZeros n.value n.len n.keptScale = 0 → b = false) := by
    rintro b rfl
    split_ifs with hc
    · exact ⟨fun h => absurd h (by simp), fun _ => rfl⟩
    · refine ⟨id, fun hz => ?_⟩
      by_contra hb
      have hnz := hneg (by simpa using hb)
      exact hc ⟨hkept (by omega) hnz, by omega, by omega⟩
  obtain ⟨h₁, h₂⟩ := hplus _ rfl
  rw [if_neg]
  · exact ⟨_, rfl, rfl, rfl, h₁, rfl, hle, hzeros, htrail, h₂⟩
  · rintro ⟨hb, hz⟩
    rw [h₂ hz] at hb
    exact absurd hb (by simp)

end Numeric

end Virtuoso
