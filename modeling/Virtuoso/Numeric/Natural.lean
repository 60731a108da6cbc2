import Virtuoso.Numeric.Divide
import Virtuoso.Numeric.ToInt

/-!
# Arithmetic on natural numbers

What the routines of the package do with numbers that have no fraction and no sign.  `Writes` allows
zeros in front of the digits, `IsNat` does not: the routines take the former and deliver the latter.
-/

namespace Virtuoso.Numeric

open Lib.Radix

/-- The digits of `n`, all of which are before the point, write `k`. -/
structure Writes (n : Numeric) (k : ℕ) : Prop where
  valid : n.invalid = .valid
  plus : n.neg = false
  scale : n.scale = 0
  digits : ∀ i < n.len, n.value i < 10
  mag : n.mag = k

/-- The same without zeros in front. -/
structure IsNat (n : Numeric) (k : ℕ) : Prop extends Writes n k where
  leading : 0 < n.len → n.value 0 ≠ 0

section

variable {n m x y : Numeric} {k a b : ℕ}

theorem Writes.digitsBelow (h : Writes n k) : n.DigitsBelow 10 := fun i hi =>
  h.digits i (by have := h.scale; omega)

theorem Writes.lt_pow (h : Writes n k) : k < 10 ^ n.len := by
  rw [← h.mag, Numeric.mag, h.scale, Nat.add_zero]
  exact val_lt_pow_zero h.digits

theorem Writes.whole_eq (h : Writes n k) : n.whole = k := by
  rw [← h.mag, Numeric.mag, h.scale]
  rfl

theorem Writes.toRat_eq (h : Writes n k) : n.toRat = k := by
  rw [toRat, h.plus, h.mag, h.scale]
  simp

theorem Writes.frac_eq (h : Writes n k) : n.frac 10 = k := by
  rw [frac_ten, h.mag, h.scale]
  simp

theorem IsNat.len_eq (h : IsNat n k) : n.len = (Nat.digits 10 k).length := by
  rw [← h.mag, Numeric.mag, h.scale, Nat.add_zero]
  exact (length_digits_val h.digits h.leading).symm

theorem IsNat.len_le_iff (h : IsNat n k) {d : ℕ} : n.len ≤ d ↔ k < 10 ^ d := by
  rw [h.len_eq]
  exact Nat.digits_length_le_iff (by decide) k

theorem IsNat.canonical (h : IsNat n k) (hk : k < 10 ^ numericMaxPrecision) : n.Canonical := by
  have hlen := h.len_le_iff.2 hk
  refine canonical_of_digits h.digitsBelow h.leading (fun hs => ?_) hlen ?_ fun _ => h.plus
  · exact absurd h.scale hs.ne'
  · rw [h.scale]
    exact hlen.trans (by decide)

theorem IsNat.of_same (h : IsNat n k) (hsame : Same m n) : IsNat m k where
  valid := hsame.invalid.trans h.valid
  plus := hsame.neg.trans h.plus
  scale := hsame.scale.trans h.scale
  digits i hi := by
    rw [hsame.len] at hi
    rw [hsame.value i (by omega)]
    exact h.digits i hi
  mag := hsame.mag_eq.trans h.mag
  leading hpos := by
    rw [hsame.len] at hpos
    rw [hsame.value 0 (by omega)]
    exact h.leading hpos

/-- Numbers without zeros in front are determined by their value. -/
theorem IsNat.same (hn : IsNat n k) (hm : IsNat m k) : Same m n := by
  have hlen : m.len = n.len := hm.len_eq.trans hn.len_eq.symm
  refine ⟨hlen, hm.scale.trans hn.scale.symm, hm.valid.trans hn.valid.symm,
    hm.plus.trans hn.plus.symm, fun i hi => ?_⟩
  have hval : val 10 m.value 0 n.len = val 10 n.value 0 n.len := by
    have h₁ := hm.whole_eq
    have h₂ := hn.whole_eq
    rw [whole, hlen] at h₁
    rw [h₁, ← h₂, whole]
  have := digits_eq_of_val_eq (fun i hi => by rw [Nat.zero_add]; exact hm.digits i (hlen ▸ hi))
    (fun i hi => by rw [Nat.zero_add]; exact hn.digits i hi) hval i
    (by have := hn.scale; omega)
  simpa only [Nat.zero_add] using this

/-- `_num_normalize` removes the zeros in front. -/
theorem Writes.numNormalize (h : Writes n k) : IsNat (numNormalize n) k := by
  obtain ⟨z, hz⟩ := numNormalize_spec n
  have hscale := hz.scale.trans h.scale
  refine ⟨⟨hz.invalid.trans h.valid, hz.neg.trans h.plus, hscale, fun i hi => ?_,
    hz.mag_eq.trans h.mag⟩, hz.leading⟩
  rw [hz.value i (by omega)]
  exact h.digits _ (by have := hz.len; omega)

theorem IsNat.finish (h : IsNat n k) (hk : k < 10 ^ numericStackBytes) (dest : Dest) :
    IsNat (dest.finish n) k := by
  refine h.of_same (dest.finish_same ?_)
  rw [h.scale]
  exact h.len_le_iff.2 hk

/-- `_numeric_normalize` has nothing to do. -/
theorem IsNat.numericNormalize (h : IsNat n k) (hk : k < 10 ^ numericMaxPrecision) :
    numericNormalize n = some (.success, n) := by
  have hlen := h.len_le_iff.2 hk
  obtain ⟨len, scale, invalid, neg, value⟩ := n
  obtain rfl : scale = 0 := h.scale
  obtain rfl : neg = false := h.plus
  rw [Numeric.numericNormalize, if_neg (not_lt.2 hlen)]
  simp [dropZeros]

/-- The sign of zero has nothing to be set to. -/
theorem IsNat.neg_ite (h : IsNat n k) (p : Prop) [Decidable p] :
    ({ n with neg := if p then false else n.neg } : Numeric) = n := by
  rw [h.plus, ite_self, ← h.plus]

/-! ## Sums and products -/

section

variable (hx : IsNat x a) (hy : IsNat y b)
include hx hy

theorem IsNat.numAddInt (hab : a + b < 10 ^ numericStackBytes) (dest : Dest) :
    IsNat { numAddInt dest x y 0 with neg := x.neg } (a + b) := by
  have hfirst : (prepareSum dest x y 0).value 0 = 0 := by
    simp only [prepareSum, Function.update_self]
  obtain ⟨hdigits, hvalue⟩ := addDigits_spec hx.digitsBelow hy.digitsBelow hfirst
  have hraw : Writes (rawSum dest x y 0) (a + b) := by
    refine ⟨rfl, rfl, ?_, fun i hi => ?_, ?_⟩
    · simp only [rawSum, prepareSum, hx.scale, hy.scale, max_self]
    · exact hdigits i (lt_of_lt_of_le hi (Nat.le_add_right _ _))
    · rw [hx.scale, hy.scale, hx.mag, hy.mag] at hvalue
      simpa [mag, rawSum, prepareSum, hx.scale, hy.scale] using hvalue
  rw [hx.plus]
  have h := hraw.numNormalize.finish hab dest
  refine ⟨⟨h.valid, rfl, h.scale, h.digits, h.mag⟩, h.leading⟩

theorem IsNat.numericAdd (hab : a + b < 10 ^ numericMaxPrecision) (dest : Dest) :
    ∃ m, numericAdd dest x y = some (.success, m) ∧ IsNat m (a + b) := by
  have hsum : IsNat (numAdd dest x y 0) (a + b) := by
    rw [numAdd, if_pos (hx.plus.trans hy.plus.symm)]
    exact hx.numAddInt hy (hab.trans (by decide)) dest
  refine ⟨_, ?_, hsum⟩
  rw [Numeric.numericAdd, if_neg (not_not.2 hx.valid), if_neg (not_not.2 hy.valid),
    hsum.numericNormalize hab]

theorem IsNat.numMultiply (hab : a * b < 10 ^ numericStackBytes) (dest : Dest) (scale : ℕ) :
    IsNat (numMultiply dest x y scale) (a * b) := by
  obtain ⟨hdigits, hmag⟩ := rawProduct_spec dest scale hx.digitsBelow hy.digitsBelow
  have hscale : prodScale x y scale = 0 := by
    rw [prodScale, hx.scale, hy.scale]
    exact Nat.min_eq_left (Nat.zero_le _)
  have hraw : Writes (rawProduct dest x y scale) (a * b) := by
    refine ⟨rfl, ?_, hscale, fun i hi => hdigits i (by omega), ?_⟩
    · simp only [rawProduct, hx.plus, hy.plus, bne_self_eq_false, ite_self]
    · rw [hmag, hx.mag, hy.mag, hx.scale, hy.scale]
      simp
  rw [Numeric.numMultiply]
  simp only [hraw.numNormalize.neg_ite]
  exact hraw.numNormalize.finish hab dest

theorem IsNat.numericMultiply (hab : a * b < 10 ^ numericMaxPrecision) (dest : Dest) :
    ∃ m, numericMultiply dest x y = some (.success, m) ∧ IsNat m (a * b) := by
  have hprod := hx.numMultiply hy (hab.trans (by decide)) dest numericMaxScaleInt
  refine ⟨_, ?_, hprod⟩
  rw [Numeric.numericMultiply, if_neg (not_not.2 hx.valid), if_neg (not_not.2 hy.valid),
    hprod.numericNormalize hab]

end

/-! ## Differences and quotients -/

/-- A comparison of magnitudes goes by the number of digits first. -/
theorem Writes.compareMagnitude_cases (hx : Writes x a) (hy : IsNat y b) (hab : b ≤ a) :
    y.len ≤ x.len ∧ (compareMagnitude x y = 1 ∨ compareMagnitude x y = 0 ∧ a = b) := by
  have hlen : y.len ≤ x.len := hy.len_le_iff.2 (lt_of_le_of_lt hab hx.lt_pow)
  refine ⟨hlen, ?_⟩
  rcases hlen.eq_or_lt with heq | hlt
  · have hrep := compareMagnitude_frac (by decide) hx.digitsBelow hy.digitsBelow heq.symm
    rw [hx.frac_eq, hy.frac_eq] at hrep
    rcases hrep with ⟨-, h⟩ | ⟨h0, h⟩ | ⟨h1, -⟩
    · exact absurd (by exact_mod_cast h : a < b) (not_lt.2 hab)
    · exact .inr ⟨h0, by exact_mod_cast h⟩
    · exact .inl h1
  · exact .inl (by rw [compareMagnitude, if_pos (by omega), if_pos hlt])

theorem isNat_numSet0 (n : Numeric) : IsNat (numSet0 n) 0 :=
  ⟨⟨rfl, rfl, rfl, fun _ hi => absurd hi (Nat.not_lt_zero _), rfl⟩,
    fun h => absurd h (Nat.lt_irrefl 0)⟩

theorem Writes.numSubtract (hx : Writes x a) (hy : IsNat y b) (hab : b ≤ a)
    (ha : a < 10 ^ numericStackBytes) (dest : Dest) : IsNat (numSubtract dest x y 0) (a - b) := by
  obtain ⟨hlen, hcmp⟩ := hx.compareMagnitude_cases hy hab
  have hint : numCompareInt x y false = compareMagnitude x y := by simp [numCompareInt]
  rw [Numeric.numSubtract, if_neg (not_not.2 (hx.plus.trans hy.plus.symm)), hint]
  rcases hcmp with hone | ⟨hzero, rfl⟩
  · rw [hone, if_neg (by decide), if_neg (by decide)]
    have hle : y.mag * 10 ^ (max x.scale y.scale - y.scale) ≤
        x.mag * 10 ^ (max x.scale y.scale - x.scale) := by
      rw [hx.scale, hy.scale, hx.mag, hy.mag]
      simpa using hab
    obtain ⟨hdigits, hvalue⟩ := @subtractDigits_spec x y (prepareDifference dest x y 0).value
      hx.digitsBelow hy.digitsBelow hlen hle
    have hraw : Writes (rawDifference dest x y 0) (a - b) := by
      refine ⟨rfl, rfl, ?_, fun i hi => hdigits i (lt_of_lt_of_le hi (Nat.le_add_right _ _)), ?_⟩
      · simp only [rawDifference, prepareDifference, hx.scale, hy.scale, max_self]
      · rw [hx.scale, hy.scale, hx.mag, hy.mag] at hvalue
        simp only [Nat.sub_self, pow_zero, mul_one, max_self] at hvalue
        change val 10 (subtractDigits x y (prepareDifference dest x y 0).value) 0
          (max x.len y.len + max (max x.scale y.scale) 0) = a - b
        rw [hx.scale, hy.scale]
        exact Nat.eq_sub_of_add_eq hvalue
    have h := hraw.numNormalize.finish (lt_of_le_of_lt (Nat.sub_le a b) ha) dest
    rw [hx.plus]
    exact ⟨⟨h.valid, rfl, h.scale, h.digits, h.mag⟩, h.leading⟩
  · rw [hzero, if_neg (by decide), if_pos rfl, Nat.sub_self]
    exact isNat_numSet0 _

theorem Writes.numDivide (hx : Writes x a) (hlen : x.len ≤ numericMaxPrecisionInt) (hy : IsNat y b)
    (hb : 0 < b) (hb' : b < 10 ^ numericMaxPrecision) (mem : Memory)
    (hmem : numericMaxPrecisionInt < mem.bytes) (dest : Dest) :
    ∃ q, numDivide mem dest x y 0 = some (0, q) ∧ IsNat q (a / b) := by
  have h0 : ¬ y.IsZero := fun hz => hb.ne' (by rw [← hy.mag, Numeric.mag, hz, val_zero])
  have hfits : Fits mem x y 0 := by
    simp only [Fits, hx.scale, hy.scale, numericMaxPrecisionInt_eq] at *
    exact ⟨show _ ≤ 104 by omega, by omega⟩
  obtain ⟨n, hn, hquot⟩ := rawQuotient_spec mem dest hx.digitsBelow (hy.canonical hb') h0 hfits
  have hraw : Writes n (a / b) := by
    refine ⟨hquot.valid, ?_, hquot.scale_eq, fun i hi => hquot.digits i (by omega), ?_⟩
    · rw [hquot.neg, hx.plus, hy.plus]
      rfl
    · rw [hquot.mag, hx.toRat_eq, hy.toRat_eq, pow_zero, mul_one, abs_of_nonneg (by positivity),
        Nat.floor_div_natCast, Nat.floor_natCast]
  have hlt : a / b < 10 ^ numericStackBytes := lt_of_le_of_lt (Nat.div_le_self a b)
    (hx.lt_pow.trans_le (Nat.pow_le_pow_right (by decide) (hlen.trans (by decide))))
  refine ⟨_, ?_, hraw.numNormalize.finish hlt dest⟩
  rw [Numeric.numDivide, if_neg h0, hn, Option.map_some]
  simp only [hraw.numNormalize.neg_ite]

end

/-- `numeric_from_int32` of a natural number. -/
theorem isNat_numericFromInt32 (num : Numeric) {k : ℕ} (hk : k < 2 ^ 31) :
    IsNat (numericFromInt32 num k) k := by
  have hint : (numericFromInt32 num k).integer = k := integer_numericFromInt num (by decide)
  have hcanon := @numericFromInt32_canonical num k (by omega) (by exact_mod_cast hk)
  obtain ⟨hvalid, hplus, hscale⟩ : (numericFromInt32 num k).invalid = .valid ∧
      (numericFromInt32 num k).neg = false ∧ (numericFromInt32 num k).scale = 0 := by
    rw [numericFromInt32, numericFromInt, if_neg (by omega)]
    by_cases h₀ : (k : ℤ) = 0
    · rw [if_pos h₀]
      exact ⟨rfl, rfl, rfl⟩
    rw [if_neg h₀]
    by_cases h₁ : (k : ℤ) = 1
    · rw [if_pos h₁]
      exact ⟨rfl, rfl, rfl⟩
    · rw [if_neg h₁, if_neg (by omega)]
      exact ⟨rfl, decide_eq_false (not_lt.2 (Int.natCast_nonneg k)), rfl⟩
  refine ⟨⟨hvalid, hplus, hscale, fun i hi => hcanon.digits i (by omega), ?_⟩, hcanon.leading⟩
  rw [integer, hplus, if_neg (by decide)] at hint
  rw [mag, hscale]
  exact_mod_cast hint

end Virtuoso.Numeric
