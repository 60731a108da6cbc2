import Virtuoso.Numeric.Add

/-!
# Multiplication (`numeric_multiply`)

The product is computed column by column, from the last digit to the first.  The last `toss`
columns give no digits, but their carry counts, so that the digits are those of the exact product
cut off (`rawProduct_spec`).  The result deviates from the exact one only in the sign of an
overflow (`numericMultiply_exact_iff`).
-/

namespace Virtuoso.Numeric

open Lib Lib.Radix Finset

/-! ## The routines -/

/-- The inner loop of `num_multiply`.  Of `n1` the first `rest` digits are still to be used, from
the last of them backwards, and of the `len2` digits of `n2` those from `p2` on. -/
def columnLoop (v₁ v₂ : ℕ → ℕ) (len2 : ℕ) : (rest p2 sum : ℕ) → ℕ
  | 0, _, sum => sum
  | rest + 1, p2, sum =>
    if p2 < len2 then columnLoop v₁ v₂ len2 rest (p2 + 1) (sum + v₁ rest * v₂ p2) else sum

/-- One column: the pointers are set and the inner loop adds to `sum`. -/
def column (n₁ n₂ : Numeric) (indx sum : ℕ) : ℕ :=
  let len1 := n₁.len + n₁.scale
  let len2 := n₂.len + n₂.scale
  columnLoop n₁.value n₂.value len2 (len1 - (indx + 1 - len2)) (len2 - 1 - indx) sum

/-- The loop over the columns whose digits are dropped: the carry it leaves. -/
def tossColumns (n₁ n₂ : Numeric) : (toss : ℕ) → ℕ
  | 0 => 0
  | toss + 1 => column n₁ n₂ toss (tossColumns n₁ n₂ toss) / 10

/-- The column for the digit at `1 + i`: the digit, and the carry. -/
def columnStep (n₁ n₂ : Numeric) (totalDigits i sum : ℕ) : ℕ × ℕ :=
  let sum := column n₁ n₂ (totalDigits - 2 - i) sum
  (sum % 10, sum / 10)

/-- The loop over the other columns, and the last store. -/
def productDigits (n₁ n₂ : Numeric) (totalDigits toss : ℕ) (buf : ℕ → ℕ) : ℕ → ℕ :=
  let r := digitLoop (columnStep n₁ n₂ totalDigits) 1 (totalDigits - 1 - toss)
    (tossColumns n₁ n₂ toss) buf
  Function.update r.1 0 (r.2 % 256)

def prodScale (n₁ n₂ : Numeric) (scale : ℕ) : ℕ :=
  min (n₁.scale + n₂.scale) (max scale (max n₁.scale n₂.scale))

/-- The product before leading zeros are removed. -/
def rawProduct (dest : Dest) (n₁ n₂ : Numeric) (scale : ℕ) : Numeric :=
  let totalDigits := n₁.len + n₁.scale + (n₂.len + n₂.scale)
  let fullScale := n₁.scale + n₂.scale
  let toss := fullScale - prodScale n₁ n₂ scale
  { dest.start with
    len := totalDigits - fullScale
    scale := prodScale n₁ n₂ scale
    -- with no digits at all the last store goes to the byte before `n_value`, which is `n_neg`
    neg := if totalDigits = 0 then false else n₁.neg ^^ n₂.neg
    value := if totalDigits = 0 then dest.start.value
      else productDigits n₁ n₂ totalDigits toss dest.start.value }

/-- `num_multiply`. -/
def numMultiply (dest : Dest) (n₁ n₂ : Numeric) (scale : ℕ) : Numeric :=
  let pval := numNormalize (rawProduct dest n₁ n₂ scale)
  dest.finish { pval with neg := if pval.IsZero then false else pval.neg }

/-- `numeric_multiply`. -/
def numericMultiply (dest : Dest) (x y : Numeric) : Option (Status × Numeric) :=
  let z := dest.target
  if x.IsInvalid then
    if x.IsNan ∨ y.IsNan then some (.success, (numericNan z).2)
    else some (.success, (numericInf z (x.neg ^^ y.neg)).2)
  else if y.IsInvalid then
    if y.IsNan then some (.success, (numericNan z).2)
    else some (.success, (numericInf z (x.neg ^^ y.neg)).2)
  else numericNormalize (numMultiply dest x y numericMaxScaleInt)

/-! ## Columns -/

section Column

variable {x y : Numeric}

/-- The product of the digit of `n₁` at place `j`, counted from the last, and that of `n₂` at
place `k - j`. -/
def term (v₁ v₂ : ℕ → ℕ) (len1 len2 k j : ℕ) : ℕ :=
  (if j < len1 then v₁ (len1 - 1 - j) else 0) *
    (if k - j < len2 then v₂ (len2 - 1 - (k - j)) else 0)

/-- The inner loop from place `i` of the first number on. -/
theorem columnLoop_eq (v₁ v₂ : ℕ → ℕ) (len1 k i : ℕ) {len2 p2 rest : ℕ} (sum : ℕ)
    (hrest : rest = len1 - i) (hp : p2 + (k + 1) = len2 + i) :
    columnLoop v₁ v₂ len2 rest p2 sum =
      sum + ∑ j ∈ Finset.Ico i (k + 1), term v₁ v₂ len1 len2 k j := by
  induction rest generalizing i p2 sum with
  | zero =>
    rw [columnLoop, sum_eq_zero, Nat.add_zero]
    intro j hj
    rw [mem_Ico] at hj
    rw [term, if_neg (by omega), Nat.zero_mul]
  | succ rest ih =>
    rw [columnLoop]
    split_ifs with h
    · have hterm : v₁ rest * v₂ p2 = term v₁ v₂ len1 len2 k i := by
        rw [term, if_pos (by omega), if_pos (by omega), show len1 - 1 - i = rest by omega,
          show len2 - 1 - (k - i) = p2 by omega]
      rw [ih (i + 1) _ (by omega) (by omega), hterm, Nat.add_assoc,
        ← sum_eq_sum_Ico_succ_bot (by omega)]
    · rw [Finset.Ico_eq_empty (by omega), sum_empty, Nat.add_zero]

def columnSum (n₁ n₂ : Numeric) (k : ℕ) : ℕ :=
  ∑ x ∈ Finset.HasAntidiagonal.antidiagonal k,
    (if x.1 < n₁.len + n₁.scale then n₁.value (n₁.len + n₁.scale - 1 - x.1) else 0) *
      (if x.2 < n₂.len + n₂.scale then n₂.value (n₂.len + n₂.scale - 1 - x.2) else 0)

/-- A column is added completely: the places left out have no digit in `y`. -/
theorem column_eq (k sum : ℕ) : column x y k sum = sum + columnSum x y k := by
  have hout : ∑ j ∈ Finset.Ico 0 (k + 1 - (y.len + y.scale)),
      term x.value y.value (x.len + x.scale) (y.len + y.scale) k j = 0 := by
    refine sum_eq_zero fun j hj => ?_
    rw [mem_Ico] at hj
    rw [term, if_neg (show ¬ k - j < y.len + y.scale by omega), Nat.mul_zero]
  rw [column, columnLoop_eq _ _ (x.len + x.scale) k (k + 1 - (y.len + y.scale)) _ rfl
    (by omega), columnSum, Finset.Nat.sum_antidiagonal_eq_sum_range_succ_mk]
  congr 1
  rw [range_eq_Ico, ← sum_Ico_consecutive _ (Nat.zero_le _) (Nat.sub_le (k + 1) _)]
  exact (Nat.zero_add _).symm.trans (congrArg (· + _) hout.symm)

/-- The carry of the columns that are dropped. -/
theorem tossColumns_eq (t : ℕ) :
    tossColumns x y t = (∑ k ∈ range t, columnSum x y k * 10 ^ k) / 10 ^ t := by
  induction t with
  | zero => rw [tossColumns, range_zero, sum_empty, Nat.zero_div]
  | succ t ih =>
    rw [tossColumns, column_eq, ih, sum_range_succ, pow_succ, ← Nat.div_div_eq_div_mul,
      Nat.add_mul_div_right _ _ (by positivity)]

variable {total : ℕ} (ht : x.len + x.scale + (y.len + y.scale) = total)
include ht

/-- The product, column by column. -/
theorem mag_mul_mag (h : 0 < total) :
    x.mag * y.mag = ∑ k ∈ range (total - 1), columnSum x y k * 10 ^ k :=
  val_mul_val 10 x.value y.value _ _ _ (by omega)

/-- The columns that are kept and the carry of the others give the product cut off. -/
theorem div_pow_eq {t n : ℕ} (h : 0 < total) (hn : total - 1 = t + n) :
    x.mag * y.mag / 10 ^ t =
      val 10 (fun i => columnSum x y (total - 2 - i)) 0 n + tossColumns x y t := by
  have hhigh : ∑ k ∈ range n, columnSum x y (t + k) * 10 ^ (t + k) =
      val 10 (fun i => columnSum x y (total - 2 - i)) 0 n * 10 ^ t := by
    rw [val_eq_sum, sum_mul]
    refine sum_congr rfl fun k hk => ?_
    rw [mem_range] at hk
    rw [show total - 2 - (0 + (n - 1 - k)) = t + k by omega, pow_add]
    ring
  rw [mag_mul_mag ht h, hn, sum_range_add, hhigh, tossColumns_eq,
    Nat.add_mul_div_right _ _ (by positivity), Nat.add_comm]

/-- The digits and the carry of the loop write the product cut off. -/
theorem productLoop_spec {t n : ℕ} (buf : ℕ → ℕ) (h : 0 < total) (hn : total - 1 = t + n) :
    let r := digitLoop (columnStep x y total) 1 n (tossColumns x y t) buf
    (∀ i < n, r.1 (1 + i) < 10) ∧ r.2 * 10 ^ n + val 10 r.1 1 n = x.mag * y.mag / 10 ^ t := by
  intro r
  obtain ⟨-, hdigits, hvalue⟩ := @digitLoop_spec (columnStep x y total) 1 n (tossColumns x y t) buf
    10 1 (fun i => (columnSum x y (total - 2 - i) : ℤ)) (fun _ => True) trivial fun i _ c _ => by
      refine ⟨trivial, Nat.mod_lt _ (by norm_num), ?_⟩
      simp only [columnStep, column_eq]
      omega
  refine ⟨hdigits, ?_⟩
  have hcast := cast_val (R := ℤ) 10 (fun i => columnSum x y (total - 2 - i)) 0 n
  rw [div_pow_eq ht h hn]
  zify
  push_cast at hcast hvalue
  rw [hcast]
  linear_combination hvalue

/-- The digits of the product. -/
theorem productDigits_spec {t n : ℕ} (buf : ℕ → ℕ) (h₁ : x.DigitsBelow 10)
    (h₂ : y.DigitsBelow 10) (h : 0 < total)
    (hn : total - 1 = t + n) :
    (∀ i < n + 1, productDigits x y total t buf i < 10) ∧
      val 10 (productDigits x y total t buf) 0 (n + 1) =
        x.mag * y.mag / 10 ^ t := by
  obtain ⟨hdigits, hvalue⟩ := productLoop_spec ht buf h hn
  rw [productDigits, show total - 1 - t = n by omega]
  generalize digitLoop _ 1 n (tossColumns x y t) buf = r at hdigits hvalue ⊢
  -- the last carry is one digit, since the product is not longer than its columns
  have hbound : x.mag * y.mag / 10 ^ t < 10 ^ (n + 1) := by
    rw [Nat.div_lt_iff_lt_mul (by positivity), ← pow_add,
      show n + 1 + t = x.len + x.scale + (y.len + y.scale) by omega, pow_add]
    exact Nat.mul_lt_mul'' (val_lt_pow_zero h₁) (val_lt_pow_zero h₂)
  have hcarry : r.2 < 10 := by
    rw [← hvalue, pow_succ, Nat.mul_comm] at hbound
    exact Nat.lt_of_mul_lt_mul_left (lt_of_le_of_lt (Nat.le_add_right _ _) hbound)
  rw [Nat.mod_eq_of_lt (by omega : r.2 < 256)]
  exact ⟨by simpa only [Nat.zero_add] using digits_update hcarry hdigits, val_update.trans hvalue⟩

end Column

/-! ## The result -/

section Product

variable {x y : Numeric} (dest : Dest) (scale : ℕ)

theorem rawProduct_len : (rawProduct dest x y scale).len = x.len + y.len := by
  simp only [rawProduct]
  omega

theorem rawProduct_scale :
    (rawProduct dest x y scale).scale = prodScale x y scale := rfl

/-- The last store overwrites the sign only of a product of zeros. -/
theorem rawProduct_neg (hx : x.Canonical) (hy : y.Canonical) :
    (rawProduct dest x y scale).neg = (x.neg ^^ y.neg) := by
  simp only [rawProduct]
  split_ifs with h
  · rw [hx.neg_of_isZero (by show _ = _; omega), hy.neg_of_isZero (by show _ = _; omega)]
    rfl
  · rfl

/-- Enough columns are kept for the digits up to the scale of the product. -/
theorem toss_le (x y : Numeric) (scale : ℕ) (h : 0 < x.len + x.scale + (y.len + y.scale)) :
    x.scale + y.scale - prodScale x y scale < x.len + x.scale + (y.len + y.scale) := by
  unfold prodScale
  omega

/-- The raw product has the digits of the exact product, cut off. -/
theorem rawProduct_spec (hx : x.DigitsBelow 10) (hy : y.DigitsBelow 10) :
    (rawProduct dest x y scale).DigitsBelow 10 ∧ (rawProduct dest x y scale).mag =
      x.mag * y.mag / 10 ^ (x.scale + y.scale - prodScale x y scale) := by
  have hscale : prodScale x y scale ≤ x.scale + y.scale := min_le_left _ _
  rcases Nat.eq_zero_or_pos (x.len + x.scale + (y.len + y.scale)) with h | h
  · have hsize : (rawProduct dest x y scale).len + (rawProduct dest x y scale).scale = 0 := by
      rw [rawProduct_len, rawProduct_scale]
      omega
    constructor
    · intro i hi
      omega
    · rw [mag, hsize, val_zero, mag, show x.len + x.scale = 0 by omega, val_zero, Nat.zero_mul,
        Nat.zero_div]
  · have htoss := toss_le x y scale h
    obtain ⟨n, hn⟩ := Nat.exists_eq_add_of_le (Nat.le_sub_one_of_lt htoss)
    have hsize : (rawProduct dest x y scale).len + (rawProduct dest x y scale).scale = n + 1 := by
      rw [rawProduct_len, rawProduct_scale]
      omega
    have hvalue : (rawProduct dest x y scale).value =
        productDigits x y (x.len + x.scale + (y.len + y.scale))
          (x.scale + y.scale - prodScale x y scale) dest.start.value := if_neg h.ne'
    obtain ⟨hdigits, hmag⟩ := productDigits_spec rfl dest.start.value hx hy h hn
    rw [DigitsBelow, mag, hsize, hvalue]
    exact ⟨hdigits, hmag⟩

theorem abs_toRat_mul : |x.toRat * y.toRat| =
    ((x.mag * y.mag : ℕ) : ℚ) / ((10 ^ (x.scale + y.scale) : ℕ) : ℚ) := by
  rw [abs_mul, abs_toRat, abs_toRat, frac_ten, frac_ten, div_mul_div_comm, ← pow_add]
  push_cast
  rfl

/-- The digits of the exact product up to the scale. -/
theorem rawProduct_mag (hx : x.DigitsBelow 10) (hy : y.DigitsBelow 10) :
    (rawProduct dest x y scale).mag =
      ⌊|x.toRat * y.toRat| * 10 ^ (rawProduct dest x y scale).scale⌋₊ := by
  have hscale : prodScale x y scale ≤ x.scale + y.scale := min_le_left _ _
  obtain ⟨t, ht⟩ := Nat.exists_eq_add_of_le hscale
  have hfrac : |x.toRat * y.toRat| * 10 ^ (rawProduct dest x y scale).scale =
      ((x.mag * y.mag : ℕ) : ℚ) / ((10 ^ t : ℕ) : ℚ) := by
    rw [abs_toRat_mul, rawProduct_scale, ht, pow_add]
    push_cast
    field_simp
  rw [hfrac, Nat.floor_div_natCast, Nat.floor_natCast, (rawProduct_spec dest scale hx hy).2, ht,
    Nat.add_sub_cancel_left]

/-- If not all digits of the product are there, at least `scale` after the point are. -/
theorem rawProduct_agrees {s scale : ℕ} (hx : x.DigitsBelow 10) (hy : y.DigitsBelow 10)
    (hs : s ≤ scale) : (rawProduct dest x y scale).Agrees (x.toRat * y.toRat) s := by
  obtain ⟨hdigits, hmag⟩ := rawProduct_spec dest scale hx hy
  rcases le_or_gt (x.scale + y.scale) (max scale (max x.scale y.scale)) with h | h
  · have hscale : prodScale x y scale = x.scale + y.scale := min_eq_left h
    refine agrees_of_exact hdigits ?_
    rw [hmag, rawProduct_scale, hscale, Nat.sub_self, pow_zero, Nat.div_one, abs_toRat_mul]
    push_cast
    field_simp
  · have hscale : prodScale x y scale = max scale (max x.scale y.scale) := min_eq_right h.le
    refine agrees_of_floor hdigits ?_ (rawProduct_mag dest scale hx hy)
    rw [rawProduct_scale, hscale]
    exact le_max_of_le_left hs

/-- The sign of a product that is not zero. -/
theorem mul_sign (h : x.toRat * y.toRat ≠ 0) :
    (x.neg ^^ y.neg) = decide (x.toRat * y.toRat < 0) := by
  obtain ⟨hx, hy⟩ := mul_ne_zero_iff.1 h
  have hpx : 0 < x.frac 10 := abs_toRat x ▸ abs_pos.2 hx
  have hpy : 0 < y.frac 10 := abs_toRat y ▸ abs_pos.2 hy
  have hpos := mul_pos hpx hpy
  rw [toRat_eq_frac, toRat_eq_frac]
  cases x.neg <;> cases y.neg <;> simp [hpos, hpos.le]

/-- A raw product without digits is that of zeros. -/
theorem eq_zero_of_isZero (hx : x.DigitsBelow 10) (hy : y.DigitsBelow 10)
    (h : (numNormalize (rawProduct dest x y numericMaxScaleInt)).IsZero) :
    x.toRat * y.toRat = 0 := by
  obtain ⟨k, hk⟩ := numNormalize_spec (rawProduct dest x y numericMaxScaleInt)
  have hscale : prodScale x y numericMaxScaleInt = 0 := by
    rw [← rawProduct_scale dest, ← hk.scale]
    omega
  have hfull : x.scale + y.scale = 0 := by
    rcases min_eq_iff.1 hscale with ⟨h0, -⟩ | ⟨h0, -⟩
    · exact h0
    · exact absurd (le_max_left numericMaxScaleInt (max x.scale y.scale)) (by rw [h0]; decide)
  have hmag : x.mag * y.mag = 0 := by
    have hraw := (rawProduct_spec dest numericMaxScaleInt hx hy).2
    rwa [← hk.mag_eq, mag, h, val_zero, hfull, Nat.zero_sub, pow_zero, Nat.div_one, eq_comm]
      at hraw
  rw [← abs_eq_zero, abs_toRat_mul, hmag, Nat.cast_zero, zero_div]

/-- `num_multiply` delivers the digits of the product; what is too long gets its sign from
`_numeric_normalize`. -/
theorem numMultiply_exact_iff (hx : x.Canonical) (hy : y.Canonical) :
    Exact (x.toRat * y.toRat) (numericNormalize (numMultiply dest x y numericMaxScaleInt)) ↔
      (numericMaxPrecision < intDigits (x.toRat * y.toRat) → 0 ≤ x.toRat * y.toRat) := by
  obtain ⟨hdigits, -⟩ := rawProduct_spec dest numericMaxScaleInt hx.digits hy.digits
  have hmag := rawProduct_mag dest numericMaxScaleInt hx.digits hy.digits
  obtain ⟨k, hk⟩ := numNormalize_spec (rawProduct dest x y numericMaxScaleInt)
  have hzero := eq_zero_of_isZero dest hx.digits hy.digits
  have hneg := hk.neg.trans (rawProduct_neg dest numericMaxScaleInt hx hy)
  rw [numMultiply]
  have hwhole : Whole { numNormalize (rawProduct dest x y numericMaxScaleInt) with
      neg := if (numNormalize (rawProduct dest x y numericMaxScaleInt)).IsZero then false
        else (numNormalize (rawProduct dest x y numericMaxScaleInt)).neg } (x.toRat * y.toRat) := by
    refine hk.whole rfl (fun i hi => hdigits i (by omega)) (cut_zero_of_floor hdigits hmag)
      (fun hq => ?_) fun hb => ?_
    · rw [if_neg (mt hzero hq), hneg, mul_sign hq]
    · intro hz
      rw [if_pos hz] at hb
      exact Bool.false_ne_true hb
  have hsize : (rawProduct dest x y numericMaxScaleInt).len +
      (rawProduct dest x y numericMaxScaleInt).scale ≤ numericStackBytes := by
    have hxt : x.len + x.scale ≤ 45 := hx.total_le
    have hyt : y.len + y.scale ≤ 45 := hy.total_le
    have hle : prodScale x y numericMaxScaleInt ≤ x.scale + y.scale := min_le_left _ _
    rw [rawProduct_len, rawProduct_scale]
    show _ ≤ 104
    omega
  rw [dest.normalize_exact_iff hk hsize hwhole]
  exact and_iff_right fun _ => rawProduct_agrees dest hx.digits hy.digits (min_le_right _ _)

/-- A product is exact up to truncation unless it is negative and too long. -/
theorem numericMultiply_exact_iff (dest : Dest) (hx : x.Canonical) (hy : y.Canonical)
    (hvx : x.invalid = .valid) (hvy : y.invalid = .valid) :
    Exact (x.toRat * y.toRat) (numericMultiply dest x y) ↔
      (numericMaxPrecision < intDigits (x.toRat * y.toRat) → 0 ≤ x.toRat * y.toRat) := by
  rw [numericMultiply, if_neg (not_not.2 hvx), if_neg (not_not.2 hvy)]
  exact numMultiply_exact_iff dest hx hy

end Product

/-- A negative product that fits. -/
theorem numericMultiply_exact_longOne :
    Exact (longOne.toRat * minusOne.toRat) (numericMultiply (.other blank) longOne minusOne) := by
  refine (numericMultiply_exact_iff (.other blank) longOne_canonical minusOne_canonical rfl rfl).2
    ?_
  have hdigits : intDigits (longOne.toRat * minusOne.toRat) = 25 := by
    rw [longOne_toRat, minusOne_toRat, mul_neg_one, intDigits_neg, intDigits_natCast]
    norm_num
  rw [hdigits]
  exact fun h => absurd h (by decide)

/-- A negative product that is too long becomes plus infinity. -/
theorem numericMultiply_inexact :
    ¬ Exact (minusNines.toRat * longOne.toRat)
      (numericMultiply (.other blank) minusNines longOne) := by
  have hvalue : minusNines.toRat * longOne.toRat = -((10 ^ 64 - 10 ^ 24 : ℕ) : ℚ) := by
    rw [longOne_toRat, minusNines_toRat]
    norm_num
  have hdigits : intDigits (-((10 ^ 64 - 10 ^ 24 : ℕ) : ℚ)) = 64 := by
    rw [intDigits_neg, intDigits_natCast]
    norm_num
  have hx : ¬ minusNines.IsInvalid := not_not.2 rfl
  have hy : ¬ longOne.IsInvalid := not_not.2 rfl
  rw [numericMultiply, if_neg hx, if_neg hy,
    numMultiply_exact_iff (.other blank) minusNines_canonical longOne_canonical, hvalue, hdigits]
  intro hnonneg
  exact absurd (hnonneg (by decide)) (by norm_num)

end Virtuoso.Numeric
