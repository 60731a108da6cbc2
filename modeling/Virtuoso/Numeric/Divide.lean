import Virtuoso.Lib.LongDivision
import Virtuoso.Numeric.Multiply

/-!
# Division (`numeric_divide`)

`num_divide` is Knuth's long division in base ten: both numbers are multiplied by a factor that
makes the first digit of the divisor at least five, each digit of the quotient is guessed from two
digits, corrected at most twice on three digits and, if it was still one too large, corrected once
more by adding the divisor back.

The model checks every access to the digit buffers; `none` is an access outside of a buffer or an
assertion that fails.  `divideStep_spec` says that a step delivers the true digit, `divideLoop_spec`
that the loop delivers the true quotient and stays inside the buffers.  `numericDivide` delivers the
exact quotient if the buffers are large enough for the operands (`Fits`) and the quotient is not
negative and too long (`numericDivide_exact_iff`).
-/

namespace Virtuoso.Numeric

open Lib Lib.Radix

/-! ## One digit of the quotient -/

/-- `_num_multiply_int`: the `size` digits of `num` times `digit`, at position `w` of `result`, and
the carry, which the source stores in front of them if it is not zero.  `num` may be the window
that is written. -/
def numMultiplyInt (result num : ℕ → ℕ) (w size digit : ℕ) : (ℕ → ℕ) × ℕ :=
  if digit = 0 then (fun i => if w ≤ i ∧ i < w + size then 0 else result i, 0)
  else if digit = 1 then (fun i => if w ≤ i ∧ i < w + size then num (i - w) else result i, 0)
  else digitLoop (fun i carry => ((num i * digit + carry) % 10, (num i * digit + carry) / 10)) w
    size
    0 result

/-- The first guess for a digit of the quotient. -/
def firstGuess (n2 num1 : ℕ → ℕ) (qdig : ℕ) : ℕ :=
  if n2 0 = num1 qdig then 9 else (num1 qdig * 10 + num1 (qdig + 1)) / n2 0

/-- The test of a guess on three digits.  The difference is not negative, since the guess was
computed from these digits. -/
def TooLarge (n2 num1 : ℕ → ℕ) (qdig qguess : ℕ) : Prop :=
  n2 1 * qguess >
    (num1 qdig * 10 + num1 (qdig + 1) - n2 0 * qguess) * 10 + num1 (qdig + 2)

instance (n2 num1 : ℕ → ℕ) (qdig qguess : ℕ) : Decidable (TooLarge n2 num1 qdig qguess) :=
  inferInstanceAs (Decidable (_ > _))

/-- The guess, corrected at most twice. -/
def guess (n2 num1 : ℕ → ℕ) (qdig : ℕ) : ℕ :=
  let qguess := firstGuess n2 num1 qdig
  if TooLarge n2 num1 qdig qguess then
    if TooLarge n2 num1 qdig (qguess - 1) then qguess - 2 else qguess - 1
  else qguess

/-- Multiply and subtract: the new digits, and the borrow. -/
def multiplySubtract (n2 num1 mval : ℕ → ℕ) (len2 qdig qguess : ℕ) : (ℕ → ℕ) × ℕ :=
  if qguess ≠ 0 then
    let r := numMultiplyInt mval n2 1 len2 qguess
    let mval := Function.update r.1 0 r.2
    digitLoop (fun i => subtractStep (num1 (qdig + i)) (mval i)) qdig (len2 + 1) 0 num1
  else (num1, 0)

def addBack (n2 num1 : ℕ → ℕ) (len2 qdig : ℕ) : ℕ → ℕ :=
  let r := digitLoop (fun i => addStep (num1 (qdig + 1 + i)) (n2 i)) (qdig + 1) len2 0 num1
  if r.2 = 1 then Function.update r.1 qdig ((r.1 qdig + 1) % 10) else r.1

/-- One turn of the loop of `num_divide`: the new digits of the dividend, and the digit of the
quotient. -/
def divideStep (n2 num1 mval : ℕ → ℕ) (len2 qdig : ℕ) : (ℕ → ℕ) × ℕ :=
  let qguess := guess n2 num1 qdig
  let r := multiplySubtract n2 num1 mval len2 qdig qguess
  if r.2 = 1 then (addBack n2 r.1 len2 qdig, qguess - 1) else (r.1, qguess)

/-! ## The routine -/

/-- The loop of `num_divide`.  `n2` is what `n2ptr` points to, `num2 + skip`; `mval` is what its
buffer holds, which each turn overwrites as far as it reads it; `bytes` is the size of the buffer
of the quotient. -/
def divideLoop (n2 mval : ℕ → ℕ) (skip len2 bytes : ℕ) :
    (steps qdig qpos : ℕ) → (num1 quot : ℕ → ℕ) → Option (ℕ → ℕ)
  | 0, _, _, _, quot => some quot
  | steps + 1, qdig, qpos, num1, quot =>
    if qdig + 2 < numericStackBytes ∧ qdig + len2 < numericStackBytes ∧
        skip + 1 < numericStackBytes ∧ skip + len2 ≤ numericStackBytes ∧
        len2 < numericStackBytes ∧ qpos < bytes then
      let r := divideStep n2 num1 mval len2 qdig
      divideLoop n2 mval skip len2 bytes steps (qdig + 1) (qpos + 1) r.1
        (Function.update quot qpos r.2)
    else none

/-- What the buffers on the stack and the memory for the result hold when `num_divide` starts, and
the digits that memory has room for. -/
structure Memory where
  num1 : ℕ → ℕ
  num2 : ℕ → ℕ
  mval : ℕ → ℕ
  bytes : ℕ

/-- `num1`: a zero, the digits of `n1` and `extra + 1` zeros. -/
def dividend (mem : Memory) (n₁ : Numeric) (extra : ℕ) : ℕ → ℕ := fun i =>
  if i = 0 then 0
  else if i < 1 + (n₁.len + n₁.scale) then n₁.value (i - 1)
  else if i < n₁.len + n₁.scale + extra + 2 then 0
  else mem.num1 i

/-- `num2`: the `len2` digits of `n2` and a zero. -/
def divisor (mem : Memory) (n₂ : Numeric) (len2 : ℕ) : ℕ → ℕ := fun i =>
  if i < len2 then n₂.value i else if i = len2 then 0 else mem.num2 i

/-- A number is multiplied by the factor of the normalization, unless that is one. -/
def scaled (num : ℕ → ℕ) (size norm : ℕ) : (ℕ → ℕ) × ℕ :=
  if norm ≠ 1 then numMultiplyInt num num 0 size norm else (num, 0)

/-- The full divide algorithm: the numbers are normalized, then the loop runs. -/
def fullDivide (mem : Memory) (num1 n2 quot : ℕ → ℕ) (skip size len1 len2 scale : ℕ) :
    Option (ℕ → ℕ) :=
  let norm := 10 / (n2 0 + 1)
  let r1 := scaled num1 size norm
  let r2 := scaled n2 len2 norm
  -- a carry would be stored before the buffer
  if r1.2 ≠ 0 ∨ (r2.2 ≠ 0 ∧ skip = 0) then none
  else divideLoop r2.1 mem.mval skip len2 mem.bytes (len1 + scale - len2 + 1) 0 (len2 - len1) r1.1
    quot

/-- The number of quotient digits, with one for the zero integer part. -/
def quotientDigits (len1 len2 scale : ℕ) : ℕ :=
  if len2 > len1 then scale + 1 else len1 - len2 + scale + 1

/-- The quotient before leading zeros are removed. -/
def rawQuotient (mem : Memory) (dest : Dest) (n₁ n₂ : Numeric) (scale : ℕ) : Option Numeric :=
  let scale2 := dropZeros n₂.value n₂.len n₂.scale
  let len1 := n₁.len + scale2
  let extra := scale + scale2 - n₁.scale
  let digits2 := n₂.len + scale2
  let skip := skipZeros n₂.value digits2 0
  let len2 := digits2 - skip
  let qdigits := quotientDigits len1 len2 scale
  -- the loop that skips zeros of `num2` needs a digit to stop at
  if n₁.len + n₁.scale + extra + 2 > numericStackBytes ∨ digits2 + 1 > numericStackBytes ∨
      skip = digits2 ∨ qdigits > mem.bytes then none
  else
    let qval := { dest.start with
      len := qdigits - scale
      scale := scale
      neg := n₁.neg ^^ n₂.neg
      value := fun i => if i < qdigits then 0 else dest.start.value i }
    if len2 > len1 + scale then some qval
    else
      (fullDivide mem (dividend mem n₁ extra) (fun i => divisor mem n₂ digits2 (skip + i))
        qval.value skip (n₁.len + n₁.scale + extra + 1) len1 len2 scale).map
        fun quot => { qval with value := quot }

/-- `num_divide`: the return code, and the result. -/
def numDivide (mem : Memory) (dest : Dest) (n₁ n₂ : Numeric) (scale : ℕ) : Option (ℤ × Numeric) :=
  if n₂.IsZero then some (-1, dest.target)
  else
    (rawQuotient mem dest n₁ n₂ scale).map fun qval =>
      let qval := numNormalize qval
      (0, dest.finish { qval with neg := if qval.IsZero then false else qval.neg })

/-- `numeric_divide`. -/
def numericDivide (mem : Memory) (dest : Dest) (x y : Numeric) : Option (Status × Numeric) :=
  let z := dest.target
  if x.IsInvalid then
    if x.IsNan ∨ y.IsInvalid then some (.success, (numericNan z).2)
    else some (.success, (numericInf z (x.neg ^^ y.neg)).2)
  else if y.IsInvalid then
    if y.IsNan then some (.success, (numericNan z).2)
    else some (.success, numSet0 z)
  else
    (numDivide mem dest x y numericMaxScaleInt).bind fun r =>
      if r.1 = -1 then some (.divideZero, (numericInf r.2 x.neg).2)
      else numericNormalize r.2

/-! ## The guess -/

section Guess

variable {n2 num1 : ℕ → ℕ} {len2 qdig : ℕ}

theorem val_two (f : ℕ → ℕ) (p : ℕ) : val 10 f p 2 = f p * 10 + f (p + 1) := by simp [val]

/-- The first guess fits into two digits of the dividend. -/
theorem firstGuess_mul_le :
    firstGuess n2 num1 qdig * n2 0 ≤ num1 qdig * 10 + num1 (qdig + 1) := by
  unfold firstGuess
  split_ifs with heq
  · omega
  · exact Nat.div_mul_le_self _ _

variable {g : ℕ}

/-- The test compares the guess on three digits. -/
theorem tooLarge_iff (hg : g * n2 0 ≤ num1 qdig * 10 + num1 (qdig + 1)) :
    TooLarge n2 num1 qdig g ↔ val 10 num1 qdig 3 < g * val 10 n2 0 2 := by
  have h3 : val 10 num1 qdig 3 =
      (num1 qdig * 10 + num1 (qdig + 1)) * 10 + num1 (qdig + 2) := by simp [val]
  have h2 : g * val 10 n2 0 2 = g * n2 0 * 10 + n2 1 * g := by simp [val]; ring
  rw [TooLarge, h3, h2, Nat.mul_comm (n2 0) g]
  omega

/-- The digits of divisor and dividend when a digit of the quotient is computed. -/
structure Ready (n2 num1 : ℕ → ℕ) (len2 qdig : ℕ) : Prop where
  pos : 0 < len2
  digits2 : ∀ i < len2, n2 i < 10
  digits1 : ∀ i < len2 + 1, num1 (qdig + i) < 10
  /-- The divisor is normalized, -/
  leading : 5 ≤ n2 0
  /-- and a zero follows. -/
  after : n2 len2 = 0
  lt : val 10 num1 qdig (len2 + 1) < 10 * val 10 n2 0 len2

variable (h : Ready n2 num1 len2 qdig)
include h

theorem Ready.divisor_pos : 0 < val 10 n2 0 len2 := by
  have := h.lt
  omega

theorem Ready.div_lt : val 10 num1 qdig (len2 + 1) / val 10 n2 0 len2 < 10 :=
  (Nat.div_lt_iff_lt_mul h.divisor_pos).2 h.lt

/-- The first `k` digits of the divisor and `k + 1` of the dividend count units of one size. -/
theorem Ready.units (k : ℕ) (hk : k ≤ len2) : ∃ P,
    (val 10 n2 0 k * P ≤ val 10 n2 0 len2 ∧ val 10 n2 0 len2 < (val 10 n2 0 k + 1) * P) ∧
      val 10 num1 qdig (k + 1) * P ≤ val 10 num1 qdig (len2 + 1) ∧
      val 10 num1 qdig (len2 + 1) < (val 10 num1 qdig (k + 1) + 1) * P := by
  obtain ⟨n, rfl⟩ := Nat.exists_eq_add_of_le hk
  refine ⟨10 ^ n, ⟨val_mul_pow_le k, val_lt_mul_pow fun i hi => ?_⟩, ?_⟩
  · exact h.digits2 _ (by omega)
  · rw [show k + n + 1 = k + 1 + n by omega]
    refine ⟨val_mul_pow_le _, val_lt_mul_pow fun i hi => ?_⟩
    rw [Nat.add_assoc]
    exact h.digits1 _ (by omega)

/-- The first digit of the dividend is at most that of the divisor. -/
theorem Ready.first_le : num1 qdig ≤ n2 0 := by
  obtain ⟨P, ⟨-, hB⟩, hR, -⟩ := h.units 1 h.pos
  have hlt : num1 qdig * (10 * P) < (n2 0 + 1) * (10 * P) := by
    rw [val_one] at hB
    rw [val_two] at hR
    calc num1 qdig * (10 * P) ≤ (num1 qdig * 10 + num1 (qdig + 1)) * P := by
          rw [← Nat.mul_assoc]
          exact Nat.mul_le_mul_right _ (Nat.le_add_right _ _)
      _ ≤ val 10 num1 qdig (len2 + 1) := hR
      _ < 10 * val 10 n2 0 len2 := h.lt
      _ ≤ 10 * ((n2 0 + 1) * P) := Nat.mul_le_mul_left _ hB.le
      _ = (n2 0 + 1) * (10 * P) := by ring
  exact Nat.lt_succ_iff.1 (Nat.lt_of_mul_lt_mul_right hlt)

theorem Ready.firstGuess_le_nine : firstGuess n2 num1 qdig ≤ 9 := by
  have hfirst := h.first_le
  have hdigit := h.digits1 1 (by have := h.pos; omega)
  unfold firstGuess
  split_ifs with heq
  · exact le_rfl
  · refine Nat.lt_succ_iff.1 ((Nat.div_lt_iff_lt_mul (by omega)).2 ?_)
    omega

/-- The first guess is not too small, -/
theorem Ready.le_firstGuess :
    val 10 num1 qdig (len2 + 1) / val 10 n2 0 len2 ≤ firstGuess n2 num1 qdig := by
  unfold firstGuess
  split_ifs with heq
  · exact Nat.lt_succ_iff.1 h.div_lt
  · obtain ⟨P, ⟨hB, -⟩, -, hR⟩ := h.units 1 h.pos
    have hlead := h.leading
    have hle := LongDivision.div_mul_le hB hR
    rw [val_one, val_two] at hle
    exact (Nat.le_div_iff_mul_le (by omega)).2 hle

/-- and by at most two too large. -/
theorem Ready.firstGuess_le :
    firstGuess n2 num1 qdig ≤ val 10 num1 qdig (len2 + 1) / val 10 n2 0 len2 + 2 := by
  obtain ⟨P, ⟨-, hB⟩, hR, -⟩ := h.units 1 h.pos
  have hlead := h.leading
  have hnine := h.firstGuess_le_nine
  have hlt := LongDivision.mul_lt_of_mul_le h.divisor_pos hB hR (g := firstGuess n2 num1 qdig)
    (by rw [val_one, val_two]; exact firstGuess_mul_le)
  rw [val_one] at hlt
  generalize val 10 num1 qdig (len2 + 1) / val 10 n2 0 len2 = q at *
  by_contra hgt
  have hmul : (q + 3) * n2 0 ≤ firstGuess n2 num1 qdig * n2 0 :=
    Nat.mul_le_mul_right _ (by omega)
  have h₁ : (q + 3) * n2 0 = q * n2 0 + 3 * n2 0 := Nat.add_mul _ _ _
  have h₂ : (q + 1) * (n2 0 + 1) = q * n2 0 + q + n2 0 + 1 := by ring
  omega

/-- A guess that fails the test is too large. -/
theorem Ready.lt_of_tooLarge (hg : g * n2 0 ≤ num1 qdig * 10 + num1 (qdig + 1))
    (ht : TooLarge n2 num1 qdig g) : val 10 num1 qdig (len2 + 1) / val 10 n2 0 len2 < g := by
  have hpos := h.pos
  rcases Nat.lt_or_ge len2 2 with hlen | hlen
  · have hafter : n2 1 = 0 := by
      rw [show 1 = len2 by omega]
      exact h.after
    rw [TooLarge, hafter, Nat.zero_mul] at ht
    exact absurd ht (Nat.not_lt_zero _)
  · obtain ⟨P, ⟨hB, -⟩, -, hR⟩ := h.units 2 hlen
    have hle := LongDivision.div_mul_le hB hR
    exact Nat.lt_of_mul_lt_mul_right (lt_of_le_of_lt hle ((tooLarge_iff hg).1 ht))

/-- A guess that passes it is by at most one too large. -/
theorem Ready.le_of_not_tooLarge (hg : g * n2 0 ≤ num1 qdig * 10 + num1 (qdig + 1))
    (ht : ¬ TooLarge n2 num1 qdig g) : g ≤ val 10 num1 qdig (len2 + 1) / val 10 n2 0 len2 + 1 := by
  have hpos := h.pos
  rcases Nat.lt_or_ge len2 2 with hlen | hlen
  · -- with one digit the guess is the quotient
    obtain rfl : len2 = 1 := by omega
    rw [val_one, val_two]
    exact Nat.le_succ_of_le ((Nat.le_div_iff_mul_le (by have := h.leading; omega)).2 hg)
  · obtain ⟨P, ⟨-, hB⟩, hR, -⟩ := h.units 2 hlen
    have hlead := h.leading
    have hq := h.div_lt
    have hlt := LongDivision.mul_lt_of_mul_le h.divisor_pos hB hR
      (not_lt.1 (mt (tooLarge_iff hg).2 ht))
    have hlarge : 50 ≤ val 10 n2 0 2 := by
      rw [val_two]
      omega
    generalize val 10 num1 qdig (len2 + 1) / val 10 n2 0 len2 = q at *
    generalize val 10 n2 0 2 = v at *
    by_contra hgt
    have hmul : (q + 2) * v ≤ g * v := Nat.mul_le_mul_right _ (by omega)
    have h₁ : (q + 2) * v = q * v + 2 * v := Nat.add_mul _ _ _
    have h₂ : (q + 1) * (v + 1) = q * v + q + v + 1 := by ring
    omega

omit h in
theorem guess_le_firstGuess : guess n2 num1 qdig ≤ firstGuess n2 num1 qdig := by
  simp only [guess]
  split_ifs
  · exact Nat.sub_le _ _
  · exact Nat.sub_le _ _
  · exact le_rfl

/-- The guess is the digit or by one too large. -/
theorem Ready.guess_spec : val 10 num1 qdig (len2 + 1) / val 10 n2 0 len2 ≤ guess n2 num1 qdig ∧
    guess n2 num1 qdig ≤ val 10 num1 qdig (len2 + 1) / val 10 n2 0 len2 + 1 := by
  have hle := h.le_firstGuess
  have hge := h.firstGuess_le
  have hfit := @firstGuess_mul_le n2 num1 qdig
  have hfit' : (firstGuess n2 num1 qdig - 1) * n2 0 ≤ num1 qdig * 10 + num1 (qdig + 1) :=
    le_trans (Nat.mul_le_mul_right _ (Nat.sub_le _ _)) hfit
  simp only [guess]
  split_ifs with h₁ h₂
  · have hlt := h.lt_of_tooLarge hfit' h₂
    generalize val 10 num1 qdig (len2 + 1) / val 10 n2 0 len2 = q at *
    omega
  · have hlt := h.lt_of_tooLarge hfit h₁
    exact ⟨Nat.le_sub_one_of_lt hlt, h.le_of_not_tooLarge hfit' h₂⟩
  · exact ⟨hle, h.le_of_not_tooLarge hfit h₁⟩

end Guess

/-! ## Multiply, subtract, add back -/

variable {num : ℕ → ℕ} {j : ℕ}

/-- The product by one digit: its digits and the carry. -/
theorem numMultiplyInt_spec (result : ℕ → ℕ) {size : ℕ} (w digit : ℕ)
    (hnum : ∀ i < size, num i < 10) :
    (∀ i < size, (numMultiplyInt result num w size digit).1 (w + i) < 10) ∧
      (numMultiplyInt result num w size digit).2 * 10 ^ size +
        val 10 (numMultiplyInt result num w size digit).1 w size = val 10 num 0 size * digit := by
  unfold numMultiplyInt
  split_ifs with h0 h1
  · subst h0
    refine ⟨fun i hi => by dsimp only; rw [if_pos (by omega)]; norm_num, ?_⟩
    rw [Nat.zero_mul, Nat.zero_add, Nat.mul_zero]
    exact val_eq_zero fun i hi => if_pos (by omega)
  · subst h1
    refine ⟨fun i hi => ?_, ?_⟩
    · dsimp only
      rw [if_pos (by omega), Nat.add_sub_cancel_left]
      exact hnum i hi
    · rw [Nat.zero_mul, Nat.zero_add, Nat.mul_one]
      refine val_congr fun i hi => ?_
      dsimp only
      rw [if_pos (by omega), Nat.add_sub_cancel_left, Nat.zero_add]
  · obtain ⟨-, hdigits, hvalue⟩ := @digitLoop_spec
      (fun i carry => ((num i * digit + carry) % 10, (num i * digit + carry) / 10)) w size 0 result
      10 1 (fun i => ((num i * digit : ℕ) : ℤ)) (fun _ => True) trivial fun i _ c _ => by
        refine ⟨trivial, Nat.mod_lt _ (by norm_num), ?_⟩
        omega
    refine ⟨hdigits, ?_⟩
    have hcast := cast_val (R := ℤ) 10 (fun i => num i * digit) 0 size
    rw [val_mul_right] at hcast
    zify
    push_cast at hcast hvalue
    rw [hcast]
    linear_combination hvalue

theorem numMultiplyInt_outside {result : ℕ → ℕ} {w size digit : ℕ} (hj : j < w ∨ w + size ≤ j) :
    (numMultiplyInt result num w size digit).1 j = result j := by
  unfold numMultiplyInt
  split_ifs
  · exact if_neg (by omega)
  · exact if_neg (by omega)
  · exact digitLoop_outside hj

section Subtract

variable {n2 num1 mval : ℕ → ℕ} {len2 qdig g : ℕ}

theorem multiplySubtract_outside (hj : j < qdig ∨ qdig + (len2 + 1) ≤ j) :
    (multiplySubtract n2 num1 mval len2 qdig g).1 j = num1 j := by
  unfold multiplySubtract
  split_ifs
  · exact digitLoop_outside hj
  · rfl

/-- The multiple of the divisor is subtracted, up to a borrow. -/
theorem multiplySubtract_spec (h1 : ∀ i < len2 + 1, num1 (qdig + i) < 10)
    (h2 : ∀ i < len2, n2 i < 10) (hg : g < 10) :
    (multiplySubtract n2 num1 mval len2 qdig g).2 ≤ 1 ∧
      (∀ i < len2 + 1, (multiplySubtract n2 num1 mval len2 qdig g).1 (qdig + i) < 10) ∧
      val 10 (multiplySubtract n2 num1 mval len2 qdig g).1 qdig (len2 + 1) +
          val 10 n2 0 len2 * g =
        val 10 num1 qdig (len2 + 1) +
          10 ^ (len2 + 1) * (multiplySubtract n2 num1 mval len2 qdig g).2 := by
  unfold multiplySubtract
  split_ifs with h0
  · obtain ⟨hdigits, hvalue⟩ := numMultiplyInt_spec mval 1 g h2
    generalize numMultiplyInt mval n2 1 len2 g = r at hdigits hvalue ⊢
    -- the carry is a digit, since the multiplier is
    have hcarry : r.2 < 10 := by
      have hlt : val 10 n2 0 len2 < 10 ^ len2 := val_lt_pow_zero h2
      have hmul : r.2 * 10 ^ len2 < 10 * 10 ^ len2 := by
        calc r.2 * 10 ^ len2 ≤ val 10 n2 0 len2 * g := hvalue ▸ Nat.le_add_right _ _
          _ ≤ val 10 n2 0 len2 * 10 := Nat.mul_le_mul_left _ hg.le
          _ < 10 ^ len2 * 10 := Nat.mul_lt_mul_of_pos_right hlt (by norm_num)
          _ = 10 * 10 ^ len2 := Nat.mul_comm _ _
      exact Nat.lt_of_mul_lt_mul_right hmul
    have hm : ∀ i < len2 + 1, Function.update r.1 0 r.2 i < 10 := by
      simpa only [Nat.zero_add] using digits_update hcarry hdigits
    have hmval : val 10 (Function.update r.1 0 r.2) 0 (len2 + 1) = val 10 n2 0 len2 * g :=
      val_update.trans hvalue
    have hwindow : val 10 (fun i => num1 (qdig + i)) 0 (len2 + 1) = val 10 num1 qdig (len2 + 1) :=
      val_congr fun i _ => by rw [Nat.zero_add]
    rw [← hmval, ← hwindow]
    exact subtractLoop_spec qdig num1 h1 hm
  · obtain rfl : g = 0 := not_not.1 h0
    exact ⟨Nat.zero_le 1, h1, by rw [Nat.mul_zero, Nat.mul_zero]⟩

theorem addBack_outside (hj : j < qdig ∨ qdig + (len2 + 1) ≤ j) :
    addBack n2 num1 len2 qdig j = num1 j := by
  simp only [addBack]
  split_ifs
  · rw [Function.update_of_ne (by omega), digitLoop_outside (by omega)]
  · exact digitLoop_outside (by omega)

/-- Adding the divisor back cancels the borrow. -/
theorem addBack_spec (h1 : ∀ i < len2 + 1, num1 (qdig + i) < 10) (h2 : ∀ i < len2, n2 i < 10)
    (hover : 10 ^ (len2 + 1) ≤ val 10 num1 qdig (len2 + 1) + val 10 n2 0 len2) :
    (∀ i < len2 + 1, addBack n2 num1 len2 qdig (qdig + i) < 10) ∧
      val 10 (addBack n2 num1 len2 qdig) qdig (len2 + 1) + 10 ^ (len2 + 1) =
        val 10 num1 qdig (len2 + 1) + val 10 n2 0 len2 := by
  obtain ⟨hcarry, hdigits, hvalue⟩ := addLoop_spec (qdig + 1) num1
    (fun i hi => show num1 (qdig + 1 + i) < 10 by rw [Nat.add_assoc]; exact h1 _ (by omega)) h2
  have hwindow : val 10 (fun i => num1 (qdig + 1 + i)) 0 len2 = val 10 num1 (qdig + 1) len2 :=
    val_congr fun i _ => by rw [Nat.zero_add]
  have hkeep : (digitLoop (fun i => addStep (num1 (qdig + 1 + i)) (n2 i)) (qdig + 1) len2 0
      num1).1 qdig = num1 qdig := digitLoop_outside (by omega)
  simp only [addBack]
  generalize digitLoop (fun i => addStep (num1 (qdig + 1 + i)) (n2 i)) (qdig + 1) len2 0 num1 = r
    at hcarry hdigits hvalue hkeep ⊢
  have hfirst := h1 0 (by omega)
  rw [Nat.add_zero] at hfirst
  have hlow : val 10 r.1 (qdig + 1) len2 < 10 ^ len2 := val_lt_pow hdigits
  rw [val_succ_left, pow_succ] at hover
  -- the sum is at least `10 ^ (len2 + 1)`, so that the first digit is a nine and gets the carry
  have hnine : num1 qdig * 10 ^ len2 ≤ 9 * 10 ^ len2 := Nat.mul_le_mul_right _ (by omega)
  have hone : r.2 = 1 := by
    rcases Nat.le_one_iff_eq_zero_or_eq_one.1 hcarry with h0 | h0
    · rw [h0, Nat.mul_zero] at hvalue
      omega
    · exact h0
  have htop : num1 qdig = 9 := by
    by_contra hne
    have hle : num1 qdig * 10 ^ len2 ≤ 8 * 10 ^ len2 := Nat.mul_le_mul_right _ (by omega)
    rw [hone, Nat.mul_one] at hvalue
    omega
  have hzero : (r.1 qdig + 1) % 10 = 0 := by rw [hkeep, htop]
  rw [if_pos hone, hzero]
  refine ⟨digits_update (by norm_num) hdigits, ?_⟩
  rw [val_update, val_succ_left, htop, pow_succ]
  rw [hone, Nat.mul_one] at hvalue
  omega

end Subtract

section Step

variable {n2 num1 : ℕ → ℕ} {len2 qdig : ℕ} (mval : ℕ → ℕ)

theorem divideStep_outside (hj : j < qdig ∨ qdig + (len2 + 1) ≤ j) :
    (divideStep n2 num1 mval len2 qdig).1 j = num1 j := by
  simp only [divideStep]
  split_ifs
  · exact (addBack_outside hj).trans (multiplySubtract_outside hj)
  · exact multiplySubtract_outside hj

/-- A step delivers the digit of the quotient and leaves the remainder. -/
theorem divideStep_spec (h : Ready n2 num1 len2 qdig) :
    (divideStep n2 num1 mval len2 qdig).2 = val 10 num1 qdig (len2 + 1) / val 10 n2 0 len2 ∧
      (∀ i < len2 + 1, (divideStep n2 num1 mval len2 qdig).1 (qdig + i) < 10) ∧
      val 10 (divideStep n2 num1 mval len2 qdig).1 qdig (len2 + 1) =
        val 10 num1 qdig (len2 + 1) % val 10 n2 0 len2 := by
  obtain ⟨hle, hge⟩ := h.guess_spec
  have hguess : guess n2 num1 qdig < 10 :=
    Nat.lt_succ_iff.2 (le_trans guess_le_firstGuess h.firstGuess_le_nine)
  obtain ⟨hborrow, hdigits, hvalue⟩ :=
    @multiplySubtract_spec n2 num1 mval len2 qdig _ h.digits1 h.digits2 hguess
  have hlt : val 10 (multiplySubtract n2 num1 mval len2 qdig (guess n2 num1 qdig)).1 qdig (len2 + 1)
      < 10 ^ (len2 + 1) := val_lt_pow hdigits
  have hmod := Nat.mod_lt (val 10 num1 qdig (len2 + 1)) h.divisor_pos
  have hdiv := Nat.div_add_mod (val 10 num1 qdig (len2 + 1)) (val 10 n2 0 len2)
  simp only [divideStep]
  rcases Nat.lt_or_eq_of_le hge with hlt' | heq
  · -- the guess is right: no borrow
    have heq : guess n2 num1 qdig = val 10 num1 qdig (len2 + 1) / val 10 n2 0 len2 :=
      le_antisymm (Nat.lt_succ_iff.1 hlt') hle
    have hzero : (multiplySubtract n2 num1 mval len2 qdig (guess n2 num1 qdig)).2 = 0 := by
      rcases Nat.le_one_iff_eq_zero_or_eq_one.1 hborrow with h0 | h0
      · exact h0
      · rw [h0, Nat.mul_one] at hvalue
        rw [← heq] at hdiv
        omega
    rw [if_neg (by rw [hzero]; decide)]
    refine ⟨heq, hdigits, ?_⟩
    rw [hzero, Nat.mul_zero] at hvalue
    rw [← heq] at hdiv
    dsimp only
    omega
  · -- the guess is one too large: the divisor is added back
    rw [heq, Nat.mul_add, Nat.mul_one, ← heq] at hvalue
    have hone : (multiplySubtract n2 num1 mval len2 qdig (guess n2 num1 qdig)).2 = 1 := by
      rcases Nat.le_one_iff_eq_zero_or_eq_one.1 hborrow with h0 | h0
      · rw [h0, Nat.mul_zero] at hvalue
        omega
      · exact h0
    rw [hone, Nat.mul_one] at hvalue
    obtain ⟨hdigits', hvalue'⟩ := addBack_spec hdigits h.digits2 (by omega)
    rw [if_pos hone]
    refine ⟨by rw [heq, Nat.add_sub_cancel], hdigits', ?_⟩
    dsimp only
    omega

end Step

/-! ## The loop -/

section Loop

variable {n2 : ℕ → ℕ} {len2 : ℕ}

/-- The divisor when the loop starts. -/
structure Normalized (n2 : ℕ → ℕ) (len2 : ℕ) : Prop where
  pos : 0 < len2
  digits : ∀ i < len2, n2 i < 10
  leading : 5 ≤ n2 0
  after : n2 len2 = 0

/-- With the remainder of the digits before in front, one step more. -/
theorem Normalized.ready (h : Normalized n2 len2) {num1 : ℕ → ℕ} {qdig : ℕ}
    (hdigits : ∀ i < len2 + 1, num1 (qdig + i) < 10)
    (hlt : val 10 num1 qdig len2 < val 10 n2 0 len2) : Ready n2 num1 len2 qdig := by
  refine ⟨h.pos, h.digits, hdigits, h.leading, h.after, ?_⟩
  have hlast := hdigits len2 (by omega)
  rw [val_succ]
  omega

/-- What a step leaves in front of the next digits. -/
theorem Normalized.val_divideStep (h : Normalized n2 len2) {num1 mval : ℕ → ℕ} {qdig : ℕ}
    (hready : Ready n2 num1 len2 qdig) :
    val 10 (divideStep n2 num1 mval len2 qdig).1 (qdig + 1) len2 =
      val 10 num1 qdig (len2 + 1) % val 10 n2 0 len2 := by
  obtain ⟨-, hdigits, hvalue⟩ := divideStep_spec mval hready
  -- the remainder is shorter than the window, which therefore starts with a zero
  have hlt : val 10 (divideStep n2 num1 mval len2 qdig).1 qdig (len2 + 1) < 10 ^ len2 := by
    rw [hvalue]
    exact lt_trans (Nat.mod_lt _ hready.divisor_pos) (val_lt_pow_zero h.digits)
  have hzero : (divideStep n2 num1 mval len2 qdig).1 qdig = 0 := by
    by_contra hne
    exact absurd (pow_le_val (b := 10) (n := len2) (Nat.pos_of_ne_zero hne)) (not_le.2 hlt)
  rw [val_succ_left, hzero, Nat.zero_mul, Nat.zero_add] at hvalue
  exact hvalue

/-- The loop delivers the quotient of the digits it passes, and accesses no byte outside of the
buffers. -/
theorem divideLoop_spec (mval : ℕ → ℕ) {skip bytes : ℕ} (h : Normalized n2 len2)
    (hskip : skip + len2 < numericStackBytes) (hone : skip + 1 < numericStackBytes) (steps : ℕ)
    {qdig qpos : ℕ} {num1 : ℕ → ℕ} (quot : ℕ → ℕ)
    (hsize : qdig + len2 + steps ≤ numericStackBytes) (htwo : qdig + steps + 1 < numericStackBytes)
    (hquot : qpos + steps ≤ bytes) (hdigits : ∀ i < len2 + steps, num1 (qdig + i) < 10)
    (hlt : val 10 num1 qdig len2 < val 10 n2 0 len2) :
    ∃ q, divideLoop n2 mval skip len2 bytes steps qdig qpos num1 quot = some q ∧
      (∀ i, i < qpos ∨ qpos + steps ≤ i → q i = quot i) ∧ (∀ i < steps, q (qpos + i) < 10) ∧
      val 10 q qpos steps = val 10 num1 qdig (len2 + steps) / val 10 n2 0 len2 := by
  induction steps generalizing qdig qpos num1 quot with
  | zero =>
    refine ⟨quot, rfl, fun _ _ => rfl, fun i hi => absurd hi (Nat.not_lt_zero i), ?_⟩
    rw [val_zero, Nat.add_zero, Nat.div_eq_of_lt hlt]
  | succ steps ih =>
    have hready : Ready n2 num1 len2 qdig := h.ready (fun i hi => hdigits i (by omega)) hlt
    obtain ⟨hdigit, hwindow, -⟩ := divideStep_spec mval hready
    have hrem := @Normalized.val_divideStep n2 len2 h num1 mval qdig hready
    have hkeep (j : ℕ) (hj : qdig + (len2 + 1) ≤ j) :
        (divideStep n2 num1 mval len2 qdig).1 j = num1 j := divideStep_outside mval (.inr hj)
    rw [divideLoop, if_pos (by omega)]
    generalize divideStep n2 num1 mval len2 qdig = r at hdigit hwindow hrem hkeep ⊢
    have hdigits' (i : ℕ) (hi : i < len2 + steps) : r.1 (qdig + 1 + i) < 10 := by
      rcases Nat.lt_or_ge i len2 with hlow | hhigh
      · rw [Nat.add_assoc]
        exact hwindow _ (by omega)
      · rw [hkeep _ (by omega), Nat.add_assoc]
        exact hdigits _ (by omega)
    obtain ⟨q, hq, hout, hin, hvalue⟩ := @ih (qdig + 1) (qpos + 1) r.1
      (Function.update quot qpos r.2) (by omega) (by omega) (by omega) hdigits'
      (hrem ▸ Nat.mod_lt _ hready.divisor_pos)
    have hfirst : q qpos = r.2 := by rw [hout qpos (by omega), Function.update_self]
    refine ⟨q, hq, fun i hi => ?_, digits_cons (by rw [hfirst, hdigit]; exact hready.div_lt) hin,
      ?_⟩
    · rw [hout i (by omega), Function.update_of_ne (by omega)]
    · have hrest : val 10 r.1 (qdig + 1 + len2) steps = val 10 num1 (qdig + (len2 + 1)) steps :=
        val_congr fun i _ => by
          rw [hkeep _ (by omega)]
          congr 1
          omega
      rw [val_succ_left, hfirst, hdigit, hvalue, val_append _ r.1, hrem, hrest,
        show len2 + (steps + 1) = len2 + 1 + steps by omega,
        val_append 10 num1 qdig (len2 + 1)]
      exact (LongDivision.divMod_step (10 ^ steps) _ _ hready.divisor_pos).1.symm

end Loop

/-! ## Normalization -/

variable (mem : Memory)

section FullDivide

variable {num1 n2 : ℕ → ℕ} {size len1 len2 scale : ℕ}

/-- The factor of the normalization. -/
theorem norm_spec {d : ℕ} (h0 : 0 < d) (h9 : d < 10) :
    0 < 10 / (d + 1) ∧ 10 / (d + 1) < 10 ∧ 10 / (d + 1) * (d + 1) ≤ 10 ∧ 5 ≤ 10 / (d + 1) * d := by
  interval_cases d <;> decide

theorem scaled_spec (norm : ℕ) (hnum : ∀ i < size, num i < 10) :
    (∀ i < size, (scaled num size norm).1 i < 10) ∧
      (scaled num size norm).2 * 10 ^ size + val 10 (scaled num size norm).1 0 size =
        val 10 num 0 size * norm := by
  unfold scaled
  split_ifs with h
  · obtain ⟨hdigits, hvalue⟩ := numMultiplyInt_spec num 0 norm hnum
    simp only [Nat.zero_add] at hdigits
    exact ⟨hdigits, hvalue⟩
  · obtain rfl : norm = 1 := not_not.1 h
    exact ⟨hnum, by rw [Nat.zero_mul, Nat.zero_add, Nat.mul_one]⟩

/-- If the product is not longer, there is no carry. -/
theorem scaled_of_lt {norm : ℕ} (hnum : ∀ i < size, num i < 10)
    (hlt : val 10 num 0 size * norm < 10 ^ size) : (scaled num size norm).2 = 0 ∧
      val 10 (scaled num size norm).1 0 size = val 10 num 0 size * norm := by
  obtain ⟨-, hvalue⟩ := scaled_spec norm hnum
  have hzero : (scaled num size norm).2 = 0 := by
    by_contra hne
    have : 10 ^ size ≤ (scaled num size norm).2 * 10 ^ size :=
      Nat.le_mul_of_pos_left _ (Nat.pos_of_ne_zero hne)
    omega
  exact ⟨hzero, by rw [← hvalue, hzero, Nat.zero_mul, Nat.zero_add]⟩

theorem scaled_outside {norm : ℕ} (hj : size ≤ j) : (scaled num size norm).1 j = num j := by
  unfold scaled
  split_ifs
  · exact numMultiplyInt_outside (by omega)
  · rfl

/-- The normalized divisor. -/
theorem normalized_scaled (hpos : 0 < len2) (h2 : ∀ i < len2, n2 i < 10) (hlead : 0 < n2 0)
    (hafter : n2 len2 = 0) :
    Normalized (scaled n2 len2 (10 / (n2 0 + 1))).1 len2 ∧
      (scaled n2 len2 (10 / (n2 0 + 1))).2 = 0 ∧
      val 10 (scaled n2 len2 (10 / (n2 0 + 1))).1 0 len2 =
        val 10 n2 0 len2 * (10 / (n2 0 + 1)) := by
  obtain ⟨hnorm, -, hle, hfive⟩ := norm_spec hlead (h2 0 hpos)
  generalize 10 / (n2 0 + 1) = norm at *
  obtain ⟨n, rfl⟩ := Nat.exists_eq_add_of_le hpos
  have hlow : val 10 n2 0 1 * 10 ^ n ≤ val 10 n2 0 (1 + n) := val_mul_pow_le 1
  have hhigh : val 10 n2 0 (1 + n) < (val 10 n2 0 1 + 1) * 10 ^ n := val_lt_mul_pow fun i hi => by
    exact h2 _ (by omega)
  rw [val_one] at hlow hhigh
  have hlt : val 10 n2 0 (1 + n) * norm < 10 ^ (1 + n) := by
    calc val 10 n2 0 (1 + n) * norm < (n2 0 + 1) * 10 ^ n * norm :=
          Nat.mul_lt_mul_of_pos_right hhigh hnorm
      _ = norm * (n2 0 + 1) * 10 ^ n := by ring
      _ ≤ 10 * 10 ^ n := Nat.mul_le_mul_right _ hle
      _ = 10 ^ (1 + n) := by ring
  obtain ⟨hcarry, hvalue⟩ := scaled_of_lt h2 hlt
  obtain ⟨hdigits, -⟩ := scaled_spec norm h2
  have hfirst : 5 * 10 ^ n < ((scaled n2 (1 + n) norm).1 0 + 1) * 10 ^ n := by
    calc 5 * 10 ^ n ≤ norm * n2 0 * 10 ^ n := Nat.mul_le_mul_right _ hfive
      _ = n2 0 * 10 ^ n * norm := by ring
      _ ≤ val 10 n2 0 (1 + n) * norm := Nat.mul_le_mul_right _ hlow
      _ = val 10 (scaled n2 (1 + n) norm).1 0 (1 + n) := hvalue.symm
      _ < (val 10 (scaled n2 (1 + n) norm).1 0 1 + 1) * 10 ^ n := val_lt_mul_pow fun i hi => by
          exact hdigits _ (by omega)
      _ = ((scaled n2 (1 + n) norm).1 0 + 1) * 10 ^ n := by rw [val_one]
  exact ⟨⟨hpos, hdigits, Nat.lt_succ_iff.1 (Nat.lt_of_mul_lt_mul_right hfirst),
    (scaled_outside le_rfl).trans hafter⟩, hcarry, hvalue⟩

theorem val_eq_div {f : ℕ → ℕ} {k : ℕ} (hk : k ≤ size) (hf : ∀ i < size, f i < 10) :
    val 10 f 0 k = val 10 f 0 size / 10 ^ (size - k) := by
  obtain ⟨e, rfl⟩ := Nat.exists_eq_add_of_le hk
  rw [Nat.add_sub_cancel_left]
  refine (val_div_pow fun i hi => ?_).symm
  exact hf _ (by omega)

/-- The full divide algorithm delivers the quotient of the first `len1 + scale + 1` digits. -/
theorem fullDivide_spec (quot : ℕ → ℕ) {skip : ℕ} (hpos : 0 < len2) (h2 : ∀ i < len2, n2 i < 10)
    (hlead : 0 < n2 0) (hafter : n2 len2 = 0) (h1 : ∀ i < size, num1 i < 10) (hzero : num1 0 = 0)
    (hlen : len2 ≤ len1 + scale) (hsize : len1 + scale + 1 ≤ size)
    (hstack : len1 + scale + 1 < numericStackBytes) (hskip : skip + len2 < numericStackBytes)
    (hquot : len2 - len1 + (len1 + scale - len2 + 1) ≤ mem.bytes) :
    ∃ q, fullDivide mem num1 n2 quot skip size len1 len2 scale = some q ∧
      (∀ i, i < len2 - len1 ∨ len2 - len1 + (len1 + scale - len2 + 1) ≤ i → q i = quot i) ∧
      (∀ i < len1 + scale - len2 + 1, q (len2 - len1 + i) < 10) ∧
      val 10 q (len2 - len1) (len1 + scale - len2 + 1) =
        val 10 num1 0 size / 10 ^ (size - (len1 + scale + 1)) / val 10 n2 0 len2 := by
  obtain ⟨hnormal, hcarry2, hvalue2⟩ := normalized_scaled hpos h2 hlead hafter
  obtain ⟨hnorm, hnorm9, -⟩ := norm_spec hlead (h2 0 hpos)
  rw [fullDivide]
  generalize 10 / (n2 0 + 1) = norm at *
  -- the dividend has a zero in front, so that its product by a digit is not longer
  have hshort : val 10 num1 0 size < 10 ^ (size - 1) := by
    rw [show size = size - 1 + 1 by omega, val_succ_left, hzero, Nat.zero_mul, Nat.zero_add]
    exact val_lt_pow fun i hi => h1 _ (by omega)
  have hlt : val 10 num1 0 size * norm < 10 ^ size := by
    calc val 10 num1 0 size * norm ≤ val 10 num1 0 size * 10 := Nat.mul_le_mul_left _ hnorm9.le
      _ < 10 ^ (size - 1) * 10 := Nat.mul_lt_mul_of_pos_right hshort (by norm_num)
      _ = 10 ^ size := by rw [← pow_succ, show size - 1 + 1 = size by omega]
  obtain ⟨hcarry1, hvalue1⟩ := scaled_of_lt h1 hlt
  obtain ⟨hdigits1, -⟩ := scaled_spec norm h1
  simp only [hcarry1, hcarry2, ne_eq, not_true_eq_false, false_and, or_false, if_false]
  -- the first `len2` digits are less than the divisor
  have hstart : val 10 (scaled num1 size norm).1 0 len2 <
    val 10 (scaled n2 len2 norm).1 0 len2 := by
    obtain ⟨e, he⟩ := Nat.exists_eq_add_of_le (show len2 ≤ size by omega)
    obtain ⟨n, hn⟩ := Nat.exists_eq_add_of_lt hpos
    have hdivisor : 10 ^ n ≤ val 10 n2 0 len2 := by
      rw [hn, Nat.zero_add]
      exact pow_le_val hlead
    have hmul : val 10 (scaled num1 size norm).1 0 len2 * 10 ^ e <
        val 10 (scaled n2 len2 norm).1 0 len2 * 10 ^ e := by
      calc val 10 (scaled num1 size norm).1 0 len2 * 10 ^ e
          ≤ val 10 (scaled num1 size norm).1 0 size := he ▸ val_mul_pow_le len2
        _ = val 10 num1 0 size * norm := hvalue1
        _ < 10 ^ (size - 1) * norm := Nat.mul_lt_mul_of_pos_right hshort hnorm
        _ = 10 ^ n * 10 ^ e * norm := by rw [← pow_add, show size - 1 = n + e by omega]
        _ ≤ val 10 n2 0 len2 * 10 ^ e * norm :=
          Nat.mul_le_mul_right _ (Nat.mul_le_mul_right _ hdivisor)
        _ = val 10 (scaled n2 len2 norm).1 0 len2 * 10 ^ e := by rw [hvalue2]; ring
    exact Nat.lt_of_mul_lt_mul_right hmul
  obtain ⟨q, hq, hout, hin, hvalue⟩ := divideLoop_spec mem.mval hnormal hskip (by omega)
    (len1 + scale - len2 + 1) quot (by omega) (by omega) hquot
    (fun i hi => by rw [Nat.zero_add]; exact hdigits1 i (by omega)) hstart
  refine ⟨q, hq, hout, hin, ?_⟩
  have hcut : val 10 (scaled num1 size norm).1 0 (len1 + scale + 1) =
      val 10 num1 0 size * norm / 10 ^ (size - (len1 + scale + 1)) := by
    rw [← hvalue1]
    exact val_eq_div hsize hdigits1
  rw [hvalue, show len2 + (len1 + scale - len2 + 1) = len1 + scale + 1 by omega, hcut, hvalue2,
    Nat.div_div_eq_div_mul, Nat.div_div_eq_div_mul, ← Nat.mul_assoc,
    Nat.mul_div_mul_right _ _ hnorm]

end FullDivide

/-! ## The operands in their buffers -/

section Operands

variable {x y : Numeric}

/-- Without trailing zeros the scale stays. -/
theorem Canonical.dropZeros_eq (hy : y.Canonical) : dropZeros y.value y.len y.scale = y.scale := by
  have htrail := hy.trailing
  generalize y.scale = s at htrail
  cases s with
  | zero => rfl
  | succ s => exact if_neg (htrail (Nat.succ_pos s))

theorem dividend_lt (hx : x.DigitsBelow 10) {extra i : ℕ} (hi : i < x.len + x.scale + extra + 1) :
    dividend mem x extra i < 10 := by
  simp only [dividend]
  split_ifs with h₁ h₂ h₃
  · norm_num
  · exact hx _ (by omega)
  · norm_num
  · omega

theorem val_dividend (extra : ℕ) :
    val 10 (dividend mem x extra) 0 (x.len + x.scale + extra + 1) = x.mag * 10 ^ extra := by
  have hfirst : dividend mem x extra 0 = 0 := if_pos rfl
  have hdigits : val 10 (dividend mem x extra) (0 + 1) (x.len + x.scale) = x.mag :=
    val_congr fun i hi => by
      rw [dividend, if_neg (by omega), if_pos (by omega)]
      congr 1
      omega
  have hzeros : val 10 (dividend mem x extra) (0 + 1 + (x.len + x.scale)) extra = 0 :=
    val_eq_zero fun i hi => by
      rw [dividend, if_neg (by omega), if_neg (by omega), if_pos (by omega)]
  rw [val_succ_left, hfirst, Nat.zero_mul, Nat.zero_add, val_append, hdigits, hzeros, Nat.add_zero]

/-- The digits of `y` from the first that is not zero on. -/
def significant (y : Numeric) : ℕ := y.len + y.scale - skipZeros y.value (y.len + y.scale) 0

/-- The divisor as `n2ptr` sees it. -/
def divisorFrom (mem : Memory) (y : Numeric) (i : ℕ) : ℕ :=
  divisor mem y (y.len + y.scale) (skipZeros y.value (y.len + y.scale) 0 + i)

/-- A number that is not zero has a first digit. -/
theorem Canonical.skipZeros_lt (hy : y.Canonical) (h0 : ¬ y.IsZero) :
    skipZeros y.value (y.len + y.scale) 0 < y.len + y.scale := by
  obtain ⟨-, hle, hzeros, -⟩ := skipZeros_spec y.value (y.len + y.scale) 0
  rw [Nat.zero_add] at hle
  refine lt_of_le_of_ne hle fun heq => (hy.mag_pos h0).ne' (mag_eq_zero_iff.2 fun i hi => ?_)
  exact hzeros i (Nat.zero_le i) (by omega)

theorem Canonical.divisorFrom_spec (hy : y.Canonical) (h0 : ¬ y.IsZero) :
    (∀ i < y.significant, divisorFrom mem y i < 10) ∧ 0 < divisorFrom mem y 0 ∧
      divisorFrom mem y y.significant = 0 ∧
      val 10 (divisorFrom mem y) 0 y.significant = y.mag := by
  have hlt := hy.skipZeros_lt h0
  obtain ⟨-, -, hzeros, hstop⟩ := skipZeros_spec y.value (y.len + y.scale) 0
  simp only [Nat.zero_add] at hstop
  have hin (i : ℕ) (hi : i < y.significant) : divisorFrom mem y i =
      y.value (skipZeros y.value (y.len + y.scale) 0 + i) := if_pos (by
    unfold significant at hi
    omega)
  refine ⟨fun i hi => ?_, ?_, ?_, ?_⟩
  · rw [hin i hi]
    exact hy.digits _ (by unfold significant at hi; omega)
  · rw [hin 0 (by unfold significant; omega), Nat.add_zero]
    exact Nat.pos_of_ne_zero (hstop hlt)
  · rw [divisorFrom, divisor, significant, Nat.add_sub_of_le hlt.le, if_neg (lt_irrefl _),
      if_pos rfl]
  · have hlead : val 10 y.value 0 (skipZeros y.value (y.len + y.scale) 0) = 0 :=
      val_eq_zero fun i hi => by
        rw [Nat.zero_add]
        exact hzeros i (Nat.zero_le i) hi
    have hsum : y.len + y.scale = skipZeros y.value (y.len + y.scale) 0 + y.significant :=
      (Nat.add_sub_of_le hlt.le).symm
    rw [mag]
    conv_rhs => rw [hsum]
    rw [val_append, hlead, Nat.zero_mul, Nat.zero_add]
    exact val_congr fun i hi => by rw [Nat.zero_add, Nat.zero_add, hin i hi]

end Operands

/-! ## The quotient -/

section Quotient

variable {x y : Numeric}

/-- The buffers are large enough: the dividend with the zeros behind it for the buffer on the
stack, the quotient for the memory of the result. -/
def Fits (mem : Memory) (x y : Numeric) (scale : ℕ) : Prop :=
  x.len + x.scale + (scale + y.scale - x.scale) + 2 ≤ numericStackBytes ∧
    x.len + y.scale - y.significant + scale + 1 ≤ mem.bytes

def zeroQuotient (dest : Dest) (x y : Numeric) (scale : ℕ) : Numeric :=
  let qdigits := x.len + y.scale - y.significant + scale + 1
  { dest.start with
    len := qdigits - scale
    scale := scale
    neg := x.neg ^^ y.neg
    value := fun i => if i < qdigits then 0 else dest.start.value i }

theorem quotientDigits_eq (len1 len2 scale : ℕ) :
    quotientDigits len1 len2 scale = len1 - len2 + scale + 1 := by
  unfold quotientDigits
  split_ifs
  · omega
  · rfl

variable (dest : Dest)

/-- `num_divide` on canonical numbers. -/
theorem Canonical.rawQuotient_eq (scale : ℕ) (hy : y.Canonical) (h0 : ¬ y.IsZero) :
    rawQuotient mem dest x y scale =
      if x.len + x.scale + (scale + y.scale - x.scale) + 2 > numericStackBytes ∨
          x.len + y.scale - y.significant + scale + 1 > mem.bytes then none
      else if y.significant > x.len + y.scale + scale then some (zeroQuotient dest x y scale)
      else
        (fullDivide mem (dividend mem x (scale + y.scale - x.scale)) (divisorFrom mem y)
          (zeroQuotient dest x y scale).value (skipZeros y.value (y.len + y.scale) 0)
          (x.len + x.scale + (scale + y.scale - x.scale) + 1) (x.len + y.scale) y.significant
          scale).map fun quot => { zeroQuotient dest x y scale with value := quot } := by
  have htotal : y.len + y.scale + 1 ≤ numericStackBytes := by
    have h : y.len + y.scale ≤ 45 := hy.total_le
    show _ ≤ 104
    omega
  have hskip := (hy.skipZeros_lt h0).ne
  simp only [rawQuotient, hy.dropZeros_eq, quotientDigits_eq, hskip, false_or,
    show ¬ y.len + y.scale + 1 > numericStackBytes from not_lt.2 htotal]
  rfl

/-- The exact quotient cut to `scale` digits after the point. -/
theorem floor_quotient (x y : Numeric) (scale : ℕ) :
    ⌊|x.toRat / y.toRat| * 10 ^ scale⌋₊ =
      x.mag * 10 ^ (scale + y.scale - x.scale) / 10 ^ (x.scale - (scale + y.scale)) / y.mag := by
  have hpow : (10 : ℚ) ^ (scale + y.scale - x.scale) * 10 ^ x.scale =
      10 ^ scale * 10 ^ y.scale * 10 ^ (x.scale - (scale + y.scale)) := by
    rw [← pow_add, ← pow_add, ← pow_add]
    congr 1
    omega
  have hvalue : |x.toRat / y.toRat| * 10 ^ scale =
      ((x.mag * 10 ^ (scale + y.scale - x.scale) : ℕ) : ℚ) /
        ((10 ^ (x.scale - (scale + y.scale)) : ℕ) : ℚ) / (y.mag : ℚ) := by
    rw [abs_div, abs_toRat, abs_toRat, frac_ten, frac_ten]
    push_cast
    rcases eq_or_ne (y.mag : ℚ) 0 with h0 | h0
    · rw [h0, zero_div, div_zero, div_zero, zero_mul]
    · field_simp
      linear_combination -(x.mag : ℚ) * hpow
  rw [hvalue, Nat.floor_div_natCast, Nat.floor_div_natCast, Nat.floor_natCast]

/-- The raw quotient of two numbers. -/
structure IsQuotient (n x y : Numeric) (scale : ℕ) : Prop where
  valid : n.invalid = .valid
  neg : n.neg = (x.neg ^^ y.neg)
  scale_eq : n.scale = scale
  size : n.len + n.scale = x.len + y.scale - y.significant + scale + 1
  digits : n.DigitsBelow 10
  mag : n.mag = ⌊|x.toRat / y.toRat| * 10 ^ scale⌋₊

/-- The digits of the dividend that count. -/
theorem dividend_cut (mem : Memory) (hx : x.DigitsBelow 10) (scale : ℕ) :
    x.mag * 10 ^ (scale + y.scale - x.scale) / 10 ^ (x.scale - (scale + y.scale)) =
      val 10 (dividend mem x (scale + y.scale - x.scale)) 0 (x.len + y.scale + scale + 1) := by
  have hle : x.len + y.scale + scale + 1 ≤ x.len + x.scale + (scale + y.scale - x.scale) + 1 := by
    omega
  rw [val_eq_div hle fun i hi => dividend_lt mem hx hi, val_dividend]
  congr 2
  omega

/-- If the buffers are large enough, `num_divide` delivers the exact quotient cut off. -/
theorem rawQuotient_spec {scale : ℕ} (hx : x.DigitsBelow 10) (hy : y.Canonical) (h0 : ¬ y.IsZero)
    (hfits : Fits mem x y scale) :
    ∃ n, rawQuotient mem dest x y scale = some n ∧ IsQuotient n x y scale := by
  obtain ⟨hstack, hbytes⟩ := hfits
  have hlen := hy.skipZeros_lt h0
  have hpos : 0 < y.significant := Nat.sub_pos_of_lt hlen
  obtain ⟨hdigits2, hlead, hafter, hvalue2⟩ := hy.divisorFrom_spec mem h0
  have hcut := @dividend_cut x y mem hx scale
  have hsize : (zeroQuotient dest x y scale).len + (zeroQuotient dest x y scale).scale =
      x.len + y.scale - y.significant + scale + 1 := by
    simp only [zeroQuotient]
    omega
  rw [hy.rawQuotient_eq mem dest scale h0, if_neg (by omega)]
  split_ifs with hzero
  · -- the quotient is less than one unit of the last place
    refine ⟨_, rfl, rfl, rfl, rfl, hsize, fun i hi => ?_, ?_⟩
    · rw [hsize] at hi
      simp only [zeroQuotient]
      rw [if_pos hi]
      norm_num
    · rw [floor_quotient, hcut, Nat.div_eq_of_lt, mag_eq_zero_iff]
      · intro i hi
        rw [hsize] at hi
        exact if_pos hi
      · obtain ⟨e, he⟩ : ∃ e, y.significant = e + 1 := ⟨y.significant - 1, by omega⟩
        rw [val_succ_left, show dividend mem x (scale + y.scale - x.scale) 0 = 0 from if_pos rfl,
          Nat.zero_mul, Nat.zero_add, ← hvalue2, he]
        calc val 10 (dividend mem x (scale + y.scale - x.scale)) (0 + 1) (x.len + y.scale + scale)
            < 10 ^ (x.len + y.scale + scale) := val_lt_pow fun i hi => by
              exact dividend_lt mem hx (by omega)
          _ ≤ 10 ^ e := Nat.pow_le_pow_right (by norm_num) (by omega)
          _ ≤ val 10 (divisorFrom mem y) 0 (e + 1) := pow_le_val hlead
  · have hskip : skipZeros y.value (y.len + y.scale) 0 + y.significant < numericStackBytes := by
      have h : y.len + y.scale ≤ 45 := hy.total_le
      show _ < 104
      unfold significant
      omega
    obtain ⟨q, hq, hout, hin, hvalue⟩ := fullDivide_spec mem
      (zeroQuotient dest x y scale).value hpos
      hdigits2 hlead hafter (fun i hi => dividend_lt mem hx hi)
      (if_pos rfl : dividend mem x (scale + y.scale - x.scale) 0 = 0) (not_lt.1 hzero)
      (by omega) (by omega) hskip (by omega)
    have hfront (i : ℕ) (hi : i < y.significant - (x.len + y.scale)) : q i = 0 := by
      rw [hout i (.inl hi)]
      exact if_pos (by omega)
    rw [hq]
    refine ⟨_, rfl, rfl, rfl, rfl, hsize, fun i hi => ?_, ?_⟩
    · rw [show _ + _ = _ from hsize] at hi
      rcases Nat.lt_or_ge i (y.significant - (x.len + y.scale)) with hlt | hge
      · rw [show ({ zeroQuotient dest x y scale with value := q } : Numeric).value i = 0 from
          hfront i hlt]
        norm_num
      · have := hin (i - (y.significant - (x.len + y.scale))) (by omega)
        rwa [Nat.add_sub_of_le hge] at this
    · have hsplit : x.len + y.scale - y.significant + scale + 1 =
        y.significant - (x.len + y.scale) +
          (x.len + y.scale + scale - y.significant + 1) := by omega
      have hmag : ({ zeroQuotient dest x y scale with value := q } : Numeric).mag = val 10 q 0
          (y.significant - (x.len + y.scale) + (x.len + y.scale + scale - y.significant + 1)) := by
        rw [← hsplit, ← hsize]
        rfl
      rw [floor_quotient, hcut, ← hvalue2, hmag, val_append,
        val_eq_zero fun i hi => by rw [Nat.zero_add]; exact hfront i hi, Nat.zero_mul, Nat.zero_add,
        Nat.zero_add, hvalue]
      exact congrArg (· / _)
        (val_eq_div (by omega) fun i hi => dividend_lt mem hx hi).symm

/-- Otherwise an assertion fails or the quotient is written over the end of its memory. -/
theorem rawQuotient_of_not_fits {scale : ℕ} (hy : y.Canonical) (h0 : ¬ y.IsZero)
    (hfits : ¬ Fits mem x y scale) : rawQuotient mem dest x y scale = none := by
  rw [hy.rawQuotient_eq mem dest scale h0]
  refine if_pos ?_
  rw [Fits, not_and_or, not_le, not_le] at hfits
  exact hfits

theorem Canonical.toRat_eq_zero_iff (hy : y.Canonical) : y.toRat = 0 ↔ y.IsZero := by
  rw [← abs_eq_zero, abs_toRat, frac_ten, div_eq_zero_iff, or_iff_left (by positivity),
    Nat.cast_eq_zero]
  constructor
  · intro hmag
    by_contra h0
    exact (hy.mag_pos h0).ne' hmag
  · intro h0
    rw [mag, h0, val_zero]

/-- The sign of a quotient that is not zero. -/
theorem div_sign (h : x.toRat / y.toRat ≠ 0) :
    (x.neg ^^ y.neg) = decide (x.toRat / y.toRat < 0) := by
  obtain ⟨hx, hy⟩ := div_ne_zero_iff.1 h
  rw [mul_sign (mul_ne_zero hx hy), decide_eq_decide, mul_neg_iff, div_neg_iff]

/-- `num_divide` delivers the digits of the quotient; what is too long gets its sign from
`_numeric_normalize`. -/
theorem IsQuotient.exact_iff {n : Numeric} (h : IsQuotient n x y numericMaxScaleInt)
    (hsize : n.len + n.scale ≤ numericStackBytes) :
    Exact (x.toRat / y.toRat) (numericNormalize (dest.finish { numNormalize n with
      neg := if (numNormalize n).IsZero then false else (numNormalize n).neg })) ↔
      (numericMaxPrecision < intDigits (x.toRat / y.toRat) → 0 ≤ x.toRat / y.toRat) := by
  obtain ⟨k, hk⟩ := numNormalize_spec n
  have hmag : n.mag = ⌊|x.toRat / y.toRat| * 10 ^ n.scale⌋₊ := h.scale_eq ▸ h.mag
  have hscale : (numNormalize n).scale = 20 := hk.scale.trans h.scale_eq
  have hnonzero : ¬ (numNormalize n).IsZero := by
    omega
  have hwhole : Whole { numNormalize n with
      neg := if (numNormalize n).IsZero then false else (numNormalize n).neg }
      (x.toRat / y.toRat) := by
    refine hk.whole h.valid (fun i hi => h.digits i (by omega)) (cut_zero_of_floor h.digits hmag)
      (fun hq => ?_) fun _ => hnonzero
    rw [if_neg hnonzero, hk.neg, h.neg, div_sign hq]
  rw [dest.normalize_exact_iff hk hsize hwhole]
  refine and_iff_right fun _ => agrees_of_floor h.digits ?_ hmag
  rw [h.scale_eq]
  exact min_le_right _ _

/-- No access outside of the buffers, and every digit of the quotient is the true one. -/
def Divides (mem : Memory) (dest : Dest) (x y : Numeric) : Prop :=
  ∃ n, rawQuotient mem dest x y numericMaxScaleInt = some n ∧ n.DigitsBelow 10 ∧
    n.mag = ⌊|x.toRat / y.toRat| * 10 ^ n.scale⌋₊

theorem numericDivide_eq (h0 : ¬ y.IsZero) (hvx : x.invalid = .valid) (hvy : y.invalid = .valid) :
    numericDivide mem dest x y = (rawQuotient mem dest x y numericMaxScaleInt).bind fun n =>
      numericNormalize (dest.finish { numNormalize n with
        neg := if (numNormalize n).IsZero then false else (numNormalize n).neg }) := by
  rw [numericDivide, if_neg (not_not.2 hvx), if_neg (not_not.2 hvy), numDivide, if_neg h0,
    Option.bind_map]
  rfl

/-- If the buffers are large enough, a quotient is exact unless it is negative and too long. -/
theorem numericDivide_of_fits (hx : x.Canonical) (hy : y.Canonical) (hvx : x.invalid = .valid)
    (hvy : y.invalid = .valid) (h0 : ¬ y.IsZero) (hfits : Fits mem x y numericMaxScaleInt) :
    Divides mem dest x y ∧ (Exact (x.toRat / y.toRat) (numericDivide mem dest x y) ↔
      (numericMaxPrecision < intDigits (x.toRat / y.toRat) → 0 ≤ x.toRat / y.toRat)) := by
  obtain ⟨n, hn, hquot⟩ := rawQuotient_spec mem dest hx.digits hy h0 hfits
  have hsize : n.len + n.scale ≤ numericStackBytes := by
    have hstack := hfits.1
    rw [hquot.size]
    omega
  rw [numericDivide_eq mem dest h0 hvx hvy, hn, Option.bind_some]
  exact ⟨⟨n, hn, hquot.digits, hquot.scale_eq ▸ hquot.mag⟩, hquot.exact_iff dest hsize⟩

/-- Division is exact up to truncation exactly if the buffers are large enough and the quotient is
not both negative and too long; division by zero is reported. -/
theorem numericDivide_exact_iff (mem : Memory) (dest : Dest) (hx : x.Canonical) (hy : y.Canonical)
    (hvx : x.invalid = .valid) (hvy : y.invalid = .valid) :
    (y.toRat ≠ 0 →
      (Divides mem dest x y ∧ Exact (x.toRat / y.toRat) (numericDivide mem dest x y) ↔
        Fits mem x y numericMaxScaleInt ∧
          (numericMaxPrecision < intDigits (x.toRat / y.toRat) → 0 ≤ x.toRat / y.toRat))) ∧
      (y.toRat = 0 → ∃ z, numericDivide mem dest x y = some (.divideZero, z)) := by
  rw [ne_eq, hy.toRat_eq_zero_iff]
  constructor
  · intro h0
    by_cases hfits : Fits mem x y numericMaxScaleInt
    · obtain ⟨hdiv, hexact⟩ := numericDivide_of_fits mem dest hx hy hvx hvy h0 hfits
      rw [and_iff_right hdiv, and_iff_right hfits, hexact]
    · refine iff_of_false ?_ fun h => hfits h.1
      rintro ⟨⟨n, hn, -⟩, -⟩
      rw [rawQuotient_of_not_fits mem dest hy h0 hfits] at hn
      exact nomatch hn
  · intro h0
    rw [numericDivide, if_neg (not_not.2 hvx), if_neg (not_not.2 hvy), numDivide, if_pos h0]
    exact ⟨_, rfl⟩

end Quotient

def tenth : Numeric := { blank with scale := 1, value := fun _ => 1 }

def huge : Numeric := { blank with len := 40, value := fun i => if i = 0 then 1 else 0 }

theorem tenth_canonical : tenth.Canonical :=
  canonical_of_digits (fun _ _ => by norm_num [tenth]) (fun h => absurd h (Nat.lt_irrefl 0))
    (fun _ => one_ne_zero) (by decide) (by decide) (fun _ => rfl)

/-- Memory of zeros, with room for the digits that `numeric_allocate` provides. -/
def freshMemory : Memory := ⟨fun _ => 0, fun _ => 0, fun _ => 0, numericMaxDataBytes⟩

theorem tenth_toRat : tenth.toRat = 1 / 10 := by
  rw [toRat, show tenth.mag = 1 from rfl]
  norm_num [tenth, blank]

/-- A quotient that is not too long, and a division by zero. -/
theorem numericDivide_exact_longOne :
    (Divides freshMemory (.other blank) longOne tenth ∧
      Exact (longOne.toRat / tenth.toRat)
        (numericDivide freshMemory (.other blank) longOne tenth)) ∧
      ∃ z, numericDivide freshMemory (.other blank) longOne blank = some (.divideZero, z) := by
  refine ⟨((numericDivide_exact_iff freshMemory (.other blank) longOne_canonical tenth_canonical rfl
    rfl).1 ?_).2 ⟨⟨by decide, by decide⟩, fun _ => ?_⟩, (numericDivide_exact_iff freshMemory
      (.other blank) longOne_canonical blank_canonical rfl rfl).2
        (blank_canonical.toRat_eq_zero_iff.2 rfl)⟩
  · rw [tenth_toRat]
    norm_num
  · rw [longOne_toRat, tenth_toRat]
    norm_num

/-- A number of 20 fraction digits, moved by 19 more places. -/
def tinyText : List Char :=
  ['0', '.'] ++ List.replicate 19 '0' ++ ['1', 'e', '-', '1', '9']

/-- The quotient by `1E-39` is written over the end of its memory, and a negative quotient that is
too long becomes plus infinity. -/
theorem numericDivide_inexact :
    (∃ tiny, numericFromString blank tinyText = some (.success, tiny) ∧ tiny.Canonical ∧
      tiny.scale = 39 ∧ numericDivide freshMemory (.other blank) huge tiny = none) ∧
      ¬ Exact (minusNines.toRat / tenth.toRat)
        (numericDivide freshMemory (.other blank) minusNines tenth) := by
  constructor
  · have hread : (numericFromString blank tinyText).any (fun r => r.1 == .success &&
        r.2.len == 0 && r.2.scale == 39 && r.2.invalid == .valid && r.2.neg == false &&
        r.2.significant == 1 &&
        (List.range 39).all fun i => r.2.value i == if i = 38 then 1 else 0) = true := by
      decide +kernel
    simp only [Option.any_eq_true, Bool.and_eq_true, beq_iff_eq, List.all_eq_true,
      List.mem_range] at hread
    obtain ⟨⟨_, tiny⟩, hread, ⟨⟨⟨⟨⟨rfl, hlen⟩, hscale⟩, hvalid⟩, hneg⟩, hone⟩, hdigit⟩ := hread
    dsimp only at hlen hscale hvalid hneg hone hdigit
    have hcanon : tiny.Canonical := by
      refine canonical_of_digits (fun i hi => ?_) (by omega) (fun _ => ?_) (by omega)
        (by rw [hlen, hscale]; decide) (fun _ => hneg)
      · rw [hdigit i (by omega)]
        split <;> omega
      · rw [hlen, hscale, hdigit _ (by decide)]
        decide
    have h0 : ¬ tiny.IsZero := by omega
    refine ⟨tiny, hread, hcanon, hscale, ?_⟩
    rw [numericDivide_eq _ _ h0 rfl hvalid, rawQuotient_of_not_fits _ _ hcanon h0]
    · rfl
    · rintro ⟨-, hbytes⟩
      rw [hscale, hone] at hbytes
      exact absurd hbytes (by decide)
  · have hvalue : minusNines.toRat / tenth.toRat = -((10 ^ 41 - 10 : ℕ) : ℚ) := by
      rw [minusNines_toRat, tenth_toRat]
      norm_num
    have hdigits : intDigits (-((10 ^ 41 - 10 : ℕ) : ℚ)) = 41 := by
      rw [intDigits_neg, intDigits_natCast]
      norm_num
    have h0 : ¬ tenth.IsZero := by decide
    rw [(numericDivide_of_fits freshMemory (.other blank) minusNines_canonical
      tenth_canonical rfl rfl h0 ⟨by decide, by decide⟩).2, hvalue, hdigits]
    intro hnonneg
    exact absurd (hnonneg (by decide)) (by norm_num)

end Virtuoso.Numeric
