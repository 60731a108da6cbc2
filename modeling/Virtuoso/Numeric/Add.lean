import Virtuoso.Numeric.Compare
import Virtuoso.Numeric.Exact

/-!
# Addition and subtraction (`numeric_add`, `numeric_subtract`)

The digits of two numbers are added, or the smaller subtracted from the larger, by loops from the
last digit to the first.  Where the result is one of the operands the work is done in memory from
`numeric_allocate` and copied.

`numeric_subtract` asks for a scale of at least 20.  `_num_add_int` clears the digits this adds
with `NUM_SET_0_REST`, but only up to byte 43, so that bytes of the memory it works in can get
into the result.  This and the sign of an overflow are the only deviations from the exact result
(`numericAdd_exact_iff`, `numericSubtract_exact_iff`).
-/

namespace Virtuoso.Numeric

open Lib Lib.Radix

/-! ## Where the result goes -/

/-- The object that takes the result of an operation. -/
inductive Dest where
  /-- It is not an operand; `z` is what it held before. -/
  | other (z : Numeric)
  /-- It is an operand, which holds `z`; `temp` is what `numeric_allocate` finds in its memory. -/
  | operand (z temp : Numeric)

namespace Dest

def memory : Dest → Numeric
  | other z => z
  | operand _ temp => temp

def start (d : Dest) : Numeric := numSet0 d.memory

def target : Dest → Numeric
  | other z => z
  | operand z _ => z

/-- The result is copied if it was computed elsewhere. -/
def finish (d : Dest) (r : Numeric) : Numeric :=
  match d with
  | other _ => r
  | operand z _ => (numericCopy z r).2

theorem finish_same (d : Dest) {r : Numeric} (h : r.len + r.scale ≤ numericStackBytes) :
    Same (d.finish r) r := by
  cases d with
  | other z => exact ⟨rfl, rfl, rfl, rfl, fun _ _ => rfl⟩
  | operand z temp => exact numericCopy_same z r h

end Dest

/-! ## The routines -/

/-- One digit of a sum, and the carry. -/
def addStep (a b carry : ℕ) : ℕ × ℕ :=
  if a + b + carry > 9 then (a + b + carry - 10, 1) else (a + b + carry, 0)

/-- One digit of a difference, and the borrow. -/
def subtractStep (a b borrow : ℕ) : ℕ × ℕ :=
  if a < b + borrow then (a + 10 - b - borrow, 1) else (a - b - borrow, 0)

/-- `_num_add_int` up to the loops: the header of the sum, and zeros for further digits. -/
def prepareSum (dest : Dest) (n₁ n₂ : Numeric) (scaleMin : ℕ) : Numeric :=
  let sumScale := max n₁.scale n₂.scale
  { dest.start with
    len := max n₁.len n₂.len + 1
    scale := max sumScale scaleMin
    value :=
      let value := if scaleMin > sumScale then (numSet0Rest dest.start).value else dest.start.value
      Function.update value 0 0 }

/-- The loop of `_num_add_int` that copies the longer fraction. -/
def addFraction (n₁ n₂ : Numeric) (buf : ℕ → ℕ) : ℕ → ℕ :=
  let sumDigits := max n₁.len n₂.len + 1
  let minScale := min n₁.scale n₂.scale
  let longer := if n₁.scale > n₂.scale then n₁ else n₂
  (digitLoop (fun i c => (longer.value (longer.len + minScale + i), c)) (sumDigits + minScale)
    (max n₁.scale n₂.scale - minScale) 0 buf).1

/-- The loop that adds the remaining fraction part and equal size integer parts. -/
def addCommon (n₁ n₂ : Numeric) (buf : ℕ → ℕ) : (ℕ → ℕ) × ℕ :=
  let sumDigits := max n₁.len n₂.len + 1
  let minLen := min n₁.len n₂.len
  digitLoop (fun i => addStep (n₁.value (n₁.len - minLen + i)) (n₂.value (n₂.len - minLen + i)))
    (sumDigits - minLen) (minLen + min n₁.scale n₂.scale) 0 buf

/-- The loop that adds the carry to the longer integer part. -/
def addInteger (n₁ n₂ : Numeric) (r : (ℕ → ℕ) × ℕ) : (ℕ → ℕ) × ℕ :=
  let longer := if n₁.len > n₂.len then n₁ else n₂
  digitLoop (fun i => addStep (longer.value i) 0) 1 (max n₁.len n₂.len - min n₁.len n₂.len) r.2 r.1

/-- Set the final carry. -/
def storeCarry (r : (ℕ → ℕ) × ℕ) : ℕ → ℕ :=
  if r.2 = 1 then Function.update r.1 0 (r.1 0 + 1) else r.1

/-- The loops of `_num_add_int` on the digits `buf`. -/
def addDigits (n₁ n₂ : Numeric) (buf : ℕ → ℕ) : ℕ → ℕ :=
  storeCarry (addInteger n₁ n₂ (addCommon n₁ n₂ (addFraction n₁ n₂ buf)))

/-- The sum before leading zeros are removed. -/
def rawSum (dest : Dest) (n₁ n₂ : Numeric) (scaleMin : ℕ) : Numeric :=
  let sum := prepareSum dest n₁ n₂ scaleMin
  { sum with value := addDigits n₁ n₂ sum.value }

/-- `_num_add_int`. -/
def numAddInt (dest : Dest) (n₁ n₂ : Numeric) (scaleMin : ℕ) : Numeric :=
  dest.finish (numNormalize (rawSum dest n₁ n₂ scaleMin))

/-- `_num_subtract_int` up to the loops. -/
def prepareDifference (dest : Dest) (n₁ n₂ : Numeric) (scaleMin : ℕ) : Numeric :=
  let diffLen := max n₁.len n₂.len
  let diffScale := max n₁.scale n₂.scale
  let diff := { dest.start with len := diffLen, scale := max diffScale scaleMin }
  let value := fun i =>
    if diffLen + diffScale ≤ i ∧ i < diffLen + scaleMin then 0 else diff.value i
  { diff with value := Function.update value 0 0 }

/-- The loop of `_num_subtract_int` for the longer fraction. -/
def subtractFraction (n₁ n₂ : Numeric) (buf : ℕ → ℕ) : (ℕ → ℕ) × ℕ :=
  let diffLen := max n₁.len n₂.len
  let minScale := min n₁.scale n₂.scale
  if n₁.scale ≠ minScale then
    digitLoop (fun i c => (n₁.value (n₁.len + minScale + i), c)) (diffLen + minScale)
      (n₁.scale - minScale) 0 buf
  else
    digitLoop (fun i => subtractStep 0 (n₂.value (n₂.len + minScale + i))) (diffLen + minScale)
      (n₂.scale - minScale) 0 buf

/-- The loop for the equal length scale and integer parts. -/
def subtractCommon (n₁ n₂ : Numeric) (r : (ℕ → ℕ) × ℕ) : (ℕ → ℕ) × ℕ :=
  let minLen := min n₁.len n₂.len
  digitLoop (fun i => subtractStep (n₁.value (n₁.len - minLen + i))
    (n₂.value (n₂.len - minLen + i)))
    (max n₁.len n₂.len - minLen) (minLen + min n₁.scale n₂.scale) r.2 r.1

/-- The loop for the further digits of the first number. -/
def subtractInteger (n₁ n₂ : Numeric) (r : (ℕ → ℕ) × ℕ) : (ℕ → ℕ) × ℕ :=
  digitLoop (fun i => subtractStep (n₁.value i) 0) 0 (max n₁.len n₂.len - min n₁.len n₂.len) r.2 r.1

/-- The loops of `_num_subtract_int` on the digits `buf`. -/
def subtractDigits (n₁ n₂ : Numeric) (buf : ℕ → ℕ) : ℕ → ℕ :=
  (subtractInteger n₁ n₂ (subtractCommon n₁ n₂ (subtractFraction n₁ n₂ buf))).1

/-- The difference before leading zeros are removed. -/
def rawDifference (dest : Dest) (n₁ n₂ : Numeric) (scaleMin : ℕ) : Numeric :=
  let diff := prepareDifference dest n₁ n₂ scaleMin
  { diff with value := subtractDigits n₁ n₂ diff.value }

/-- `_num_subtract_int`. -/
def numSubtractInt (dest : Dest) (n₁ n₂ : Numeric) (scaleMin : ℕ) : Numeric :=
  dest.finish (numNormalize (rawDifference dest n₁ n₂ scaleMin))

/-- `num_add`. -/
def numAdd (dest : Dest) (n₁ n₂ : Numeric) (scaleMin : ℕ) : Numeric :=
  if n₁.neg = n₂.neg then { numAddInt dest n₁ n₂ scaleMin with neg := n₁.neg }
  else if numCompareInt n₁ n₂ false = -1 then
    { numSubtractInt dest n₂ n₁ scaleMin with neg := n₂.neg }
  else if numCompareInt n₁ n₂ false = 0 then numSet0 dest.target
  else { numSubtractInt dest n₁ n₂ scaleMin with neg := n₁.neg }

/-- `num_subtract`. -/
def numSubtract (dest : Dest) (n₁ n₂ : Numeric) (scaleMin : ℕ) : Numeric :=
  if n₁.neg ≠ n₂.neg then { numAddInt dest n₁ n₂ scaleMin with neg := n₁.neg }
  else if numCompareInt n₁ n₂ false = -1 then
    { numSubtractInt dest n₂ n₁ scaleMin with neg := !n₂.neg }
  else if numCompareInt n₁ n₂ false = 0 then numSet0 dest.target
  else { numSubtractInt dest n₁ n₂ scaleMin with neg := n₁.neg }

/-- `numeric_add`. -/
def numericAdd (dest : Dest) (x y : Numeric) : Option (Status × Numeric) :=
  let z := dest.target
  if x.IsInvalid then
    if x.IsPlusInf then
      if y.IsMinusInf ∨ y.IsNan then some (.success, (numericNan z).2)
      else some (.success, (numericInf z false).2)
    else if x.IsMinusInf then
      if y.IsPlusInf ∨ y.IsNan then some (.success, (numericNan z).2)
      else some (.success, (numericInf z true).2)
    else some (.success, (numericNan z).2)
  else if y.IsInvalid then
    if y.IsNan then some (.success, (numericNan z).2)
    else some (.success, (numericInf z y.neg).2)
  else numericNormalize (numAdd dest x y 0)

/-- `numeric_subtract`. -/
def numericSubtract (dest : Dest) (x y : Numeric) : Option (Status × Numeric) :=
  let z := dest.target
  if x.IsInvalid then
    if x.IsPlusInf then
      if y.IsPlusInf ∨ y.IsNan then some (.success, (numericNan z).2)
      else some (.success, (numericInf z false).2)
    else if x.IsMinusInf then
      if y.IsMinusInf ∨ y.IsNan then some (.success, (numericNan z).2)
      else some (.success, (numericInf z true).2)
    else some (.success, (numericNan z).2)
  else if y.IsInvalid then
    if y.IsNan then some (.success, (numericNan z).2)
    else some (.success, (numericInf z (!y.neg)).2)
  else numericNormalize (numSubtract dest x y numericMaxScaleInt)

/-! ## Digit by digit -/

/-- The digits of `n` in a row that has `len` places before the point. -/
def aligned (n : Numeric) (len : ℕ) : ℕ → ℕ := align n.value (n.len + n.scale) (len - n.len)

section Aligned

variable {n : Numeric} {len scale : ℕ}

theorem aligned_lt (h : n.DigitsBelow 10) (len i : ℕ) : n.aligned len i < 10 :=
  align_lt (by norm_num) h

theorem val_aligned (hlen : n.len ≤ len) (hscale : n.scale ≤ scale) :
    val 10 (n.aligned len) 0 (len + scale) = n.mag * 10 ^ (scale - n.scale) := by
  rw [show len + scale = len - n.len + (n.len + n.scale) + (scale - n.scale) by omega]
  exact val_align 10 n.value _ _ _

variable {j : ℕ}

/-- A place of the number. -/
theorem aligned_of_lt (i : ℕ) (hj : len - n.len + i = j) (hi : i < n.len + n.scale) :
    n.aligned len j = n.value i := by
  rw [aligned, align_of_mem (by omega) (by omega)]
  congr 1
  omega

/-- A place before the number. -/
theorem aligned_of_before (hj : j < len - n.len) : n.aligned len j = 0 := align_of_lt hj

/-- A place behind the number. -/
theorem aligned_of_behind (hlen : n.len ≤ len) (hj : len + n.scale ≤ j) :
    n.aligned len j = 0 := align_of_le (by omega)

end Aligned

/-- The places are those of both numbers, those of the longer fraction and those of the longer
integer part. -/
theorem split_scale (x y : Numeric) : max x.len y.len + max x.scale y.scale =
    max x.len y.len + min x.scale y.scale + (max x.scale y.scale - min x.scale y.scale) := by omega

theorem split_len (x y : Numeric) : max x.len y.len + min x.scale y.scale =
    max x.len y.len - min x.len y.len + (min x.len y.len + min x.scale y.scale) := by omega

/-! ## The loops of addition -/

variable {a c i m : ℕ} {q : ℚ} {b : Bool} (r : (ℕ → ℕ) × ℕ)

section AddLoop

variable {x y : Numeric} {buf : ℕ → ℕ}

/-- One step adds the two digits and the carry. -/
theorem addStep_spec {b : ℕ} (ha : a < 10) (hb : b < 10) (hc : c ≤ 1) :
    (addStep a b c).2 ≤ 1 ∧ (addStep a b c).1 < 10 ∧
      (addStep a b c).1 + 10 * (addStep a b c).2 = a + b + c := by
  unfold addStep
  split_ifs <;> simp only <;> omega

theorem addStep_of_lt {b : ℕ} (h : a + b + c < 10) : addStep a b c = (a + b + c, 0) :=
  if_neg (by omega)

/-- The loop adds two rows of digits. -/
theorem addLoop_spec {a b : ℕ → ℕ} {n : ℕ} (w : ℕ) (buf : ℕ → ℕ) (ha : ∀ i < n, a i < 10)
    (hb : ∀ i < n, b i < 10) :
    let r := digitLoop (fun i => addStep (a i) (b i)) w n 0 buf
    r.2 ≤ 1 ∧ (∀ i < n, r.1 (w + i) < 10) ∧
      val 10 r.1 w n + 10 ^ n * r.2 = val 10 a 0 n + val 10 b 0 n := by
  obtain ⟨hcarry, hdigits, hvalue⟩ := @digitLoop_spec (fun i => addStep (a i) (b i)) w n 0 buf 10 1
    (fun i => ((a i + b i : ℕ) : ℤ)) (· ≤ 1) (Nat.zero_le 1) fun i hi c hc => by
      obtain ⟨h, hd, heq⟩ := addStep_spec (ha i hi) (hb i hi) hc
      refine ⟨h, hd, ?_⟩
      rw [one_mul, one_mul]
      exact_mod_cast heq
  refine ⟨hcarry, hdigits, ?_⟩
  have hcast := cast_val (R := ℤ) 10 (fun i => a i + b i) 0 n
  rw [← val_add]
  rw [← hcast, one_mul, one_mul] at hvalue
  exact_mod_cast hvalue

/-- The step of addition at a place of the aligned digits. -/
def sumStep (n₁ n₂ : Numeric) (j : ℕ) : ℕ → ℕ × ℕ :=
  addStep (n₁.aligned (max n₁.len n₂.len) j) (n₂.aligned (max n₁.len n₂.len) j)

/-- Behind the shorter fraction only one of the numbers has a digit. -/
theorem sumStep_fraction (h₁ : x.DigitsBelow 10) (h₂ : y.DigitsBelow 10)
    (hi : i < max x.scale y.scale - min x.scale y.scale) :
    (((if x.scale > y.scale then x else y).value
        ((if x.scale > y.scale then x else y).len + min x.scale y.scale + i), 0) : ℕ × ℕ) =
      sumStep x y (max x.len y.len + min x.scale y.scale + i) 0 := by
  unfold sumStep
  split_ifs with h
  · have hd := h₁ (x.len + min x.scale y.scale + i) (by omega)
    rw [aligned_of_lt (x.len + min x.scale y.scale + i) (by omega) (by omega),
      aligned_of_behind (le_max_right _ _) (by omega), addStep_of_lt (by omega)]
    rfl
  · have hd := h₂ (y.len + min x.scale y.scale + i) (by omega)
    rw [aligned_of_behind (le_max_left _ _) (by omega),
      aligned_of_lt (y.len + min x.scale y.scale + i) (by omega) (by omega),
      addStep_of_lt (by omega), Nat.zero_add, Nat.add_zero]

theorem addFraction_eq (h₁ : x.DigitsBelow 10) (h₂ : y.DigitsBelow 10) :
    digitLoop (fun i => sumStep x y (max x.len y.len + min x.scale y.scale + i))
        (1 + (max x.len y.len + min x.scale y.scale))
        (max x.scale y.scale - min x.scale y.scale) 0 buf = (addFraction x y buf, 0) := by
  rw [← digitLoop_congr (I := (· = 0)) rfl (fun i hi c hc => ?_),
    show 1 + (max x.len y.len + min x.scale y.scale) =
      max x.len y.len + 1 + min x.scale y.scale by omega]
  · exact Prod.ext rfl (digitLoop_snd fun i c => rfl)
  · subst hc
    exact ⟨sumStep_fraction h₁ h₂ hi, rfl⟩

/-- Where both numbers have a digit. -/
theorem addCommon_eq :
    digitLoop (fun i => sumStep x y (max x.len y.len - min x.len y.len + i))
      (1 + (max x.len y.len - min x.len y.len)) (min x.len y.len + min x.scale y.scale) 0
      buf = addCommon x y buf := by
  rw [addCommon, show 1 + (max x.len y.len - min x.len y.len) =
    max x.len y.len + 1 - min x.len y.len by omega]
  refine digitLoop_congr_step fun i hi => ?_
  rw [sumStep, aligned_of_lt (x.len - min x.len y.len + i) (by omega) (by omega),
    aligned_of_lt (y.len - min x.len y.len + i) (by omega) (by omega)]

/-- Before the shorter integer part. -/
theorem addInteger_eq :
    digitLoop (sumStep x y) 1 (max x.len y.len - min x.len y.len) r.2 r.1 =
      addInteger x y r := by
  refine digitLoop_congr_step fun i hi => ?_
  unfold sumStep
  split_ifs with h
  · rw [aligned_of_lt i (by omega) (by omega), aligned_of_before (by omega)]
  · rw [aligned_of_before (by omega), aligned_of_lt i (by omega) (by omega)]
    funext c
    rw [addStep, addStep, Nat.add_zero, Nat.zero_add]

def sumLoop (n₁ n₂ : Numeric) (buf : ℕ → ℕ) : (ℕ → ℕ) × ℕ :=
  digitLoop (sumStep n₁ n₂) 1 (max n₁.len n₂.len + max n₁.scale n₂.scale) 0 buf

/-- The three loops of the source are one loop over the aligned digits. -/
theorem addDigits_eq (h₁ : x.DigitsBelow 10) (h₂ : y.DigitsBelow 10) :
    addDigits x y buf = storeCarry (sumLoop x y buf) := by
  rw [sumLoop, split_scale, digitLoop_append, addFraction_eq h₁ h₂, split_len, digitLoop_append,
    addCommon_eq, addInteger_eq, addDigits]

/-- The magnitudes as integers of one scale. -/
theorem val_aligned_max_left : val 10 (x.aligned (max x.len y.len)) 0
    (max x.len y.len + max x.scale y.scale) =
      x.mag * 10 ^ (max x.scale y.scale - x.scale) :=
  val_aligned (le_max_left _ _) (le_max_left _ _)

theorem val_aligned_max_right : val 10 (y.aligned (max x.len y.len)) 0
    (max x.len y.len + max x.scale y.scale) =
      y.mag * 10 ^ (max x.scale y.scale - y.scale) :=
  val_aligned (le_max_right _ _) (le_max_right _ _)

/-- The digits and the carry of the loop write the sum. -/
theorem sumLoop_spec (h₁ : x.DigitsBelow 10) (h₂ : y.DigitsBelow 10) :
    (sumLoop x y buf).2 ≤ 1 ∧
      (∀ i < max x.len y.len + max x.scale y.scale, (sumLoop x y buf).1 (1 + i) < 10) ∧
      val 10 (sumLoop x y buf).1 1 (max x.len y.len + max x.scale y.scale) +
          10 ^ (max x.len y.len + max x.scale y.scale) * (sumLoop x y buf).2 =
        x.mag * 10 ^ (max x.scale y.scale - x.scale) +
          y.mag * 10 ^ (max x.scale y.scale - y.scale) := by
  rw [← val_aligned_max_left, ← val_aligned_max_right]
  exact addLoop_spec 1 buf (fun i _ => aligned_lt h₁ _ i) fun i _ => aligned_lt h₂ _ i

theorem storeCarry_zero {r : (ℕ → ℕ) × ℕ} (h0 : r.1 0 = 0) (hc : r.2 ≤ 1) :
    storeCarry r 0 = r.2 := by
  unfold storeCarry
  split_ifs with h
  · rw [Function.update_self, h0, h]
  · omega

theorem storeCarry_of_pos {r : (ℕ → ℕ) × ℕ} (hi : 0 < i) : storeCarry r i = r.1 i := by
  unfold storeCarry
  split_ifs
  · exact Function.update_of_ne hi.ne' _ _
  · rfl

/-- With a zero in front the digits stored write the whole sum. -/
theorem addDigits_spec (h₁ : x.DigitsBelow 10) (h₂ : y.DigitsBelow 10) (h0 : buf 0 = 0) :
    (∀ i < max x.len y.len + 1 + max x.scale y.scale, addDigits x y buf i < 10) ∧
      val 10 (addDigits x y buf) 0 (max x.len y.len + 1 + max x.scale y.scale) =
        x.mag * 10 ^ (max x.scale y.scale - x.scale) +
          y.mag * 10 ^ (max x.scale y.scale - y.scale) := by
  obtain ⟨hcarry, hdigits, hvalue⟩ := @sumLoop_spec x y buf h₁ h₂
  have hfirst : (sumLoop x y buf).1 0 = 0 := (digitLoop_outside (by omega)).trans h0
  rw [addDigits_eq h₁ h₂]
  rw [show max x.len y.len + 1 + max x.scale y.scale =
    max x.len y.len + max x.scale y.scale + 1 by omega]
  constructor
  · have hall := @digits_cons 10 (storeCarry (sumLoop x y buf)) 0 _
      (by rw [storeCarry_zero hfirst hcarry]; omega) fun i hi => by
        rw [storeCarry_of_pos (by omega)]
        exact hdigits i hi
    simpa only [Nat.zero_add] using hall
  · have hrest : val 10 (storeCarry (sumLoop x y buf)) (0 + 1)
        (max x.len y.len + max x.scale y.scale) =
        val 10 (sumLoop x y buf).1 1 (max x.len y.len + max x.scale y.scale) :=
      val_congr fun i _ => storeCarry_of_pos (by omega)
    rw [val_succ_left, hrest, storeCarry_zero hfirst hcarry, ← hvalue]
    ring

/-- The bytes behind the sum stay. -/
theorem addDigits_outside (h₁ : x.DigitsBelow 10) (h₂ : y.DigitsBelow 10)
    (hi : max x.len y.len + 1 + max x.scale y.scale ≤ i) : addDigits x y buf i = buf i := by
  rw [addDigits_eq h₁ h₂, storeCarry_of_pos (by omega)]
  exact digitLoop_outside (by omega)

end AddLoop

/-! ## The loops of subtraction -/

section SubtractLoop

variable {x y : Numeric} {buf : ℕ → ℕ}

/-- One step subtracts the digit and the borrow. -/
theorem subtractStep_spec {b : ℕ} (ha : a < 10) (hb : b < 10) (hc : c ≤ 1) :
    (subtractStep a b c).2 ≤ 1 ∧ (subtractStep a b c).1 < 10 ∧
      (subtractStep a b c).1 + b + c = a + 10 * (subtractStep a b c).2 := by
  unfold subtractStep
  split_ifs <;> simp only <;> omega

/-- The loop subtracts two rows of digits, up to a borrow. -/
theorem subtractLoop_spec {a b : ℕ → ℕ} {n : ℕ} (w : ℕ) (buf : ℕ → ℕ) (ha : ∀ i < n, a i < 10)
    (hb : ∀ i < n, b i < 10) :
    let r := digitLoop (fun i => subtractStep (a i) (b i)) w n 0 buf
    r.2 ≤ 1 ∧ (∀ i < n, r.1 (w + i) < 10) ∧
      val 10 r.1 w n + val 10 b 0 n = val 10 a 0 n + 10 ^ n * r.2 := by
  obtain ⟨hborrow, hdigits, hvalue⟩ := @digitLoop_spec (fun i => subtractStep (a i) (b i)) w n 0 buf
    10 (-1) (fun i => (a i : ℤ) - b i) (· ≤ 1) (Nat.zero_le 1) fun i hi c hc => by
      obtain ⟨h, hd, heq⟩ := subtractStep_spec (ha i hi) (hb i hi) hc
      omega
  refine ⟨hborrow, hdigits, ?_⟩
  have hsum := val_add (10 : ℤ) (fun i => (a i : ℤ) - b i) (fun i => (b i : ℤ)) 0 n
  have hcast (f : ℕ → ℕ) := cast_val (R := ℤ) 10 f 0 n
  push_cast at hcast hvalue
  simp only [sub_add_cancel, ← hcast] at hsum
  zify
  linear_combination hvalue - hsum

/-- The step of subtraction at a place of the aligned digits. -/
def differenceStep (n₁ n₂ : Numeric) (j : ℕ) : ℕ → ℕ × ℕ :=
  subtractStep (n₁.aligned (max n₁.len n₂.len) j) (n₂.aligned (max n₁.len n₂.len) j)

/-- Behind the shorter fraction only one of the numbers has a digit. -/
theorem subtractFraction_eq :
    digitLoop (fun i => differenceStep x y (max x.len y.len + min x.scale y.scale + i))
      (0 + (max x.len y.len + min x.scale y.scale))
      (max x.scale y.scale - min x.scale y.scale) 0 buf = subtractFraction x y buf := by
  rw [subtractFraction, Nat.zero_add]
  split_ifs with h
  · rw [show max x.scale y.scale = x.scale by omega]
    refine digitLoop_congr (I := (· = 0)) rfl ?_
    rintro i hi c rfl
    rw [differenceStep, aligned_of_lt (x.len + min x.scale y.scale + i) (by omega) (by omega),
      aligned_of_behind (le_max_right _ _) (by omega), subtractStep, if_neg (by omega)]
    exact ⟨rfl, rfl⟩
  · rw [show max x.scale y.scale = y.scale by omega]
    refine digitLoop_congr_step fun i hi => ?_
    rw [differenceStep, aligned_of_behind (le_max_left _ _) (by omega),
      aligned_of_lt (y.len + min x.scale y.scale + i) (by omega) (by omega)]

/-- Where both numbers have a digit. -/
theorem subtractCommon_eq :
    digitLoop (fun i => differenceStep x y (max x.len y.len - min x.len y.len + i))
      (0 + (max x.len y.len - min x.len y.len)) (min x.len y.len + min x.scale y.scale)
      r.2 r.1 = subtractCommon x y r := by
  rw [subtractCommon, Nat.zero_add]
  refine digitLoop_congr_step fun i hi => ?_
  rw [differenceStep, aligned_of_lt (x.len - min x.len y.len + i) (by omega) (by omega),
    aligned_of_lt (y.len - min x.len y.len + i) (by omega) (by omega)]

/-- Before the shorter integer part, which is that of the number subtracted. -/
theorem subtractInteger_eq (hlen : y.len ≤ x.len) (r : (ℕ → ℕ) × ℕ) :
    digitLoop (differenceStep x y) 0 (max x.len y.len - min x.len y.len) r.2 r.1 =
      subtractInteger x y r := by
  refine digitLoop_congr_step fun i hi => ?_
  rw [differenceStep, aligned_of_lt i (by omega) (by omega), aligned_of_before (by omega)]

def differenceLoop (n₁ n₂ : Numeric) (buf : ℕ → ℕ) : (ℕ → ℕ) × ℕ :=
  digitLoop (differenceStep n₁ n₂) 0 (max n₁.len n₂.len + max n₁.scale n₂.scale) 0 buf

/-- The three loops of the source are one loop over the aligned digits. -/
theorem subtractDigits_eq (hlen : y.len ≤ x.len) :
    subtractDigits x y buf = (differenceLoop x y buf).1 := by
  rw [differenceLoop, split_scale, digitLoop_append, subtractFraction_eq, split_len,
    digitLoop_append, subtractCommon_eq, subtractInteger_eq hlen, subtractDigits]

/-- The digits and the borrow of the loop write the difference. -/
theorem differenceLoop_spec (h₁ : x.DigitsBelow 10) (h₂ : y.DigitsBelow 10) :
    (differenceLoop x y buf).2 ≤ 1 ∧
      (∀ i < max x.len y.len + max x.scale y.scale, (differenceLoop x y buf).1 (0 + i) < 10) ∧
      val 10 (differenceLoop x y buf).1 0 (max x.len y.len + max x.scale y.scale) +
          y.mag * 10 ^ (max x.scale y.scale - y.scale) =
        x.mag * 10 ^ (max x.scale y.scale - x.scale) +
          10 ^ (max x.len y.len + max x.scale y.scale) * (differenceLoop x y buf).2 := by
  rw [← val_aligned_max_left, ← val_aligned_max_right]
  exact subtractLoop_spec 0 buf (fun i _ => aligned_lt h₁ _ i) fun i _ => aligned_lt h₂ _ i

/-- If the first number is not smaller, no borrow is left and the digits write the difference. -/
theorem subtractDigits_spec (h₁ : x.DigitsBelow 10) (h₂ : y.DigitsBelow 10)
    (hlen : y.len ≤ x.len)
    (hle : y.mag * 10 ^ (max x.scale y.scale - y.scale) ≤
      x.mag * 10 ^ (max x.scale y.scale - x.scale)) :
    (∀ i < max x.len y.len + max x.scale y.scale, subtractDigits x y buf i < 10) ∧
      val 10 (subtractDigits x y buf) 0 (max x.len y.len + max x.scale y.scale) +
          y.mag * 10 ^ (max x.scale y.scale - y.scale) =
        x.mag * 10 ^ (max x.scale y.scale - x.scale) := by
  obtain ⟨hborrow, hdigits, hvalue⟩ := @differenceLoop_spec x y buf h₁ h₂
  rw [subtractDigits_eq hlen]
  have hlt : val 10 (differenceLoop x y buf).1 0 (max x.len y.len + max x.scale y.scale) <
      10 ^ (max x.len y.len + max x.scale y.scale) := val_lt_pow hdigits
  simp only [Nat.zero_add] at hdigits
  refine ⟨hdigits, ?_⟩
  rcases Nat.le_one_iff_eq_zero_or_eq_one.1 hborrow with hb | hb
  · rw [hvalue, hb, Nat.mul_zero, Nat.add_zero]
  · rw [hb, Nat.mul_one] at hvalue
    omega

/-- The bytes behind the difference stay. -/
theorem subtractDigits_outside (hlen : y.len ≤ x.len)
    (hi : max x.len y.len + max x.scale y.scale ≤ i) : subtractDigits x y buf i = buf i := by
  rw [subtractDigits_eq hlen]
  exact digitLoop_outside (by omega)

end SubtractLoop

/-! ## The magnitudes written -/

variable (dest : Dest) (n : Numeric)

section Magnitude

variable {x y : Numeric} {q : ℚ}

/-- The magnitude as an integer of a larger scale. -/
theorem frac_mul_pow {s : ℕ} (hs : n.scale ≤ s) :
    n.frac 10 * 10 ^ s = ((n.mag * 10 ^ (s - n.scale) : ℕ) : ℚ) := by
  obtain ⟨t, rfl⟩ := Nat.exists_eq_add_of_le hs
  rw [frac_ten, Nat.add_sub_cancel_left, pow_add]
  push_cast
  field_simp

theorem rawSum_written (m : ℕ) (hx : x.DigitsBelow 10) (hy : y.DigitsBelow 10)
    (hq : |q| = x.frac 10 + y.frac 10) : Written (rawSum dest x y m) q (max x.scale y.scale) := by
  have hfirst : (prepareSum dest x y m).value 0 = 0 := by
    simp only [prepareSum, Function.update_self]
  obtain ⟨hdigits, hvalue⟩ := addDigits_spec hx hy hfirst
  refine ⟨rfl, hdigits, le_max_left _ _, ?_⟩
  rw [hq, add_mul, frac_mul_pow x (le_max_left _ _), frac_mul_pow y (le_max_right _ _)]
  exact_mod_cast hvalue

/-- Of the bytes behind the digits of a sum those up to byte 43 have been cleared. -/
theorem rawSum_rest (hx : x.DigitsBelow 10) (hy : y.DigitsBelow 10) (hi : max x.scale y.scale ≤ i)
    (hm : i < m) :
    (rawSum dest x y m).value ((rawSum dest x y m).len + i) = 0 ↔
      (44 ≤ max x.len y.len + 1 + i → dest.memory.value (max x.len y.len + 1 + i) = 0) := by
  have hvalue : (rawSum dest x y m).value ((rawSum dest x y m).len + i) =
      (numSet0Rest dest.start).value (max x.len y.len + 1 + i) := by
    refine (addDigits_outside hx hy (by simp only [rawSum, prepareSum]; omega)).trans ?_
    simp only [rawSum, prepareSum]
    rw [Function.update_of_ne (by omega), if_pos (by omega)]
  rw [hvalue]
  simp only [numSet0Rest, Dest.start, numSet0]
  split_ifs <;> omega

theorem rawDifference_written (m : ℕ) (hx : x.DigitsBelow 10) (hy : y.DigitsBelow 10)
    (hlen : y.len ≤ x.len) (hle : y.frac 10 ≤ x.frac 10) (hq : |q| = x.frac 10 - y.frac 10) :
    Written (rawDifference dest x y m) q (max x.scale y.scale) := by
  have hmag : y.mag * 10 ^ (max x.scale y.scale - y.scale) ≤
      x.mag * 10 ^ (max x.scale y.scale - x.scale) := by
    have h := mul_le_mul_of_nonneg_right hle (by positivity : (0 : ℚ) ≤ 10 ^ max x.scale y.scale)
    rw [frac_mul_pow x (le_max_left _ _), frac_mul_pow y (le_max_right _ _)] at h
    exact_mod_cast h
  obtain ⟨hdigits, hvalue⟩ :=
    @subtractDigits_spec x y (prepareDifference dest x y m).value hx hy hlen hmag
  refine ⟨rfl, hdigits, le_max_left _ _, ?_⟩
  rw [hq, sub_mul, frac_mul_pow x (le_max_left _ _), frac_mul_pow y (le_max_right _ _),
    eq_sub_iff_add_eq]
  exact_mod_cast hvalue

/-- The bytes behind the digits of a difference have been cleared. -/
theorem rawDifference_rest (hlen : y.len ≤ x.len) (hi : max x.scale y.scale ≤ i) (hm : i < m) :
    (rawDifference dest x y m).value ((rawDifference dest x y m).len + i) = 0 := by
  refine (subtractDigits_outside hlen
    (by simp only [rawDifference, prepareDifference]; omega)).trans
    ?_
  simp only [rawDifference, prepareDifference, Function.update_apply]
  split_ifs with h₁ h₂
  · rfl
  · rfl
  · exact absurd ⟨by omega, by omega⟩ h₂

end Magnitude

/-! ## The result -/

theorem Dest.finish_neg (r : Numeric) (b : Bool) :
    { dest.finish r with neg := b } = dest.finish { r with neg := b } := by
  cases dest <;> rfl

/-- The last steps of a routine: what is left of the raw result `n` is copied and cut to the
internal precision. -/
theorem Dest.normalize_exact_iff {n m : Numeric} {k : ℕ} (hk : Stripped k n m)
    (hsize : n.len + n.scale ≤ numericStackBytes) (hwhole : Whole { m with neg := b } q) :
    Exact q (numericNormalize (dest.finish { m with neg := b })) ↔
      (intDigits q ≤ numericMaxPrecision → n.Agrees q (maxScaleOf (intDigits q))) ∧
        (numericMaxPrecision < intDigits q → 0 ≤ q) := by
  have hlen := hk.len
  have hscale := hk.scale
  have hsize' : m.len + m.scale ≤ numericStackBytes := by omega
  have hsame : Same (dest.finish { m with neg := b }) { m with neg := b } :=
    dest.finish_same hsize'
  rw [Numeric.normalize_exact_iff (hsame.whole hwhole), hsame.agrees_iff, ← hk.agrees_iff]
  rfl

/-- The same for digits that write an exact value. -/
theorem Dest.finish_exact_iff {n : Numeric} {s : ℕ} (h : Written n q s)
    (hsize : n.len + n.scale ≤ numericStackBytes) (hb : b = decide (q < 0)) :
    Exact q (numericNormalize { dest.finish (numNormalize n) with neg := b }) ↔
      (intDigits q ≤ numericMaxPrecision → ∀ i, s ≤ i →
        i < min n.scale (maxScaleOf (intDigits q)) → n.value (n.len + i) = 0) ∧
      (numericMaxPrecision < intDigits q → 0 ≤ q) := by
  obtain ⟨k, hk⟩ := numNormalize_spec n
  have hwhole : Whole { numNormalize n with neg := b } q := by
    refine hk.whole h.valid (fun i hi => h.digits i (by omega)) h.cut_zero (fun _ => hb) ?_
    intro hneg hzero
    have hq : q < 0 := of_decide_eq_true (hb.symm.trans hneg)
    exact h.mag_ne_zero hq.ne (by rw [← hk.mag_eq, mag, hzero, val_zero])
  rw [dest.finish_neg, dest.normalize_exact_iff hk hsize hwhole, h.agrees_iff]

/-! ## Sums of canonical numbers -/

section Sum

variable {x y : Numeric}

theorem abs_toRat : |n.toRat| = n.frac 10 := by
  rw [toRat_eq_frac]
  split_ifs
  · rw [abs_neg, abs_of_nonneg frac_nonneg]
  · exact abs_of_nonneg frac_nonneg

/-- Canonical magnitudes are compared by value. -/
theorem Canonical.compare_magnitude (hx : x.Canonical) (hy : y.Canonical) :
    Reports (compareMagnitude x y) (x.frac 10) (y.frac 10) := by
  rcases compareMagnitude_key (by norm_num) hx.digits hy.digits with ⟨hr, h⟩ | ⟨hr, h⟩ | ⟨hr, h⟩
  · rw [hr]
    refine .of_lt (hx.frac_lt_frac hy ?_)
    simpa only [Prod.Lex.toLex_lt_toLex, Nat.cast_lt, Nat.cast_inj] using h
  · rw [hr]
    exact .of_eq (congrArg Prod.snd (toLex_inj.1 h))
  · rw [hr]
    refine .of_gt (hy.frac_lt_frac hx ?_)
    simpa only [Prod.Lex.toLex_lt_toLex, Nat.cast_lt, Nat.cast_inj] using h

theorem Canonical.len_le_of_frac_le (hx : x.Canonical) (hy : y.Canonical)
    (h : y.frac 10 ≤ x.frac 10) : y.len ≤ x.len := by
  by_contra hlen
  exact absurd (hx.frac_lt_frac hy (.inl (Nat.not_le.1 hlen))) (not_lt.2 h)

/-- The bytes behind the digits of a sum that get into the result are zeros.  Bytes up to 43 are,
as `NUM_SET_0_REST` cleared them. -/
def Cleared (dest : Dest) (x y : Numeric) (q : ℚ) (scaleMin : ℕ) : Prop :=
  ∀ i, max x.scale y.scale ≤ i → i < min scaleMin (maxScaleOf (intDigits q)) →
    44 ≤ max x.len y.len + 1 + i → dest.memory.value (max x.len y.len + 1 + i) = 0

/-- The result fits into the memory of a number. -/
theorem size_le (hm : m ≤ numericMaxScaleInt) (hx : x.Canonical) (hy : y.Canonical) :
    max x.len y.len + 1 + max (max x.scale y.scale) m ≤ numericStackBytes := by
  have hxt : x.len + x.scale ≤ 45 := hx.total_le
  have hyt : y.len + y.scale ≤ 45 := hy.total_le
  have hm' : m ≤ 20 := hm
  show _ ≤ 104
  omega

/-- Numbers of one sign. -/
theorem numAddInt_exact_iff (hm : m ≤ numericMaxScaleInt) (hx : x.Canonical) (hy : y.Canonical)
    (hq : |q| = x.frac 10 + y.frac 10) (hb : b = decide (q < 0)) :
    Exact q (numericNormalize { numAddInt dest x y m with neg := b }) ↔
      (intDigits q ≤ numericMaxPrecision → Cleared dest x y q m) ∧
        (numericMaxPrecision < intDigits q → 0 ≤ q) := by
  have hscale : (rawSum dest x y m).scale = max (max x.scale y.scale) m := rfl
  rw [numAddInt, dest.finish_exact_iff (rawSum_written dest m hx.digits hy.digits hq)
    (size_le hm hx hy) hb]
  refine and_congr_left fun _ => imp_congr_right fun _ => forall₂_congr fun i hi => ?_
  constructor
  · intro h hlt
    exact (rawSum_rest dest hx.digits hy.digits hi (by omega)).1 (h (by omega))
  · intro h hlt
    exact (rawSum_rest dest hx.digits hy.digits hi (by omega)).2 (h (by omega))

/-- The smaller magnitude subtracted from the larger. -/
theorem numSubtractInt_exact_iff (hm : m ≤ numericMaxScaleInt) (hx : x.Canonical) (hy : y.Canonical)
    (hle : y.frac 10 ≤ x.frac 10) (hq : |q| = x.frac 10 - y.frac 10) (hb : b = decide (q < 0)) :
    Exact q (numericNormalize { numSubtractInt dest x y m with neg := b }) ↔
      (numericMaxPrecision < intDigits q → 0 ≤ q) := by
  have hlen := hx.len_le_of_frac_le hy hle
  have hscale : (rawDifference dest x y m).scale = max (max x.scale y.scale) m := rfl
  have hsize : (rawDifference dest x y m).len + (rawDifference dest x y m).scale ≤
      numericStackBytes := le_trans (Nat.add_le_add_right (Nat.le_succ _) _) (size_le hm hx hy)
  rw [numSubtractInt, dest.finish_exact_iff
    (rawDifference_written dest m hx.digits hy.digits hlen hle hq) hsize hb]
  exact and_iff_right fun _ i h₁ h₂ => rawDifference_rest dest hlen h₁ (by omega)

/-- Zero is exact. -/
theorem numSet0_exact (z : Numeric) : Exact 0 (numericNormalize (numSet0 z)) := by
  have hwritten : Written (numSet0 z) 0 0 :=
    ⟨rfl, fun i hi => absurd hi (Nat.not_lt_zero i), le_rfl, by simp [cut, numSet0]⟩
  have hwhole : Whole (numSet0 z) 0 :=
    ⟨rfl, fun i hi => absurd hi (Nat.not_lt_zero i), fun hi => absurd hi (Nat.lt_irrefl 0),
      hwritten.cut_zero, fun h => absurd rfl h, fun h => absurd h Bool.false_ne_true⟩
  rw [normalize_exact_iff hwhole, hwritten.agrees_iff]
  exact ⟨fun _ i _ h => absurd (lt_of_lt_of_le h (min_le_left _ _)) (Nat.not_lt_zero i),
    fun _ => le_rfl⟩

/-- The sum of two numbers of one sign. -/
theorem abs_add_of_sign {a b : ℚ} {neg : Bool} (ha : 0 ≤ a) (hb : 0 ≤ b)
    (hneg : neg = true → 0 < a) :
    |(if neg then -a else a) + (if neg then -b else b)| = a + b ∧
      neg = decide ((if neg then -a else a) + (if neg then -b else b) < 0) := by
  cases neg with
  | false =>
    exact ⟨abs_of_nonneg (add_nonneg ha hb), (decide_eq_false (not_lt.2 (add_nonneg ha hb))).symm⟩
  | true =>
    have hlt : -a + -b < 0 := by linarith [hneg rfl]
    simp only [if_true]
    exact ⟨by rw [abs_of_neg hlt]; ring, (decide_eq_true hlt).symm⟩

/-- The sum of two numbers of different signs has the sign of the larger. -/
theorem abs_add_of_not_sign {a b : ℚ} {neg : Bool} (h : b < a) :
    |(if neg then -a else a) + (if !neg then -b else b)| = a - b ∧
      neg = decide ((if neg then -a else a) + (if !neg then -b else b) < 0) := by
  cases neg with
  | false =>
    have hpos : 0 < a + -b := by linarith
    simp only [Bool.false_eq_true, if_false, Bool.not_false, if_true]
    exact ⟨by rw [abs_of_pos hpos]; ring, (decide_eq_false hpos.not_gt).symm⟩
  | true =>
    have hlt : -a + b < 0 := by linarith
    simp only [if_true, Bool.not_true, Bool.false_eq_true, if_false]
    exact ⟨by rw [abs_of_neg hlt]; ring, (decide_eq_true hlt).symm⟩

/-- `_num_add_int` does not look at the signs. -/
theorem numAddInt_neg (x y : Numeric) (neg : Bool) (m : ℕ) :
    numAddInt dest x { y with neg := neg } m = numAddInt dest x y m := by
  have hfraction (buf : ℕ → ℕ) : addFraction x { y with neg := neg } buf = addFraction x y buf := by
    simp only [addFraction]
    split_ifs <;> rfl
  have hinteger (r : (ℕ → ℕ) × ℕ) : addInteger x { y with neg := neg } r = addInteger x y r := by
    simp only [addInteger]
    split_ifs <;> rfl
  have hdigits (buf : ℕ → ℕ) : addDigits x { y with neg := neg } buf = addDigits x y buf := by
    rw [addDigits, addDigits, hfraction, hinteger]
    rfl
  rw [numAddInt, numAddInt, rawSum, rawSum, hdigits]
  rfl

/-- `num_add` with the sign `neg` for the second number: exact, but for the sign of an overflow
and the bytes that were not cleared. -/
theorem numAdd_exact_iff (hm : m ≤ numericMaxScaleInt) (hx : x.Canonical) (hy : y.Canonical)
    (neg : Bool) (hq : q = x.toRat + { y with neg := neg }.toRat) :
    Exact q (numericNormalize (numAdd dest x { y with neg := neg } m)) ↔
      (intDigits q ≤ numericMaxPrecision → x.neg = neg → Cleared dest x y q m) ∧
        (numericMaxPrecision < intDigits q → 0 ≤ q) := by
  have hcompare : numCompareInt x { y with neg := neg } false = compareMagnitude x y := rfl
  have hleft : numSubtractInt dest x { y with neg := neg } m = numSubtractInt dest x y m := rfl
  have hright : numSubtractInt dest { y with neg := neg } x m = numSubtractInt dest y x m := rfl
  have hfrac : ({ y with neg := neg } : Numeric).frac 10 = y.frac 10 := rfl
  have hx0 := @frac_nonneg x
  have hy0 := @frac_nonneg y
  rw [toRat_eq_frac, toRat_eq_frac, hfrac] at hq
  unfold numAdd
  rw [hcompare, hleft, hright]
  by_cases hsign : x.neg = neg
  · subst hsign
    obtain ⟨habs, hneg⟩ := abs_add_of_sign hx0 hy0 hx.frac_pos
    rw [← hq] at habs hneg
    simp only [if_true, true_imp_iff, numAddInt_neg]
    exact numAddInt_exact_iff dest hm hx hy habs hneg
  · have hnot : (!x.neg) = neg := Bool.not_eq.2 hsign
    simp only [hsign, false_imp_iff, imp_true_iff, true_and, if_false]
    rcases hx.compare_magnitude hy with ⟨hr, h⟩ | ⟨hr, h⟩ | ⟨hr, h⟩
    · obtain ⟨habs, hneg⟩ := @abs_add_of_not_sign (y.frac 10) (x.frac 10) neg h
      rw [add_comm, ← hnot, Bool.not_not, hnot, ← hq] at habs hneg
      rw [hr, if_pos rfl]
      exact numSubtractInt_exact_iff dest hm hy hx h.le habs hneg
    · have hzero : q = 0 := by
        rw [hq, h, ← hnot]
        cases x.neg <;> simp
      rw [hr, if_neg (by decide), if_pos rfl, hzero]
      exact iff_of_true (numSet0_exact _) fun _ => le_rfl
    · obtain ⟨habs, hneg⟩ := @abs_add_of_not_sign (x.frac 10) (y.frac 10) x.neg h
      rw [hnot, ← hq] at habs hneg
      rw [hr, if_neg (by decide), if_neg (by decide)]
      exact numSubtractInt_exact_iff dest hm hx hy h.le habs hneg

/-- Subtraction is addition of the number with the other sign. -/
theorem numSubtract_eq (x y : Numeric) (m : ℕ) :
    numSubtract dest x y m = numAdd dest x { y with neg := !y.neg } m := by
  rw [numSubtract, numAdd, numAddInt_neg dest x y (!y.neg) m]
  by_cases hsign : x.neg = y.neg
  · have hne : ¬ x.neg = !y.neg := by simp [hsign]
    exact (if_neg (not_not.2 hsign)).trans (if_neg hne).symm
  · rw [if_pos hsign, if_pos (Bool.eq_not_of_ne hsign)]

theorem toRat_not : ({ n with neg := !n.neg } : Numeric).toRat = -n.toRat := by
  have hmag : ({ n with neg := !n.neg } : Numeric).mag = n.mag := rfl
  rw [toRat, toRat, hmag]
  cases n.neg <;> simp

/-- A sum is exact unless it is negative and too long. -/
theorem numericAdd_exact_iff (hx : x.Canonical) (hy : y.Canonical) (hvx : x.invalid = .valid)
    (hvy : y.invalid = .valid) :
    Exact (x.toRat + y.toRat) (numericAdd dest x y) ↔
      (numericMaxPrecision < intDigits (x.toRat + y.toRat) → 0 ≤ x.toRat + y.toRat) := by
  rw [numericAdd, if_neg (not_not.2 hvx), if_neg (not_not.2 hvy)]
  refine (numAdd_exact_iff dest (Nat.zero_le _) hx hy y.neg rfl).trans (and_iff_right ?_)
  intro _ _ i _ hi
  exact absurd (lt_of_lt_of_le hi (min_le_left _ _)) (Nat.not_lt_zero i)

/-- For a difference of numbers with different signs the bytes that are taken for digits must have
been zeros, too. -/
theorem numericSubtract_exact_iff (hx : x.Canonical) (hy : y.Canonical) (hvx : x.invalid = .valid)
    (hvy : y.invalid = .valid) :
    Exact (x.toRat - y.toRat) (numericSubtract dest x y) ↔
      (intDigits (x.toRat - y.toRat) ≤ numericMaxPrecision → x.neg ≠ y.neg →
        Cleared dest x y (x.toRat - y.toRat) numericMaxScaleInt) ∧
      (numericMaxPrecision < intDigits (x.toRat - y.toRat) → 0 ≤ x.toRat - y.toRat) := by
  rw [numericSubtract, if_neg (not_not.2 hvx), if_neg (not_not.2 hvy), numSubtract_eq,
    numAdd_exact_iff dest le_rfl hx hy (!y.neg) (by rw [toRat_not, sub_eq_add_neg]), Bool.eq_not]

/-- The sum is exact up to truncation, and so is the difference, apart from a negative value that
is too long, which becomes plus infinity, and for a difference of numbers with different signs
bytes that have not been cleared. -/
theorem numericAdd_numericSubtract_exact_iff (dest : Dest) (hx : x.Canonical) (hy : y.Canonical)
    (hvx : x.invalid = .valid) (hvy : y.invalid = .valid) :
    (Exact (x.toRat + y.toRat) (numericAdd dest x y) ↔
      (numericMaxPrecision < intDigits (x.toRat + y.toRat) → 0 ≤ x.toRat + y.toRat)) ∧
    (Exact (x.toRat - y.toRat) (numericSubtract dest x y) ↔
      (intDigits (x.toRat - y.toRat) ≤ numericMaxPrecision → x.neg ≠ y.neg →
        Cleared dest x y (x.toRat - y.toRat) numericMaxScaleInt) ∧
      (numericMaxPrecision < intDigits (x.toRat - y.toRat) → 0 ≤ x.toRat - y.toRat)) :=
  ⟨numericAdd_exact_iff dest hx hy hvx hvy, numericSubtract_exact_iff dest hx hy hvx hvy⟩

end Sum

def longOne : Numeric := { blank with len := 25, value := fun i => if i = 0 then 1 else 0 }

def minusOne : Numeric := { blank with len := 1, neg := true, value := fun _ => 1 }

def minusNines : Numeric := { blank with len := 40, neg := true, value := fun _ => 9 }

theorem longOne_canonical : longOne.Canonical :=
  canonical_of_digits (fun i _ => by simp only [longOne]; split <;> omega) (fun _ => one_ne_zero)
    (fun h => absurd h (Nat.lt_irrefl 0)) (by decide) (by decide) (fun _ => rfl)

theorem minusOne_canonical : minusOne.Canonical :=
  canonical_of_digits (fun _ _ => by norm_num [minusOne]) (fun _ => one_ne_zero)
    (fun h => absurd h (Nat.lt_irrefl 0)) (by decide) (by decide)
    (fun h => absurd h (Nat.succ_ne_zero 0))

theorem minusNines_canonical : minusNines.Canonical :=
  canonical_of_digits (fun _ _ => by norm_num [minusNines]) (fun _ => by decide)
    (fun h => absurd h (Nat.lt_irrefl 0)) (by decide) (by decide)
    (fun h => absurd h (Nat.succ_ne_zero 39))

theorem longOne_toRat : longOne.toRat = (10 ^ 24 : ℕ) := by
  rw [toRat, show longOne.mag = 10 ^ 24 from rfl]
  norm_num [longOne, blank]

theorem minusOne_toRat : minusOne.toRat = -1 := by
  rw [toRat, show minusOne.mag = 1 from rfl]
  norm_num [minusOne, blank]

theorem longOne_sub_minusOne : longOne.toRat - minusOne.toRat = (10 ^ 24 + 1 : ℕ) := by
  rw [longOne_toRat, minusOne_toRat]
  norm_num

theorem minusNines_toRat : minusNines.toRat = -(10 ^ 40 - 1 : ℕ) := by
  rw [toRat, show minusNines.mag = 10 ^ 40 - 1 from rfl]
  norm_num [minusNines, blank]

theorem minusNines_add : minusNines.toRat + minusNines.toRat = -(2 * 10 ^ 40 - 2 : ℕ) := by
  rw [minusNines_toRat]
  norm_num

theorem intDigits_natCast (k : ℕ) : intDigits k = (Nat.digits 10 k).length := by
  rw [intDigits, Nat.abs_cast, Nat.floor_natCast]

theorem intDigits_neg (q : ℚ) : intDigits (-q) = intDigits q := by
  rw [intDigits, intDigits, abs_neg]

/-- The condition holds where the result object held zeros. -/
theorem numericAdd_numericSubtract_exact_longOne :
    Exact (longOne.toRat + minusOne.toRat) (numericAdd (.other blank) longOne minusOne) ∧
      Exact (longOne.toRat - minusOne.toRat) (numericSubtract (.other blank) longOne minusOne) := by
  obtain ⟨hadd, hsub⟩ := numericAdd_numericSubtract_exact_iff (.other blank) longOne_canonical
    minusOne_canonical rfl rfl
  refine ⟨hadd.2 fun _ => ?_, hsub.2 ⟨fun _ _ _ _ _ _ => rfl, fun _ => ?_⟩⟩
  · rw [longOne_toRat, minusOne_toRat]
    norm_num
  · rw [longOne_sub_minusOne]
    exact Nat.cast_nonneg _

/-- A byte of the memory worked in shows up in a difference, and a sum that is too small becomes
plus infinity. -/
theorem numericSubtract_numericAdd_inexact :
    ¬ Exact (longOne.toRat - minusOne.toRat)
        (numericSubtract (.other { blank with value := fun _ => 7 }) longOne minusOne) ∧
      ¬ Exact (minusNines.toRat + minusNines.toRat)
        (numericAdd (.other blank) minusNines minusNines) := by
  constructor
  · rw [numericSubtract_exact_iff _ longOne_canonical minusOne_canonical rfl rfl,
      longOne_sub_minusOne]
    rintro ⟨hcleared, -⟩
    have h44 : (7 : ℕ) = 0 := hcleared (by decide) (by decide) 18 (by decide)
      (by decide) (by decide)
    exact absurd h44 (by decide)
  · rw [numericAdd_exact_iff _ minusNines_canonical minusNines_canonical rfl rfl, minusNines_add]
    intro hnonneg
    exact absurd (hnonneg (by decide)) (by norm_num)

end Virtuoso.Numeric
