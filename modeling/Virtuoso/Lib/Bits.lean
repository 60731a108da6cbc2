import Mathlib.Algebra.BigOperators.Group.Finset.Piecewise
import Mathlib.Algebra.Order.BigOperators.Group.Finset
import Mathlib.Data.Nat.Bitwise

/-!
# Bytes

Big-endian words in byte strings, and byte strings read as sets of bits.  A
byte string is a list of numbers below 256; the bit `i` of a string is bit
`i % 8` of its byte `i / 8`.
-/

namespace Virtuoso.Lib

open Finset

variable {bytes : List ℕ}

/-- All bytes are in range. -/
def IsBytes (bytes : List ℕ) : Prop := ∀ b ∈ bytes, b < 256

theorem IsBytes.append {xs ys : List ℕ} (hx : IsBytes xs) (hy : IsBytes ys) : IsBytes (xs ++ ys) :=
  fun b hb => (List.mem_append.1 hb).elim (hx b) (hy b)

theorem IsBytes.getD (h : IsBytes bytes) (i : ℕ) : bytes.getD i 0 < 256 := by
  rw [List.getD_eq_getElem?_getD]
  cases hi : bytes[i]? with
  | none => simp
  | some b => exact h b (List.mem_of_getElem? hi)

theorem IsBytes.set (h : IsBytes bytes) (i : ℕ) {b : ℕ} (hb : b < 256) :
    IsBytes (bytes.set i b) := fun c hc =>
  (List.mem_or_eq_of_mem_set hc).elim (h c) fun hc => hc ▸ hb

/-! ## Words -/

/-- A 32-bit word, most significant byte first. -/
def word32 (w : ℕ) : List ℕ := [w / 2 ^ 24 % 256, w / 2 ^ 16 % 256, w / 2 ^ 8 % 256, w % 256]

/-- A 16-bit word, most significant byte first. -/
def word16 (w : ℕ) : List ℕ := [w / 2 ^ 8 % 256, w % 256]

@[simp] theorem length_word32 (w : ℕ) : (word32 w).length = 4 := rfl

@[simp] theorem length_word16 (w : ℕ) : (word16 w).length = 2 := rfl

theorem isBytes_word32 (w : ℕ) : IsBytes (word32 w) := by
  intro b hb
  simp only [word32, List.mem_cons, List.not_mem_nil, or_false] at hb
  omega

theorem isBytes_word16 (w : ℕ) : IsBytes (word16 w) := by
  intro b hb
  simp only [word16, List.mem_cons, List.not_mem_nil, or_false] at hb
  omega

/-! ## Sets of bits -/

def bitAt (bytes : List ℕ) (i : ℕ) : Bool := (bytes.getD (i / 8) 0).testBit (i % 8)

def setBit (bytes : List ℕ) (i : ℕ) : List ℕ :=
  bytes.set (i / 8) (bytes.getD (i / 8) 0 ||| 1 <<< (i % 8))

def clearBit (bytes : List ℕ) (i : ℕ) : List ℕ :=
  bytes.set (i / 8) (bytes.getD (i / 8) 0 &&& (255 ^^^ 1 <<< (i % 8)))

@[simp] theorem length_setBit (bytes : List ℕ) (i : ℕ) :
    (setBit bytes i).length = bytes.length := by simp [setBit]

@[simp] theorem length_clearBit (bytes : List ℕ) (i : ℕ) :
    (clearBit bytes i).length = bytes.length := by simp [clearBit]

variable {i : ℕ}

theorem bitAt_eq_false (h : 8 * bytes.length ≤ i) : bitAt bytes i = false := by
  have : bytes.length ≤ i / 8 := by omega
  simp [bitAt, List.getElem?_eq_none this]

/-- A byte of an updated string. -/
theorem getD_set (bytes : List ℕ) (hi : i < bytes.length) (b j : ℕ) :
    (bytes.set i b).getD j 0 = if j = i then b else bytes.getD j 0 := by
  by_cases h : j = i
  · subst h
    simp [hi]
  · simp [List.getElem?_set_ne (Ne.symm h), h]

theorem bitAt_setBit (hi : i < 8 * bytes.length) (j : ℕ) :
    bitAt (setBit bytes i) j = (decide (j = i) || bitAt bytes j) := by
  have hlt : i / 8 < bytes.length := by omega
  rw [bitAt, setBit, getD_set bytes hlt]
  split_ifs with h
  · rw [Nat.testBit_or, Nat.one_shiftLeft, Nat.testBit_two_pow, bitAt, h, Bool.or_comm]
    congr 2
    exact propext (by omega)
  · have : j ≠ i := by rintro rfl; exact h rfl
    simp [this, bitAt]

theorem bitAt_clearBit (hi : i < 8 * bytes.length) (j : ℕ) :
    bitAt (clearBit bytes i) j = (decide (j ≠ i) && bitAt bytes j) := by
  have hlt : i / 8 < bytes.length := by omega
  rw [bitAt, clearBit, getD_set bytes hlt]
  split_ifs with h
  · have h8 : j % 8 < 8 := Nat.mod_lt _ (by decide)
    have h255 : (255 : ℕ).testBit (j % 8) = true := by
      rw [show (255 : ℕ) = 2 ^ 8 - 1 from rfl, Nat.testBit_two_pow_sub_one]
      simpa using h8
    rw [Nat.testBit_and, Nat.testBit_xor, h255, Nat.one_shiftLeft, Nat.testBit_two_pow, bitAt, h,
      Bool.and_comm]
    congr 1
    rw [Bool.true_xor, ← decide_not]
    exact decide_eq_decide.2 (by omega)
  · have : j ≠ i := by rintro rfl; exact h rfl
    simp [this, bitAt]

theorem IsBytes.setBit (h : IsBytes bytes) (i : ℕ) : IsBytes (setBit bytes i) := by
  refine h.set _ (Nat.or_lt_two_pow (n := 8) (h.getD _) ?_)
  rw [Nat.one_shiftLeft]
  exact Nat.pow_lt_pow_right (by decide) (Nat.mod_lt _ (by decide))

theorem IsBytes.clearBit (h : IsBytes bytes) (i : ℕ) : IsBytes (clearBit bytes i) :=
  h.set _ (lt_of_le_of_lt Nat.and_le_left (h.getD _))

/-- The positions of the bits that are set. -/
def bitSet (bytes : List ℕ) : Finset ℕ := (Finset.range (8 * bytes.length)).filter (bitAt bytes ·)

theorem mem_bitSet : i ∈ bitSet bytes ↔ bitAt bytes i = true := by
  rw [bitSet, mem_filter, mem_range, and_iff_right_iff_imp]
  intro h
  by_contra hi
  rw [bitAt_eq_false (by omega)] at h
  cases h

theorem bitSet_setBit (hi : i < 8 * bytes.length) :
    bitSet (setBit bytes i) = insert i (bitSet bytes) := by
  ext j
  simp [mem_bitSet, bitAt_setBit hi]

theorem bitSet_clearBit (hi : i < 8 * bytes.length) :
    bitSet (clearBit bytes i) = (bitSet bytes).erase i := by
  ext j
  simp [mem_bitSet, bitAt_clearBit hi]

theorem lt_of_mem_bitSet (h : i ∈ bitSet bytes) : i < 8 * bytes.length :=
  mem_range.1 (mem_of_mem_filter i h)

/-- The positions of the bits that are set, in ascending order. -/
def bitList (bytes : List ℕ) : List ℕ := (List.range (8 * bytes.length)).filter (bitAt bytes ·)

theorem mem_bitList : i ∈ bitList bytes ↔ i ∈ bitSet bytes := by
  simp [bitList, bitSet]

theorem pairwise_bitList (bytes : List ℕ) : (bitList bytes).Pairwise (· < ·) :=
  List.pairwise_lt_range.filter _

theorem length_bitList (bytes : List ℕ) : (bitList bytes).length = (bitSet bytes).card := by
  rw [← List.toFinset_card_of_nodup ((pairwise_bitList bytes).imp ne_of_lt)]
  congr 1
  ext i
  rw [List.mem_toFinset, mem_bitList]

/-! ## Counting bits -/

def countOnes : ℕ → ℕ → ℕ
  | 0, _ => 0
  | n + 1, w => w % 2 + countOnes n (w / 2)

theorem countOnes_eq_sum (n w : ℕ) :
    countOnes n w = ∑ i ∈ range n, if w.testBit i then 1 else 0 := by
  induction n generalizing w with
  | zero => rfl
  | succ n ih =>
    rw [countOnes, ih, sum_range_succ', Nat.add_comm]
    simp only [Nat.testBit_succ]
    congr 1
    rw [Nat.testBit_zero]
    rcases Nat.mod_two_eq_zero_or_one w with h | h <;> simp [h]

/-- A number has no ones beyond its width. -/
theorem countOnes_of_lt {n w : ℕ} (h : w < 2 ^ n) (m : ℕ) :
    countOnes (n + m) w = countOnes n w := by
  rw [countOnes_eq_sum, countOnes_eq_sum, sum_range_add]
  simp only [Nat.add_eq_left, sum_eq_zero_iff, mem_range]
  intro i _
  rw [Nat.testBit_lt_two_pow (h.trans_le (Nat.pow_le_pow_right (by decide) (Nat.le_add_right n i)))]
  rfl

/-- The ones of all bytes are the members of the set. -/
theorem sum_countOnes (bytes : List ℕ) :
    (bytes.map (countOnes 8)).sum = (bitSet bytes).card := by
  rw [bitSet, card_filter]
  induction bytes with
  | nil => rfl
  | cons b bytes ih =>
    rw [List.map_cons, List.sum_cons, ih, List.length_cons, Nat.mul_succ, Nat.add_comm _ 8,
      sum_range_add, countOnes_eq_sum]
    refine congrArg₂ (· + ·) ?_ ?_
    · refine sum_congr rfl fun i hi => ?_
      have hi : i < 8 := mem_range.1 hi
      simp [bitAt, Nat.div_eq_of_lt hi, Nat.mod_eq_of_lt hi]
    · refine sum_congr rfl fun i _ => ?_
      simp [bitAt]

end Virtuoso.Lib
