import Virtuoso.Lib.Bits

/-!
# Compression entries

The byte format of bitmap-index rows, `bitmap.h`.  A row is a string of
compression entries, or CEs, each with a header of four bytes.  A CE stands for
bits in one range of `CE_N_VALUES` bit numbers, in one of three ways: as a
single bit number, as an array of bit numbers, or as a bitmap.

The first half of the file has the macros over byte strings.  The second half
has the CEs as data, `Ce`, with their encoding, and says what the macros read
from an encoded CE.
-/

namespace Virtuoso.Bitmap

open Lib

/-! ## The macros -/

/-- `CE_N_VALUES`. -/
def ceNValues : ℕ := 8192

/-- `CE_MAX_LENGTH`. -/
def ceMaxLength : ℕ := 1028

/-- `LONG_REF_NA`, read as an unsigned number. -/
def longRefNa (p : List ℕ) : ℕ :=
  p.getD 0 0 <<< 24 ||| p.getD 1 0 <<< 16 ||| p.getD 2 0 <<< 8 ||| p.getD 3 0

/-- `LONG_SET_NA`: the four bytes it writes. -/
def longSetNa (l : ℕ) : List ℕ := [l >>> 24 % 256, l >>> 16 % 256, l >>> 8 % 256, l % 256]

/-- `SHORT_REF_NA`. -/
def shortRefNa (p : List ℕ) : ℕ := p.getD 0 0 <<< 8 ||| p.getD 1 0

/-- `SHORT_SET_NA`: the two bytes it writes. -/
def shortSetNa (l : ℕ) : List ℕ := [l >>> 8 % 256, l % 256]

/-- `CE_OFFSET`. -/
def ceOffset (ce : List ℕ) : ℕ :=
  (ce.getD 0 0 &&& 0x7f) <<< 24 ||| ce.getD 1 0 <<< 16 ||| (ce.getD 2 0 &&& 0xe0) <<< 8

/-- `CE_ARRAY_MASK`. -/
def ceArrayMask : ℕ := 0x1800

/-- `CE_IS_SINGLE`. -/
def ceIsSingle (ce : List ℕ) : Bool := ce.getD 0 0 &&& 0x80 ≠ 0

/-- `CE_IS_ARRAY`. -/
def ceIsArray (ce : List ℕ) : Bool := ceArrayMask = ceArrayMask &&& longRefNa ce

/-- `CE_LENGTH`. -/
def ceLength (ce : List ℕ) : ℕ :=
  if ceIsSingle ce then 4 else ce.getD 3 0 ||| (ce.getD 2 0 &&& 0x7) <<< 8

/-- `CE_SET_LENGTH`. -/
def ceSetLength (ce : List ℕ) (len : ℕ) : List ℕ :=
  let ce := ce.set 3 (len &&& 0xff)
  ce.set 2 (ce.getD 2 0 &&& 0xf8 ||| (len &&& 0x700) >>> 8)

/-- `CE_SINGLE_VALUE`. -/
def ceSingleValue (ce : List ℕ) : ℕ := longRefNa ce &&& 0x7fffffff

/-- `CE_SET_OFFSET`. -/
def ceSetOffset (ce : List ℕ) (off : ℕ) : List ℕ :=
  let ce := ce.set 0 (ce.getD 0 0 &&& 0x80)
  let ce := ce.set 0 ((ce.getD 0 0 ||| off >>> 24) % 256)
  let ce := ce.set 1 (off >>> 16 % 256)
  let ce := ce.set 2 (ce.getD 2 0 &&& 0x1f)
  ce.set 2 (ce.getD 2 0 ||| off >>> 8 &&& 0xe0)

/-- `SA_REF`. -/
def saRef (sa : List ℕ) (n : ℕ) : ℕ := shortRefNa (sa.drop (2 * n))

/-! ## Reading a header -/

theorem longSetNa_eq (w : ℕ) : longSetNa w = word32 w := by
  simp [longSetNa, word32, Nat.shiftRight_eq_div_pow]

theorem shortSetNa_eq (w : ℕ) : shortSetNa w = word16 w := by
  simp [shortSetNa, word16, Nat.shiftRight_eq_div_pow]

/-- The bits of a number under a mask of `k` ones above bit `i`. -/
theorem and_mask (x k i : ℕ) : x &&& (2 ^ k - 1) <<< i = x / 2 ^ i % 2 ^ k * 2 ^ i := by
  rw [← Nat.shiftLeft_eq, ← Nat.shiftRight_eq_div_pow, ← Nat.and_two_pow_sub_one_eq_mod]
  refine Nat.eq_of_testBit_eq fun j => ?_
  simp only [Nat.testBit_and, Nat.testBit_shiftLeft, Nat.testBit_shiftRight]
  by_cases hj : i ≤ j
  · simp [hj]
  · simp [hj]

theorem and_mask_low (x k : ℕ) : x &&& (2 ^ k - 1) = x % 2 ^ k := Nat.and_two_pow_sub_one_eq_mod x k

/-- Bits above `i` joined with bits below. -/
theorem or_low {x y i : ℕ} (hy : y < 2 ^ i) : x * 2 ^ i ||| y = x * 2 ^ i + y := by
  rw [← Nat.shiftLeft_eq, Nat.shiftLeft_add_eq_or_of_lt hy]

/-- Four bytes joined by shifts. -/
theorem or_shift_bytes {a b c d : ℕ} (hb : b < 256) (hc : c < 256) (hd : d < 256) :
    a <<< 24 ||| b <<< 16 ||| c <<< 8 ||| d = a * 2 ^ 24 + b * 2 ^ 16 + c * 2 ^ 8 + d := by
  simp only [Nat.shiftLeft_eq]
  rw [Nat.or_assoc, Nat.or_assoc, or_low (i := 8) (by omega), or_low (i := 16) (by omega),
    or_low (i := 24) (by omega)]
  omega

variable {w : ℕ}

theorem longRefNa_word32 (h : w < 2 ^ 32) (rest : List ℕ) : longRefNa (word32 w ++ rest) = w := by
  simp only [longRefNa, word32, List.cons_append, List.getD_cons_zero, List.getD_cons_succ]
  rw [or_shift_bytes (by omega) (by omega) (by omega)]
  omega

theorem shortRefNa_word16 (h : w < 2 ^ 16) (rest : List ℕ) : shortRefNa (word16 w ++ rest) = w := by
  simp only [shortRefNa, word16, List.cons_append, List.getD_cons_zero, List.getD_cons_succ,
    Nat.shiftLeft_eq]
  rw [or_low (i := 8) (by omega)]
  omega

theorem ceOffset_word32 (w : ℕ) (rest : List ℕ) :
    ceOffset (word32 w ++ rest) = w % 2 ^ 31 / 2 ^ 13 * 2 ^ 13 := by
  simp only [ceOffset, word32, List.cons_append, List.getD_cons_zero, List.getD_cons_succ]
  rw [show (0x7f : ℕ) = 2 ^ 7 - 1 from rfl, show (0xe0 : ℕ) = (2 ^ 3 - 1) <<< 5 from rfl, and_mask,
    and_mask_low, ← Nat.or_zero ((_ ||| _) ||| _), or_shift_bytes (by omega) (by omega) (by omega)]
  omega

section

variable (h : w < 2 ^ 32) (rest : List ℕ)
include h rest

theorem ceIsSingle_word32 : ceIsSingle (word32 w ++ rest) = decide (2 ^ 31 ≤ w) := by
  simp only [ceIsSingle, word32, List.cons_append, List.getD_cons_zero]
  rw [show (0x80 : ℕ) = (2 ^ 1 - 1) <<< 7 from rfl, and_mask]
  exact decide_eq_decide.2 (by omega)

theorem ceIsArray_word32 : ceIsArray (word32 w ++ rest) = decide (w / 2 ^ 11 % 4 = 3) := by
  rw [ceIsArray, longRefNa_word32 h, Nat.and_comm, ceArrayMask,
    show (0x1800 : ℕ) = (2 ^ 2 - 1) <<< 11 from rfl, and_mask]
  exact decide_eq_decide.2 (by omega)

theorem ceLength_word32 : ceLength (word32 w ++ rest) = if 2 ^ 31 ≤ w then 4 else w % 2 ^ 11 := by
  rw [ceLength, ceIsSingle_word32 h]
  simp only [word32, List.cons_append, List.getD_cons_zero, List.getD_cons_succ, decide_eq_true_eq,
    Nat.shiftLeft_eq]
  rw [show (0x7 : ℕ) = 2 ^ 3 - 1 from rfl, and_mask_low, Nat.or_comm, or_low (i := 8) (by omega)]
  split_ifs <;> omega

theorem ceSingleValue_word32 : ceSingleValue (word32 w ++ rest) = w % 2 ^ 31 := by
  rw [ceSingleValue, longRefNa_word32 h, show (0x7fffffff : ℕ) = 2 ^ 31 - 1 from rfl, and_mask_low]

end

theorem ceSetLength_word32 {len : ℕ} (w : ℕ) (hlen : len < 2 ^ 11) (rest : List ℕ) :
    ceSetLength (word32 w ++ rest) len = word32 (w / 2 ^ 11 * 2 ^ 11 + len) ++ rest := by
  simp only [ceSetLength, word32, List.cons_append, List.getD_cons_succ, List.getD_cons_zero,
    List.set_cons_succ, List.set_cons_zero, Nat.shiftRight_eq_div_pow]
  rw [show (0x700 : ℕ) = (2 ^ 3 - 1) <<< 8 from rfl, show (0xf8 : ℕ) = (2 ^ 5 - 1) <<< 3 from rfl,
    show (0xff : ℕ) = 2 ^ 8 - 1 from rfl, and_mask, and_mask, and_mask_low,
    or_low (i := 3) (by omega)]
  simp only [List.cons.injEq, List.nil_append, and_true]
  omega

theorem ceSetOffset_word32 {off : ℕ} (h : w < 2 ^ 32) (hoff : off < 2 ^ 31)
    (hmod : off % 2 ^ 13 = 0) (rest : List ℕ) :
    ceSetOffset (word32 w ++ rest) off = word32 (w / 2 ^ 31 * 2 ^ 31 + off + w % 2 ^ 13) ++
      rest := by
  simp only [ceSetOffset, word32, List.cons_append, List.getD_cons_succ, List.getD_cons_zero,
    List.set_cons_succ, List.set_cons_zero, Nat.shiftRight_eq_div_pow]
  rw [show (0x80 : ℕ) = (2 ^ 1 - 1) <<< 7 from rfl, show (0xe0 : ℕ) = (2 ^ 3 - 1) <<< 5 from rfl,
    show (0x1f : ℕ) = 2 ^ 5 - 1 from rfl, and_mask, and_mask, and_mask_low,
    or_low (i := 7) (by omega), Nat.or_comm, or_low (i := 5) (by omega)]
  simp only [List.cons.injEq, List.nil_append, and_true]
  omega

/-! ## Entries as data -/

/-- A compression entry.  The value of a single and the offsets are relative to
the start of the row; the bits of an array and of a bitmap, to the offset. -/
inductive Ce where
  | single (value : ℕ)
  | array (offset : ℕ) (bits : List ℕ)
  | bitmap (offset : ℕ) (bytes : List ℕ)
deriving DecidableEq, Repr

namespace Ce

def encode : Ce → List ℕ
  | .single value => word32 (2 ^ 31 + value)
  | .array offset bits =>
    word32 (offset + ceArrayMask + (4 + 2 * bits.length)) ++ bits.flatMap word16
  | .bitmap offset bytes => word32 (offset + 0x1000 + ceMaxLength) ++ bytes

/-- The start of the range of an entry. -/
def offset : Ce → ℕ
  | .single value => value / ceNValues * ceNValues
  | .array offset _ => offset
  | .bitmap offset _ => offset

def length : Ce → ℕ
  | .single _ => 4
  | .array _ bits => 4 + 2 * bits.length
  | .bitmap _ _ => ceMaxLength

/-- The bit numbers of an entry in ascending order, relative to its offset. -/
def bits : Ce → List ℕ
  | .single value => [value % ceNValues]
  | .array _ bits => bits
  | .bitmap _ bytes => bitList bytes

/-- The fields of an entry fit its header. -/
def Fits : Ce → Prop
  | .single value => value < 2 ^ 31
  | .array offset bits => offset < 2 ^ 31 ∧ offset % ceNValues = 0 ∧ bits.length < 1000
  | .bitmap offset bytes => offset < 2 ^ 31 ∧ offset % ceNValues = 0 ∧ 8 * bytes.length = ceNValues

variable {c : Ce}

theorem length_single (value : ℕ) : (single value).length = 4 := rfl

theorem length_array (offset : ℕ) (bits : List ℕ) :
    (array offset bits).length = 4 + 2 * bits.length := rfl

theorem length_bitmap (offset : ℕ) (bytes : List ℕ) : (bitmap offset bytes).length = 1028 := rfl

theorem length_encode (h : c.Fits) : c.encode.length = c.length := by
  cases c with
  | single value => rfl
  | array offset bits =>
    simp [encode, length, List.length_flatMap]
    omega
  | bitmap offset bytes =>
    simp only [Fits, ceNValues] at h
    simp only [encode, length, List.length_append, length_word32, ceMaxLength]
    omega

theorem length_pos (c : Ce) : 0 < c.length := by
  cases c <;> simp [length, ceMaxLength]

theorem ceOffset_encode (h : c.Fits) (rest : List ℕ) : ceOffset (c.encode ++ rest) = c.offset := by
  cases c with
  | single value =>
    simp only [Fits] at h
    simp only [encode, ceOffset_word32, offset, ceNValues]
    omega
  | array offset bits =>
    simp only [Fits, ceNValues] at h
    simp only [encode, List.append_assoc, ceOffset_word32, Ce.offset, ceArrayMask]
    omega
  | bitmap offset bytes =>
    simp only [Fits, ceNValues] at h
    simp only [encode, List.append_assoc, ceOffset_word32, Ce.offset, ceMaxLength]
    omega

theorem ceLength_encode (h : c.Fits) (rest : List ℕ) : ceLength (c.encode ++ rest) = c.length := by
  cases c with
  | single value =>
    simp only [Fits] at h
    rw [encode, ceLength_word32 (by omega), if_pos (by omega)]
    rfl
  | array offset bits =>
    simp only [Fits, ceNValues] at h
    rw [encode, List.append_assoc, ceArrayMask, ceLength_word32 (by omega),
      if_neg (by omega), length]
    omega
  | bitmap offset bytes =>
    simp only [Fits, ceNValues] at h
    rw [encode, List.append_assoc, ceMaxLength, ceLength_word32 (by omega),
      if_neg (by omega), length, ceMaxLength]
    omega

def isSingle : Ce → Bool
  | .single _ => true
  | _ => false

theorem ceIsSingle_encode (h : c.Fits) (rest : List ℕ) :
    ceIsSingle (c.encode ++ rest) = c.isSingle := by
  cases c with
  | single value =>
    simp only [Fits] at h
    rw [encode, ceIsSingle_word32 (by omega)]
    exact decide_eq_true (by omega)
  | array offset bits =>
    simp only [Fits, ceNValues] at h
    rw [encode, List.append_assoc, ceArrayMask, ceIsSingle_word32 (by omega)]
    exact decide_eq_false (by omega)
  | bitmap offset bytes =>
    simp only [Fits, ceNValues] at h
    rw [encode, List.append_assoc, ceMaxLength, ceIsSingle_word32 (by omega)]
    exact decide_eq_false (by omega)

theorem ceIsArray_array {offset : ℕ} {bits : List ℕ} (h : (array offset bits).Fits)
    (rest : List ℕ) :
    ceIsArray ((array offset bits).encode ++ rest) = true := by
  simp only [Fits, ceNValues] at h
  rw [encode, List.append_assoc, ceArrayMask, ceIsArray_word32 (by omega)]
  exact decide_eq_true (by omega)

theorem ceIsArray_bitmap {offset : ℕ} {bytes : List ℕ} (h : (bitmap offset bytes).Fits)
    (rest : List ℕ) : ceIsArray ((bitmap offset bytes).encode ++ rest) = false := by
  simp only [Fits, ceNValues] at h
  rw [encode, List.append_assoc, ceMaxLength, ceIsArray_word32 (by omega)]
  exact decide_eq_false (by omega)

/-- What is done at an entry depends on its kind. -/
theorem ite_encode {α : Type*} (h : c.Fits) (rest : List ℕ) (x y z : α) :
    (if ceIsSingle (c.encode ++ rest) then x else if ceIsArray (c.encode ++ rest) then y else z) =
      match c with
      | .single _ => x
      | .array _ _ => y
      | .bitmap _ _ => z := by
  rw [ceIsSingle_encode h]
  cases c with
  | single value => rfl
  | array offset bits => simp [isSingle, ceIsArray_array h]
  | bitmap offset bytes => simp [isSingle, ceIsArray_bitmap h]

theorem ceSingleValue_single {value : ℕ} (h : (single value).Fits) (rest : List ℕ) :
    ceSingleValue ((single value).encode ++ rest) = value := by
  simp only [Fits] at h
  rw [encode, ceSingleValue_word32 (by omega)]
  omega

end Ce

/-- The entries of an encoded array. -/
theorem saRef_flatMap {bits : List ℕ} (h : ∀ b ∈ bits, b < 2 ^ 16) (rest : List ℕ) {i b : ℕ}
    (hi : bits[i]? = some b) : saRef (bits.flatMap word16 ++ rest) i = b := by
  induction bits generalizing i with
  | nil => simp at hi
  | cons c bits ih =>
    cases i with
    | zero =>
      obtain rfl : c = b := by simpa using hi
      rw [List.flatMap_cons, List.append_assoc]
      exact shortRefNa_word16 (h c (by simp)) _
    | succ i => exact ih (fun b hb => h b (by simp [hb])) (by simpa using hi)

def encodeRow (ces : List Ce) : List ℕ := ces.flatMap Ce.encode

end Virtuoso.Bitmap
