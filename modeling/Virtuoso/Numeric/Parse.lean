import Virtuoso.Numeric.Basic
import Mathlib.Data.List.GetD
import Mathlib.Data.Nat.Digits.Lemmas

/-!
# Reading numbers (`numeric_from_string`, `numeric_from_int32`, `numeric_from_int64`)

`numeric_from_string` scans a mantissa into the digits, normalises it, and then
moves the decimal point by the exponent.  The first two steps always leave a
canonical number.  The last one moves the point across the digits without
looking at them, so it can leave a leading zero in the integer part, a trailing
zero in the fraction, or a zero with digits.

A string is the list of its characters before the terminating NUL.  Arithmetic
beyond the range of `int`, in the exponent, is `none`.
-/

namespace Virtuoso.Numeric

open Lib.Radix

/-! ## Character classes and `atoi` -/

/-- `isspace` in the C locale. -/
def isspace (c : Char) : Bool := c = ' ' || ('\t' ≤ c && c ≤ '\r')

/-- `isdigit`. -/
def isdigit (c : Char) : Bool := '0' ≤ c && c ≤ '9'

/-- `*cp - '0'`. -/
def digitOf (c : Char) : ℕ := c.toNat - '0'.toNat

/-- `stricmp (a, b) == 0`. -/
def stricmpEq (a b : List Char) : Bool := a.map Char.toUpper = b.map Char.toUpper

/-- The number the digits at the front of a string write. -/
def readDigits : List Char → ℕ → ℕ
  | [], acc => acc
  | c :: cs, acc => if isdigit c then readDigits cs (acc * 10 + digitOf c) else acc

/-- `atoi`, with no value where the number is not an `int`. -/
def atoi (s : List Char) : Option ℤ :=
  let v : ℤ := match s.dropWhile isspace with
    | '-' :: cs => -readDigits cs 0
    | '+' :: cs => readDigits cs 0
    | cs => readDigits cs 0
  if -2 ^ 31 ≤ v ∧ v < 2 ^ 31 then some v else none

/-! ## `numeric_from_string` -/

/-- What the scan of the mantissa leaves. -/
structure Scanned where
  error : Status
  /-- The text behind an `E`. -/
  expText : Option (List Char)
  n : Numeric

/-- Store the digit `c` behind those read so far. -/
def storeDigit (n : Numeric) (dot : Bool) (c : Char) : Numeric :=
  { n with
    value := Function.update n.value (n.len + n.scale) (digitOf c)
    scale := if dot then n.scale + 1 else n.scale
    len := if dot then n.len else n.len + 1 }

/-- The loop over the characters of the mantissa. -/
def scanLoop (neg : Bool) : List Char → (dot first hasDigit : Bool) → Numeric → Scanned
  | [], _, _, _, n => ⟨.success, none, n⟩
  | c :: cs, dot, first, hasDigit, n =>
    if hasDigit = true ∧ c.toUpper = 'E' then ⟨.success, some cs, n⟩
    else if c = '.' then
      if dot then ⟨.invalidStr, none, n⟩ else scanLoop neg cs true first hasDigit n
    else if isdigit c then
      -- a leading zero of the integer part is skipped
      if first = true ∧ c = '0' ∧ dot = false then scanLoop neg cs dot first true n
      else if n.len + n.scale < numericMaxDataBytes then
        scanLoop neg cs dot (first && c = '0') (first || hasDigit) (storeDigit n dot c)
      else if dot = false then ⟨(numericInf n neg).1, none, (numericInf n neg).2⟩
      else scanLoop neg cs dot (first && c = '0') (first || hasDigit) n
    else ⟨if isspace c then .success else .invalidStr, none, n⟩

def expUp (n : Numeric) (exp : ℕ) (neg : Bool) : Option (Status × Numeric) :=
  if n.scale ≥ exp then
    some (.success, { n with scale := n.scale - exp, len := n.len + exp })
  else
    let len := n.len + n.scale
    let exp := exp - n.scale
    if len + exp ≥ 2 ^ 31 then none
    else if len + exp > numericMaxPrecision then some (numericInf n neg)
    else some (.success,
      { n with
        scale := 0
        len := len + exp
        value := fun i => if len ≤ i ∧ i < len + exp then 0 else n.value i })

def expDown (n : Numeric) (exp : ℕ) : Option (Status × Numeric) :=
  if exp ≥ 2 ^ 31 then none
  else if n.len ≥ exp then
    some (.success, { n with len := n.len - exp, scale := n.scale + exp })
  else
    let scale := n.scale + n.len
    let exp := exp - n.len
    if exp ≥ numericMaxScaleInt then some (.success, numSet0 n)
    else some (.success,
      { n with
        len := 0
        scale := scale + exp
        value := fun i =>
          if i < exp then 0 else if i < exp + scale then n.value (i - exp) else n.value i })

/-- The exponent of `numeric_from_string`. -/
def applyExp (n : Numeric) (exp : ℤ) (neg : Bool) : Option (Status × Numeric) :=
  if exp > 0 then expUp n exp.toNat neg
  else if exp < 0 then expDown n (-exp).toNat
  else some (.success, n)

/-- The value of the text behind the `E`, zero if there is none. -/
def readExp : Option (List Char) → Option ℤ
  | none => some 0
  | some cs => atoi cs

/-- The sign is set on a number with digits. -/
def setSign (neg : Bool) (n : Numeric) : Numeric :=
  if neg = true ∧ ¬ n.IsZero then { n with neg := true } else n

/-- What `numeric_from_string` does with a scanned mantissa. -/
def finishScan (neg : Bool) (r : Scanned) : Option (Status × Numeric) := do
  let exp ← readExp r.expText
  if r.error ≠ .success then some (r.error, setSign neg r.n)
  else
    let (rc, n) ← numericNormalize r.n
    if rc = .success then applyExp (setSign neg n) exp neg else some (rc, setSign neg n)

/-- White space, a dollar sign and more white space. -/
def skipStart (s : List Char) : List Char :=
  match s.dropWhile isspace with
  | '$' :: cs => cs.dropWhile isspace
  | cs => cs

def readSign (s : List Char) : Bool × List Char :=
  match s with
  | '-' :: cs => (true, cs.dropWhile isspace)
  | '+' :: cs => (false, cs.dropWhile isspace)
  | cs => (false, cs.dropWhile isspace)

def specialWord (n : Numeric) (neg : Bool) (cp : List Char) : Option Numeric :=
  if cp.head?.any isdigit then none
  else if stricmpEq cp ['I', 'N', 'F'] ||
      stricmpEq cp ['I', 'n', 'f', 'i', 'n', 'i', 't', 'y'] then some (numericInf n neg).2
  else if cp = ['N', 'a', 'N'] then some (numericNan n).2
  else none

/-- `numeric_from_string`; `n` is the number as it was. -/
def numericFromString (n : Numeric) (s : List Char) : Option (Status × Numeric) :=
  let (neg, cp) := readSign (skipStart s)
  match specialWord n neg cp with
  | some r => some (.success, r)
  | none => finishScan neg (scanLoop neg cp false true false (numSet0 n))

theorem numSet0_canonical (n : Numeric) : (numSet0 n).Canonical where
  digits i hi := absurd hi (by simp [numSet0])
  leading h := absurd h (by simp [numSet0])
  trailing h := absurd h (by simp [numSet0])
  len_le := Nat.zero_le _
  total_le := Nat.zero_le _
  zero _ := ⟨rfl, rfl, rfl⟩

/-! ## `numeric_from_int32` and `numeric_from_int64` -/

/-- The loop that extracts digits, the least significant first. -/
def extractDigits (val : ℕ) : List ℕ :=
  val % 10 :: if val / 10 = 0 then [] else extractDigits (val / 10)
termination_by val
decreasing_by omega

/-- The number with the digits of `val`. -/
def fillDigits (num : Numeric) (val : ℤ) : Numeric :=
  let digits := (extractDigits val.natAbs).reverse
  { len := digits.length
    scale := 0
    invalid := .valid
    neg := val < 0
    value := fun i => if i < digits.length then digits.getD i 0 else num.value i }

/-- `numeric_from_int32` and `numeric_from_int64`, which differ in the least
value: its sign cannot be changed, so it is made from its successor. -/
def numericFromInt (intMin : ℤ) (num : Numeric) (val : ℤ) : Numeric :=
  if val = -1 then { numSet1 num with neg := true }
  else if val = 0 then numSet0 num
  else if val = 1 then numSet1 num
  else if val = intMin then
    let r := fillDigits num (val + 1)
    { r with value := Function.update r.value (r.len - 1) (r.value (r.len - 1) + 1) }
  else fillDigits num val

/-- `numeric_from_int32`. -/
def numericFromInt32 : Numeric → ℤ → Numeric := numericFromInt (-2 ^ 31)

/-- `numeric_from_int64`. -/
def numericFromInt64 : Numeric → ℤ → Numeric := numericFromInt (-2 ^ 63)

theorem extractDigits_eq (val : ℕ) (h : 0 < val) : extractDigits val = Nat.digits 10 val := by
  induction val using Nat.strong_induction_on with
  | _ val ih =>
    rw [extractDigits, Nat.digits_def' (by decide) h]
    split_ifs with h0
    · rw [h0, Nat.digits_zero]
    · rw [ih (val / 10) (by omega) (Nat.pos_of_ne_zero h0)]

/-- The digits of a number other than zero make a canonical one. -/
theorem fillDigits_canonical (num : Numeric) {val : ℤ} (h0 : val ≠ 0)
    (hlt : val.natAbs < 10 ^ numericMaxPrecision) : (fillDigits num val).Canonical := by
  have hpos : 0 < val.natAbs := Int.natAbs_pos.mpr h0
  have hdigits : extractDigits val.natAbs = Nat.digits 10 val.natAbs := extractDigits_eq _ hpos
  have hne : Nat.digits 10 val.natAbs ≠ [] := Nat.digits_ne_nil_iff_ne_zero.mpr hpos.ne'
  have hlen : (Nat.digits 10 val.natAbs).length ≤ numericMaxPrecision :=
    (Nat.digits_length_le_iff (by decide) _).mpr hlt
  have hlenpos : 0 < (Nat.digits 10 val.natAbs).length := List.length_pos_iff.mpr hne
  simp only [fillDigits, hdigits, List.length_reverse]
  refine canonical_of_digits (fun i hi => ?_) (fun _ => ?_) (fun h => absurd h (by simp)) hlen
    (le_trans hlen (by decide)) fun h => ?_
  · simp only [Nat.add_zero] at hi ⊢
    rw [if_pos hi, List.getD_eq_getElem _ _ (by simpa using hi)]
    exact Nat.digits_lt_base (by decide) (List.mem_reverse.mp (List.getElem_mem _))
  · simp only
    rw [if_pos hlenpos, List.getD_eq_getElem _ _ (by simpa using hlenpos),
      ← List.head_eq_getElem (by simpa using hne), List.head_reverse]
    exact Nat.getLast_digit_ne_zero 10 hpos.ne'
  · change (Nat.digits 10 val.natAbs).length + 0 = 0 at h
    omega

/-- The last digit that is stored is the last digit of the number. -/
theorem fillDigits_last (num : Numeric) {val : ℤ} (h0 : val ≠ 0) :
    0 < (fillDigits num val).len ∧
      (fillDigits num val).value ((fillDigits num val).len - 1) = val.natAbs % 10 := by
  have hpos : 0 < val.natAbs := Int.natAbs_pos.mpr h0
  have hdef := Nat.digits_def' (b := 10) (by decide) hpos
  simp only [fillDigits, extractDigits_eq _ hpos, hdef, List.length_reverse, List.length_cons,
    Nat.add_sub_cancel]
  refine ⟨by omega, ?_⟩
  rw [if_pos (by omega), List.reverse_cons, List.getD_append_right _ _ _ _ (by simp)]
  simp

theorem numSet1_canonical (n : Numeric) (neg : Bool) :
    ({ numSet1 n with neg := neg }).Canonical := by
  refine canonical_of_digits (fun i hi => ?_) (fun _ => by simp [numSet1])
    (fun h => absurd h (by simp [numSet1])) (show 1 ≤ 40 by decide) (show 1 + 0 ≤ 45 by decide)
    fun h => absurd h (by simp [numSet1, IsZero])
  simp only [numSet1] at hi ⊢
  split_ifs <;> omega

/-- Integers are read to canonical numbers.  The least one has a last digit that
may be counted up. -/
theorem numericFromInt_canonical {intMin val : ℤ} (num : Numeric) (hmin : intMin < -1)
    (hlast : (intMin + 1).natAbs % 10 < 9) (hbound : intMin.natAbs < 10 ^ numericMaxPrecision)
    (hlow : intMin ≤ val) (hhigh : val < -intMin) : (numericFromInt intMin num val).Canonical := by
  unfold numericFromInt
  split_ifs with h₁ h₂ h₃ h₄
  · exact numSet1_canonical num true
  · exact numSet0_canonical num
  · exact numSet1_canonical num false
  · subst h₄
    have hr := fillDigits_canonical num (show val + 1 ≠ 0 by omega) (by omega)
    obtain ⟨hlen, hdigit⟩ := fillDigits_last num (show val + 1 ≠ 0 by omega)
    have hscale : (fillDigits num (val + 1)).scale = 0 := rfl
    refine canonical_of_digits (fun i hi => ?_) (fun _ => ?_) (fun h => absurd h (by simp [hscale]))
      hr.len_le hr.total_le fun h => absurd h (by simp only [IsZero]; omega)
    · simp only at hi ⊢
      rcases eq_or_ne i ((fillDigits num (val + 1)).len - 1) with rfl | hne
      · rw [Function.update_self, hdigit]
        omega
      · rw [Function.update_of_ne hne]
        exact hr.digits i hi
    · simp only
      rcases eq_or_ne 0 ((fillDigits num (val + 1)).len - 1) with heq | hne
      · rw [← heq, Function.update_self]
        omega
      · rw [Function.update_of_ne hne]
        exact hr.leading hlen
  · exact fillDigits_canonical num h₂ (by omega)

theorem numericFromInt32_canonical (num : Numeric) {val : ℤ} (hlow : -2 ^ 31 ≤ val)
    (hhigh : val < 2 ^ 31) : (numericFromInt32 num val).Canonical :=
  numericFromInt_canonical num (by decide) (by decide) (by decide) hlow hhigh

theorem numericFromInt64_canonical (num : Numeric) {val : ℤ} (hlow : -2 ^ 63 ≤ val)
    (hhigh : val < 2 ^ 63) : (numericFromInt64 num val).Canonical :=
  numericFromInt_canonical num (by decide) (by decide) (by decide) hlow hhigh

end Virtuoso.Numeric
