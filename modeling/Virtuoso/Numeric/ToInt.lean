import Virtuoso.Numeric.Compare

/-!
# Numbers as integers (`numeric_to_int32`, `numeric_to_int64`)

The digits before the point are put together in a machine integer, which is looked at before each
digit and so can overflow by the last one only.  What is then left is negative.  A negative number
passes the test that ends the loop, though: the loop goes on with the next digit, and ten times the
least integer is zero.  `Accepted` are the numbers that get through.

The least value is `-m`; signed arithmetic wraps.
-/

namespace Virtuoso.Numeric

open Lib.Radix

/-! ## The functions -/

/-- Signed arithmetic in which `-m` is the least value. -/
def wrap (m : ℕ) (x : ℤ) : ℤ := x.bmod (2 * m)

/-- The loop over the digits: how many are left, and the value of those before. -/
def toIntLoop (m : ℕ) (value : ℕ → ℕ) : (index nptr : ℕ) → ℤ → ℕ × ℤ
  | 0, _, v => (0, v)
  | index + 1, nptr, v =>
    if v ≤ (m - 1) / 10 then toIntLoop m value index (nptr + 1) (wrap m (10 * v + value nptr))
    else (index + 1, v)

/-- What `numeric_to_int32` and `numeric_to_int64` do with what the loop leaves. -/
def finishInt (m : ℕ) (neg : Bool) : ℕ × ℤ → Status × ℤ
  | (index, v) =>
    if 0 < index then (.marshalling, 0)
    else if v = -m then (.success, if neg then wrap m (-wrap m (-v)) else wrap m (-v))
    else if v < 0 then (.marshalling, 0)
    else (.success, if neg then wrap m (-v) else v)

/-- `numeric_to_int32` and `numeric_to_int64`, which differ in the type of integers. -/
def numericToInt (m : ℕ) (n : Numeric) : Status × ℤ :=
  finishInt m n.neg (toIntLoop m n.value n.len 0 0)

/-- `numeric_to_int32`. -/
def numericToInt32 : Numeric → Status × ℤ := numericToInt (2 ^ 31)

/-- `numeric_to_int64`. -/
def numericToInt64 : Numeric → Status × ℤ := numericToInt (2 ^ 63)

/-! ## What is wanted -/

def whole (n : Numeric) : ℕ := val 10 n.value 0 n.len

/-- The integer part, with its sign. -/
def integer (n : Numeric) : ℤ := if n.neg then -n.whole else n.whole

/-- The integer part if it is an integer of the type, and else 0 and an error. -/
def Converts (m : ℕ) (n : Numeric) (r : Status × ℤ) : Prop :=
  if -m ≤ n.integer ∧ n.integer < m then r = (.success, n.integer) else r.1 ≠ .success ∧ r.2 = 0

/-- The numbers whose digits get through the loop.  Behind digits that make `m` or `m + 1` the loop
starts again, from 0 or from 1. -/
inductive Accepted (m : ℕ) : ℕ → Prop
  | fits {i : ℕ} : i ≤ m → Accepted m i
  | wraps {k j : ℕ} : j < 2 * 10 ^ (k + 1) → Accepted m j → Accepted m (m * 10 ^ (k + 1) + j)

/-- The integer part is not one of the type, and nothing is said. -/
def Slips (m : ℕ) (n : Numeric) : Prop :=
  (n.neg = false ∧ n.whole = m) ∨ (m < n.whole ∧ Accepted m n.whole)

section Wrap

variable {m : ℕ}

theorem wrap_of_mem {x : ℤ} (h₁ : -m ≤ x) (h₂ : x < m) : wrap m x = x :=
  Int.bmod_eq_of_le_mul_two (by push_cast; omega) (by push_cast; omega)

theorem wrap_add_mul (x k : ℤ) : wrap m (x + 2 * m * k) = wrap m x := by
  have := Int.add_mul_bmod_self_left x (2 * m) k
  push_cast at this
  exact this

/-- What is too great by little is negative. -/
theorem wrap_of_le {c : ℤ} (h₁ : 0 ≤ c) (h₂ : c < m) : wrap m (m + c) = -m + c := by
  have hadd := @wrap_add_mul m (-m + c) 1
  rw [show (-m + c + 2 * m * 1 : ℤ) = m + c by ring] at hadd
  rw [hadd, wrap_of_mem (by omega) (by omega)]

/-- Ten times the least value is zero. -/
theorem wrap_ten_mul {c d : ℤ} (h₁ : 0 ≤ 10 * c + d) (h₂ : 10 * c + d < m) :
    wrap m (10 * (-m + c) + d) = 10 * c + d := by
  have hadd := @wrap_add_mul m (10 * c + d) (-5)
  rw [show (10 * c + d + 2 * m * (-5) : ℤ) = 10 * (-m + c) + d by ring] at hadd
  rw [hadd, wrap_of_mem (by omega) h₂]

end Wrap

/-! ## The numbers that get through -/

section Accepted

variable {m : ℕ}

/-- Between a number that fits and one with another digit behind it. -/
theorem not_accepted {i k : ℕ} (h₁ : (m + 2) * 10 ^ k ≤ i) (h₂ : i < m * 10 ^ (k + 1)) :
    ¬ Accepted m i := by
  intro h
  cases h with
  | fits hle =>
    have hpow : m + 2 ≤ (m + 2) * 10 ^ k := Nat.le_mul_of_pos_right _ (by positivity)
    omega
  | @wraps k' j hj _ =>
    rcases Nat.lt_or_ge k' k with hlt | hge
    · have hpow : (m + 2) * 10 ^ (k' + 1) ≤ (m + 2) * 10 ^ k :=
        Nat.mul_le_mul_left _ (Nat.pow_le_pow_right (by decide) hlt)
      rw [Nat.add_mul] at hpow
      omega
    · have hpow : m * 10 ^ (k + 1) ≤ m * 10 ^ (k' + 1) :=
        Nat.mul_le_mul_left _ (Nat.pow_le_pow_right (by decide) (by omega))
      omega

theorem accepted_wraps {k j : ℕ} (hm : 2 < m) (hj : j < 2 * 10 ^ (k + 1)) :
    Accepted m (m * 10 ^ (k + 1) + j) ↔ Accepted m j := by
  refine ⟨fun h => ?_, .wraps hj⟩
  generalize hi : m * 10 ^ (k + 1) + j = i at h
  cases h with
  | fits hle =>
    have hpow : 10 * m ≤ m * 10 ^ (k + 1) := by
      rw [Nat.mul_comm]
      exact Nat.mul_le_mul_left _ (Nat.le_self_pow (by omega) 10)
    omega
  | @wraps k' j' hj' hacc =>
    -- the two places are the same
    have hle {a b x y : ℕ} (hx : x < 2 * 10 ^ (a + 1)) (hab : a < b)
        (heq : m * 10 ^ (a + 1) + x = m * 10 ^ (b + 1) + y) : False := by
      have hpow : 10 ^ (a + 1) * 10 ≤ 10 ^ (b + 1) := by
        rw [← pow_succ]
        exact Nat.pow_le_pow_right (by decide) (by omega)
      have hmul : m * (10 ^ (a + 1) * 10) ≤ m * 10 ^ (b + 1) := Nat.mul_le_mul_left _ hpow
      have hmore : 3 * 10 ^ (a + 1) ≤ m * 10 ^ (a + 1) := Nat.mul_le_mul_right _ hm
      rw [← Nat.mul_assoc] at hmul
      omega
    rcases Nat.lt_trichotomy k k' with hlt | rfl | hlt
    · exact (hle hj hlt hi).elim
    · obtain rfl : j = j' := by omega
      exact hacc
    · exact (hle hj' hlt hi.symm).elim

theorem not_accepted_succ (hm : 1 < m) : ¬ Accepted m (m + 1) := by
  intro h
  generalize hi : m + 1 = i at h
  cases h with
  | fits hle => omega
  | @wraps k j _ _ =>
    have hpow : m * 10 ≤ m * 10 ^ (k + 1) := Nat.mul_le_mul_left _ (Nat.le_self_pow (by omega) 10)
    omega

end Accepted

/-! ## The loop -/

section Loop

variable {m : ℕ} {value : ℕ → ℕ}

/-- The loop got through, and the number was `i`. -/
structure Through (m i : ℕ) (r : ℕ × ℤ) : Prop where
  accepted : (r.1 = 0 ∧ (r.2 = -m ∨ 0 ≤ r.2)) ↔ Accepted m i
  lt : i < m → r.2 = i
  eq : i = m → r.2 = -m
  upper : r.2 < m

/-- Behind `m` or `m + 1` the loop is at its start, or one digit behind it. -/
theorem Through.wraps {k j : ℕ} {r : ℕ × ℤ} (h : Through m j r) (hm : 2 < m)
    (hj : j < 2 * 10 ^ (k + 1)) : Through m (m * 10 ^ (k + 1) + j) r := by
  have hbig : m * 2 ≤ m * 10 ^ (k + 1) :=
    Nat.mul_le_mul_left _ (le_trans (by decide) (Nat.le_self_pow (by omega) 10))
  exact ⟨h.accepted.trans (accepted_wraps hm hj).symm, fun h => by omega, fun h => by omega,
    h.upper⟩

/-- The loop ends before the last digit. -/
theorem through_stop {k v low : ℕ} (hm : m % 10 = 8) (hv : v < m) (hgt : (m - 1) / 10 < v)
    (hlow : low < 10 ^ (k + 1)) : Through m (v * 10 ^ (k + 1) + low) (k + 1, v) := by
  have h₁ : (m + 2) * 10 ^ k ≤ v * 10 ^ (k + 1) := by
    rw [pow_succ, ← Nat.mul_assoc, Nat.mul_right_comm]
    exact Nat.mul_le_mul_right _ (by omega)
  have h₂ : v * 10 ^ (k + 1) + low < m * 10 ^ (k + 1) := by
    have : (v + 1) * 10 ^ (k + 1) ≤ m * 10 ^ (k + 1) := Nat.mul_le_mul_right _ hv
    rw [Nat.add_mul, Nat.one_mul] at this
    omega
  have h₃ : m + 2 ≤ (m + 2) * 10 ^ k := Nat.le_mul_of_pos_right _ (by positivity)
  exact ⟨iff_of_false (by simp) (not_accepted (by omega) h₂), fun h => by omega, fun h => by omega,
    by dsimp only; omega⟩

/-- The last digit makes `m` or `m + 1`. -/
theorem through_last {c : ℕ} (hm : 1 < m) (hc : c ≤ 1) : Through m (m + c) (0, -m + c) := by
  refine ⟨?_, fun h => by omega, fun h => by dsimp only; omega, by dsimp only; omega⟩
  rcases Nat.le_one_iff_eq_zero_or_eq_one.1 hc with rfl | rfl
  · exact iff_of_true ⟨rfl, .inl (by simp)⟩ (.fits le_rfl)
  · exact iff_of_false (by dsimp only; omega) (not_accepted_succ hm)

theorem digits_tail {nptr index : ℕ} (hd : ∀ i < index + 1, value (nptr + i) < 10) :
    ∀ i < index, value (nptr + 1 + i) < 10 := by
  intro i hi
  rw [Nat.add_assoc, Nat.add_comm 1]
  exact hd (i + 1) (by omega)

theorem toIntLoop_spec (hm : m % 10 = 8) (hpos : 20 ≤ m) {index nptr v : ℕ} (hv : v < m)
    (hd : ∀ i < index, value (nptr + i) < 10) :
    Through m (v * 10 ^ index + val 10 value nptr index) (toIntLoop m value index nptr v) := by
  -- the loop makes one step more when it starts again
  induction index using Nat.strong_induction_on generalizing nptr v with
  | _ index ih =>
  cases index with
  | zero =>
    simp only [toIntLoop, pow_zero, mul_one, val_zero, add_zero]
    exact ⟨iff_of_true ⟨rfl, .inr (by omega)⟩ (.fits hv.le), fun _ => rfl, fun h => absurd h hv.ne,
      by omega⟩
  | succ index =>
    have hdigit := hd 0 (Nat.succ_pos _)
    have hrest := digits_tail hd
    rw [Nat.add_zero] at hdigit
    rw [toIntLoop]
    by_cases hle : v ≤ (m - 1) / 10
    · have htotal : v * 10 ^ (index + 1) + val 10 value nptr (index + 1) =
          (10 * v + value nptr) * 10 ^ index + val 10 value (nptr + 1) index := by
        rw [val_succ_left]
        ring
      have hcast : (10 * (v : ℤ) + value nptr) = ((10 * v + value nptr : ℕ) : ℤ) := by
        push_cast; rfl
      rw [htotal, if_pos (by omega), hcast]
      by_cases hlt : 10 * v + value nptr < m
      · rw [wrap_of_mem (by omega) (by omega)]
        exact ih index (Nat.lt_succ_self _) hlt hrest
      · obtain ⟨c, hc, hcv⟩ : ∃ c : ℕ, c ≤ 1 ∧ 10 * v + value nptr = m + c :=
          ⟨10 * v + value nptr - m, by omega, by omega⟩
        have hwrap : wrap m ((m + c : ℕ) : ℤ) = -m + c := by
          push_cast
          exact wrap_of_le (by omega) (by omega)
        rw [hcv, hwrap]
        cases index with
        | zero =>
          simp only [toIntLoop, pow_zero, mul_one, val_zero, add_zero]
          exact through_last (by omega) hc
        | succ index =>
          have hdigit' := hrest 0 (Nat.succ_pos _)
          rw [Nat.add_zero] at hdigit'
          have hstep : wrap m (10 * (-m + c) + value (nptr + 1)) =
              ((10 * c + value (nptr + 1) : ℕ) : ℤ) := by
            rw [wrap_ten_mul (by omega) (by omega)]
            push_cast
            rfl
          have hlow : val 10 value (nptr + 1 + 1) index < 10 ^ index :=
            val_lt_pow (digits_tail hrest)
          have hsum : (m + c) * 10 ^ (index + 1) + val 10 value (nptr + 1) (index + 1) =
              m * 10 ^ (index + 1) +
                ((10 * c + value (nptr + 1)) * 10 ^ index + val 10 value (nptr + 1 + 1) index) := by
            rw [val_succ_left]
            ring
          rw [toIntLoop, if_pos (by omega), hstep, hsum]
          refine (ih index (by omega) (by omega) (digits_tail hrest)).wraps (by omega) ?_
          have hmul : (10 * c + value (nptr + 1)) * 10 ^ index ≤ 19 * 10 ^ index :=
            Nat.mul_le_mul_right _ (by omega)
          rw [pow_succ]
          omega
    · rw [if_neg (by omega)]
      exact through_stop hm hv (not_le.1 hle) (val_lt_pow hd)

end Loop

/-! ## Which numbers are converted -/

theorem Through.finish {m i : ℕ} {neg : Bool} {r : ℕ × ℤ} (h : Through m i r) (hm : 0 < m) :
    (i < m → finishInt m neg r = (.success, if neg then -(i : ℤ) else i)) ∧
      (i = m → finishInt m neg r = (.success, -(m : ℤ))) ∧
      ((finishInt m neg r).1 = .success ↔ Accepted m i) ∧
      (¬ Accepted m i → finishInt m neg r = (.marshalling, 0)) := by
  obtain ⟨index, v⟩ := r
  have hacc := h.accepted
  have hupper : v < m := h.upper
  have hleast : wrap m (- -(m : ℤ)) = -m := by
    rw [neg_neg]
    have := @wrap_of_le m 0 le_rfl (by omega)
    rwa [add_zero, add_zero] at this
  rw [finishInt]
  by_cases hindex : 0 < index
  · rw [if_pos hindex]
    have hno : ¬ Accepted m i := fun hc => absurd (hacc.2 hc).1 hindex.ne'
    refine ⟨fun hi => absurd (.fits hi.le) hno, fun hi => absurd (.fits hi.le) hno,
      iff_of_false (by simp) hno, fun _ => rfl⟩
  · obtain rfl : index = 0 := by omega
    rw [if_neg hindex]
    by_cases hmin : v = -m
    · have hyes : Accepted m i := hacc.1 ⟨rfl, .inl hmin⟩
      rw [if_pos hmin, hmin, hleast, hleast, ite_self]
      refine ⟨fun hi => ?_, fun _ => rfl, iff_of_true rfl hyes, fun hc => absurd hyes hc⟩
      have := h.lt hi
      simp only at this
      omega
    · rw [if_neg hmin]
      have hne : i ≠ m := fun hi => hmin (h.eq hi)
      by_cases hneg : v < 0
      · have hno : ¬ Accepted m i := fun hc => by
          have := (hacc.2 hc).2
          simp only at this
          omega
        rw [if_pos hneg]
        exact ⟨fun hi => absurd (.fits hi.le) hno, fun hi => absurd hi hne,
          iff_of_false (by simp) hno, fun _ => rfl⟩
      · have hyes : Accepted m i := hacc.1 ⟨rfl, .inr (not_lt.1 hneg)⟩
        rw [if_neg hneg]
        refine ⟨fun hi => ?_, fun hi => absurd hi hne, iff_of_true rfl hyes,
          fun hc => absurd hyes hc⟩
        obtain rfl : v = i := h.lt hi
        rw [wrap_of_mem (by omega) (by omega)]

theorem numericToInt_converts_iff {m : ℕ} {n : Numeric} (hm : m % 10 = 8) (hpos : 20 ≤ m)
    (hn : n.DigitsBelow 10) : Converts m n (numericToInt m n) ↔ ¬ Slips m n := by
  have hloop := @toIntLoop_spec m n.value hm hpos n.len 0 0 (by omega)
    (fun i hi => by rw [Nat.zero_add]; exact hn i (by omega))
  rw [Nat.zero_mul, Nat.zero_add] at hloop
  rw [← whole, Nat.cast_zero] at hloop
  obtain ⟨hlt, heq, hacc, hno⟩ := @Through.finish _ _ n.neg _ hloop (by omega)
  rw [Converts, Slips, integer, numericToInt]
  rcases Nat.lt_trichotomy n.whole m with h | h | h
  · rw [hlt h, if_pos (by split_ifs <;> omega)]
    exact iff_of_true rfl (by omega)
  · have hm₀ : 0 < m := by omega
    rw [heq h, h]
    cases n.neg with
    | false => simp
    | true => simp [hm₀]
  · rw [if_neg (by split_ifs <;> omega)]
    by_cases hc : Accepted m n.whole
    · exact iff_of_false (fun hr => hr.1 (hacc.2 hc)) (not_not.2 (.inr ⟨h, hc⟩))
    · rw [hno hc]
      exact iff_of_true ⟨by simp, rfl⟩ fun hs => hs.elim (fun h' => h.ne' h'.2) fun h' => hc h'.2

/-! ## Integers and back -/

/-- The digits of a list. -/
theorem val_getD (l : List ℕ) :
    val 10 (fun i => l.getD i 0) 0 l.length = Nat.ofDigits 10 l.reverse := by
  induction l using List.reverseRecOn with
  | nil => rfl
  | append_singleton l d ih =>
    have hcongr : val 10 (fun i => (l ++ [d]).getD i 0) 0 l.length =
        val 10 (fun i => l.getD i 0) 0 l.length :=
      val_congr fun i hi => List.getD_append _ _ _ _ (by omega)
    rw [List.length_append, List.length_singleton, val_succ, hcongr, ih, List.reverse_append,
      List.reverse_singleton, List.singleton_append, Nat.ofDigits_cons, Nat.zero_add,
      List.getD_append_right _ _ _ _ le_rfl, Nat.sub_self]
    simp only [List.getD_cons_zero]
    ring

theorem integer_fillDigits (num : Numeric) {v : ℤ} (h0 : v ≠ 0) :
    (fillDigits num v).integer = v := by
  have hwhole : (fillDigits num v).whole = v.natAbs := by
    have hcongr : (fillDigits num v).whole = val 10
        (fun i => (extractDigits v.natAbs).reverse.getD i 0) 0
          (extractDigits v.natAbs).reverse.length :=
      val_congr fun i hi => if_pos (by rw [Nat.zero_add]; exact hi)
    rw [hcongr, val_getD, List.reverse_reverse, extractDigits_eq _ (Int.natAbs_pos.2 h0),
      Nat.ofDigits_digits]
  have hneg : (fillDigits num v).neg = decide (v < 0) := rfl
  rw [integer, hwhole, hneg]
  simp only [decide_eq_true_eq]
  split_ifs <;> omega

theorem integer_numericFromInt {intMin v : ℤ} (num : Numeric) (hmin : intMin < -1) :
    (numericFromInt intMin num v).integer = v := by
  rw [numericFromInt]
  split_ifs with h₁ h₂ h₃ h₄
  · rw [h₁]
    rfl
  · rw [h₂]
    rfl
  · rw [h₃]
    rfl
  · -- one more than the digits of the successor
    have h0 : v + 1 ≠ 0 := by omega
    have hsucc := integer_fillDigits num h0
    obtain ⟨hlen, -⟩ := fillDigits_last num h0
    have hneg : (fillDigits num (v + 1)).neg = true := decide_eq_true (by omega)
    simp only [integer, whole, hneg, if_true] at hsucc ⊢
    obtain ⟨k, hk⟩ := Nat.exists_eq_succ_of_ne_zero hlen.ne'
    rw [hk, val_succ] at hsucc ⊢
    have hcongr : val 10 (Function.update (fillDigits num (v + 1)).value (k + 1 - 1)
        ((fillDigits num (v + 1)).value (k + 1 - 1) + 1)) 0 k =
        val 10 (fillDigits num (v + 1)).value 0 k :=
      val_congr fun i hi => Function.update_of_ne (by omega) _ _
    rw [Nat.succ_eq_add_one, hcongr, Nat.zero_add, Nat.add_sub_cancel, Function.update_self]
    rw [Nat.zero_add] at hsucc
    omega
  · exact integer_fillDigits num h₂

/-- An integer that is made a number is converted back. -/
theorem numericToInt64_numericFromInt64 (num : Numeric) {v : ℤ} (hlow : -2 ^ 63 ≤ v)
    (hhigh : v < 2 ^ 63) : numericToInt64 (numericFromInt64 num v) = (.success, v) := by
  have hint : (numericFromInt64 num v).integer = v := integer_numericFromInt num (by decide)
  have hdigits := (numericFromInt64_canonical num hlow hhigh).digits
  have hconv := (@numericToInt_converts_iff (2 ^ 63) _ (by decide) (by decide) hdigits).2 fun hs =>
    ?_
  · rw [Converts, hint, if_pos ⟨by push_cast; exact hlow, by push_cast; exact hhigh⟩] at hconv
    exact hconv
  · rw [integer] at hint
    rcases hs with ⟨hneg, hwhole⟩ | ⟨hlt, -⟩
    · rw [hneg, hwhole] at hint
      rw [if_neg (by simp)] at hint
      push_cast at hint
      omega
    · have hlt : (2 : ℤ) ^ 63 < (numericFromInt64 num v).whole := by exact_mod_cast hlt
      split_ifs at hint <;> omega

/-- A number is converted to the integer types exactly if it does not slip through the test for
overflow. -/
theorem numericToInt_exact_iff {n : Numeric} (hn : n.Canonical) :
    (Converts (2 ^ 63) n (numericToInt64 n) ↔ ¬ Slips (2 ^ 63) n) ∧
      (Converts (2 ^ 31) n (numericToInt32 n) ↔ ¬ Slips (2 ^ 31) n) ∧
      ∀ num v, -2 ^ 63 ≤ v → v < 2 ^ 63 → numericToInt64 (numericFromInt64 num v) = (.success, v) :=
  ⟨numericToInt_converts_iff (by decide) (by decide) hn.digits,
    numericToInt_converts_iff (by decide) (by decide) hn.digits,
    fun num _ hlow hhigh => numericToInt64_numericFromInt64 num hlow hhigh⟩

/-- The least and the greatest `int64`. -/
theorem numericToInt_exact_limits :
    let least := ofDigits true [9, 2, 2, 3, 3, 7, 2, 0, 3, 6, 8, 5, 4, 7, 7, 5, 8, 0, 8] []
    let greatest := ofDigits false [9, 2, 2, 3, 3, 7, 2, 0, 3, 6, 8, 5, 4, 7, 7, 5, 8, 0, 7] []
    (least.integer = -2 ^ 63 ∧ Converts (2 ^ 63) least (numericToInt64 least)) ∧
      greatest.integer = 2 ^ 63 - 1 ∧ Converts (2 ^ 63) greatest (numericToInt64 greatest) := by
  intro least greatest
  have hleast : least.Canonical :=
    ofDigits_canonical (by decide) (by decide) (by decide) (by decide) (by decide) (by decide)
  have hgreatest : greatest.Canonical :=
    ofDigits_canonical (by decide) (by decide) (by decide) (by decide) (by decide) (by decide)
  have hwhole : least.whole = 2 ^ 63 := by decide +kernel
  have hwhole' : greatest.whole = 2 ^ 63 - 1 := by decide +kernel
  have hint : least.integer = -2 ^ 63 := by decide +kernel
  have hint' : greatest.integer = 2 ^ 63 - 1 := by decide +kernel
  have hneg : least.neg = true := rfl
  clear_value least greatest
  have hslips : ¬ Slips (2 ^ 63) least := by
    rintro (⟨hpos, -⟩ | ⟨hlt, -⟩)
    · exact absurd (hneg.symm.trans hpos) (by decide)
    · exact absurd hlt hwhole.not_gt
  have hslips' : ¬ Slips (2 ^ 63) greatest := by
    rintro (⟨-, heq⟩ | ⟨hlt, -⟩)
    · exact absurd (hwhole'.symm.trans heq) (by norm_num)
    · exact absurd hlt (by rw [hwhole']; norm_num)
  exact ⟨⟨hint, (numericToInt_exact_iff hleast).1.2 hslips⟩, hint',
    (numericToInt_exact_iff hgreatest).1.2 hslips'⟩

/-- `9223372036854775808` is not an `int64`, and is converted to the least one;
`92233720368547758081` is converted to 1. -/
theorem numericToInt64_slips :
    let n := ofDigits false [9, 2, 2, 3, 3, 7, 2, 0, 3, 6, 8, 5, 4, 7, 7, 5, 8, 0, 8] []
    let n' := ofDigits false [9, 2, 2, 3, 3, 7, 2, 0, 3, 6, 8, 5, 4, 7, 7, 5, 8, 0, 8, 1] []
    n.Canonical ∧ n.integer = 2 ^ 63 ∧ numericToInt64 n = (.success, -2 ^ 63) ∧
      ¬ Converts (2 ^ 63) n (numericToInt64 n) ∧
      n'.Canonical ∧ n'.integer = 10 * 2 ^ 63 + 1 ∧ numericToInt64 n' = (.success, 1) ∧
      ¬ Converts (2 ^ 63) n' (numericToInt64 n') := by
  intro n n'
  have hval : numericToInt64 n = (.success, -2 ^ 63) := by decide +kernel
  have hint : n.integer = 2 ^ 63 := by decide +kernel
  have hval' : numericToInt64 n' = (.success, 1) := by decide +kernel
  have hint' : n'.integer = 10 * 2 ^ 63 + 1 := by decide +kernel
  refine ⟨ofDigits_canonical (by decide) (by decide) (by decide) (by decide) (by decide)
    (by decide), hint, hval, ?_, ofDigits_canonical (by decide) (by decide) (by decide) (by decide)
      (by decide)
      (by decide), hint', hval', ?_⟩
  · rw [Converts, hint, hval, if_neg (by norm_num)]
    simp
  · rw [Converts, hint', hval', if_neg (by norm_num)]
    simp

end Virtuoso.Numeric
