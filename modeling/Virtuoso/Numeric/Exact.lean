import Mathlib.Algebra.Order.Floor.Semifield
import Mathlib.Data.Nat.Digits.Lemmas
import Mathlib.Data.Rat.Floor
import Virtuoso.Numeric.Basic

/-!
# Exact results

Every arithmetic operation of the package computes digits and hands them to `_numeric_normalize`.
What is wanted of it is `Exact`: the exact value cut to the internal precision, or the infinity of
its sign.  `normalize_exact_iff` says when the last step delivers that: the digits must be those
of the value, and a value that is too long must not be negative, since `_numeric_normalize` makes
every overflow a positive infinity.
-/

namespace Virtuoso.Numeric

open Lib.Radix

def intDigits (q : ℚ) : ℕ := (Nat.digits 10 ⌊|q|⌋₊).length

/-- The number cut to `s` digits after the decimal point. -/
def truncate (s : ℕ) (q : ℚ) : ℚ := (if q < 0 then -1 else 1) * (⌊|q| * 10 ^ s⌋₊ / 10 ^ s)

/-- The digits after the decimal point that a number with `len` digits before it can have. -/
def maxScaleOf (len : ℕ) : ℕ := min (numericMaxPrecisionInt - len) numericMaxScaleInt

/-- The result of an operation whose exact value is `q`: success with the value cut to the internal
precision, or, if it has too many digits, the infinity of its sign. -/
def Exact (q : ℚ) (r : Option (Status × Numeric)) : Prop :=
  if intDigits q ≤ numericMaxPrecision then
    ∃ m, r = some (.success, m) ∧ m.invalid = .valid ∧
      m.toRat = truncate (maxScaleOf (intDigits q)) q
  else ∃ st m, r = some (st, m) ∧ m.IsInf ∧ m.neg = decide (q < 0)

/-! ## Values of digits -/

/-- The last digits cut off. -/
theorem val_div_pow {b : ℕ} {f : ℕ → ℕ} {p m n : ℕ} (h : ∀ i < n, f (p + m + i) < b) :
    val b f p (m + n) / b ^ n = val b f p m := by
  have hlow : val b f (p + m) n < b ^ n := val_lt_pow h
  have hpos : 0 < b ^ n := by omega
  rw [val_append, Nat.mul_comm, Nat.mul_add_div hpos, Nat.div_eq_of_lt hlow, Nat.add_zero]

/-- The number of digits of a number without leading zeros. -/
theorem length_digits_val {f : ℕ → ℕ} {n : ℕ} (hf : ∀ i < n, f i < 10) (hlead : 0 < n → f 0 ≠ 0) :
    (Nat.digits 10 (val 10 f 0 n)).length = n := by
  have hlt : val 10 f 0 n < 10 ^ n := val_lt_pow_zero hf
  apply le_antisymm
  · exact (Nat.digits_length_le_iff (by norm_num) _).2 hlt
  · cases n with
    | zero => exact Nat.zero_le _
    | succ n =>
      have hle : 10 ^ n ≤ val 10 f 0 (n + 1) :=
        pow_le_val (Nat.pos_of_ne_zero (hlead (Nat.succ_pos n)))
      exact (Nat.lt_digits_length_iff (by norm_num) _).2 hle

/-! ## The digits of a value -/

/-- The digits before the point, the mark and the sign are those of `q`. -/
structure Whole (n : Numeric) (q : ℚ) : Prop where
  valid : n.invalid = .valid
  digits : ∀ i < n.len, n.value i < 10
  leading : 0 < n.len → n.value 0 ≠ 0
  whole : val 10 n.value 0 n.len = ⌊|q|⌋₊
  sign : q ≠ 0 → n.neg = decide (q < 0)
  nonzero : n.neg = true → ¬ n.IsZero

/-- The digits of a number up to the `s`-th after the point, read as an integer. -/
def cut (n : Numeric) (s : ℕ) : ℕ := val 10 n.value 0 (n.len + s)

/-- The first `s` digits after the point are those of `q`. -/
def Agrees (n : Numeric) (q : ℚ) (s : ℕ) : Prop :=
  (n.cut (min n.scale s) : ℚ) / 10 ^ min n.scale s = (⌊|q| * 10 ^ s⌋₊ : ℚ) / 10 ^ s

section Normalize

variable {n m : Numeric} {q : ℚ}

theorem Whole.intDigits_eq (h : Whole n q) : intDigits q = n.len := by
  rw [intDigits, ← h.whole]
  exact length_digits_val h.digits h.leading

/-- The digits that are kept, without trailing zeros. -/
theorem Truncated.cut_div_eq (h : Truncated n m) :
    (n.cut n.keptScale : ℚ) / 10 ^ n.keptScale = m.mag / 10 ^ m.scale := by
  obtain ⟨t, ht⟩ := Nat.exists_eq_add_of_le h.scale_le
  have hzero : val 10 n.value (0 + (n.len + m.scale)) t = 0 := by
    refine val_eq_zero fun i hi => ?_
    rw [show 0 + (n.len + m.scale) + i = n.len + (m.scale + i) by omega]
    exact h.zeros _ (by omega) (by omega)
  have hmag : n.cut n.keptScale = m.mag * 10 ^ t := by
    rw [cut, ht, ← Nat.add_assoc, val_append, hzero, Nat.add_zero, mag, h.len, h.value]
  rw [hmag, ht, pow_add]
  push_cast
  exact mul_div_mul_right _ _ (by positivity)

/-- A sign is dropped only from zero. -/
theorem neg_eq_of_normalize {st : Status} (hn : numericNormalize n = some (st, m))
    (hlen : n.len ≤ numericMaxPrecision) (hm : ¬ m.IsZero) : m.neg = n.neg := by
  simp only [numericNormalize, if_neg (Nat.not_lt.2 hlen)] at hn
  split_ifs at hn with hzero hassert hassert
  · obtain ⟨-, rfl⟩ := Prod.mk.inj (Option.some.inj hn)
    obtain ⟨-, hscale, hlen0⟩ := hzero
    exact absurd (Nat.add_eq_zero_iff.2 ⟨hlen0, hscale⟩) hm
  · obtain ⟨-, rfl⟩ := Prod.mk.inj (Option.some.inj hn)
    rfl

/-- `_numeric_normalize` cuts off digits and drops zeros; the value is that of the digits kept. -/
theorem numericNormalize_toRat (hlen : n.len ≤ numericMaxPrecision)
    (hneg : n.neg = true → ¬ n.IsZero) :
    ∃ m, numericNormalize n = some (.success, m) ∧ m.invalid = n.invalid ∧
      m.toRat = (if n.neg then -1 else 1) * ((n.cut n.keptScale : ℚ) / 10 ^ n.keptScale) := by
  obtain ⟨m, hm, htrunc⟩ := numericNormalize_of_le hlen hneg
  refine ⟨m, hm, htrunc.invalid, ?_⟩
  rw [htrunc.cut_div_eq, toRat]
  by_cases hz : m.IsZero
  · have hmag : m.mag = 0 := by rw [mag, hz, val_zero]
    rw [hmag]
    simp
  · rw [neg_eq_of_normalize hm hlen hz]

/-- The last step of an operation delivers the exact result exactly if the digits agree, and a
value that is too long is not negative. -/
theorem normalize_exact_iff (h : Whole n q) :
    Exact q (numericNormalize n) ↔
      (intDigits q ≤ numericMaxPrecision → n.Agrees q (maxScaleOf (intDigits q))) ∧
        (numericMaxPrecision < intDigits q → 0 ≤ q) := by
  have hdigits := h.intDigits_eq
  rw [Exact]
  split_ifs with hle
  · rw [and_iff_left fun hlt => absurd hle (not_le.2 hlt)]
    rw [hdigits] at hle ⊢
    obtain ⟨m, hm, hvalid, hvalue⟩ := numericNormalize_toRat hle h.nonzero
    have hkept : n.keptScale = min n.scale (maxScaleOf n.len) := rfl
    have hsign : m.toRat = truncate (maxScaleOf n.len) q ↔ n.Agrees q (maxScaleOf n.len) := by
      rw [hvalue, truncate, Agrees, hkept]
      rcases eq_or_ne q 0 with rfl | hq
      · rcases n.neg <;> simp
      · rw [h.sign hq]
        by_cases hneg : q < 0
        · simp [hneg]
        · simp [hneg]
    constructor
    · rintro ⟨m', hm', -, heq⟩ -
      rw [hm] at hm'
      obtain ⟨-, rfl⟩ := Prod.mk.inj (Option.some.inj hm')
      exact hsign.1 heq
    · intro hagree
      exact ⟨m, hm, hvalid.trans h.valid, hsign.2 (hagree hle)⟩
  · rw [not_le] at hle
    rw [and_iff_right fun hle' => absurd hle (not_lt.2 hle')]
    rw [hdigits] at hle ⊢
    rw [numericNormalize_of_lt hle]
    constructor
    · rintro ⟨st, m, hm, -, hneg⟩ -
      obtain ⟨-, rfl⟩ := Prod.mk.inj (Option.some.inj hm)
      exact not_lt.1 (of_decide_eq_false hneg.symm)
    · intro hq
      exact ⟨_, _, rfl, rfl, (decide_eq_false (not_lt.2 (hq hle))).symm⟩

end Normalize

/-! ## Digits that agree -/

section Agrees

variable {n m : Numeric} {q : ℚ} {s : ℕ}

/-- If the digits are below ten, cutting off digits is division. -/
theorem cut_eq_div {s t : ℕ} (h : ∀ i < s + t, n.value (n.len + i) < 10) :
    n.cut s = n.cut (s + t) / 10 ^ t := by
  rw [cut, cut, ← Nat.add_assoc]
  refine (val_div_pow fun i hi => ?_).symm
  rw [show 0 + (n.len + s) + i = n.len + (s + i) by omega]
  exact h _ (by omega)

/-- Cutting a value twice is cutting it once. -/
theorem floor_div_pow (x : ℚ) (s t : ℕ) : ⌊x * 10 ^ (s + t)⌋₊ / 10 ^ t = ⌊x * 10 ^ s⌋₊ := by
  have h : x * 10 ^ (s + t) / ((10 ^ t : ℕ) : ℚ) = x * 10 ^ s := by
    rw [pow_add]
    push_cast
    field_simp
  rw [← Nat.floor_div_natCast, h]

/-- The digits agree if they are those of `q` up to the scale of the number, and there are enough
of them. -/
theorem agrees_of_floor (hdigits : n.DigitsBelow 10) (hs : s ≤ n.scale)
    (h : n.mag = ⌊|q| * 10 ^ n.scale⌋₊) : n.Agrees q s := by
  obtain ⟨t, ht⟩ := Nat.exists_eq_add_of_le hs
  have hcut : n.cut s = ⌊|q| * 10 ^ s⌋₊ := by
    rw [cut_eq_div (t := t) fun i hi => hdigits _ (by omega), ← floor_div_pow |q| s t, ← ht, ← h]
    rfl
  rw [Agrees, min_eq_right hs, hcut]

theorem cut_zero_of_floor (hdigits : n.DigitsBelow 10) (h : n.mag = ⌊|q| * 10 ^ n.scale⌋₊) :
    n.cut 0 = ⌊|q|⌋₊ := by
  have hmag : n.cut (0 + n.scale) = ⌊|q| * 10 ^ (0 + n.scale)⌋₊ := by
    rw [Nat.zero_add]
    exact h
  rw [cut_eq_div (t := n.scale) fun i hi => hdigits _ (by omega), hmag, floor_div_pow, pow_zero,
    mul_one]

/-- The digits agree if they are all of the digits of `q`. -/
theorem agrees_of_exact (hdigits : n.DigitsBelow 10) (h : (n.mag : ℚ) = |q| * 10 ^ n.scale) :
    n.Agrees q s := by
  have hfloor : n.mag = ⌊|q| * 10 ^ n.scale⌋₊ := by rw [← h, Nat.floor_natCast]
  rcases le_total s n.scale with hs | hs
  · exact agrees_of_floor hdigits hs hfloor
  · obtain ⟨t, rfl⟩ := Nat.exists_eq_add_of_le hs
    have hlong : |q| * 10 ^ (n.scale + t) = ((n.mag * 10 ^ t : ℕ) : ℚ) := by
      push_cast
      rw [h, pow_add, mul_assoc]
    have hcut : n.cut n.scale = n.mag := rfl
    rw [Agrees, min_eq_left hs, hcut, hlong, Nat.floor_natCast, pow_add]
    push_cast
    rw [mul_div_mul_right _ _ (by positivity)]

end Agrees

/-! ## Numbers with the same digits -/

section Same

variable {n m : Numeric} {q : ℚ} {s : ℕ}

theorem Same.cut_eq (h : Same m n) (hs : s ≤ n.scale) : m.cut s = n.cut s := by
  rw [cut, cut, h.len]
  refine val_congr fun i hi => ?_
  rw [Nat.zero_add]
  exact h.value i (by omega)

theorem Same.agrees_iff (h : Same m n) : m.Agrees q s ↔ n.Agrees q s := by
  rw [Agrees, Agrees, h.scale, h.cut_eq (min_le_left _ _)]

theorem Same.whole (h : Same m n) (hn : Whole n q) : Whole m q where
  valid := h.invalid.trans hn.valid
  digits i hi := by
    rw [h.len] at hi
    rw [h.value i (by omega)]
    exact hn.digits i hi
  leading hlen := by
    rw [h.len] at hlen
    rw [h.value 0 (by omega)]
    exact hn.leading hlen
  whole := (h.cut_eq (Nat.zero_le _)).trans hn.whole
  sign hq := h.neg.trans (hn.sign hq)
  nonzero hneg := by
    rw [IsZero, h.len, h.scale]
    exact hn.nonzero (h.neg.symm.trans hneg)

/-- Leading zeros do not count. -/
theorem Stripped.cut_eq {k : ℕ} (h : Stripped k n m) (hs : s ≤ n.scale) : m.cut s = n.cut s := by
  have hlen := h.len
  have hscale := h.scale
  have hzero : val 10 n.value 0 k = 0 := val_eq_zero fun i hi => by
    rw [Nat.zero_add]
    exact h.zeros i hi
  rw [cut, cut, show n.len + s = k + (m.len + s) by omega, val_append _ n.value, hzero, zero_mul,
    zero_add]
  refine val_congr fun i hi => ?_
  rw [Nat.zero_add, Nat.zero_add]
  exact h.value i (by omega)

theorem Stripped.agrees_iff {k : ℕ} (h : Stripped k n m) : m.Agrees q s ↔ n.Agrees q s := by
  rw [Agrees, Agrees, h.scale, h.cut_eq (min_le_left _ _)]

/-- What is left of a raw result when leading zeros are removed and the sign is set. -/
theorem Stripped.whole {k : ℕ} {b : Bool} (h : Stripped k n m) (hvalid : n.invalid = .valid)
    (hdigits : ∀ i < n.len, n.value i < 10) (hcut : n.cut 0 = ⌊|q|⌋₊)
    (hsign : q ≠ 0 → b = decide (q < 0)) (hzero : b = true → ¬ m.IsZero) :
    Whole { m with neg := b } q where
  valid := h.invalid.trans hvalid
  digits i hi := by
    have hlen := h.len
    have hi' : i < m.len := hi
    rw [show ({ m with neg := b } : Numeric).value i = n.value (k + i) from h.value i (by omega)]
    exact hdigits _ (by omega)
  leading := h.leading
  whole := (h.cut_eq (Nat.zero_le _)).trans hcut
  sign := hsign
  nonzero := hzero

end Same

/-! ## Digits written by a loop -/

/-- The first `s` digits after the point are those of `q`, which has no further ones.  The bytes
behind them are arbitrary. -/
structure Written (n : Numeric) (q : ℚ) (s : ℕ) : Prop where
  valid : n.invalid = .valid
  digits : ∀ i < n.len + s, n.value i < 10
  scale_le : s ≤ n.scale
  cut : (n.cut s : ℚ) = |q| * 10 ^ s

namespace Written

variable {n : Numeric} {q : ℚ} {s : ℕ}

/-- The integer part. -/
theorem cut_zero (h : Written n q s) : n.cut 0 = ⌊|q|⌋₊ := by
  have hfloor : ⌊|q| * 10 ^ (0 + s)⌋₊ = n.cut (0 + s) := by
    rw [Nat.zero_add, ← h.cut, Nat.floor_natCast]
  rw [cut_eq_div (t := s) fun i hi => h.digits _ (by omega), ← hfloor, floor_div_pow, pow_zero,
    mul_one]

theorem mag_ne_zero (h : Written n q s) (hq : q ≠ 0) : n.mag ≠ 0 := by
  intro hmag
  have hcut : n.cut s = 0 := val_eq_zero fun i hi => by
    have hle := h.scale_le
    rw [Nat.zero_add]
    exact mag_eq_zero_iff.1 hmag i (by omega)
  have h0 := h.cut
  rw [hcut, Nat.cast_zero, zero_eq_mul, abs_eq_zero] at h0
  exact h0.elim hq (by positivity)

/-- The digits agree exactly if the bytes behind them that are looked at are zeros. -/
theorem agrees_iff (h : Written n q s) {t : ℕ} :
    n.Agrees q t ↔ ∀ i, s ≤ i → i < min n.scale t → n.value (n.len + i) = 0 := by
  have hexact : ({ n with scale := s } : Numeric).Agrees q t := agrees_of_exact h.digits h.cut
  have hcut (k : ℕ) : ({ n with scale := s } : Numeric).cut k = n.cut k := rfl
  have hle := h.scale_le
  rw [Agrees, hcut] at hexact
  rw [Agrees, ← hexact]
  simp only
  rcases le_total t s with ht | ht
  · rw [min_eq_right ht, min_eq_right (ht.trans hle)]
    exact iff_of_true rfl fun i h₁ h₂ => absurd h₂ (by omega)
  · obtain ⟨r, hr⟩ := Nat.exists_eq_add_of_le (le_min hle ht)
    rw [min_eq_left ht, hr, Numeric.cut, Numeric.cut, ← Nat.add_assoc, val_append, pow_add]
    push_cast
    rw [add_div, mul_div_mul_right _ _ (by positivity), add_eq_left, div_eq_zero_iff,
      or_iff_left (by positivity), Nat.cast_eq_zero, val_eq_zero_iff (by norm_num)]
    constructor
    · intro hz i h₁ h₂
      have := hz (i - s) (by omega)
      rwa [show 0 + (n.len + s) + (i - s) = n.len + i by omega] at this
    · intro hz i hi
      rw [show 0 + (n.len + s) + i = n.len + (s + i) by omega]
      exact hz _ (by omega) (by omega)

end Written

end Virtuoso.Numeric
