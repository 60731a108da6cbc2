import Mathlib.Algebra.Polynomial.Degree.Lemmas
import Mathlib.Tactic.LinearCombination

/-!
# Positional numbers in a digit store

A *store* is a function `ℕ → ℕ`, read as an array of digits.  `val b f p n` is
the number written by the `n` digits of `f` from position `p` on, the most
significant first, in base `b`.

The loops of positional arithmetic run from the least significant digit up and
hand a carry (or a borrow) to the next position.  `digitLoop` is that loop with
its body as a parameter, and `digitLoop_spec` the one rule for it: a body that
accounts for each position accounts for the whole number.
-/

namespace Virtuoso.Lib.Radix

open Function Finset

/-! ## The value of a run of digits -/

variable {n z i : ℕ} {f : ℕ → ℕ}

section Val

variable {R : Type*} [CommSemiring R]

/-- The number whose digits are `f p, …, f (p + n - 1)`, most significant first. -/
def val (b : R) (f : ℕ → R) (p : ℕ) : ℕ → R
  | 0 => 0
  | n + 1 => val b f p n * b + f (p + n)

variable (b : R) (f g : ℕ → R) (p q : ℕ)

@[simp] theorem val_zero : val b f p 0 = 0 := rfl

theorem val_succ (n : ℕ) : val b f p (n + 1) = val b f p n * b + f (p + n) := rfl

@[simp] theorem val_one : val b f p 1 = f p := by simp [val]

/-- Digits written one after the other. -/
theorem val_append (m n : ℕ) :
    val b f p (m + n) = val b f p m * b ^ n + val b f (p + m) n := by
  induction n with
  | zero => simp
  | succ n ih =>
    rw [← Nat.add_assoc, val_succ, ih, val_succ, pow_succ, Nat.add_assoc]
    ring

/-- The most significant digit split off. -/
theorem val_succ_left (n : ℕ) : val b f p (n + 1) = f p * b ^ n + val b f (p + 1) n := by
  rw [Nat.add_comm, val_append, val_one]

variable {b f g p q} in
/-- Only the digits read matter. -/
theorem val_congr (h : ∀ i < n, f (p + i) = g (q + i)) : val b f p n = val b g q n := by
  induction n with
  | zero => rfl
  | succ n ih => rw [val_succ, val_succ, ih fun i hi => h i (by omega), h n (by omega)]

variable {b f p} in
/-- A run of zeros writes zero. -/
theorem val_eq_zero (h : ∀ i < n, f (p + i) = 0) : val b f p n = 0 := by
  induction n with
  | zero => rfl
  | succ n ih => rw [val_succ, ih fun i hi => h i (by omega), h n (by omega), zero_mul, zero_add]

/-- Values add position by position. -/
theorem val_add (n : ℕ) : val b (fun i => f i + g i) p n = val b f p n + val b g p n := by
  induction n with
  | zero => simp
  | succ n ih => rw [val_succ, ih, val_succ, val_succ]; ring

/-- A common factor of the digits is a factor of the value. -/
theorem val_mul_right (c : R) (n : ℕ) : val b (fun i => f i * c) p n = val b f p n * c := by
  induction n with
  | zero => simp
  | succ n ih => rw [val_succ, ih, val_succ]; ring

/-- The value as a sum over positions counted from the least significant one. -/
theorem val_eq_sum (n : ℕ) :
    val b f p n = ∑ i ∈ range n, f (p + (n - 1 - i)) * b ^ i := by
  induction n with
  | zero => rfl
  | succ n ih =>
    rw [val_succ, ih, sum_range_succ', sum_mul]
    simp only [pow_zero, mul_one, Nat.sub_zero, Nat.add_sub_cancel]
    congr 1
    refine sum_congr rfl fun i _ => ?_
    rw [show n - (i + 1) = n - 1 - i by omega, pow_succ, mul_assoc]

end Val

/-- Values of natural digits may be computed in any semiring. -/
theorem cast_val {R : Type*} [CommSemiring R] (b : ℕ) (f : ℕ → ℕ) (p n : ℕ) :
    ((val b f p n : ℕ) : R) = val (b : R) (fun i => (f i : R)) p n := by
  induction n with
  | zero => simp
  | succ n ih => rw [val_succ, val_succ, ← ih]; push_cast; ring

section Bounds

variable {b : ℕ} {f g : ℕ → ℕ} {p q n : ℕ}

/-- `n` digits stay below `b ^ n`. -/
theorem val_lt_pow (hf : ∀ i < n, f (p + i) < b) : val b f p n < b ^ n := by
  induction n with
  | zero => simp
  | succ n ih =>
    have hd := hf n (by omega)
    have hv : val b f p n + 1 ≤ b ^ n := ih fun i hi => hf i (by omega)
    calc val b f p n * b + f (p + n) < val b f p n * b + b := by omega
      _ = (val b f p n + 1) * b := by ring
      _ ≤ b ^ n * b := Nat.mul_le_mul_right b hv
      _ = b ^ (n + 1) := (pow_succ b n).symm

theorem val_lt_pow_zero (hf : ∀ i < n, f i < b) : val b f 0 n < b ^ n :=
  val_lt_pow fun i hi => (Nat.zero_add i).symm ▸ hf i hi

/-- A digit in front of others. -/
theorem digits_cons (h0 : f p < b) (hf : ∀ i < n, f (p + 1 + i) < b) :
    ∀ i < n + 1, f (p + i) < b := by
  intro i hi
  cases i with
  | zero => exact h0
  | succ i =>
    rw [← Nat.add_assoc, Nat.add_right_comm]
    exact hf i (by omega)

theorem val_update {d : ℕ} :
    val b (update f p d) p (n + 1) = d * b ^ n + val b f (p + 1) n := by
  rw [val_succ_left, update_self]
  congr 1
  exact val_congr fun i _ => update_of_ne (by omega) _ _

theorem digits_update {d : ℕ} (hd : d < b) (hf : ∀ i < n, f (p + 1 + i) < b) :
    ∀ i < n + 1, update f p d (p + i) < b := by
  refine digits_cons (by rwa [update_self]) fun i hi => ?_
  rw [update_of_ne (by omega)]
  exact hf i hi

/-- A leading digit that is not zero makes the number large. -/
theorem pow_le_val (hf : 0 < f p) : b ^ n ≤ val b f p (n + 1) := by
  rw [val_succ_left]
  exact le_trans (Nat.le_mul_of_pos_left _ hf) (Nat.le_add_right _ _)

/-- The first digits bound the number from below, -/
theorem val_mul_pow_le (k : ℕ) : val b f p k * b ^ n ≤ val b f p (k + n) := by
  rw [val_append]
  exact Nat.le_add_right _ _

/-- and from above. -/
theorem val_lt_mul_pow {k : ℕ} (hf : ∀ i < n, f (p + k + i) < b) :
    val b f p (k + n) < (val b f p k + 1) * b ^ n := by
  rw [val_append, Nat.add_mul, Nat.one_mul]
  exact Nat.add_lt_add_left (val_lt_pow hf) _

/-- A number is zero exactly when all its digits are. -/
theorem val_eq_zero_iff (hb : 0 < b) : val b f p n = 0 ↔ ∀ i < n, f (p + i) = 0 := by
  refine ⟨fun h => ?_, val_eq_zero⟩
  induction n with
  | zero => intro i hi; omega
  | succ n ih =>
    rw [val_succ, Nat.add_eq_zero_iff, Nat.mul_eq_zero] at h
    intro i hi
    rcases Nat.lt_succ_iff_lt_or_eq.mp hi with hi | rfl
    · exact ih (h.1.resolve_right (by omega)) i hi
    · exact h.2

/-- Numbers of one length are equal only digit by digit. -/
theorem digits_eq_of_val_eq (hf : ∀ i < n, f (p + i) < b) (hg : ∀ i < n, g (q + i) < b)
    (h : val b f p n = val b g q n) : ∀ i < n, f (p + i) = g (q + i) := by
  induction n with
  | zero => intro i hi; omega
  | succ n ih =>
    have hfn := hf n (by omega)
    have hgn := hg n (by omega)
    rw [val_succ, val_succ, mul_comm, mul_comm _ b] at h
    have hdigit : f (p + n) = g (q + n) := by
      have := congrArg (· % b) h
      simpa [Nat.mul_add_mod, Nat.mod_eq_of_lt hfn, Nat.mod_eq_of_lt hgn] using this
    rw [hdigit, Nat.add_right_cancel_iff] at h
    intro i hi
    rcases Nat.lt_succ_iff_lt_or_eq.mp hi with hi | rfl
    · exact ih (fun i hi => hf i (by omega)) (fun i hi => hg i (by omega))
        (Nat.eq_of_mul_eq_mul_left (by omega) h) i hi
    · exact hdigit

/-- The first digit that differs decides. -/
theorem val_lt_val {k : ℕ} (hf : ∀ i < n, f (p + i) < b) (hk : k < n)
    (hagree : ∀ i < k, f (p + i) = g (q + i)) (hlt : f (p + k) < g (q + k)) :
    val b f p n < val b g q n := by
  obtain ⟨r, rfl⟩ := Nat.exists_eq_add_of_lt hk
  rw [Nat.add_assoc, val_append b f, val_append b g, val_succ_left, val_succ_left,
    val_congr hagree]
  have hlow : val b f (p + k + 1) r < b ^ r := val_lt_pow fun i hi => by
    have := hf (k + 1 + i) (by omega)
    rwa [show p + (k + 1 + i) = p + k + 1 + i by omega] at this
  have hdig : (f (p + k) + 1) * b ^ r ≤ g (q + k) * b ^ r := Nat.mul_le_mul_right _ hlt
  rw [add_mul, one_mul] at hdig
  omega

end Bounds

/-! ## Digits set off by zeros -/

/-- The `n` digits of `f` from position 0 on, with `z` zeros before them and
zeros after them. -/
def align (f : ℕ → ℕ) (n z i : ℕ) : ℕ := if z ≤ i ∧ i < z + n then f (i - z) else 0

theorem align_of_mem (h₁ : z ≤ i) (h₂ : i < z + n) :
    align f n z i = f (i - z) := if_pos ⟨h₁, h₂⟩

theorem align_of_lt (h : i < z) : align f n z i = 0 :=
  if_neg fun hi => by omega

theorem align_of_le (h : z + n ≤ i) : align f n z i = 0 :=
  if_neg fun hi => by omega

theorem align_lt {b : ℕ} (hb : 0 < b) (hf : ∀ i < n, f i < b) : align f n z i < b := by
  unfold align
  split
  · exact hf _ (by omega)
  · exact hb

/-- Zeros in front do not count, zeros behind scale the number. -/
theorem val_align (b : ℕ) (f : ℕ → ℕ) (n z t : ℕ) :
    val b (align f n z) 0 (z + n + t) = val b f 0 n * b ^ t := by
  rw [val_append, val_append, val_eq_zero (n := z) fun i hi => align_of_lt (by omega),
    val_eq_zero (n := t) fun i hi => align_of_le (by omega), zero_mul, zero_add, add_zero]
  congr 1
  refine val_congr fun i hi => ?_
  rw [align_of_mem (by omega) (by omega)]
  congr 1
  omega

/-! ## Loops over the digits of a number -/

/-- The loop of positional arithmetic: from the least significant of `n`
positions up, `step i c` gives the digit that is stored for position `i`, at
`w + i`, and the carry for the next position. -/
def digitLoop (step : ℕ → ℕ → ℕ × ℕ) (w : ℕ) : ℕ → ℕ → (ℕ → ℕ) → (ℕ → ℕ) × ℕ
  | 0, c, buf => (buf, c)
  | n + 1, c, buf => digitLoop step w n (step n c).2 (Function.update buf (w + n) (step n c).1)

section Loop

variable {step step' : ℕ → ℕ → ℕ × ℕ} {w n c : ℕ} {buf : ℕ → ℕ}

/-- The loop writes only in its window. -/
theorem digitLoop_outside {j : ℕ} (hj : j < w ∨ w + n ≤ j) :
    (digitLoop step w n c buf).1 j = buf j := by
  induction n generalizing c buf with
  | zero => rfl
  | succ n ih =>
    rw [digitLoop, ih (by omega), update_of_ne (by omega)]

/-- Two loops one after the other are one loop. -/
theorem digitLoop_append (m : ℕ) :
    digitLoop step w (m + n) c buf =
      digitLoop step w m (digitLoop (fun i => step (m + i)) (w + m) n c buf).2
        (digitLoop (fun i => step (m + i)) (w + m) n c buf).1 := by
  induction n generalizing c buf with
  | zero => rfl
  | succ n ih => rw [← Nat.add_assoc, digitLoop, ih, digitLoop, Nat.add_assoc]

/-- Bodies that agree on the carries that can arise give the same loop. -/
theorem digitLoop_congr {I : ℕ → Prop} (hc : I c)
    (h : ∀ i < n, ∀ c, I c → step i c = step' i c ∧ I (step i c).2) :
    digitLoop step w n c buf = digitLoop step' w n c buf := by
  induction n generalizing c buf with
  | zero => rfl
  | succ n ih =>
    obtain ⟨heq, hI⟩ := h n (by omega) c hc
    rw [digitLoop, digitLoop, ← heq]
    exact ih hI fun i hi => h i (by omega)

/-- Only the bodies of the positions passed matter. -/
theorem digitLoop_congr_step (h : ∀ i < n, step i = step' i) :
    digitLoop step w n c buf = digitLoop step' w n c buf :=
  digitLoop_congr (I := fun _ => True) trivial fun i hi c _ => ⟨congrFun (h i hi) c, trivial⟩

/-- A body that hands on the carry as it is. -/
theorem digitLoop_snd (h : ∀ i c, (step i c).2 = c) : (digitLoop step w n c buf).2 = c := by
  induction n generalizing c buf with
  | zero => rfl
  | succ n ih => rw [digitLoop, ih, h]

/-- What a body does at each position the loop does to the whole number.  The
carry counts with weight `α`: `1` for a carry, `-1` for a borrow. -/
theorem digitLoop_spec {b : ℕ} {α : ℤ} {s : ℕ → ℤ} {I : ℕ → Prop} (hc : I c)
    (h : ∀ i < n, ∀ c, I c → I (step i c).2 ∧ (step i c).1 < b ∧
      ((step i c).1 : ℤ) + α * b * (step i c).2 = s i + α * c) :
    I (digitLoop step w n c buf).2 ∧ (∀ i < n, (digitLoop step w n c buf).1 (w + i) < b) ∧
      ((val b (digitLoop step w n c buf).1 w n : ℕ) : ℤ) +
        α * b ^ n * (digitLoop step w n c buf).2 = val (b : ℤ) s 0 n + α * c := by
  induction n generalizing c buf with
  | zero => exact ⟨hc, fun i hi => absurd hi (by omega), by simp [digitLoop]⟩
  | succ n ih =>
    obtain ⟨hI, hd, heq⟩ := h n (by omega) c hc
    obtain ⟨hI', hd', heq'⟩ :=
      @ih (step n c).2 (update buf (w + n) (step n c).1) hI fun i hi => h i (by omega)
    -- the digit of this position is not touched again
    have hlast : (digitLoop step w (n + 1) c buf).1 (w + n) = (step n c).1 := by
      rw [digitLoop, digitLoop_outside (by omega), update_self]
    refine ⟨hI', fun i hi => ?_, ?_⟩
    · rcases Nat.lt_succ_iff_lt_or_eq.mp hi with hi | rfl
      · exact hd' i hi
      · rw [hlast]; exact hd
    · rw [val_succ, hlast, val_succ, Nat.zero_add]
      simp only [digitLoop]
      push_cast
      linear_combination (b : ℤ) * heq' + heq

end Loop

/-! ## Multiplication by columns -/

/-- The value of a product is the sum of its columns: column `k` collects the
products of digits whose places, counted from the least significant, add up to `k`. -/
theorem val_mul_val (b : ℕ) (f g : ℕ → ℕ) (m n t : ℕ) (ht : m + n ≤ t + 1) :
    val b f 0 m * val b g 0 n = ∑ k ∈ range t,
      (∑ x ∈ Finset.HasAntidiagonal.antidiagonal k, (if x.1 < m then f (m - 1 - x.1) else 0) *
        (if x.2 < n then g (n - 1 - x.2) else 0)) * b ^ k := by
  -- both factors are polynomials in the base
  let poly (h : ℕ → ℕ) (l : ℕ) : Polynomial ℕ :=
    ∑ i ∈ range l, Polynomial.monomial i (h (l - 1 - i))
  have hcoeff (h : ℕ → ℕ) (l i : ℕ) :
      (poly h l).coeff i = if i < l then h (l - 1 - i) else 0 := by
    simp only [poly, Polynomial.finsetSum_coeff, Polynomial.coeff_monomial]
    rw [sum_ite_eq']
    simp
  have heval (h : ℕ → ℕ) (l : ℕ) : (poly h l).eval b = val b h 0 l := by
    simp only [poly, Polynomial.eval_finsetSum, Polynomial.eval_monomial, val_eq_sum,
      Nat.zero_add]
  have hzero : ∀ k, t ≤ k → (poly f m * poly g n).coeff k = 0 := by
    intro k hk
    rw [Polynomial.coeff_mul]
    refine sum_eq_zero fun x hx => ?_
    rw [Finset.HasAntidiagonal.mem_antidiagonal] at hx
    rw [hcoeff, hcoeff]
    by_cases h₁ : x.1 < m
    · rw [if_neg (show ¬ x.2 < n by omega), mul_zero]
    · rw [if_neg h₁, zero_mul]
  rw [← heval, ← heval, ← Polynomial.eval_mul, Polynomial.eval_eq_sum_range' (n := t + 1)]
  · rw [sum_range_succ, hzero t le_rfl, zero_mul, add_zero]
    refine sum_congr rfl fun k _ => ?_
    rw [Polynomial.coeff_mul]
    simp only [hcoeff]
  · exact Nat.lt_succ_of_le (Polynomial.natDegree_le_iff_coeff_eq_zero.mpr
      fun k hk => hzero k hk.le)

end Virtuoso.Lib.Radix
