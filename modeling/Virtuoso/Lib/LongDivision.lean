import Mathlib.Tactic.Linarith
import Mathlib.Tactic.Ring

/-!
# Long division

The facts behind the guess-and-correct division of positional numbers.  A dividend `R` and a
divisor `B` are known up to a unit `P` from leading digits: `U` units of `R`, `v` units of `B`.
A guess `g` for the quotient is tested on those digits alone, `g * v ≤ U`; the quotient passes
the test (`div_mul_le`), and what passes it is not much larger (`mul_lt_of_mul_le`).

`divMod_step` is the step of the algorithm: one more digit of the dividend.
-/

namespace Virtuoso.Lib.LongDivision

variable {B R P U v g : ℕ}

/-- The quotient passes the test. -/
theorem div_mul_le (hB : v * P ≤ B) (hR : R < (U + 1) * P) : R / B * v ≤ U := by
  have h : R / B * v * P < (U + 1) * P := by
    calc R / B * v * P = R / B * (v * P) := Nat.mul_assoc _ _ _
      _ ≤ R / B * B := Nat.mul_le_mul_left _ hB
      _ ≤ R := Nat.div_mul_le_self _ _
      _ < (U + 1) * P := hR
  exact Nat.lt_succ_iff.1 (Nat.lt_of_mul_lt_mul_right h)

/-- What passes the test is not much larger than the quotient. -/
theorem mul_lt_of_mul_le (h0 : 0 < B) (hB : B < (v + 1) * P) (hR : U * P ≤ R) (hg : g * v ≤ U) :
    g * v < (R / B + 1) * (v + 1) := by
  have h : g * v * P < (R / B + 1) * (v + 1) * P := by
    calc g * v * P ≤ U * P := Nat.mul_le_mul_right _ hg
      _ ≤ R := hR
      _ < (R / B + 1) * B := by
        rw [Nat.mul_comm]
        exact Nat.lt_mul_div_succ R h0
      _ ≤ (R / B + 1) * ((v + 1) * P) := Nat.mul_le_mul_left _ hB.le
      _ = (R / B + 1) * (v + 1) * P := (Nat.mul_assoc _ _ _).symm
  exact Nat.lt_of_mul_lt_mul_right h

/-- One more digit `d` of the dividend. -/
theorem divMod_step (b A d : ℕ) (h0 : 0 < B) :
    (A * b + d) / B = A / B * b + (A % B * b + d) / B ∧
      (A * b + d) % B = (A % B * b + d) % B := by
  have hA : A * b + d = (A % B * b + d) + B * (A / B * b) := by
    have := Nat.mod_add_div A B
    calc A * b + d = (A % B + B * (A / B)) * b + d := by rw [this]
      _ = _ := by ring
  rw [hA, Nat.add_mul_div_left _ _ h0, Nat.add_mul_mod_self_left]
  exact ⟨Nat.add_comm _ _, rfl⟩

end Virtuoso.Lib.LongDivision
