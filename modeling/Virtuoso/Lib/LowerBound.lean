import Mathlib.Algebra.Order.Group.Nat

/-!
# Binary search for a lower bound

`lowerBound below n` halves the interval `[0, n)` until it has found the first
position at which `below` fails.  On a sorted sequence, with `below` comparing
the entries with a target, that position is the only one that can hold the
target.
-/

namespace Virtuoso.Lib

variable {below : ℕ → Bool}

/-- Halve `[lo, hi)`, at most `fuel` times. -/
def lowerBoundFrom (below : ℕ → Bool) : ℕ → ℕ → ℕ → ℕ
  | 0, lo, _ => lo
  | fuel + 1, lo, hi =>
    if lo < hi then
      let mid := lo + (hi - lo) / 2
      if below mid then lowerBoundFrom below fuel (mid + 1) hi
      else lowerBoundFrom below fuel lo mid
    else lo

/-- The first of the positions below `n` at which `below` fails, or `n`. -/
def lowerBound (below : ℕ → Bool) (n : ℕ) : ℕ := lowerBoundFrom below n 0 n

/-- `r` cuts `[lo, hi)` into the positions where `below` holds and those where it fails. -/
structure Cuts (below : ℕ → Bool) (lo hi r : ℕ) : Prop where
  le : lo ≤ r
  ge : r ≤ hi
  holds : ∀ i, lo ≤ i → i < r → below i = true
  fails : ∀ i, r ≤ i → i < hi → below i = false

theorem lowerBoundFrom_cuts {fuel lo hi : ℕ} (hfuel : hi - lo ≤ fuel) (hle : lo ≤ hi)
    (hmono : ∀ i j, i ≤ j → j < hi → below j = true → below i = true) :
    Cuts below lo hi (lowerBoundFrom below fuel lo hi) := by
  induction fuel generalizing lo hi with
  | zero =>
    obtain rfl : lo = hi := by omega
    rw [lowerBoundFrom]
    exact ⟨Nat.le_refl _, Nat.le_refl _, fun i h₁ h₂ => by omega, fun i h₁ h₂ => by omega⟩
  | succ fuel ih =>
    simp only [lowerBoundFrom]
    split_ifs with hlt hb
    · have : Cuts below (lo + (hi - lo) / 2 + 1) hi _ := ih (by omega) (by omega) hmono
      refine ⟨by have := this.le; omega, this.ge, fun i h₁ h₂ => ?_, this.fails⟩
      by_cases hi' : lo + (hi - lo) / 2 + 1 ≤ i
      · exact this.holds i hi' h₂
      · exact hmono i _ (by omega) (by omega) hb
    · have : Cuts below lo (lo + (hi - lo) / 2) _ :=
        ih (by omega) (by omega) fun i j h₁ h₂ => hmono i j h₁ (by omega)
      refine ⟨this.le, by have := this.ge; omega, this.holds, fun i h₁ h₂ => ?_⟩
      by_cases hi' : i < lo + (hi - lo) / 2
      · exact this.fails i h₁ hi'
      · by_contra hne
        exact hb (hmono _ i (by omega) h₂ (by simpa using hne))
    · exact ⟨Nat.le_refl _, hle, fun i h₁ h₂ => by omega, fun i h₁ h₂ => by omega⟩

/-- The search looks at positions of its interval only. -/
theorem lowerBoundFrom_congr {below' : ℕ → Bool} {fuel lo hi : ℕ}
    (h : ∀ i < hi, below i = below' i) :
    lowerBoundFrom below fuel lo hi = lowerBoundFrom below' fuel lo hi := by
  induction fuel generalizing lo hi with
  | zero => rfl
  | succ fuel ih =>
    simp only [lowerBoundFrom]
    split_ifs with hlt hb hb' hb'
    · exact ih h
    · exact absurd ((h _ (by omega)).symm.trans hb) hb'
    · exact absurd ((h _ (by omega)).trans hb') hb
    · exact ih fun i hi' => h i (by omega)
    · rfl

theorem lowerBound_congr {below' : ℕ → Bool} {n : ℕ} (h : ∀ i < n, below i = below' i) :
    lowerBound below n = lowerBound below' n :=
  lowerBoundFrom_congr h

/-- The search finds where `below` stops to hold. -/
theorem lowerBound_cuts {n : ℕ} (hmono : ∀ i j, i ≤ j → j < n → below j = true → below i = true) :
    Cuts below 0 n (lowerBound below n) :=
  lowerBoundFrom_cuts (by omega) (Nat.zero_le n) hmono

/-- The search finds the target in an ascending sequence exactly if it is there. -/
theorem lowerBound_find {α : Type*} [LinearOrder α] {n : ℕ} {xs : ℕ → α} {x : α}
    (hbelow : ∀ i < n, below i = true ↔ xs i < x) (hxs : ∀ i j, i ≤ j → j < n → xs i ≤ xs j) :
    (lowerBound below n < n ∧ xs (lowerBound below n) = x) ↔ ∃ i < n, xs i = x := by
  have hcut : Cuts below 0 n (lowerBound below n) := lowerBound_cuts fun i j hij hj hb =>
    (hbelow i (hij.trans_lt hj)).2 ((hxs i j hij hj).trans_lt ((hbelow j hj).1 hb))
  generalize lowerBound below n = r at hcut
  constructor
  · rintro ⟨hr, hx⟩
    exact ⟨r, hr, hx⟩
  · rintro ⟨i, hi, rfl⟩
    have hri : r ≤ i := by
      by_contra hlt
      exact lt_irrefl _ ((hbelow i hi).1 (hcut.holds i (Nat.zero_le i) (not_le.1 hlt)))
    have hr : r < n := hri.trans_lt hi
    refine ⟨hr, le_antisymm (hxs r i hri hi) (not_lt.1 fun hlt => ?_)⟩
    have := hcut.fails r (Nat.le_refl r) hr
    rw [(hbelow r hr).2 hlt] at this
    cases this

end Virtuoso.Lib
