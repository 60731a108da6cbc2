import Mathlib.Data.Nat.Basic

/-!
# Scanning a range of positions

The two loops that look for the first position with a property, upwards from a
start and downwards from a limit; and the cut of a list at the first member without a property.
-/

namespace Virtuoso.Lib

variable (p : ℕ → Bool)

/-- The first of the `k` positions from `start` on that has the property. -/
def scanUp : ℕ → ℕ → Option ℕ
  | _, 0 => none
  | start, k + 1 => if p start then some start else scanUp (start + 1) k

/-- The last position below `n` that has the property. -/
def scanDown : ℕ → Option ℕ
  | 0 => none
  | n + 1 => if p n then some n else scanDown n

variable {p}

variable {start k n : ℕ}

theorem scanUp_eq_some {i : ℕ} (h : scanUp p start k = some i) :
    start ≤ i ∧ i < start + k ∧ p i ∧ ∀ j, start ≤ j → j < i → p j = false := by
  induction k generalizing start with
  | zero => cases h
  | succ k ih =>
    rw [scanUp] at h
    split_ifs at h with hp
    · obtain rfl : start = i := by simpa using h
      exact ⟨le_rfl, by omega, hp, by omega⟩
    · obtain ⟨h₁, h₂, h₃, h₄⟩ := ih h
      refine ⟨by omega, by omega, h₃, fun j hj hji => ?_⟩
      rcases Nat.eq_or_lt_of_le hj with rfl | hj
      · simpa using hp
      · exact h₄ j hj hji

theorem scanUp_eq_none (h : scanUp p start k = none) :
    ∀ j, start ≤ j → j < start + k → p j = false := by
  induction k generalizing start with
  | zero => omega
  | succ k ih =>
    rw [scanUp] at h
    split_ifs at h with hp
    intro j hj hjk
    rcases Nat.eq_or_lt_of_le hj with rfl | hj
    · simpa using hp
    · exact ih h j hj (by omega)

theorem scanUp_congr {q : ℕ → Bool} (h : ∀ j, start ≤ j → j < start + k → p j = q j) :
    scanUp p start k = scanUp q start k := by
  induction k generalizing start with
  | zero => rfl
  | succ k ih =>
    rw [scanUp, scanUp, h start le_rfl (by omega), ih fun j hj hjk => h j (by omega) (by omega)]

theorem scanDown_congr {q : ℕ → Bool} (h : ∀ j < n, p j = q j) : scanDown p n = scanDown q n := by
  induction n with
  | zero => rfl
  | succ n ih => rw [scanDown, scanDown, h n (by omega), ih fun j hj => h j (by omega)]

theorem scanDown_eq_some {i : ℕ} (h : scanDown p n = some i) :
    i < n ∧ p i ∧ ∀ j, i < j → j < n → p j = false := by
  induction n with
  | zero => cases h
  | succ n ih =>
    rw [scanDown] at h
    split_ifs at h with hp
    · obtain rfl : n = i := by simpa using h
      exact ⟨by omega, hp, by omega⟩
    · obtain ⟨h₁, h₂, h₃⟩ := ih h
      refine ⟨by omega, h₂, fun j hij hj => ?_⟩
      rcases Nat.lt_succ_iff_lt_or_eq.1 hj with hj | rfl
      · exact h₃ j hij hj
      · simpa using hp

theorem scanDown_eq_none (h : scanDown p n = none) : ∀ j < n, p j = false := by
  induction n with
  | zero => omega
  | succ n ih =>
    rw [scanDown] at h
    split_ifs at h with hp
    intro j hj
    rcases Nat.lt_succ_iff_lt_or_eq.1 hj with hj | rfl
    · exact ih h j hj
    · simpa using hp

/-- A loop that passes the positions with a property stops at the first one without it, or
at the end. -/
theorem pass_spec {q : ℕ → Prop} [DecidablePred q] {f : ℕ → ℕ → ℕ} (hzero : ∀ i, f 0 i = i)
    (hsucc : ∀ k i, f (k + 1) i = if q i then f k (i + 1) else i) (k start : ℕ) :
    start ≤ f k start ∧ f k start ≤ start + k ∧ (∀ i, start ≤ i → i < f k start → q i) ∧
      (f k start < start + k → ¬ q (f k start)) := by
  induction k generalizing start with
  | zero =>
    rw [hzero]
    exact ⟨le_rfl, le_rfl, by omega, by omega⟩
  | succ k ih =>
    rw [hsucc]
    split_ifs with hq
    · obtain ⟨h₁, h₂, h₃, h₄⟩ := ih (start + 1)
      refine ⟨by omega, by omega, fun i hi hlt => ?_, fun h => h₄ (by omega)⟩
      rcases Nat.eq_or_lt_of_le hi with rfl | hi
      · exact hq
      · exact h₃ i hi hlt
    · exact ⟨le_rfl, by omega, by omega, fun _ => hq⟩

/-- A list is cut where a scan that passes the members with a property stops. -/
theorem exists_cut {α : Type*} (q : α → Prop) (l : List α) :
    ∃ before after, l = before ++ after ∧ (∀ x ∈ before, q x) ∧ ∀ x ∈ after.head?, ¬ q x := by
  classical
  induction l with
  | nil => exact ⟨[], [], rfl, by simp, by simp⟩
  | cons x l ih =>
    by_cases hx : q x
    · obtain ⟨before, after, rfl, hbefore, hafter⟩ := ih
      exact ⟨x :: before, after, rfl, List.forall_mem_cons.2 ⟨hx, hbefore⟩, hafter⟩
    · exact ⟨[], x :: l, rfl, by simp, by simpa using hx⟩

end Virtuoso.Lib
