import Mathlib.Data.List.Basic
import Mathlib.Order.Bounds.Basic

/-!
# Neighbours in an ascending list

In an ascending list that is cut at one of its members, the next member is the
first of what follows, and the previous one the last of what comes before.
-/

universe u

namespace Virtuoso.Lib

variable {α : Type u} [LinearOrder α] {xs ys : List α} {m m' : α}

/-- The members above one of them are those that follow it. -/
theorem mem_and_lt_iff (h : (xs ++ m :: ys).Pairwise (· < ·)) {x : α} :
    x ∈ xs ++ m :: ys ∧ m < x ↔ x ∈ ys := by
  obtain ⟨-, hys, hxy⟩ := List.pairwise_append.1 h
  constructor
  · rintro ⟨hx, hlt⟩
    rcases List.mem_append.1 hx with hx | hx
    · exact absurd hlt (hxy x hx m (by simp)).not_gt
    · exact (List.mem_cons.1 hx).resolve_left hlt.ne'
  · intro hx
    exact ⟨by simp [hx], (List.pairwise_cons.1 hys).1 x hx⟩

/-- The members below one of them are those that come before it. -/
theorem mem_and_gt_iff (h : (xs ++ m :: ys).Pairwise (· < ·)) {x : α} :
    x ∈ xs ++ m :: ys ∧ x < m ↔ x ∈ xs := by
  obtain ⟨-, hys, hxy⟩ := List.pairwise_append.1 h
  constructor
  · rintro ⟨hx, hlt⟩
    rcases List.mem_append.1 hx with hx | hx
    · exact hx
    · rcases List.mem_cons.1 hx with rfl | hx
      · exact absurd hlt (lt_irrefl x)
      · exact absurd hlt ((List.pairwise_cons.1 hys).1 x hx).not_gt
  · intro hx
    exact ⟨by simp [hx], hxy x hx m (by simp)⟩

/-- The least member of an ascending list is its first. -/
theorem isLeast_iff_head_eq (h : xs.Pairwise (· < ·)) :
    IsLeast {x | x ∈ xs} m ↔ xs.head? = some m := by
  cases xs with
  | nil => simp [IsLeast]
  | cons x xs =>
    have hfirst : IsLeast {y | y ∈ x :: xs} x := by
      refine ⟨by simp, fun y hy => ?_⟩
      rcases List.mem_cons.1 hy with rfl | hy
      · exact le_rfl
      · exact ((List.pairwise_cons.1 h).1 y hy).le
    rw [List.head?_cons, Option.some_inj]
    constructor
    · intro hm
      exact hfirst.unique hm
    · rintro rfl
      exact hfirst

/-- The greatest member of an ascending list is its last. -/
theorem isGreatest_iff_getLast_eq (h : xs.Pairwise (· < ·)) :
    IsGreatest {x | x ∈ xs} m ↔ xs.getLast? = some m := by
  rcases List.eq_nil_or_concat' xs with rfl | ⟨xs, x, rfl⟩
  · simp [IsGreatest]
  · have hlast : IsGreatest {y | y ∈ xs ++ [x]} x := by
      refine ⟨by simp, fun y hy => ?_⟩
      rcases List.mem_append.1 hy with hy | hy
      · exact ((List.pairwise_append.1 h).2.2 y hy x (by simp)).le
      · exact (List.mem_singleton.1 hy).le
    rw [List.getLast?_concat, Option.some_inj]
    constructor
    · intro hm
      exact hlast.unique hm
    · rintro rfl
      exact hlast

section

variable (h : (xs ++ m :: ys).Pairwise (· < ·))
include h

theorem isLeast_above_iff : IsLeast {x | x ∈ xs ++ m :: ys ∧ m < x} m' ↔ ys.head? = some m' := by
  simp only [mem_and_lt_iff h]
  exact isLeast_iff_head_eq (List.pairwise_cons.1 (List.pairwise_append.1 h).2.1).2

theorem isGreatest_below_iff :
    IsGreatest {x | x ∈ xs ++ m :: ys ∧ x < m} m' ↔ xs.getLast? = some m' := by
  simp only [mem_and_gt_iff h]
  exact isGreatest_iff_getLast_eq (List.pairwise_append.1 h).1

/-- The members from one of them on, and those up to it. -/
theorem filter_ge_eq : (xs ++ m :: ys).filter (m ≤ ·) = m :: ys := by
  obtain ⟨-, hys, hxy⟩ := List.pairwise_append.1 h
  have hx : xs.filter (m ≤ ·) = [] :=
    List.filter_eq_nil_iff.2 fun x hx => by simpa using hxy x hx m (by simp)
  have hy : ys.filter (m ≤ ·) = ys :=
    List.filter_eq_self.2 fun y hy => by simpa using ((List.pairwise_cons.1 hys).1 y hy).le
  rw [List.filter_append, List.filter_cons_of_pos (by simp), hx, hy, List.nil_append]

theorem filter_le_eq : (xs ++ m :: ys).filter (· ≤ m) = xs ++ [m] := by
  obtain ⟨-, hys, hxy⟩ := List.pairwise_append.1 h
  have hx : xs.filter (· ≤ m) = xs :=
    List.filter_eq_self.2 fun x hx => by simpa using (hxy x hx m (by simp)).le
  have hy : ys.filter (· ≤ m) = [] :=
    List.filter_eq_nil_iff.2 fun y hy => by simpa using (List.pairwise_cons.1 hys).1 y hy
  rw [List.filter_append, List.filter_cons_of_pos (by simp), hx, hy]

end

end Virtuoso.Lib
