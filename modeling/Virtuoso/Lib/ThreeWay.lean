import Mathlib.Data.Prod.Lex
import Mathlib.Data.Sign.Basic
import Mathlib.Tactic.Linarith

/-!
# Three-way comparisons

A comparison routine returns `-1`, `0` or `1`.  `Reports r x y` says that `r` is
the right answer for `x` and `y` in a linear order; a routine that reports the
order of some key of its arguments inherits the laws of that order.
-/

namespace Virtuoso.Lib

/-- `r` tells how `x` compares with `y`. -/
def Reports {α : Type*} [LT α] (r : ℤ) (x y : α) : Prop :=
  (r = -1 ∧ x < y) ∨ (r = 0 ∧ x = y) ∨ (r = 1 ∧ y < x)

namespace Reports

variable {α β : Type*} [LinearOrder α] [LinearOrder β] {r s t : ℤ} {x y z : α}

theorem of_lt (h : x < y) : Reports (-1) x y := .inl ⟨rfl, h⟩
theorem of_eq (h : x = y) : Reports 0 x y := .inr (.inl ⟨rfl, h⟩)
theorem of_gt (h : y < x) : Reports 1 x y := .inr (.inr ⟨rfl, h⟩)

theorem le_zero_iff (h : Reports r x y) : r ≤ 0 ↔ x ≤ y := by
  rcases h with ⟨rfl, h⟩ | ⟨rfl, rfl⟩ | ⟨rfl, h⟩
  · exact ⟨fun _ => h.le, fun _ => by decide⟩
  · exact ⟨fun _ => le_rfl, fun _ => le_rfl⟩
  · exact ⟨fun h' => absurd h' (by decide), fun h' => absurd h (not_lt.mpr h')⟩

theorem nonneg_iff (h : Reports r x y) : 0 ≤ r ↔ y ≤ x := by
  rcases h with ⟨rfl, h⟩ | ⟨rfl, rfl⟩ | ⟨rfl, h⟩
  · exact ⟨fun h' => absurd h' (by decide), fun h' => absurd h (not_lt.mpr h')⟩
  · exact ⟨fun _ => le_rfl, fun _ => le_rfl⟩
  · exact ⟨fun _ => h.le, fun _ => by decide⟩

theorem eq_zero_iff (h : Reports r x y) : r = 0 ↔ x = y := by
  rcases h with ⟨rfl, h⟩ | ⟨rfl, rfl⟩ | ⟨rfl, h⟩
  · exact ⟨fun h' => absurd h' (by decide), fun h' => absurd h' h.ne⟩
  · exact ⟨fun _ => rfl, fun _ => rfl⟩
  · exact ⟨fun h' => absurd h' (by decide), fun h' => absurd h' h.ne'⟩

/-- The answer for the arguments exchanged is the negated one. -/
theorem swap (h : Reports r x y) : Reports (-r) y x := by
  rcases h with ⟨rfl, h⟩ | ⟨rfl, rfl⟩ | ⟨rfl, h⟩
  · exact of_gt h
  · exact of_eq rfl
  · exact of_lt h

/-- There is one right answer. -/
theorem unique (h : Reports r x y) (h' : Reports s x y) : r = s := by
  rcases h with ⟨rfl, h⟩ | ⟨rfl, h⟩ | ⟨rfl, h⟩ <;>
    rcases h' with ⟨rfl, h'⟩ | ⟨rfl, h'⟩ | ⟨rfl, h'⟩
  · rfl
  · exact absurd h' h.ne
  · exact absurd h' h.asymm
  · exact absurd h h'.ne
  · rfl
  · exact absurd h.symm h'.ne
  · exact absurd h' h.asymm
  · exact absurd h' h.ne'
  · rfl

/-- In the rationals the answer is the sign of the difference. -/
theorem eq_sign {x y : ℚ} (h : Reports r x y) : r = SignType.sign (x - y) := by
  rcases h with ⟨rfl, h⟩ | ⟨rfl, rfl⟩ | ⟨rfl, h⟩
  · rw [sign_neg (sub_neg.mpr h)]; rfl
  · rw [sub_self, sign_zero]; rfl
  · rw [sign_pos (sub_pos.mpr h)]; rfl

/-- In a lexicographic product the first components decide unless they are equal. -/
theorem lex_fst {a b : α} {c d : β} (h : Reports r a b) (hne : a ≠ b) :
    Reports r (toLex (a, c)) (toLex (b, d)) := by
  rcases h with ⟨rfl, h⟩ | ⟨rfl, h⟩ | ⟨rfl, h⟩
  · exact of_lt (Prod.Lex.toLex_lt_toLex.mpr (.inl h))
  · exact absurd h hne
  · exact of_gt (Prod.Lex.toLex_lt_toLex.mpr (.inl h))

/-- With equal first components the second ones decide. -/
theorem lex_snd {a : α} {c d : β} (h : Reports r c d) :
    Reports r (toLex (a, c)) (toLex (a, d)) := by
  rcases h with ⟨rfl, h⟩ | ⟨rfl, rfl⟩ | ⟨rfl, h⟩
  · exact of_lt (Prod.Lex.toLex_lt_toLex.mpr (.inr ⟨rfl, h⟩))
  · exact of_eq rfl
  · exact of_gt (Prod.Lex.toLex_lt_toLex.mpr (.inr ⟨rfl, h⟩))

/-- Reversing both components negates the answer. -/
theorem lex_anti {f : α → α} {g : β → β} (hf : StrictAnti f) (hg : StrictAnti g) {a b : α}
    {c d : β} (h : Reports r (toLex (a, c)) (toLex (b, d))) :
    Reports (-r) (toLex (f a, g c)) (toLex (f b, g d)) := by
  have hlt {a b : α} {c d : β} (h : toLex (a, c) < toLex (b, d)) :
      toLex (f b, g d) < toLex (f a, g c) := by
    rw [Prod.Lex.toLex_lt_toLex] at h ⊢
    rcases h with h | ⟨rfl, h⟩
    · exact .inl (hf h)
    · exact .inr ⟨rfl, hg h⟩
  rcases h with ⟨rfl, h⟩ | ⟨rfl, h⟩ | ⟨rfl, h⟩
  · exact of_gt (hlt h)
  · obtain ⟨rfl, rfl⟩ := Prod.mk.inj (toLex.injective h)
    exact of_eq rfl
  · exact of_lt (hlt h)

end Reports

end Virtuoso.Lib
