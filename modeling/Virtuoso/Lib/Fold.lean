import Mathlib.Data.List.Basic

/-!
# Invariants of folds

An invariant of a fold speaks about the elements still to come and the value so
far.  Also the inversion of a successful `Except.map`.
-/

universe u v w

namespace Virtuoso.Lib

variable {α : Type u} {β : Type v} {ε : Type w}

variable {I : List α → β → Prop} {b : β}

/-- An invariant that every step keeps holds of the result. -/
theorem foldl_inv {f : β → α → β} (hstep : ∀ a l b, I (a :: l) b → I l (f b a)) {l : List α}
    (h : I l b) : I [] (l.foldl f b) := by
  induction l generalizing b with
  | nil => exact h
  | cons a l ih => exact ih (hstep a l b h)

/-- A fold whose steps succeed under an invariant they keep succeeds. -/
theorem foldlM_ok {f : β → α → Except ε β}
    (hstep : ∀ a l b, I (a :: l) b → ∃ b', f b a = .ok b' ∧ I l b') {l : List α} (h : I l b) :
    ∃ b', l.foldlM f b = .ok b' ∧ I [] b' := by
  induction l generalizing b with
  | nil => exact ⟨b, rfl, h⟩
  | cons a l ih =>
    obtain ⟨b₁, hb₁, hI⟩ := hstep a l b h
    obtain ⟨b₂, hb₂, hI₂⟩ := ih hI
    refine ⟨b₂, ?_, hI₂⟩
    rw [List.foldlM_cons, hb₁]
    exact hb₂

/-- A mapped computation succeeds only if the computation does. -/
theorem map_eq_ok {f : α → β} {x : Except ε α} (h : x.map f = .ok b) :
    ∃ a, x = .ok a ∧ f a = b := by
  cases x with
  | error e => cases h
  | ok a => exact ⟨a, rfl, Except.ok.inj h⟩

end Virtuoso.Lib
