import Mathlib.Data.Option.Basic

/-!
# Computations that return

A computation that may stop is an `Option`.  `Gives o P` says that `o` does not stop, and returns a
value with `P`.  A function built from computations with `bind` and `map` returns if each of them
does from where the one before it ends.
-/

universe u v

namespace Virtuoso.Lib

variable {α : Type u} {β : Type v}

/-- `o` returns a value with `P`. -/
def Gives (o : Option α) (P : α → Prop) : Prop := ∃ a, o = some a ∧ P a

namespace Gives

variable {o : Option α} {P Q : α → Prop} {R : β → Prop}

theorem some {a : α} (h : P a) : Gives (some a) P := ⟨a, rfl, h⟩

theorem mono (h : Gives o P) (hPQ : ∀ a, P a → Q a) : Gives o Q := by
  obtain ⟨a, ho, ha⟩ := h
  exact ⟨a, ho, hPQ a ha⟩

theorem bind {f : α → Option β} (h : Gives o P) (hf : ∀ a, P a → Gives (f a) R) :
    Gives (o.bind f) R := by
  obtain ⟨a, rfl, ha⟩ := h
  exact hf a ha

theorem map {f : α → β} (h : Gives o P) (hf : ∀ a, P a → R (f a)) : Gives (o.map f) R := by
  obtain ⟨a, rfl, ha⟩ := h
  exact .some (hf a ha)

/-- What is returned has `P`. -/
theorem of_eq_some (h : Gives o P) {a : α} (ho : o = Option.some a) : P a := by
  obtain ⟨b, hb, hP⟩ := h
  cases ho.symm.trans hb
  exact hP

end Gives

end Virtuoso.Lib
