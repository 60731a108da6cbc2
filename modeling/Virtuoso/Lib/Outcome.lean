import Mathlib.Logic.Basic

/-!
# Outcomes of fallible code

Code that can fail is a function into `Except`.  `Sat benign x P` says that `x` either
returns a value with `P`, or fails with an error that the caller counts as benign (no
memory left, say).  The two rules that the developments use are `Sat.bind` and `Sat.mono`.
-/

universe u v

namespace Virtuoso.Lib

variable {ε : Type u} {α β : Type v} {benign : ε → Prop}

/-- `x` returns a value with `P` or fails benignly. -/
inductive Sat (benign : ε → Prop) : Except ε α → (α → Prop) → Prop
  | ok {a : α} {P : α → Prop} : P a → Sat benign (.ok a) P
  | error {e : ε} {P : α → Prop} : benign e → Sat benign (.error e) P

theorem Sat.of_ok {a : α} {P : α → Prop} (h : Sat benign (.ok a) P) : P a := by
  cases h with
  | ok h => exact h

theorem Sat.mono {x : Except ε α} {P Q : α → Prop} (hx : Sat benign x P)
    (h : ∀ a, P a → Q a) : Sat benign x Q := by
  cases hx with
  | ok hP => exact .ok (h _ hP)
  | error he => exact .error he

/-- A sequence is fine if its second part is fine from wherever the first one ends. -/
theorem Sat.bind {x : Except ε α} {f : α → Except ε β} {P : α → Prop} {Q : β → Prop}
    (hx : Sat benign x P) (hf : ∀ a, P a → Sat benign (f a) Q) : Sat benign (x.bind f) Q := by
  cases hx with
  | ok hP => exact hf _ hP
  | error he => exact .error he

end Virtuoso.Lib
