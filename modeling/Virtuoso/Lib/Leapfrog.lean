import Mathlib.Order.Bounds.Basic

/-!
# Leaping between two sets

A walk through two sets in ascending order that leaps from one to the other: from a member `x`
of one it goes to the least member above `x` of the other, until there is none.  `Seen` are the
pairs such a walk compares: the two ends of each leap and, when the other set has nothing above,
its greatest member with the place where the walk stands.

The two sets are a family over `Bool`, so that `!i` is the other one.
-/

universe u

namespace Virtuoso.Lib

variable {α : Type u} [LinearOrder α]

/-- The pairs, the smaller first, that a walk compares from the member `x` of `S i` on. -/
inductive Seen (S : Bool → Set α) : Bool → α → α → α → Prop
  /-- The two ends of a leap. -/
  | leap {i : Bool} {x y : α} (h : IsLeast {z | z ∈ S !i ∧ x < z} y) : Seen S i x x y
  /-- Nothing to leap to: what was passed last. -/
  | last {i : Bool} {x w : α} (h : ∀ z ∈ S !i, z ≤ x) (hw : IsGreatest (S !i) w) (hlt : w < x) :
      Seen S i x w x
  /-- What is compared after a leap. -/
  | onward {i : Bool} {x y a b : α} (h : IsLeast {z | z ∈ S !i ∧ x < z} y)
      (hab : Seen S (!i) y a b) : Seen S i x a b

namespace Seen

variable {S : Bool → Set α} {i : Bool} {x y w a b : α}

theorem lt (h : Seen S i x a b) : a < b := by
  induction h with
  | leap h => exact h.1.2
  | last _ _ hlt => exact hlt
  | onward _ _ ih => exact ih

/-- The two members of a pair are of different sets. -/
theorem mem (h : Seen S i x a b) (hx : x ∈ S i) : ∃ j, a ∈ S j ∧ b ∈ S !j := by
  induction h with
  | leap h => exact ⟨_, hx, h.1.1⟩
  | last _ hw _ => exact ⟨_, hw.1, by rwa [Bool.not_not]⟩
  | onward h _ ih => exact ih h.1.1

/-- What is seen if there is something to leap to. -/
theorem iff_of_isLeast (h : IsLeast {z | z ∈ S !i ∧ x < z} y) :
    Seen S i x a b ↔ (a = x ∧ b = y) ∨ Seen S (!i) y a b := by
  constructor
  · intro hab
    cases hab with
    | leap h' => exact .inl ⟨rfl, h'.unique h⟩
    | last hle _ _ => exact absurd h.1.2 (hle y h.1.1).not_gt
    | onward h' hab => exact .inr (h.unique h' ▸ hab)
  · rintro (⟨rfl, rfl⟩ | hab)
    · exact .leap h
    · exact .onward h hab

/-- What is seen if there is nothing to leap to. -/
theorem iff_of_forall_le (h : ∀ z ∈ S !i, z ≤ x) (hw : IsGreatest (S !i) w) :
    Seen S i x a b ↔ a = w ∧ b = x ∧ w < x := by
  constructor
  · intro hab
    cases hab with
    | leap h' => exact absurd h'.1.2 (h _ h'.1.1).not_gt
    | last _ hw' hlt => exact ⟨hw'.unique hw, rfl, hw'.unique hw ▸ hlt⟩
    | onward h' _ => exact absurd h'.1.2 (h _ h'.1.1).not_gt
  · rintro ⟨rfl, rfl, hlt⟩
    exact .last h hw hlt

variable {C : α → α → Prop}

theorem exists_iff_of_isLeast (h : IsLeast {z | z ∈ S !i ∧ x < z} y) :
    (∃ a b, Seen S i x a b ∧ C a b) ↔ C x y ∨ ∃ a b, Seen S (!i) y a b ∧ C a b := by
  simp only [iff_of_isLeast h]
  constructor
  · rintro ⟨a, b, ⟨rfl, rfl⟩ | hab, hC⟩
    · exact .inl hC
    · exact .inr ⟨a, b, hab, hC⟩
  · rintro (hC | ⟨a, b, hab, hC⟩)
    · exact ⟨x, y, .inl ⟨rfl, rfl⟩, hC⟩
    · exact ⟨a, b, .inr hab, hC⟩

theorem exists_iff_of_forall_le (h : ∀ z ∈ S !i, z ≤ x) (hw : IsGreatest (S !i) w) :
    (∃ a b, Seen S i x a b ∧ C a b) ↔ w < x ∧ C w x := by
  simp only [iff_of_forall_le h hw]
  constructor
  · rintro ⟨a, b, ⟨rfl, rfl, hlt⟩, hC⟩
    exact ⟨hlt, hC⟩
  · rintro ⟨hlt, hC⟩
    exact ⟨w, x, ⟨rfl, rfl, hlt⟩, hC⟩

end Seen

end Virtuoso.Lib
