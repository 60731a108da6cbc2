import Mathlib.Data.Fintype.Card

/-!
# Acyclic relations under growth and contraction

Cycles are closed paths of `Relation.TransGen`.  Two operations on a relation
keep it acyclic: `Acyclic.add` adds edges out of one point, to points from which
it cannot be reached, and `contract` takes a point out and joins its
predecessors to its successors.  On a finite type an acyclic relation is
well founded in the direction of its edges.
-/

universe u

namespace Virtuoso.Lib

open Relation

variable {α : Type u} {r r' : α → α → Prop}

/-- No point reaches itself. -/
def Acyclic (r : α → α → Prop) : Prop := ∀ x, ¬ TransGen r x x

/-- A relation whose edges are paths of an acyclic relation is acyclic. -/
theorem Acyclic.of_paths (h : Acyclic r) (hr : ∀ x y, r' x y → TransGen r x y) : Acyclic r' :=
  fun x hx => h x (TransGen.closed hr x x hx)

/-- A path of the enlarged relation is an old path, or it uses a new edge and
then reaches `x` by an old one. -/
theorem transGen_add {x : α} {S : α → Prop} {a b : α}
    (h : TransGen (fun a b => r a b ∨ a = x ∧ S b) a b) :
    TransGen r a b ∨ (ReflTransGen r a x ∧ ∃ y, S y ∧ ReflTransGen r y b) := by
  induction h with
  | single h =>
    rcases h with h | ⟨rfl, hb⟩
    · exact .inl (.single h)
    · exact .inr ⟨.refl, _, hb, .refl⟩
  | tail _ h ih =>
    rcases h with h | ⟨rfl, hb⟩
    · rcases ih with ih | ⟨hx, y, hy, hyb⟩
      · exact .inl (ih.tail h)
      · exact .inr ⟨hx, y, hy, hyb.tail h⟩
    · rcases ih with ih | ⟨hx, -⟩
      · exact .inr ⟨ih.to_reflTransGen, _, hb, .refl⟩
      · exact .inr ⟨hx, _, hb, .refl⟩

/-- New edges out of `x` to points that do not reach `x` close no cycle. -/
theorem Acyclic.add (h : Acyclic r) {x : α} {S : α → Prop}
    (hS : ∀ y, S y → ¬ ReflTransGen r y x) : Acyclic fun a b => r a b ∨ a = x ∧ S b := by
  intro a ha
  rcases transGen_add ha with ha | ⟨hax, y, hy, hya⟩
  · exact h a ha
  · exact hS y hy (hya.trans hax)

/-- Take `k` out and join what leads to it to what it leads to. -/
def contract (r : α → α → Prop) (k : α) : α → α → Prop :=
  fun x y => x ≠ k ∧ y ≠ k ∧ (r x y ∨ (r x k ∧ r k y))

theorem Acyclic.contract (h : Acyclic r) (k : α) : Acyclic (contract r k) := by
  refine h.of_paths fun x y hxy => ?_
  rcases hxy.2.2 with hxy | ⟨hxk, hky⟩
  · exact .single hxy
  · exact .tail (.single hxk) hky

/-- On a finite type one cannot follow the edges of an acyclic relation for
ever. -/
theorem Acyclic.wellFounded [Finite α] (h : Acyclic r) :
    WellFounded fun y x => TransGen r x y := by
  have : Std.Irrefl fun y x => TransGen r x y := ⟨h⟩
  have : IsTrans α fun y x => TransGen r x y := ⟨fun _ _ _ hab hbc => hbc.trans hab⟩
  exact Finite.wellFounded_of_trans_of_irrefl _

end Virtuoso.Lib
