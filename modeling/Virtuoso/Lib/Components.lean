import Mathlib.Data.Set.Card
import Virtuoso.Lib.Dfs

/-!
# Numbering strongly connected components

Some components of a relation have numbers, in an order that the edges between them
respect.  A component whose predecessors are numbered may get the next number.
-/

universe u

namespace Virtuoso.Lib

open Relation

variable {α : Type u}

/-- The vertices with number `k`. -/
def classOf (ids : α → Option ℕ) (k : ℕ) : Set α := {v | ids v = some k}

/-- Whole components have the numbers below `count`; `largest` is the size of a largest. -/
structure Numbered (r : α → α → Prop) (ids : α → Option ℕ) (count largest : ℕ) : Prop where
  lt : ∀ v k, ids v = some k → k < count
  same : ∀ u v k, ids u = some k → (ids v = some k ↔ Mutual r u v)
  used : ∀ k < count, ∃ v, ids v = some k
  /-- An edge does not lead to a smaller number. -/
  order : ∀ u v k l, r u v → ids u = some k → ids v = some l → k ≤ l
  le : ∀ k < count, (classOf ids k).ncard ≤ largest
  largest : (0 < count ∨ 0 < largest) → ∃ k < count, (classOf ids k).ncard = largest

variable {r : α → α → Prop} {ids : α → Option ℕ} {count largest : ℕ} {x : α} {marks : List α}

theorem numbered_none (r : α → α → Prop) : Numbered r (fun _ => none) 0 0 := by
  constructor <;> simp

namespace Numbered

/-- A vertex without number shares no component with one that has a number. -/
theorem eq_none (h : Numbered r ids count largest) (hx : ids x = none) {v : α}
    (hvx : Mutual r v x) : ids v = none := by
  cases hv : ids v with
  | none => rfl
  | some k =>
    have := (h.same v x k hv).2 hvx
    rw [hx] at this
    cases this

variable [DecidableEq α]

/-- The ids after the vertices `marks` got the number `count`. -/
def mark (ids : α → Option ℕ) (count : ℕ) (marks : List α) (v : α) : Option ℕ :=
  if v ∈ marks then some count else ids v

section

variable (h : Numbered r ids count largest)
include h

theorem classOf_mark_of_lt (hx : ids x = none) (hmarks : ∀ v, v ∈ marks ↔ Mutual r v x) {k : ℕ}
    (hk : k < count) : classOf (mark ids count marks) k = classOf ids k := by
  ext v
  change mark ids count marks v = some k ↔ ids v = some k
  rw [mark]
  split_ifs with hv
  · rw [h.eq_none hx ((hmarks v).1 hv), Option.some.injEq]
    simp [hk.ne']
  · rfl

theorem classOf_mark_self : classOf (mark ids count marks) count = {v | v ∈ marks} := by
  ext v
  change mark ids count marks v = some count ↔ v ∈ marks
  rw [mark]
  split_ifs with hv
  · simp [hv]
  · simp only [hv, iff_false]
    intro hk
    exact lt_irrefl _ (h.lt v count hk)

theorem ncard_classOf_mark (hnodup : marks.Nodup) :
    (classOf (mark ids count marks) count).ncard = marks.length := by
  rw [h.classOf_mark_self, ← List.toFinset_card_of_nodup hnodup, ← Set.ncard_coe_finset]
  simp

/-- The component of `x` gets the next number. -/
theorem add (hx : ids x = none) (hnodup : marks.Nodup) (hmarks : ∀ v, v ∈ marks ↔ Mutual r v x)
    (hpred : ∀ u v, r u v → ids v ≠ none → ids u ≠ none) :
    Numbered r (mark ids count marks) (count + 1)
      (if largest < marks.length then marks.length else largest) := by
  have hnew (v : α) (hv : v ∈ marks) : ids v = none := h.eq_none hx ((hmarks v).1 hv)
  have hxm : x ∈ marks := (hmarks x).2 (.refl r x)
  refine ⟨fun v k hk => ?_, fun u v k hu => ?_, fun k hk => ?_, fun u v k l huv hu hv => ?_,
    fun k hk => ?_, fun _ => ?_⟩
  · rw [mark] at hk
    split_ifs at hk
    · exact (Option.some.inj hk) ▸ Nat.lt_succ_self _
    · exact (h.lt v k hk).trans (Nat.lt_succ_self _)
  · rw [mark] at hu ⊢
    split_ifs at hu with hu'
    · cases hu
      constructor
      · intro hv
        have : v ∈ marks := (Set.ext_iff.1 h.classOf_mark_self v).1 hv
        exact ((hmarks u).1 hu').trans ((hmarks v).1 this).symm
      · intro huv
        exact if_pos ((hmarks v).2 (huv.symm.trans ((hmarks u).1 hu')))
    · rw [← h.same u v k hu]
      split_ifs with hv'
      · rw [hnew v hv', Option.some.injEq]
        simp [(h.lt u k hu).ne']
      · rfl
  · rcases Nat.lt_succ_iff_lt_or_eq.1 hk with hk | rfl
    · obtain ⟨v, hv⟩ := h.used k hk
      exact ⟨v, (Set.ext_iff.1 (h.classOf_mark_of_lt hx hmarks hk) v).2 hv⟩
    · exact ⟨x, if_pos hxm⟩
  · rw [mark] at hu hv
    split_ifs at hv with hv'
    · cases hv
      split_ifs at hu
      · exact (Option.some.inj hu).ge
      · exact (h.lt u k hu).le
    · split_ifs at hu with hu'
      · -- an edge from the new component to a numbered vertex would have numbered it before
        exact absurd (hnew u hu') (hpred u v huv (by simp [hv]))
      · exact h.order u v k l huv hu hv
  · rcases Nat.lt_succ_iff_lt_or_eq.1 hk with hk | rfl
    · rw [h.classOf_mark_of_lt hx hmarks hk]
      refine (h.le k hk).trans ?_
      split_ifs with hlt
      · exact hlt.le
      · exact le_rfl
    · rw [h.ncard_classOf_mark hnodup]
      split_ifs with hlt
      · exact le_rfl
      · exact not_lt.1 hlt
  · split_ifs with hlt
    · exact ⟨count, Nat.lt_succ_self _, h.ncard_classOf_mark hnodup⟩
    · have hpos : 0 < largest := (List.length_pos_of_mem hxm).trans_le (not_lt.1 hlt)
      obtain ⟨k, hk, hkl⟩ := h.largest (.inr hpos)
      exact ⟨k, hk.trans (Nat.lt_succ_self _), by rw [h.classOf_mark_of_lt hx hmarks hk, hkl]⟩

end

end Numbered

end Virtuoso.Lib
