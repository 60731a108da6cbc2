import Mathlib.Data.Nat.Find
import Mathlib.Order.Bounds.Basic

/-!
# Distances along a relation

A walk of `n` steps from `s`, and the distance of a vertex as the length of a
shortest walk to it.
-/

universe u v

namespace Virtuoso.Lib

variable {α : Type u} {β : Type v}

/-- A walk of the given number of steps from `s`. -/
inductive Walk (r : α → α → Prop) (s : α) : ℕ → α → Prop
  | nil : Walk r s 0 s
  | snoc {n : ℕ} {v w : α} : Walk r s n v → r v w → Walk r s (n + 1) w

/-- The shortest walks from `s` to `v` have `n` steps. -/
def IsDist (r : α → α → Prop) (s v : α) (n : ℕ) : Prop := IsLeast {k | Walk r s k v} n

variable {r : α → α → Prop} {s v w : α} {m n : ℕ}

theorem walk_zero_iff : Walk r s 0 v ↔ v = s := by
  constructor
  · rintro ⟨⟩
    rfl
  · rintro rfl
    exact .nil

theorem walk_succ_iff : Walk r s (n + 1) w ↔ ∃ v, Walk r s n v ∧ r v w := by
  constructor
  · rintro (_ | ⟨hv, hvw⟩)
    exact ⟨_, hv, hvw⟩
  · rintro ⟨v, hv, hvw⟩
    exact hv.snoc hvw

theorem reflTransGen_iff_walk : Relation.ReflTransGen r s v ↔ ∃ n, Walk r s n v := by
  constructor
  · intro h
    induction h with
    | refl => exact ⟨0, .nil⟩
    | tail _ hstep ih =>
      obtain ⟨n, hn⟩ := ih
      exact ⟨n + 1, hn.snoc hstep⟩
  · rintro ⟨n, h⟩
    induction h with
    | nil => exact .refl
    | snoc _ hstep ih => exact ih.tail hstep

theorem IsDist.walk (h : IsDist r s v n) : Walk r s n v := h.1

theorem IsDist.le (h : IsDist r s v n) (hw : Walk r s m v) : n ≤ m := h.2 hw

theorem IsDist.unique (h : IsDist r s v n) (h' : IsDist r s v m) : n = m := IsLeast.unique h h'

theorem isDist_zero_iff : IsDist r s v 0 ↔ v = s := by
  constructor
  · intro h
    exact walk_zero_iff.1 h.walk
  · intro h
    exact ⟨walk_zero_iff.2 h, fun _ _ => Nat.zero_le _⟩

theorem Walk.exists_isDist (h : Walk r s n v) : ∃ k ≤ n, IsDist r s v k := by
  classical
  have hex : ∃ k, Walk r s k v := ⟨n, h⟩
  exact ⟨Nat.find hex, Nat.find_min' hex h, Nat.find_spec hex, fun _ => Nat.find_min' hex⟩

theorem exists_isDist_iff : (∃ k, IsDist r s v k) ↔ Relation.ReflTransGen r s v := by
  rw [reflTransGen_iff_walk]
  constructor
  · rintro ⟨k, hk⟩
    exact ⟨k, hk.walk⟩
  · rintro ⟨n, hn⟩
    obtain ⟨k, -, hk⟩ := hn.exists_isDist
    exact ⟨k, hk⟩

/-- A shortest walk ends in a step from a vertex one nearer. -/
theorem IsDist.exists_prev (h : IsDist r s w (n + 1)) : ∃ v, IsDist r s v n ∧ r v w := by
  obtain ⟨v, hv, hvw⟩ := walk_succ_iff.1 h.walk
  refine ⟨v, ⟨hv, fun k hk => ?_⟩, hvw⟩
  exact Nat.succ_le_succ_iff.1 (h.le (Walk.snoc hk hvw))

/-- A step to a vertex that is not within reach of `n` steps leads one further. -/
theorem IsDist.step (h : IsDist r s v n) (hvw : r v w) (hfar : ∀ k ≤ n, ¬ IsDist r s w k) :
    IsDist r s w (n + 1) := by
  refine ⟨h.walk.snoc hvw, fun k hk => ?_⟩
  by_contra hlt
  obtain ⟨m, hm, hdist⟩ := Walk.exists_isDist hk
  exact hfar m (hm.trans (Nat.lt_succ_iff.1 (not_le.1 hlt))) hdist

/-- Beyond an empty level there is nothing. -/
theorem not_isDist_of_le (hempty : ∀ v, ¬ IsDist r s v n) (h : n ≤ m) : ¬ IsDist r s v m := by
  induction m, h using Nat.le_induction generalizing v with
  | base => exact hempty v
  | succ m _ ih =>
    intro hdist
    obtain ⟨u, hu, -⟩ := hdist.exists_prev
    exact ih hu

theorem isDist_one_iff : IsDist r s v 1 ↔ v ≠ s ∧ r s v := by
  constructor
  · intro h
    refine ⟨?_, ?_⟩
    · rintro rfl
      exact absurd (h.le .nil) (by decide)
    · obtain ⟨u, hu, huv⟩ := walk_succ_iff.1 h.walk
      exact walk_zero_iff.1 hu ▸ huv
  · rintro ⟨hne, hsv⟩
    refine (isDist_zero_iff.2 rfl).step hsv fun k hk hdist => ?_
    obtain rfl := Nat.le_zero.1 hk
    exact hne (isDist_zero_iff.1 hdist)

section OffDiagonal

variable {r' : α → α → Prop} (h : ∀ x y, x ≠ y → (r x y ↔ r' x y))
include h

/-- A walk without its loops. -/
theorem Walk.of_ne (hw : Walk r s n v) : ∃ m ≤ n, Walk r' s m v := by
  induction hw with
  | nil => exact ⟨0, le_rfl, .nil⟩
  | @snoc n v w _ hvw ih =>
    obtain ⟨m, hm, hwalk⟩ := ih
    by_cases heq : v = w
    · exact ⟨m, hm.trans (Nat.le_succ n), heq ▸ hwalk⟩
    · exact ⟨m + 1, Nat.succ_le_succ hm, hwalk.snoc ((h v w heq).1 hvw)⟩

/-- Distances do not depend on loops. -/
theorem isDist_congr_ne : IsDist r s v n ↔ IsDist r' s v n := by
  have hmono {r r' : α → α → Prop} (h : ∀ x y, x ≠ y → (r x y ↔ r' x y))
      (hd : IsDist r s v n) : IsDist r' s v n := by
    have hback (k : ℕ) (hk : Walk r' s k v) : n ≤ k := by
      obtain ⟨m, hm, hwalk⟩ := Walk.of_ne (fun x y hne => (h x y hne).symm) hk
      exact (hd.le hwalk).trans hm
    obtain ⟨m, hm, hwalk⟩ := Walk.of_ne h hd.walk
    obtain rfl := hm.antisymm (hback m hwalk)
    exact ⟨hwalk, hback⟩
  exact ⟨hmono h, hmono fun x y hne => (h x y hne).symm⟩

theorem reflTransGen_congr_ne : Relation.ReflTransGen r s v ↔ Relation.ReflTransGen r' s v := by
  simp only [← exists_isDist_iff, isDist_congr_ne h]

end OffDiagonal

/-- Walks correspond along a map that carries the steps over and lifts them back. -/
theorem walk_map_iff {r' : β → β → Prop} {f : α → β} {P : α → Prop}
    (hr : ∀ v y, P v → (r' (f v) y ↔ ∃ w, P w ∧ r v w ∧ f w = y)) (hP : ∀ v w, P v → r v w → P w)
    (hinj : ∀ v w, P v → P w → f v = f w → v = w) (hs : P s) (hv : P v) :
    Walk r' (f s) n (f v) ↔ Walk r s n v := by
  constructor
  · intro h
    generalize hy : f v = y at h
    induction h generalizing v with
    | nil => exact walk_zero_iff.2 (hinj _ _ hv hs hy)
    | @snoc n x y hx hxy ih =>
      obtain ⟨u, hu, rfl⟩ : ∃ u, P u ∧ f u = x := by
        clear ih hxy hy
        induction hx with
        | nil => exact ⟨s, hs, rfl⟩
        | snoc _ hstep ih =>
          obtain ⟨u, hu, rfl⟩ := ih
          obtain ⟨w, hw, -, rfl⟩ := (hr u _ hu).1 hstep
          exact ⟨w, hw, rfl⟩
      obtain ⟨w, hw, huw, rfl⟩ := (hr u _ hu).1 hxy
      obtain rfl := hinj _ _ hv hw hy
      exact (ih hu rfl).snoc huw
  · intro h
    have hP' : P v ∧ Walk r' (f s) n (f v) := by
      clear hv
      induction h with
      | nil => exact ⟨hs, .nil⟩
      | snoc _ hstep ih =>
        have hw := hP _ _ ih.1 hstep
        exact ⟨hw, ih.2.snoc ((hr _ _ ih.1).2 ⟨_, hw, hstep, rfl⟩)⟩
    exact hP'.2

end Virtuoso.Lib
