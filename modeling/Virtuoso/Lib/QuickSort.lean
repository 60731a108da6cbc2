import Mathlib.Data.List.Basic
import Mathlib.Data.Nat.Basic

/-!
# Quicksort with a second array

A partition loop copies the elements of an array to the two ends of a second array and sets one of
them aside.  The parts are sorted there, with the roles of the arrays exchanged, and copied back
around that element.  When a given number of levels is used up another sort takes over, such as a
bubble sort.

The elements at a pointer are a list; where a write would leave them there is no result.
-/

universe u

namespace Virtuoso.Lib

variable {α σ τ : Type u} {cmp : α → α → Ordering}

/-- A sort of the first array with the second one as scratch; it draws pivots from a state. -/
abbrev ArraySort (α σ : Type u) : Type u := σ → List α → List α → Option (List α × List α × σ)

/-- The partition loop: `choose` decides for the left end (`true`), for the right end or to set
the element aside.  `ls` and `rs` are what both ends of an array with `room` slots hold so far. -/
def partition (choose : τ → ℕ → α → Option Bool × τ) (room : ℕ) :
    τ → ℕ → List α → List α → List α → Option (τ × List α × List α)
  | st, _, [], ls, rs => some (st, ls, rs)
  | st, inx, x :: xs, ls, rs =>
    match choose st inx x with
    | (none, st) => partition choose room st (inx + 1) xs ls rs
    | (some toLeft, st) =>
      if ls.length + rs.length < room then
        if toLeft then partition choose room st (inx + 1) xs (ls ++ [x]) rs
        else partition choose room st (inx + 1) xs ls (x :: rs)
      else none

/-- Sorts the parts `ls` and `rs` at the ends of the scratch array and copies them back, around
the element set aside; the second part is copied at the index `at'`. -/
def sortHalves (qsort : ArraySort α σ) (at' : ℕ) (mid : α) (ls rs : List α) : ArraySort α σ :=
  fun s inn left => do
    let nRight := inn.length - rs.length
    let (l₁, _, s) ← qsort s ls (inn.take ls.length)
    let (l₂, _, s) ← qsort s rs (inn.drop nRight)
    let left := l₁ ++ ((left.take nRight).drop ls.length ++ l₂)
    let inn := l₁ ++ mid :: ((inn.take at').drop (ls.length + 1) ++
      ((left.drop at').take rs.length ++ inn.drop (at' + rs.length)))
    some (inn, left, s)

/-- Up to two elements are sorted in place; `none` is for more. -/
def sortFew (cmp : α → α → Ordering) : List α → Option (List α)
  | [] => some []
  | [a] => some [a]
  | [a, b] => some (if cmp a b = .gt then [b, a] else [a, b])
  | _ => none

/-- The sort, with `last` when the levels are used up. -/
def qsortLevels (cmp : α → α → Ordering) (last : List α → Option (List α))
    (step : ℕ → ArraySort α σ → ArraySort α σ) : ℕ → ArraySort α σ
  | 0 => fun s inn left => (sortFew cmp inn <|> last inn).map (·, left, s)
  | levels + 1 => fun s inn left =>
    match sortFew cmp inn with
    | some inn => some (inn, left, s)
    | none => step levels (qsortLevels cmp last step levels) s inn left

/-- The inner loop of a bubble sort. -/
def bubble (cmp : α → α → Ordering) : ℕ → List α → Option (List α)
  | 0, xs => some xs
  | m + 1, a :: b :: xs =>
    if cmp a b = .gt then (bubble cmp m (a :: xs)).map (b :: ·)
    else (bubble cmp m (b :: xs)).map (a :: ·)
  | _ + 1, _ => none

/-- Its outer loop, from the last index down. -/
def bubbleLoop (cmp : α → α → Ordering) : ℕ → List α → Option (List α)
  | 0, xs => some xs
  | m + 1, xs => (bubble cmp (m + 1) xs).bind (bubbleLoop cmp m)

/-- A bubble sort. -/
def bubbleSort (cmp : α → α → Ordering) (xs : List α) : Option (List α) :=
  bubbleLoop cmp (xs.length - 1) xs

/-- No element is greater than a later one. -/
def Ordered (cmp : α → α → Ordering) : List α → Prop := List.Pairwise fun a b => (cmp a b).isLE

/-- The array comes out in order. -/
def SortsTo (cmp : α → α → Ordering) (inn : List α) (res : Option (List α × List α × σ)) : Prop :=
  ∃ out left s, res = some (out, left, s) ∧ out.Perm inn ∧ Ordered cmp out ∧
    left.length = inn.length

/-- Every array is sorted, with as much scratch. -/
def Sorts (cmp : α → α → Ordering) (qsort : ArraySort α σ) : Prop :=
  ∀ s inn left, left.length = inn.length → SortsTo cmp inn (qsort s inn left)

section Partition

variable {choose : τ → ℕ → α → Option Bool × τ} {room : ℕ} {st st' : τ} {inx : ℕ}
  {xs ls rs ls' rs' : List α}

/-- What the steps of the loop keep holds of its state at the end. -/
theorem partition_state {P : τ → List α → Prop}
    (hP : ∀ st inx x xs, P st (x :: xs) → P (choose st inx x).2 xs)
    (h : partition choose room st inx xs ls rs = some (st', ls', rs')) (h₀ : P st xs) :
    P st' [] := by
  induction xs generalizing st inx ls rs with
  | nil =>
    cases h
    exact h₀
  | cons x xs ih =>
    have hx := hP st inx x xs h₀
    rw [partition] at h
    generalize choose st inx x = c at hx h
    rcases c with ⟨_ | toLeft, st₁⟩
    · exact ih h hx
    · dsimp only at h
      split_ifs at h
      · exact ih h hx
      · exact ih h hx

/-- What the choice for `x` may be: the first element that matches `split` is set aside. -/
def Fits (cmp : α → α → Ordering) (split : α) (found : τ → Option α) (st : τ) (x : α) :
    Option Bool × τ → Prop
  | (none, st') => cmp x split = .eq ∧ found st = none ∧ found st' = some x
  | (some toLeft, st') => found st' = found st ∧ (cmp x split = .eq → found st ≠ none) ∧
      if toLeft then (cmp x split).isLE else (cmp split x).isLE

/-- The elements so far are at the end where they belong, or set aside. -/
structure Parting (cmp : α → α → Ordering) (split : α) (mid : Option α) (ls rs done : List α) :
    Prop where
  perm : (mid.toList ++ ls ++ rs).Perm done
  left : ∀ x ∈ ls, (cmp x split).isLE
  right : ∀ x ∈ rs, (cmp split x).isLE
  eq : ∀ x ∈ mid, cmp x split = .eq
  ne : mid = none → ∀ x ∈ done, cmp x split ≠ .eq

variable {split x : α} {found : τ → Option α} {mid : Option α} {done : List α}

theorem Parting.aside (h : Parting cmp split none ls rs done) (hx : cmp x split = .eq) :
    Parting cmp split (some x) ls rs (done ++ [x]) where
  perm := (h.perm.cons x).trans (List.perm_append_singleton _ _).symm
  left := h.left
  right := h.right
  eq := by simpa using hx
  ne := by simp

/-- An element goes between what both ends hold. -/
theorem Parting.put {ls₁ rs₁ : List α} (h : Parting cmp split mid ls rs done)
    (hlr : ls₁ ++ rs₁ = ls ++ x :: rs) (hl : ∀ y ∈ ls₁, (cmp y split).isLE)
    (hr : ∀ y ∈ rs₁, (cmp split y).isLE) (hne : cmp x split = .eq → mid ≠ none) :
    Parting cmp split mid ls₁ rs₁ (done ++ [x]) where
  perm := by
    rw [List.append_assoc, hlr, ← List.append_assoc]
    exact List.perm_middle.trans ((h.perm.cons x).trans (List.perm_append_singleton _ _).symm)
  left := hl
  right := hr
  eq := h.eq
  ne hn := List.forall_mem_append.2 ⟨h.ne hn, by simpa using fun he => hne he hn⟩

/-- The loop goes on as far as there is room. -/
theorem partition_spec (hfit : ∀ st inx x, Fits cmp split found st x (choose st inx x))
    (hroom : ls.length + rs.length + xs.length ≤ room)
    (h : Parting cmp split (found st) ls rs done) :
    ∃ st' ls' rs', partition choose room st inx xs ls rs = some (st', ls', rs') ∧
      Parting cmp split (found st') ls' rs' (done ++ xs) := by
  induction xs generalizing st inx ls rs done with
  | nil => exact ⟨st, ls, rs, rfl, by simpa using h⟩
  | cons x xs ih =>
    have hx := hfit st inx x
    rw [List.length_cons] at hroom
    rw [partition, List.append_cons done]
    generalize choose st inx x = c at hx ⊢
    rcases c with ⟨_ | toLeft, st₁⟩
    · obtain ⟨heq, hnone, hsome⟩ := hx
      exact ih (by omega) (hsome ▸ Parting.aside (hnone ▸ h) heq)
    · obtain ⟨hsame, hne, hside⟩ := hx
      simp only [if_pos (show ls.length + rs.length < room by omega)]
      cases toLeft with
      | true =>
        have hl := List.forall_mem_append.2 ⟨h.left, List.forall_mem_singleton.2 hside⟩
        exact ih (by simp; omega) (hsame ▸ h.put (by simp) hl h.right hne)
      | false =>
        have hr : ∀ y ∈ x :: rs, (cmp split y).isLE := List.forall_mem_cons.2 ⟨hside, h.right⟩
        exact ih (by simp; omega) (hsame ▸ h.put rfl h.left hr hne)

/-- The array is parted around the element `mid`. -/
structure PartsAt (cmp : α → α → Ordering) (inn : List α) (mid : α) (ls rs : List α) : Prop where
  perm : (mid :: (ls ++ rs)).Perm inn
  left : ∀ x ∈ ls, (cmp x mid).isLE
  right : ∀ x ∈ rs, (cmp mid x).isLE

/-- With as many slots as there are elements, an array is parted around one that matches `split`. -/
theorem exists_partition [Std.TransCmp cmp]
    (hfit : ∀ st inx x, Fits cmp split found st x (choose st inx x)) (st : τ)
    (hst : found st = none) (hx : split ∈ xs) :
    ∃ st' ls rs m, partition choose xs.length st 0 xs [] [] = some (st', ls, rs) ∧
      found st' = some m ∧ cmp m split = .eq ∧ PartsAt cmp xs m ls rs := by
  have h₀ : Parting cmp split (found st) [] [] [] :=
    ⟨by simp [hst], by simp, by simp, by simp [hst], by simp⟩
  have hroom : ([] : List α).length + ([] : List α).length + xs.length ≤ xs.length := by simp
  obtain ⟨st', ls, rs, heq, h⟩ := partition_spec hfit hroom h₀
  rcases hf : found st' with _ | m <;> rw [hf] at h
  · exact absurd Std.ReflCmp.compare_self (h.ne rfl split hx)
  · have hm := h.eq m rfl
    refine ⟨st', ls, rs, m, heq, hf, hm, by simpa using h.perm, fun x hx => ?_, fun x hx => ?_⟩
    · exact Std.TransCmp.isLE_trans (h.left x hx)
        (Ordering.isLE_of_eq_eq (Std.OrientedCmp.eq_symm hm))
    · exact Std.TransCmp.isLE_trans (Ordering.isLE_of_eq_eq hm) (h.right x hx)

end Partition

section Sorts

variable {qsort : ArraySort α σ} {inn left ls rs l₁ i₁ l₂ i₂ : List α} {mid : α}

theorem PartsAt.length_eq (h : PartsAt cmp inn mid ls rs) :
    (inn.take ls.length).length = ls.length ∧ (inn.drop (ls.length + 1)).length = rs.length ∧
      inn.length - rs.length = ls.length + 1 := by
  have hcount := h.perm.length_eq
  simp only [List.length_cons, List.length_append] at hcount
  simp
  omega

/-- One slot stays free for the element set aside. -/
theorem PartsAt.copy {s s₁ s₂ : σ} (h : PartsAt cmp inn mid ls rs)
    (hlen : left.length = inn.length)
    (h₁ : qsort s ls (inn.take ls.length) = some (l₁, i₁, s₁)) (hp₁ : l₁.Perm ls)
    (h₂ : qsort s₁ rs (inn.drop (ls.length + 1)) = some (l₂, i₂, s₂)) (hp₂ : l₂.Perm rs) :
    ∃ left', sortHalves qsort (ls.length + 1) mid ls rs s inn left =
        some (l₁ ++ mid :: l₂, left', s₂) ∧ (l₁ ++ mid :: l₂).Perm inn ∧
      left'.length = inn.length := by
  have hperm := List.perm_middle.trans (((hp₁.append hp₂).cons mid).trans h.perm)
  have hl₁ := hp₁.length_eq
  have hl₂ := hp₂.length_eq
  have hcount := h.perm.length_eq
  simp only [List.length_cons, List.length_append] at hcount
  have hright : inn.length - rs.length = ls.length + 1 := by omega
  obtain ⟨gap, hgap⟩ : ∃ gap, (left.take (ls.length + 1)).drop ls.length = [gap] :=
    List.length_eq_one_iff.1 (by simp; omega)
  refine ⟨l₁ ++ gap :: l₂, ?_, hperm, by simp; omega⟩
  have hrest : (l₁ ++ gap :: l₂).drop (ls.length + 1) = l₂ := by simp [← hl₁, List.drop_append]
  have htake : l₂.take rs.length = l₂ := List.take_of_length_le (Nat.le_of_eq hl₂)
  have hend : inn.drop (ls.length + 1 + rs.length) = [] := List.drop_eq_nil_of_le (by omega)
  simp [sortHalves, hright, h₁, h₂, hgap, hrest, htake, hend]

variable [Std.TransCmp cmp]

theorem PartsAt.ordered_iff (h : PartsAt cmp inn mid ls rs) (hp₁ : l₁.Perm ls) (hp₂ : l₂.Perm rs) :
    Ordered cmp (l₁ ++ mid :: l₂) ↔ Ordered cmp l₁ ∧ Ordered cmp l₂ := by
  have hl (x : α) (hx : x ∈ l₁) := h.left x (hp₁.mem_iff.1 hx)
  have hr (x : α) (hx : x ∈ l₂) := h.right x (hp₂.mem_iff.1 hx)
  rw [Ordered, List.pairwise_append, List.pairwise_cons]
  refine ⟨fun h => ⟨h.1, h.2.1.2⟩, fun h => ⟨h.1, ⟨hr, h.2⟩, fun a ha => ?_⟩⟩
  exact List.forall_mem_cons.2 ⟨hl a ha, fun b hb => Std.TransCmp.isLE_trans (hl a ha) (hr b hb)⟩

theorem Sorts.halves (hq : Sorts cmp qsort) (s : σ) (h : PartsAt cmp inn mid ls rs)
    (hlen : left.length = inn.length) :
    SortsTo cmp inn (sortHalves qsort (inn.length - rs.length) mid ls rs s inn left) := by
  obtain ⟨hlen₁, hlen₂, hright⟩ := h.length_eq
  obtain ⟨l₁, i₁, s₁, h₁, hp₁, ho₁, -⟩ := hq s ls _ hlen₁
  obtain ⟨l₂, i₂, s₂, h₂, hp₂, ho₂, -⟩ := hq s₁ rs _ hlen₂
  obtain ⟨left', heq, hperm, hleft⟩ := h.copy hlen h₁ hp₁ h₂ hp₂
  rw [hright]
  exact ⟨_, left', s₂, heq, hperm, (h.ordered_iff hp₁ hp₂).2 ⟨ho₁, ho₂⟩, hleft⟩

variable (cmp) in
theorem sortFew_spec (inn : List α) :
    (inn.length < 3 ∧ ∃ out, sortFew cmp inn = some out ∧ out.Perm inn ∧ Ordered cmp out) ∨
      3 ≤ inn.length ∧ sortFew cmp inn = none := by
  rcases inn with _ | ⟨a, _ | ⟨b, _ | ⟨c, inn⟩⟩⟩
  · exact .inl ⟨by simp, [], rfl, by simp [Ordered]⟩
  · exact .inl ⟨by simp, [a], rfl, by simp [Ordered]⟩
  · refine .inl ⟨by simp, _, rfl, ?_⟩
    split_ifs with hgt
    · have hle := Ordering.isLE_of_eq_lt (Std.OrientedCmp.lt_of_gt hgt)
      exact ⟨.swap .., by simpa [Ordered] using hle⟩
    · exact ⟨.rfl, by simpa [Ordered] using Ordering.isLE_iff_ne_gt.2 hgt⟩
  · exact .inr ⟨by simp, rfl⟩

/-- If each level sorts with the next one, and the last sort is one, all of them do. -/
theorem sorts_qsortLevels {last : List α → Option (List α)}
    {step : ℕ → ArraySort α σ → ArraySort α σ}
    (hlast : ∀ inn, 3 ≤ inn.length → ∃ out, last inn = some out ∧ out.Perm inn ∧ Ordered cmp out)
    (hstep : ∀ levels qsort, Sorts cmp qsort → ∀ s inn left, 3 ≤ inn.length →
      left.length = inn.length → SortsTo cmp inn (step levels qsort s inn left)) (levels : ℕ) :
    Sorts cmp (qsortLevels cmp last step levels) := by
  induction levels with
  | zero =>
    intro s inn left hlen
    rw [qsortLevels]
    rcases sortFew_spec cmp inn with ⟨-, out, hf, hout⟩ | ⟨hmany, hf⟩
    · exact ⟨out, left, s, by simp [hf], hout.1, hout.2, hlen⟩
    · obtain ⟨out, hb, hout⟩ := hlast inn hmany
      exact ⟨out, left, s, by simp [hf, hb], hout.1, hout.2, hlen⟩
  | succ levels ih =>
    intro s inn left hlen
    rw [qsortLevels]
    rcases sortFew_spec cmp inn with ⟨-, out, hf, hout⟩ | ⟨hmany, hf⟩
    · exact ⟨out, left, s, by simp [hf], hout.1, hout.2, hlen⟩
    · simpa only [hf] using hstep levels _ ih s inn left hmany hlen

variable (cmp) in
/-- A pass leaves the greatest of the elements it goes over behind them. -/
theorem bubble_spec {m : ℕ} {xs : List α} (back : List α) (hm : xs.length = m + 1) :
    ∃ ys z, bubble cmp m (xs ++ back) = some (ys ++ z :: back) ∧ (ys ++ [z]).Perm xs ∧
      ∀ y ∈ ys, (cmp y z).isLE := by
  induction m generalizing xs with
  | zero =>
    obtain ⟨z, rfl⟩ := List.length_eq_one_iff.1 hm
    exact ⟨[], z, rfl, .rfl, by simp⟩
  | succ m ih =>
    obtain ⟨a, xs, rfl⟩ := List.exists_cons_of_length_eq_add_one hm
    obtain ⟨b, xs, rfl⟩ := List.exists_cons_of_length_eq_add_one (Nat.succ.inj hm)
    -- the greater one of the first two, `c`, goes on
    have hstep (c d : α) (hdc : (cmp d c).isLE) :
        ∃ ys z, (bubble cmp m (c :: (xs ++ back))).map (d :: ·) = some (ys ++ z :: back) ∧
          (ys ++ [z]).Perm (d :: c :: xs) ∧ ∀ y ∈ ys, (cmp y z).isLE := by
      obtain ⟨ys, z, heq, hperm, hle⟩ := ih (show (c :: xs).length = m + 1 by simpa using hm)
      have hcz : (cmp c z).isLE := by
        rcases List.mem_append.1 (hperm.mem_iff.2 (List.mem_cons_self ..)) with hc | hc
        · exact hle c hc
        · exact List.mem_singleton.1 hc ▸ Std.ReflCmp.isLE_rfl
      refine ⟨d :: ys, z, by rw [← List.cons_append, heq]; rfl, hperm.cons d, ?_⟩
      exact List.forall_mem_cons.2 ⟨Std.TransCmp.isLE_trans hdc hcz, hle⟩
    simp only [List.cons_append, bubble]
    split_ifs with hgt
    · obtain ⟨ys, z, heq, hperm, hle⟩ :=
        hstep a b (Ordering.isLE_of_eq_lt (Std.OrientedCmp.lt_of_gt hgt))
      exact ⟨ys, z, heq, hperm.trans (.swap ..), hle⟩
    · exact hstep b a (Ordering.isLE_iff_ne_gt.2 hgt)

/-- What is behind the elements that are still to be sorted is in order and not less. -/
theorem bubbleLoop_spec {m : ℕ} {xs back : List α} (hm : xs.length = m + 1)
    (hback : Ordered cmp back) (hle : ∀ x ∈ xs, ∀ b ∈ back, (cmp x b).isLE) :
    ∃ out, bubbleLoop cmp m (xs ++ back) = some out ∧ out.Perm (xs ++ back) ∧
      Ordered cmp out := by
  induction m generalizing xs back with
  | zero =>
    obtain ⟨z, rfl⟩ := List.length_eq_one_iff.1 hm
    exact ⟨_, rfl, .rfl, List.pairwise_cons.2 ⟨by simpa using hle, hback⟩⟩
  | succ m ih =>
    obtain ⟨ys, z, heq, hperm, hz⟩ := bubble_spec cmp back hm
    have hmem (x : α) (hx : x ∈ ys ++ [z]) : ∀ b ∈ back, (cmp x b).isLE :=
      hle x (hperm.mem_iff.1 hx)
    have hys : ys.length = m + 1 := by simpa [hm] using hperm.length_eq
    have hback' : Ordered cmp (z :: back) := List.pairwise_cons.2 ⟨hmem z (by simp), hback⟩
    obtain ⟨out, hout, hp, ho⟩ := ih hys hback' fun x hx =>
      List.forall_mem_cons.2 ⟨hz x hx, hmem x (by simp [hx])⟩
    refine ⟨out, by rw [bubbleLoop, heq]; exact hout, hp.trans ?_, ho⟩
    simpa using hperm.append_right back

theorem bubbleSort_spec (xs : List α) (h : 3 ≤ xs.length) :
    ∃ out, bubbleSort cmp xs = some out ∧ out.Perm xs ∧ Ordered cmp out := by
  have hlen : xs.length = xs.length - 1 + 1 := by omega
  have hnil : Ordered cmp [] := .nil
  simpa [bubbleSort] using bubbleLoop_spec hlen hnil (by simp)

end Sorts

end Virtuoso.Lib
