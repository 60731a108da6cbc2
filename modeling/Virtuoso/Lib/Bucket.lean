import Mathlib.Algebra.Order.BigOperators.Group.Finset
import Mathlib.Algebra.BigOperators.Intervals
import Virtuoso.Lib.Fold

/-!
# Stable bucket placement

The three passes of a counting sort over functional arrays: `countInto` counts
the members of each bucket one position up, `prefixSums` turns the counts into
the first slot of each bucket, and `place` writes every element at the cursor of
its bucket.  The slots of a bucket then hold its members in their order
(`place_spec`).
-/

universe u v

namespace Virtuoso.Lib

open Function

variable {α : Type u} {β : Type v} {f : α → ℕ} {xs : List α}

/-- The members of bucket `k`, in their order. -/
def bucket (f : α → ℕ) (xs : List α) (k : ℕ) : List α := xs.filter fun x => f x = k

/-- The first slot of bucket `k`: the number of elements of the buckets below. -/
def bucketStart (f : α → ℕ) (xs : List α) (k : ℕ) : ℕ := xs.countP fun x => f x < k

/-- Count each element at the position after its bucket. -/
def countInto (f : α → ℕ) (xs : List α) (off : ℕ → ℕ) : ℕ → ℕ :=
  xs.foldl (fun off x => Function.update off (f x + 1) (off (f x + 1) + 1)) off

/-- Add to each of the first `n` successors the entry before it. -/
def prefixSums (n : ℕ) (off : ℕ → ℕ) : ℕ → ℕ :=
  (List.range n).foldl (fun off i => Function.update off (i + 1) (off (i + 1) + off i)) off

/-- Write each element at the cursor of its bucket, which moves on. -/
def place (f : α → ℕ) (g : α → β) (xs : List α) (s : (ℕ → ℕ) × (ℕ → β)) :
    (ℕ → ℕ) × (ℕ → β) :=
  xs.foldl
    (fun s x =>
      (Function.update s.1 (f x) (s.1 (f x) + 1), Function.update s.2 (s.1 (f x)) (g x)))
    s

@[simp] theorem bucketStart_zero : bucketStart f xs 0 = 0 := by
  simp [bucketStart]

theorem bucketStart_succ (f : α → ℕ) (xs : List α) (k : ℕ) :
    bucketStart f xs (k + 1) = bucketStart f xs k + (bucket f xs k).length := by
  simp only [bucketStart, bucket, ← List.countP_eq_length_filter]
  induction xs with
  | nil => rfl
  | cons x xs ih =>
    simp only [List.countP_cons, ih, decide_eq_true_eq]
    split_ifs <;> omega

variable {j k n : ℕ} {s : (ℕ → ℕ) × (ℕ → β)} {g : α → β} {x : α}

theorem bucketStart_mono (f : α → ℕ) (xs : List α) (h : j ≤ k) :
    bucketStart f xs j ≤ bucketStart f xs k := by
  induction k, h using Nat.le_induction with
  | base => exact le_rfl
  | succ k _ ih => exact ih.trans (bucketStart_succ f xs k ▸ Nat.le_add_right _ _)

/-- Above all buckets there is nothing left. -/
theorem bucketStart_eq_length (h : ∀ x ∈ xs, f x < n) : bucketStart f xs n = xs.length := by
  simpa [bucketStart, List.countP_eq_length] using h

/-- Every slot belongs to a bucket. -/
theorem exists_bucket_of_lt {at' : ℕ} (h : at' < bucketStart f xs n) :
    ∃ k < n, ∃ i < (bucket f xs k).length, at' = bucketStart f xs k + i := by
  induction n with
  | zero => simp at h
  | succ n ih =>
    rcases Nat.lt_or_ge at' (bucketStart f xs n) with hlt | hge
    · obtain ⟨k, hk, h⟩ := ih hlt
      exact ⟨k, hk.trans (Nat.lt_succ_self n), h⟩
    · rw [bucketStart_succ] at h
      exact ⟨n, Nat.lt_succ_self n, at' - bucketStart f xs n, by omega, by omega⟩

theorem length_flatMap_bucket (f : α → ℕ) (xs : List α) (n : ℕ) :
    ((List.range n).flatMap (bucket f xs)).length = bucketStart f xs n := by
  induction n with
  | zero => simp
  | succ n ih =>
    rw [List.range_succ, List.flatMap_append, List.length_append, ih, bucketStart_succ]
    simp

/-- The buckets one after the other, slot by slot. -/
theorem getElem?_flatMap_bucket {i : ℕ} (hk : k < n) (hi : i < (bucket f xs k).length) :
    ((List.range n).flatMap (bucket f xs))[bucketStart f xs k + i]? = (bucket f xs k)[i]? := by
  induction n with
  | zero => exact absurd hk (Nat.not_lt_zero k)
  | succ n ih =>
    rw [List.range_succ, List.flatMap_append, List.flatMap_singleton]
    have hlen := length_flatMap_bucket f xs n
    rcases (Nat.lt_succ_iff.1 hk).lt_or_eq with hlt | rfl
    · have := bucketStart_mono f xs (Nat.succ_le_of_lt hlt)
      rw [bucketStart_succ] at this
      rw [List.getElem?_append_left (by omega), ih hlt]
    · rw [List.getElem?_append_right (by omega), hlen, Nat.add_sub_cancel_left]

/-- The buckets hold every element once. -/
theorem perm_flatMap_bucket [DecidableEq α] (h : ∀ x ∈ xs, f x < n) :
    ((List.range n).flatMap (bucket f xs)).Perm xs := by
  rw [List.perm_iff_count]
  intro a
  have hcount (k : ℕ) : (bucket f xs k).count a = if f a = k then xs.count a else 0 := by
    split_ifs with hk
    · rw [bucket, List.count_filter (by simpa using hk)]
    · exact List.count_eq_zero.2 fun ha => hk (by simpa using (List.mem_filter.1 ha).2)
  have hsum : ((List.range n).flatMap (bucket f xs)).count a =
      ∑ k ∈ Finset.range n, if f a = k then xs.count a else 0 := by
    rw [List.count_flatMap, funext (f := List.count a ∘ bucket f xs) hcount]
    rfl
  rw [hsum, Finset.sum_ite_eq, ite_eq_left_iff, Finset.mem_range]
  intro ha
  exact (List.count_eq_zero.2 fun hmem => ha (h a hmem)).symm

theorem bucket_map {γ : Type*} (f : α → ℕ) (φ : γ → α) (xs : List γ) (k : ℕ) :
    bucket f (xs.map φ) k = (bucket (f ∘ φ) xs k).map φ := by
  simp only [bucket, List.filter_map]
  rfl

theorem bucketStart_map {γ : Type*} (f : α → ℕ) (φ : γ → α) (xs : List γ) (k : ℕ) :
    bucketStart f (xs.map φ) k = bucketStart (f ∘ φ) xs k := by
  simp only [bucketStart, List.countP_map]
  rfl

theorem bucket_congr {g : α → ℕ} (h : ∀ x ∈ xs, f x = g x) (k : ℕ) :
    bucket f xs k = bucket g xs k :=
  List.filter_congr fun x hx => by rw [h x hx]

theorem bucketStart_congr {g : α → ℕ} (h : ∀ x ∈ xs, f x = g x) (k : ℕ) :
    bucketStart f xs k = bucketStart g xs k :=
  List.countP_congr fun x hx => by rw [h x hx]

theorem countInto_succ (f : α → ℕ) (xs : List α) (off : ℕ → ℕ) (k : ℕ) :
    countInto f xs off (k + 1) = off (k + 1) + (bucket f xs k).length := by
  induction xs generalizing off with
  | nil => rfl
  | cons x xs ih =>
    rw [countInto, List.foldl_cons, ← countInto, ih]
    by_cases h : f x = k
    · subst h
      simp [bucket]
      omega
    · rw [update_of_ne fun hk => h (Nat.succ.inj hk).symm]
      simp [bucket, h]

theorem countInto_zero (f : α → ℕ) (xs : List α) (off : ℕ → ℕ) : countInto f xs off 0 = off 0 := by
  induction xs generalizing off with
  | nil => rfl
  | cons x xs ih =>
    rw [countInto, List.foldl_cons, ← countInto, ih]
    simp

theorem prefixSums_apply (n : ℕ) (off : ℕ → ℕ) (j : ℕ) :
    prefixSums n off j = if j ≤ n then ∑ i ∈ Finset.range (j + 1), off i else off j := by
  induction n generalizing j with
  | zero =>
    rcases Nat.eq_zero_or_pos j with rfl | hj
    · simp [prefixSums]
    · simp [prefixSums, hj.ne']
  | succ n ih =>
    have hstep : prefixSums (n + 1) off =
        update (prefixSums n off) (n + 1)
          (prefixSums n off (n + 1) + prefixSums n off n) := by
      simp [prefixSums, List.range_succ]
    rw [hstep]
    rcases Nat.lt_trichotomy j (n + 1) with hj | rfl | hj
    · rw [update_of_ne (by omega), ih, if_pos (by omega), if_pos (by omega)]
    · rw [update_self, ih, ih, if_neg (by omega), if_pos le_rfl, if_pos le_rfl,
        Finset.sum_range_succ _ (n + 1), add_comm]
    · rw [update_of_ne (by omega), ih, if_neg (by omega), if_neg (by omega)]

/-- Counting and summing from cleared entries gives the first slot of each bucket. -/
theorem prefixSums_countInto {off : ℕ → ℕ} (hoff : ∀ i ≤ n, off i = 0) (hj : j ≤ n) :
    prefixSums n (countInto f xs off) j = bucketStart f xs j := by
  rw [prefixSums_apply, if_pos hj]
  induction j with
  | zero => simp [countInto_zero, hoff]
  | succ j ih =>
    rw [Finset.sum_range_succ, ih (by omega), countInto_succ, hoff _ hj, bucketStart_succ]
    omega

/-- What holds while the elements are placed: each cursor has passed the members of
its bucket so far, and the slots that it has passed hold them. -/
structure Placing (f : α → ℕ) (g : α → β) (n : ℕ) (start : ℕ → ℕ) (done : List α)
    (s : (ℕ → ℕ) × (ℕ → β)) : Prop where
  cursor : ∀ k < n, s.1 k = start k + (bucket f done k).length
  slot : ∀ k < n, ∀ i y, (bucket f done k)[i]? = some y → s.2 (start k + i) = g y

theorem bucket_append_singleton (f : α → ℕ) (done : List α) (x : α) (k : ℕ) :
    bucket f (done ++ [x]) k = if f x = k then bucket f done k ++ [x] else bucket f done k := by
  simp only [bucket, List.filter_append]
  split_ifs with h <;> simp [h]

/-- One more element is placed in a slot that no other element takes. -/
theorem Placing.step {done rest : List α} (hxs : xs = done ++ x :: rest) (hx : f x < n)
    (h : Placing f g n (bucketStart f xs) done s) :
    Placing f g n (bucketStart f xs) (done ++ [x])
      (update s.1 (f x) (s.1 (f x) + 1), update s.2 (s.1 (f x)) (g x)) := by
  -- the members of a bucket among `done` leave room for those that follow
  have hroom (k : ℕ) (l : List α) (hl : ∃ l', xs = l ++ l') :
      (bucket f l k).length ≤ (bucket f xs k).length := by
    obtain ⟨l', rfl⟩ := hl
    exact (List.Sublist.filter _ (List.sublist_append_left l l')).length_le
  refine ⟨fun k hk => ?_, fun k hk i y hy => ?_⟩
  · dsimp only
    by_cases hkx : k = f x
    · subst hkx
      rw [update_self, h.cursor _ hk, bucket_append_singleton, if_pos rfl]
      simp [add_assoc]
    · rw [update_of_ne hkx, h.cursor _ hk, bucket_append_singleton, if_neg (Ne.symm hkx)]
  · dsimp only
    rw [bucket_append_singleton] at hy
    rw [h.cursor _ hx]
    by_cases hkx : f x = k
    · subst hkx
      rw [if_pos rfl] at hy
      rcases Nat.lt_or_ge i (bucket f done (f x)).length with hi | hi
      · rw [List.getElem?_append_left hi] at hy
        rw [update_of_ne (by omega)]
        exact h.slot _ hk i y hy
      · obtain ⟨rfl, hi'⟩ : x = y ∧ i = (bucket f done (f x)).length := by
          rw [List.getElem?_append_right hi, List.getElem?_singleton] at hy
          split_ifs at hy with h0
          exact ⟨Option.some.inj hy, by omega⟩
        rw [hi', update_self]
    · rw [if_neg hkx] at hy
      have hi : i < (bucket f done k).length := (List.getElem?_eq_some_iff.1 hy).1
      have h₁ := hroom k done ⟨_, hxs⟩
      have h₂ := hroom (f x) (done ++ [x]) ⟨rest, by simp [hxs]⟩
      rw [bucket_append_singleton, if_pos rfl, List.length_append, List.length_singleton] at h₂
      have h₃ := bucketStart_succ f xs k
      have h₄ := bucketStart_succ f xs (f x)
      have hne : bucketStart f xs k + i ≠ bucketStart f xs (f x) +
        (bucket f done (f x)).length := by
        rcases Nat.lt_or_gt_of_ne hkx with hlt | hlt
        · have : bucketStart f xs (f x + 1) ≤ bucketStart f xs k := bucketStart_mono f xs hlt
          omega
        · have : bucketStart f xs (k + 1) ≤ bucketStart f xs (f x) := bucketStart_mono f xs hlt
          omega
      rw [update_of_ne hne]
      exact h.slot _ hk i y hy

/-- The slots of a bucket hold its members in their order. -/
theorem place_spec (hn : ∀ x ∈ xs, f x < n) (hs : ∀ k < n, s.1 k = bucketStart f xs k) {i : ℕ}
    {y : α} (hk : k < n) (hy : (bucket f xs k)[i]? = some y) :
    (place f g xs s).2 (bucketStart f xs k + i) = g y := by
  obtain ⟨done, hdone, h⟩ :
      ∃ done, xs = done ++ [] ∧ Placing f g n (bucketStart f xs) done (place f g xs s) := by
    apply foldl_inv (I := fun rest s =>
      ∃ done, xs = done ++ rest ∧ Placing f g n (bucketStart f xs) done s)
    · rintro x rest s ⟨done, hxs, h⟩
      exact ⟨done ++ [x], by simp [hxs], h.step hxs (hn x (by simp [hxs]))⟩
    · exact ⟨[], rfl, fun k hk => by simp [bucket, hs k hk],
        fun k hk i y hy => by simp [bucket] at hy⟩
  rw [List.append_nil] at hdone
  exact h.slot k hk i y (hdone ▸ hy)

/-! ## Elements that come by ascending buckets -/

/-- In an ascending list every bucket is a contiguous part. -/
theorem bucket_of_getElem? (hf : xs.Pairwise fun x y => f x ≤ f y) (hj : xs[j]? = some x) :
    bucketStart f xs (f x) ≤ j ∧ (bucket f xs (f x))[j - bucketStart f xs (f x)]? = some x := by
  induction xs generalizing j with
  | nil => simp at hj
  | cons y ys ih =>
    obtain ⟨hy, hys⟩ := List.pairwise_cons.1 hf
    have hx : x ∈ y :: ys := List.mem_of_getElem? hj
    have hyx : f y ≤ f x := by
      rcases List.mem_cons.1 hx with rfl | hx
      · exact le_rfl
      · exact hy x hx
    rcases hyx.lt_or_eq with hlt | heq
    · have hb : bucket f (y :: ys) (f x) = bucket f ys (f x) := by simp [bucket, hlt.ne]
      have hs : bucketStart f (y :: ys) (f x) = bucketStart f ys (f x) + 1 := by
        simp [bucketStart, hlt]
      cases j with
      | zero =>
        obtain rfl : y = x := by simpa using hj
        exact absurd hlt (lt_irrefl _)
      | succ j =>
        obtain ⟨h₁, h₂⟩ := ih hys (by simpa using hj)
        rw [hb, hs]
        exact ⟨Nat.succ_le_succ h₁, by simpa using h₂⟩
    · -- nothing comes before the bucket of `y`
      have hs (l : List α) (hl : ∀ z ∈ l, f x ≤ f z) : bucketStart f l (f x) = 0 := by
        simpa [bucketStart, List.countP_eq_zero] using hl
      have hb : bucket f (y :: ys) (f x) = y :: bucket f ys (f x) := by simp [bucket, heq]
      have hys' : ∀ z ∈ ys, f x ≤ f z := fun z hz => heq ▸ hy z hz
      rw [hb, hs _ (by simpa [heq] using hys'), Nat.sub_zero]
      refine ⟨Nat.zero_le j, ?_⟩
      cases j with
      | zero => simpa using hj
      | succ j =>
        have h₂ := (ih hys (by simpa using hj)).2
        rw [hs _ hys', Nat.sub_zero] at h₂
        simpa using h₂

/-- Elements that come by ascending buckets are placed where they stand. -/
theorem place_ascending (hn : ∀ x ∈ xs, f x < n) (hs : ∀ k < n, s.1 k = bucketStart f xs k)
    (hf : xs.Pairwise fun x y => f x ≤ f y) (hj : xs[j]? = some x) :
    (place f g xs s).2 j = g x := by
  obtain ⟨hle, hx⟩ := bucket_of_getElem? hf hj
  have := place_spec (g := g) hn hs (hn x (List.mem_of_getElem? hj)) hx
  rwa [Nat.add_sub_cancel' hle] at this

/-- The slots of bucket `k` are those of its members. -/
theorem mem_slots_iff (hf : xs.Pairwise fun x y => f x ≤ f y) (hj : xs[j]? = some x) :
    bucketStart f xs k ≤ j ∧ j < bucketStart f xs (k + 1) ↔ f x = k := by
  obtain ⟨hle, hx⟩ := bucket_of_getElem? hf hj
  have hlt : j < bucketStart f xs (f x + 1) := by
    have := (List.getElem?_eq_some_iff.1 hx).1
    rw [bucketStart_succ]
    omega
  constructor
  · rintro ⟨h₁, h₂⟩
    rcases Nat.lt_trichotomy (f x) k with h | h | h
    · have : bucketStart f xs (f x + 1) ≤ bucketStart f xs k := bucketStart_mono f xs h
      omega
    · exact h
    · have : bucketStart f xs (k + 1) ≤ bucketStart f xs (f x) := bucketStart_mono f xs h
      omega
  · rintro rfl
    exact ⟨hle, hlt⟩

end Virtuoso.Lib
