import Virtuoso.Lib.QuickSort

/-!
# `vtb_qsort`

A copy of the quicksort for pairs of a word and its data.  Beyond a depth of 60 it returns at once.
What it leaves is in order if and only if the calls it returns from like that got their pairs in
order (`vtbQsort_sorts_iff`).
-/

universe u

namespace Virtuoso.Sort

open Lib

variable {ω δ : Type u}

/-- The order of the words. -/
def byWord (cmp : ω → ω → Ordering) (a b : ω × Option δ) : Ordering := cmp a.1 b.1

/-- Where `vtb_qsort` puts a pair.  The data of the pair set aside may be `NULL`. -/
def vtbChoose (cmp : ω → ω → Ordering) (split : ω) (midBuf : Option δ) (_ : ℕ)
    (x : ω × Option δ) : Option Bool × Option δ :=
  let rc := cmp x.1 split
  if midBuf = none ∧ rc = .eq then (none, x.2) else (some (rc = .lt), midBuf)

/-- A level of `vtb_qsort`; a slot of the arrays is a pair. -/
def vtbStep (cmp : ω → ω → Ordering) (_ : ℕ) (qsort : ArraySort (ω × Option δ) PUnit) :
    ArraySort (ω × Option δ) PUnit := fun s inn left => do
  let (split, _) ← inn[inn.length / 2]?
  let (midBuf, ls, rs) ← partition (vtbChoose cmp split) left.length none 0 inn [] []
  sortHalves qsort (ls.length + 1) (split, midBuf) ls rs s inn left

/-- `vtb_qsort`. -/
def vtbQsort (cmp : ω → ω → Ordering) (depth : ℕ) : ArraySort (ω × Option δ) PUnit :=
  qsortLevels (byWord cmp) some (vtbStep cmp) (61 - depth)

/-- The pairs whose words compare with the word of `mid` as `o` says. -/
def beside (cmp : ω → ω → Ordering) (mid : ω × Option δ) (o : Ordering) :
    List (ω × Option δ) → List (ω × Option δ) :=
  List.filter fun x => byWord cmp x mid = o

/-- After as many levels less than three pairs are left together, or pairs that are in order.  At
each level the pairs are parted in those below the middle one and those above it, which are put
down from the end. -/
def InOrderAt (cmp : ω → ω → Ordering) : ℕ → List (ω × Option δ) → Prop
  | 0, xs => xs.length < 3 ∨ Ordered (byWord cmp) xs
  | levels + 1, xs => xs.length < 3 ∨ ∀ mid ∈ xs[xs.length / 2]?,
      InOrderAt cmp levels (beside cmp mid .lt xs) ∧
        InOrderAt cmp levels (beside cmp mid .gt xs).reverse

/-- The words are different. -/
def Distinct (cmp : ω → ω → Ordering) : List (ω × Option δ) → Prop :=
  List.Pairwise fun a b => byWord cmp a b ≠ .eq

instance {cmp : ω → ω → Ordering} [Std.TransCmp cmp] :
    Std.TransCmp (byWord cmp : ω × Option δ → ω × Option δ → Ordering) where
  eq_swap {a b} := @Std.OrientedCmp.eq_swap ω cmp _ a.1 b.1
  isLE_trans {a b c} := @Std.TransCmp.isLE_trans ω cmp _ a.1 b.1 c.1

variable {cmp : ω → ω → Ordering} {xs ls rs : List (ω × Option δ)} {mid : ω × Option δ}

theorem beside_perm (hne : ∀ x ∈ xs, byWord cmp x mid ≠ .eq) :
    (beside cmp mid .lt xs ++ beside cmp mid .gt xs).Perm xs := by
  have hgt : beside cmp mid .gt xs = xs.filter fun x => !decide (byWord cmp x mid = .lt) := by
    refine List.filter_congr fun x hx => ?_
    have := hne x hx
    cases hc : byWord cmp x mid <;> simp_all
  rw [hgt]
  exact List.filter_append_perm _ xs

/-- Pairs with other words go to the two ends. -/
theorem partition_append {ys : List (ω × Option δ)} {room inx : ℕ} (midBuf : Option δ)
    (hne : ∀ x ∈ xs, byWord cmp x mid ≠ .eq) (hroom : ls.length + rs.length + xs.length ≤ room) :
    partition (vtbChoose cmp mid.1) room midBuf inx (xs ++ ys) ls rs =
      partition (vtbChoose cmp mid.1) room midBuf (inx + xs.length) ys (ls ++ beside cmp mid .lt xs)
        ((beside cmp mid .gt xs).reverse ++ rs) := by
  induction xs generalizing inx ls rs with
  | nil => simp [beside]
  | cons x xs ih =>
    obtain ⟨hx, hxs⟩ := List.forall_mem_cons.1 hne
    rw [List.length_cons, ← Nat.add_assoc] at hroom
    have hlt : ls.length + rs.length < room := by omega
    have hinx : inx + (xs.length + 1) = inx + 1 + xs.length := by omega
    rw [List.length_cons, hinx]
    rcases hc : cmp x.1 mid.1 with _ | _ | _
    · have hrest := @ih (ls ++ [x]) rs (inx + 1) hxs (by simp; omega)
      simpa [partition, vtbChoose, hc, hlt, beside, byWord] using hrest
    · exact absurd hc hx
    · have hrest := @ih ls (x :: rs) (inx + 1) hxs (by simp; omega)
      simpa [partition, vtbChoose, hc, hlt, beside, byWord] using hrest

theorem Distinct.beside (h : Distinct cmp xs) (mid : ω × Option δ) (o : Ordering) :
    Distinct cmp (Sort.beside cmp mid o xs) :=
  h.filter _

theorem Distinct.reverse [Std.TransCmp cmp] (h : Distinct cmp xs) : Distinct cmp xs.reverse :=
  List.pairwise_reverse.2 (h.imp fun hne he => hne (Std.OrientedCmp.eq_symm he))

/-- The pairs are parted around the middle one. -/
theorem Distinct.parts [Std.TransCmp cmp] (h : Distinct cmp xs) (hmid : mid ∈ xs) :
    PartsAt (byWord cmp) xs mid (Sort.beside cmp mid .lt xs) (Sort.beside cmp mid .gt xs).reverse ∧
      partition (vtbChoose cmp mid.1) xs.length none 0 xs [] [] =
        some (mid.2, Sort.beside cmp mid .lt xs, (Sort.beside cmp mid .gt xs).reverse) := by
  obtain ⟨as, bs, rfl⟩ := List.append_of_mem hmid
  obtain ⟨-, hbs, hcross⟩ := List.pairwise_append.1 h
  have has : ∀ x ∈ as, byWord cmp x mid ≠ .eq := fun x hx => hcross x hx mid (by simp)
  have hbs : ∀ x ∈ bs, byWord cmp x mid ≠ .eq := fun x hx he =>
    (List.pairwise_cons.1 hbs).1 x hx (Std.OrientedCmp.eq_symm he)
  have hself : byWord cmp mid mid = .eq := Std.ReflCmp.compare_self
  have hsplit (o : Ordering) (ho : .eq ≠ o) : Sort.beside cmp mid o (as ++ mid :: bs) =
      Sort.beside cmp mid o (as ++ bs) := by
    simp [Sort.beside, hself, ho]
  rw [hsplit _ (by simp), hsplit _ (by simp)]
  refine ⟨⟨?_, fun x hx => ?_, fun x hx => ?_⟩, ?_⟩
  · have hperm := beside_perm fun x hx => (List.mem_append.1 hx).elim (has x) (hbs x)
    exact .trans (.cons _ ((List.Perm.append_left _ (List.reverse_perm _)).trans hperm))
      List.perm_middle.symm
  · rw [of_decide_eq_true (List.mem_filter.1 hx).2]
    rfl
  · have hgt := of_decide_eq_true (List.mem_filter.1 (List.mem_reverse.1 hx)).2
    rw [Std.OrientedCmp.lt_of_gt hgt]
    rfl
  · have hlen := (beside_perm has).length_eq
    rw [List.length_append] at hlen
    rw [partition_append none has (by simp), partition, vtbChoose]
    simp only [show cmp mid.1 mid.1 = .eq from hself, and_self, if_true]
    rw [← List.append_nil bs, partition_append mid.2 hbs (by simp; omega)]
    simp [partition, Sort.beside]

theorem qsortLevels_spec [Std.TransCmp cmp] (levels : ℕ) {inn left : List (ω × Option δ)}
    (h : Distinct cmp inn) (hlen : left.length = inn.length) (s : PUnit) :
    ∃ out left' s', qsortLevels (byWord cmp) some (vtbStep cmp) levels s inn left =
        some (out, left', s') ∧ out.Perm inn ∧ left'.length = inn.length ∧
      (Ordered (byWord cmp) out ↔ InOrderAt cmp levels inn) := by
  induction levels generalizing inn left s with
  | zero =>
    rw [qsortLevels, InOrderAt]
    rcases sortFew_spec (byWord cmp) inn with ⟨hfew, out, hf, hout⟩ | ⟨hmany, hf⟩
    · exact ⟨out, left, s, by simp [hf], hout.1, hlen, by simp [hout.2, hfew]⟩
    · exact ⟨inn, left, s, by simp [hf], .rfl, hlen, by simp [Nat.not_lt.2 hmany]⟩
  | succ levels ih =>
    rw [qsortLevels, InOrderAt]
    rcases sortFew_spec (byWord cmp) inn with ⟨hfew, out, hf, hout⟩ | ⟨hmany, hf⟩
    · exact ⟨out, left, s, by simp [hf], hout.1, hlen, by simp [hout.2, hfew]⟩
    · have hlt : inn.length / 2 < inn.length := by omega
      obtain ⟨hp, hpart⟩ := h.parts (List.getElem_mem hlt)
      simp only [hf, vtbStep, List.getElem?_eq_getElem hlt, Option.bind_eq_bind, Option.bind_some,
        hlen, hpart, Option.mem_some_iff, forall_eq', Nat.not_lt.2 hmany, false_or]
      generalize inn[inn.length / 2] = mid at *
      obtain ⟨hlen₁, hlen₂, -⟩ := hp.length_eq
      obtain ⟨l₁, i₁, s₁, h₁, hp₁, -, ho₁⟩ := ih (h.beside mid .lt) hlen₁ s
      obtain ⟨l₂, i₂, s₂, h₂, hp₂, -, ho₂⟩ := ih (h.beside mid .gt).reverse hlen₂ s₁
      obtain ⟨left', heq, hperm, hleft⟩ := hp.copy hlen h₁ hp₁ h₂ hp₂
      exact ⟨_, left', s₂, heq, hperm, hleft, by rw [hp.ordered_iff hp₁ hp₂, ho₁, ho₂]⟩

/-- When the batch comes out sorted. -/
theorem vtbQsort_sorts_iff [Std.TransCmp cmp] {inn left : List (ω × Option δ)}
    (h : Distinct cmp inn) (hlen : left.length = inn.length) :
    (∃ out left' s', vtbQsort cmp 1 ⟨⟩ inn left = some (out, left', s') ∧ out.Perm inn ∧
      Ordered (byWord cmp) out) ↔ InOrderAt cmp 60 inn := by
  obtain ⟨out, left', s', heq, hperm, -, ho⟩ := qsortLevels_spec 60 h hlen ⟨⟩
  rw [← ho, vtbQsort, heq]
  constructor
  · rintro ⟨_, _, _, ⟨⟩, -, hord⟩
    exact hord
  · exact fun hord => ⟨out, left', s', rfl, hperm, hord⟩

theorem vtbQsort_sorts_three : ∃ out left' s',
    vtbQsort compare 1 ⟨⟩ [(2, some 7), (0, none), (1, some 8)] [(0, none), (0, none), (0, none)] =
        some (out, left', s') ∧
      out.Perm [(2, some 7), (0, none), (1, some 8)] ∧ Ordered (byWord compare) out := by
  have h : Distinct compare [(2, some 7), (0, none), (1, some 8)] := by simp [Distinct, byWord]
  have hlen : [(0, none), (0, none), (0, none)].length =
      [(2, some 7), (0, none), (1, some 8)].length := rfl
  refine (vtbQsort_sorts_iff h hlen).2 (.inr fun mid hmid => ?_)
  obtain rfl : (0, none) = mid := Option.some.inj hmid
  -- less than three are left on both sides
  constructor
  · rw [InOrderAt]
    exact .inl (by decide)
  · rw [InOrderAt]
    exact .inl (by decide)

/-- Words whose middle one is the last but for those set aside before. -/
def oneSided : List (ℕ × Option ℕ) :=
  (List.range' 3 60).foldl (fun xs w => xs.insertIdx ((xs.length + 1) / 2) (w, none))
    [(2, none), (1, none), (0, none)]

/-- Of 63 words the first three are left as they were. -/
theorem vtbQsort_gives_up : Distinct compare oneSided ∧
    (vtbQsort compare 1 ⟨⟩ oneSided oneSided).map Prod.fst =
      some (([2, 1, 0] ++ List.range' 3 60).map (·, none)) ∧
    ¬ Ordered (byWord compare) (([2, 1, 0] ++ List.range' 3 60).map (·, (none : Option ℕ))) := by
  refine ⟨?_, by decide +kernel, ?_⟩
  · unfold Distinct
    decide +kernel
  · unfold Ordered
    decide +kernel

/-- Also where it gives up, the batch keeps its pairs. -/
theorem vtbQsort_perm [Std.TransCmp cmp] (h : Distinct cmp xs) (hlen : ls.length = xs.length)
    (depth : ℕ) : ∃ out r, vtbQsort cmp depth ⟨⟩ xs ls = some (out, r) ∧ out.Perm xs := by
  obtain ⟨out, left', s', heq, hperm, -⟩ := qsortLevels_spec (61 - depth) h hlen ⟨⟩
  exact ⟨out, (left', s'), heq, hperm⟩

theorem vtbQsort_perm_oneSided :
    ∃ out r, vtbQsort compare 1 ⟨⟩ oneSided oneSided = some (out, r) ∧ out.Perm oneSided :=
  vtbQsort_perm (by unfold Distinct; decide +kernel) rfl 1

end Virtuoso.Sort
