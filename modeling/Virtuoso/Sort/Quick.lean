import Virtuoso.Lib.QuickSort

/-!
# `gen_qsort` and `buf_qsort`

Both resort to a bubble sort below a depth of 60.  `gen_qsort` repeats a lopsided partition with a
random pivot and spreads the elements that match it to both sides; `buf_qsort` draws a random pivot
at every fifth level and stops early where all keys are equal.  They sort whatever numbers are
drawn (`genQsort_bufQsort_sort`).
-/

universe u

namespace Virtuoso.Sort

open Lib

variable {α β σ : Type u}

/-- `gen_bsort`. -/
def genBsort (cmp : α → α → Ordering) : List α → Option (List α) := bubbleSort cmp

/-- `buf_bsort`. -/
def bufBsort (key : α → ℕ) : List α → Option (List α) := bubbleSort (compareOn key)

/-- Where `gen_qsort` puts an element: every second one that matches to the left. -/
def genChoose (cmp : α → α → Ordering) (split : α) (mid : Option α) (inx : ℕ) (x : α) :
    Option Bool × Option α :=
  let res := cmp x split
  if mid = none ∧ res = .eq then (none, some x)
  else
    let res := if res = .eq ∧ inx % 2 = 1 then .lt else res
    (some (res = .lt), mid)

/-- A random index below `n`. -/
def rndIndex (rnd : UInt32) (n : ℕ) : ℕ := (rnd &&& 0x7fffffff).toNat % n

/-- The partition of `gen_qsort`, with up to `tries` random pivots after a lopsided one. -/
def resplit (cmp : α → α → Ordering) (sqlbifRnd : σ → UInt32 × σ) (inn : List α) (room : ℕ) :
    ℕ → σ → α → Option ((Option α × List α × List α) × σ)
  | 0, s, split => (partition (genChoose cmp split) room none 0 inn [] []).map (·, s)
  | tries + 1, s, split => do
    let (mid, ls, rs) ← partition (genChoose cmp split) room none 0 inn [] []
    let nLeft := ls.length
    let nIn := inn.length
    if mid ≠ none ∧ nIn > 20 ∧ (nLeft < nIn / 16 ∨ nIn - nLeft < nIn / 16) then
      let (rnd, s) := sqlbifRnd s
      let split ← inn[rndIndex rnd nIn]?
      resplit cmp sqlbifRnd inn room tries s split
    else some ((mid, ls, rs), s)

/-- A level of `gen_qsort`. -/
def genStep (cmp : α → α → Ordering) (sqlbifRnd : σ → UInt32 × σ) (_ : ℕ)
    (qsort : ArraySort α σ) : ArraySort α σ := fun s inn left => do
  let split ← inn[inn.length / 2]?
  let ((mid, ls, rs), s) ← resplit cmp sqlbifRnd inn left.length 3 s split
  match mid with
  | none => some (inn, left, s)
  | some mid => sortHalves qsort (inn.length - rs.length) mid ls rs s inn left

/-- `gen_qsort`; `sqlbifRnd` draws a number with the seed. -/
def genQsort (cmp : α → α → Ordering) (sqlbifRnd : σ → UInt32 × σ) (depth : ℕ) : ArraySort α σ :=
  qsortLevels cmp (genBsort cmp) (genStep cmp sqlbifRnd) (61 - depth)

/-- Where `buf_qsort` puts a buffer.  The state is the first matching one with their number. -/
def bufChoose (key : α → ℕ) (split : ℕ) (mids : Option (α × ℕ)) (_ : ℕ) (x : α) :
    Option Bool × Option (α × ℕ) :=
  if key x = split then
    match mids with
    | none => (none, some (x, 1))
    | some (mid, nMids) => (some true, some (mid, nMids + 1))
  else (some (key x ≤ split), mids)

/-- A level of `buf_qsort`, at the depth `60 - levels`. -/
def bufStep (key : α → ℕ) (sqlbifRnd : σ → UInt32 × σ) (levels : ℕ) (qsort : ArraySort α σ) :
    ArraySort α σ := fun s inn left => do
  let (splitPoint, s) := if (60 - levels) % 5 = 0 then
    (sqlbifRnd s).map (rndIndex · inn.length) id else (inn.length / 2, s)
  let split ← inn[splitPoint]?
  let (mids, ls, rs) ← partition (bufChoose key (key split)) left.length none 0 inn [] []
  match mids with
  | none => some (inn, left, s)
  | some (mid, nMids) =>
    if nMids = inn.length then some (inn, left, s)
    else sortHalves qsort (inn.length - rs.length) mid ls rs s inn left

/-- `buf_qsort`. -/
def bufQsort (key : α → ℕ) (sqlbifRnd : σ → UInt32 × σ) (depth : ℕ) : ArraySort α σ :=
  qsortLevels (compareOn key) (bufBsort key) (bufStep key sqlbifRnd) (61 - depth)

section Gen

variable {cmp : α → α → Ordering} [Std.TransCmp cmp]

variable (cmp) in
theorem fits_genChoose (split : α) (mid : Option α) (inx : ℕ) (x : α) :
    Fits cmp split id mid x (genChoose cmp split mid inx x) := by
  rcases hres : cmp x split with _ | _ | _
  · simp [genChoose, Fits, hres]
  · rcases mid with _ | m
    · simp [genChoose, Fits, hres]
    · by_cases hodd : inx % 2 = 1
      · simp [genChoose, Fits, hres, hodd]
      · simp [genChoose, Fits, hres, hodd, Std.OrientedCmp.eq_symm hres]
  · simp [genChoose, Fits, hres, Std.OrientedCmp.lt_of_gt hres]

variable (cmp) in
/-- In the end one partition of the array counts. -/
theorem resplit_spec (sqlbifRnd : σ → UInt32 × σ) (tries : ℕ) (s : σ) {inn : List α} {split : α}
    (hsplit : split ∈ inn) : ∃ mid ls rs s', PartsAt cmp inn mid ls rs ∧
      resplit cmp sqlbifRnd inn inn.length tries s split = some ((some mid, ls, rs), s') := by
  induction tries generalizing s split with
  | zero =>
    obtain ⟨_, ls, rs, mid, heq, rfl, -, h⟩ :=
      exists_partition (fits_genChoose cmp split) none rfl hsplit
    exact ⟨mid, ls, rs, s, h, by rw [resplit, heq]; rfl⟩
  | succ tries ih =>
    obtain ⟨_, ls, rs, mid, heq, rfl, -, h⟩ :=
      exists_partition (fits_genChoose cmp split) none rfl hsplit
    rw [resplit, heq]
    simp only [Option.bind_eq_bind, Option.bind_some]
    split_ifs
    · have hlt : rndIndex (sqlbifRnd s).1 inn.length < inn.length :=
        Nat.mod_lt _ (List.length_pos_of_mem hsplit)
      rw [List.getElem?_eq_getElem hlt]
      exact ih _ (List.getElem_mem hlt)
    · exact ⟨mid, ls, rs, s, h, rfl⟩

variable (cmp) in
theorem sorts_genQsort (sqlbifRnd : σ → UInt32 × σ) (depth : ℕ) :
    Sorts cmp (genQsort cmp sqlbifRnd depth) := by
  refine sorts_qsortLevels bubbleSort_spec (fun _ qsort hq s inn left hpos hlen => ?_) _
  have hlt : inn.length / 2 < inn.length := by omega
  obtain ⟨mid, ls, rs, s', h, heq⟩ :=
    resplit_spec cmp sqlbifRnd 3 s (List.getElem_mem hlt)
  simp only [genStep, List.getElem?_eq_getElem hlt, hlen, heq, Option.bind_eq_bind,
    Option.bind_some]
  exact hq.halves s' h hlen

end Gen

section Buf

variable {key : α → ℕ}

variable (key) in
theorem fits_bufChoose (b : α) (mids : Option (α × ℕ)) (inx : ℕ) (x : α) :
    Fits (compareOn key) b (·.map Prod.fst) mids x (bufChoose key (key b) mids inx x) := by
  by_cases hk : key x = key b
  · rcases mids with _ | ⟨mid, n⟩ <;> simp [bufChoose, Fits, compareOn, hk]
  · rcases Nat.lt_or_gt_of_ne hk with hlt | hlt
    · simp [bufChoose, Fits, compareOn, hk, Nat.le_of_lt hlt, Nat.isLE_compare]
    · simp [bufChoose, Fits, compareOn, hk, Nat.le_of_lt hlt, Nat.isLE_compare]

/-- The matching buffers are counted. -/
theorem count_bufChoose (split : ℕ) (mids : Option (α × ℕ)) (inx : ℕ) (x : α) (xs : List α) :
    ((bufChoose key split mids inx x).2.map Prod.snd).getD 0 + xs.countP (fun x => key x = split) =
      (mids.map Prod.snd).getD 0 + (x :: xs).countP fun x => key x = split := by
  rcases mids with _ | ⟨mid, n⟩ <;> by_cases hk : key x = split <;>
    simp [bufChoose, hk, Nat.add_assoc, Nat.add_comm]

theorem sorts_bufQsort (sqlbifRnd : σ → UInt32 × σ) (depth : ℕ) :
    Sorts (compareOn key) (bufQsort key sqlbifRnd depth) := by
  refine sorts_qsortLevels bubbleSort_spec (fun levels qsort hq s inn left hpos hlen => ?_) _
  rw [bufStep]
  generalize hp : (if (60 - levels) % 5 = 0 then
    (sqlbifRnd s).map (rndIndex · inn.length) id else (inn.length / 2, s)) = p
  have hlt : p.1 < inn.length := by
    rw [← hp]
    split_ifs
    · exact Nat.mod_lt _ (by omega)
    · omega
  obtain ⟨mids, ls, rs, mid, heq, hm, -, h⟩ := exists_partition (fits_bufChoose key inn[p.1])
    none rfl (List.getElem_mem hlt)
  obtain ⟨⟨_, n⟩, rfl, rfl⟩ := Option.map_eq_some_iff.1 hm
  simp only [List.getElem?_eq_getElem hlt, hlen, heq, Option.bind_eq_bind, Option.bind_some]
  split_ifs with hn
  · -- all keys are equal
    have hcount := partition_state (P := fun mids xs => (mids.map Prod.snd).getD 0 +
      xs.countP (fun x => key x = key inn[p.1]) = inn.countP fun x => key x = key inn[p.1])
      (fun st inx x xs h => (count_bufChoose _ st inx x xs).trans h) heq (by simp)
    have hall := List.countP_eq_length.1 (hcount.symm.trans (by simpa using hn))
    refine ⟨inn, left, _, rfl, .rfl, List.pairwise_of_forall_mem_list fun a ha b hb => ?_, hlen⟩
    simp [compareOn, of_decide_eq_true (hall a ha), of_decide_eq_true (hall b hb)]
  · exact hq.halves _ h hlen

end Buf

/-- Both sorts put their array in order, within the two arrays. -/
theorem genQsort_bufQsort_sort (sqlbifRnd : σ → UInt32 × σ) (s : σ) {inn left : List α}
    (hlen : left.length = inn.length) :
    (∀ cmp : α → α → Ordering, Std.TransCmp cmp →
      ∃ out left' s', genQsort cmp sqlbifRnd 0 s inn left = some (out, left', s') ∧
        out.Perm inn ∧ Ordered cmp out) ∧
    ∀ key : α → ℕ, ∃ out left' s', bufQsort key sqlbifRnd 0 s inn left = some (out, left', s') ∧
      out.Perm inn ∧ Ordered (compareOn key) out := by
  refine ⟨fun cmp _ => ?_, fun key => ?_⟩
  · obtain ⟨out, left', s', heq, hperm, hord, -⟩ :=
      sorts_genQsort cmp sqlbifRnd 0 s inn left hlen
    exact ⟨out, left', s', heq, hperm, hord⟩
  · obtain ⟨out, left', s', heq, hperm, hord, -⟩ := sorts_bufQsort sqlbifRnd 0 s inn left hlen
    exact ⟨out, left', s', heq, hperm, hord⟩

theorem genQsort_bufQsort_sort_three :
    (∃ out left' s', genQsort (compare : ℤ → ℤ → Ordering) (fun s : ℕ => (7, s + 1)) 0 0 [3, 1, 2]
      [0, 0, 0] = some (out, left', s') ∧ out.Perm [3, 1, 2] ∧ Ordered compare out) ∧
    ∃ out left' s', bufQsort Int.natAbs (fun s : ℕ => (7, s + 1)) 0 0 [3, 1, 2] [0, 0, 0] =
      some (out, left', s') ∧ out.Perm [3, 1, 2] ∧ Ordered (compareOn Int.natAbs) out :=
  have h := genQsort_bufQsort_sort (fun s : ℕ => (7, s + 1)) 0
    (show [0, 0, 0].length = [(3 : ℤ), 1, 2].length from rfl)
  ⟨h.1 compare inferInstance, h.2 Int.natAbs⟩

end Virtuoso.Sort
