import Mathlib.Tactic.Order

/-!
# Comparing index entries with a search

The comparisons of `search.c`: `itc_compare_spec` compares one column with one
search specification, and `pg_key_compare` and `pg_insert_key_compare` compare
the key of an index entry with a list of them, part by part.

Column comparison is a linear order here.  The order of the index itself is
`keyCmp`: lexicographic, with each part ascending or descending as its flag
says.  The point of this file is that both comparisons are monotone along that
order.
-/

universe u

namespace Virtuoso.Search

variable {r : Dvc} {revs : List Bool}

/-- The results `DVC_LESS`, `DVC_MATCH` and `DVC_GREATER`. -/
inductive Dvc where
  | less
  | matched
  | greater
deriving DecidableEq, Repr

namespace Dvc

/-- Less and greater exchanged, for a descending key part. -/
def reverse : Dvc → Dvc
  | .less => .greater
  | .matched => .matched
  | .greater => .less

/-- A result other than match stands; on a match the next part decides. -/
def next (res rest : Dvc) : Dvc := if res = .matched then rest else res

/-- The place of a result in the order less, match, greater. -/
def rank : Dvc → ℕ
  | .less => 0
  | .matched => 1
  | .greater => 2

theorem rank_injective : Function.Injective rank := fun r r' h => by
  cases r <;> cases r' <;> simp_all [rank]

instance : LinearOrder Dvc := LinearOrder.lift' rank rank_injective

theorem le_iff {r' : Dvc} : r ≤ r' ↔ (r' = .less → r = .less) ∧ (r = .greater → r' = .greater) := by
  cases r <;> cases r' <;> decide

@[simp] theorem less_le (r : Dvc) : .less ≤ r := by cases r <;> decide

@[simp] theorem le_greater (r : Dvc) : r ≤ .greater := by cases r <;> decide

theorem lt_matched : r < .matched ↔ r = .less := by cases r <;> decide

theorem lt_greater : r < .greater ↔ r ≠ .greater := by cases r <;> decide

theorem matched_le : .matched ≤ r ↔ r ≠ .less := by cases r <;> decide

theorem greater_le : .greater ≤ r ↔ r = .greater := by cases r <;> decide

@[simp] theorem next_less (r : Dvc) : Dvc.less.next r = .less := rfl

@[simp] theorem next_matched (r : Dvc) : Dvc.matched.next r = r := rfl

@[simp] theorem next_greater (r : Dvc) : Dvc.greater.next r = .greater := rfl

@[simp] theorem next_eq_matched {s : Dvc} : r.next s = .matched ↔ r = .matched ∧ s = .matched := by
  cases r <;> simp

theorem next_mono {r' s s' : Dvc} (h : r ≤ r') (hs : r = .matched → r' = .matched → s ≤ s') :
    r.next s ≤ r'.next s' := by
  rw [le_iff] at *
  cases r <;> cases r' <;> simp_all

@[simp] theorem reverse_reverse (r : Dvc) : r.reverse.reverse = r := by cases r <;> rfl

@[simp] theorem reverse_eq_less : r.reverse = .less ↔ r = .greater := by
  cases r <;> simp [reverse]

@[simp] theorem reverse_eq_matched : r.reverse = .matched ↔ r = .matched := by
  cases r <;> simp [reverse]

@[simp] theorem reverse_eq_greater : r.reverse = .greater ↔ r = .less := by
  cases r <;> simp [reverse]

end Dvc

/-- `sp_min_op`. -/
inductive MinOp where
  | none
  | eq
  | gt
  | gte
deriving DecidableEq, Repr

/-- `sp_max_op`. -/
inductive MaxOp where
  | none
  | lt
  | lte
deriving DecidableEq, Repr

/-- `search_spec_t`, with the parameters in place of their indices. -/
structure SearchSpec (α : Type u) where
  minOp : MinOp
  min : α
  maxOp : MaxOp
  max : α
  isReverse : Bool
deriving DecidableEq, Repr

variable {α : Type u} [LinearOrder α]

/-- `page_col_cmp`: how the column `v` compares with the parameter `p`. -/
def pageColCmp (v p : α) : Dvc :=
  if v < p then .less else if v = p then .matched else .greater

/-- The second half of `itc_compare_spec`, once the lower bound is met. -/
def compareMax (v : α) (spec : SearchSpec α) : Dvc :=
  match spec.maxOp with
  | .none => .matched
  | .lt => if pageColCmp v spec.max = .less then .matched else .greater
  | .lte =>
    if pageColCmp v spec.max = .matched ∨ pageColCmp v spec.max = .less then .matched
    else .greater

/-- `itc_compare_spec`.  A column that equals a bound of `CMP_GTE` matches
without a look at the upper bound. -/
def itcCompareSpec (v : α) (spec : SearchSpec α) : Dvc :=
  match spec.minOp with
  | .none => compareMax v spec
  | .eq => pageColCmp v spec.min
  | .gt => if pageColCmp v spec.min ≠ .greater then .less else compareMax v spec
  | .gte =>
    match pageColCmp v spec.min with
    | .matched => .matched
    | .greater => compareMax v spec
    | .less => .less

/-- Apply `sp_is_reverse` to a result. -/
def directed (isReverse : Bool) (res : Dvc) : Dvc := if isReverse then res.reverse else res

/-- `pg_key_compare` on the key parts of an entry that is no left dummy. -/
def pgKeyCompare : List (SearchSpec α) → List α → Dvc
  | spec :: specs, v :: vs =>
    (directed spec.isReverse (itcCompareSpec v spec)).next (pgKeyCompare specs vs)
  | _, _ => .matched

/-- `pg_insert_key_compare` on the key parts of an entry that is no left
dummy. -/
def pgInsertKeyCompare : List (SearchSpec α) → List α → Dvc
  | spec :: specs, v :: vs =>
    (directed spec.isReverse (pageColCmp v spec.min)).next (pgInsertKeyCompare specs vs)
  | _, _ => .matched

/-- The order of an index whose part `i` is descending if `revs[i]` is set. -/
def keyCmp : List Bool → List α → List α → Dvc
  | rev :: revs, a :: k, b :: k' =>
    (directed rev (pageColCmp a b)).next (keyCmp revs k k')
  | _, _, _ => .matched

/-! ## Columns -/

@[simp] theorem pageColCmp_self (a : α) : pageColCmp a a = .matched := by simp [pageColCmp]

variable {a b v' v : α} {rev : Bool}

theorem pageColCmp_eq_less : pageColCmp a b = .less ↔ a < b := by
  unfold pageColCmp
  split_ifs <;> simp_all

theorem pageColCmp_eq_matched : pageColCmp a b = .matched ↔ a = b := by
  unfold pageColCmp
  split_ifs with h₁ h₂
  · simpa using h₁.ne
  · simpa using h₂
  · simpa using h₂

theorem pageColCmp_eq_greater : pageColCmp a b = .greater ↔ b < a := by
  unfold pageColCmp
  split_ifs with h₁ h₂
  · simpa using h₁.le
  · simp [h₂]
  · simpa using lt_of_le_of_ne (not_lt.1 h₁) (Ne.symm h₂)

theorem pageColCmp_swap (a b : α) : pageColCmp b a = (pageColCmp a b).reverse := by
  rcases lt_trichotomy a b with h | rfl | h
  · rw [pageColCmp_eq_less.2 h, pageColCmp_eq_greater.2 h]; rfl
  · simp [Dvc.reverse]
  · rw [pageColCmp_eq_less.2 h, pageColCmp_eq_greater.2 h]; rfl

/-- A part of a key stands before another in an index of that direction. -/
theorem directed_pageColCmp_less :
    directed rev (pageColCmp a b) = .less ↔ if rev then b < a else a < b := by
  cases rev <;> simp [directed, pageColCmp_eq_less, pageColCmp_eq_greater]

theorem directed_pageColCmp_matched : directed rev (pageColCmp a b) = .matched ↔ a = b := by
  cases rev <;> simp [directed, pageColCmp_eq_matched]

theorem directed_pageColCmp_swap (rev : Bool) (a b : α) :
    directed rev (pageColCmp b a) = (directed rev (pageColCmp a b)).reverse := by
  rw [pageColCmp_swap]
  cases rev <;> simp [directed]

/-- Parts in order stay in order. -/
theorem directed_pageColCmp_trans {c : α} (h : directed rev (pageColCmp a b) = .less)
    (h' : directed rev (pageColCmp b c) = .less) : directed rev (pageColCmp a c) = .less := by
  rw [directed_pageColCmp_less] at *
  cases rev with
  | false => exact lt_trans h h'
  | true => exact lt_trans h' h

/-! ## The order of an index -/

/-- Two keys in index order differ first in a part where the first stands
before, or agree there and are in order after it. -/
theorem keyCmp_cons_ne_greater {k k' : List α} :
    keyCmp (rev :: revs) (a :: k) (b :: k') ≠ .greater ↔
      directed rev (pageColCmp a b) = .less ∨ (a = b ∧ keyCmp revs k k' ≠ .greater) := by
  have hm : directed rev (pageColCmp a b) = .matched ↔ a = b := directed_pageColCmp_matched
  rw [← hm, keyCmp]
  cases h : directed rev (pageColCmp a b) <;> simp

theorem keyCmp_swap (revs : List Bool) (k k' : List α) :
    keyCmp revs k' k = (keyCmp revs k k').reverse := by
  induction revs generalizing k k' with
  | nil => simp [keyCmp, Dvc.reverse]
  | cons rev revs ih =>
    match k, k' with
    | [], [] | [], _ :: _ | _ :: _, [] => simp [keyCmp, Dvc.reverse]
    | a :: k, b :: k' =>
      rw [keyCmp, keyCmp, directed_pageColCmp_swap, ih]
      cases directed rev (pageColCmp a b) <;> rfl

@[simp] theorem keyCmp_self (revs : List Bool) (k : List α) : keyCmp revs k k = .matched := by
  induction revs generalizing k with
  | nil => simp [keyCmp]
  | cons rev revs ih =>
    match k with
    | [] => rfl
    | a :: k =>
      rw [keyCmp, directed_pageColCmp_matched.2 rfl, Dvc.next_matched, ih]

section

variable {k₁ k₂ : List α} (h₁ : k₁.length = revs.length) (h₂ : k₂.length = revs.length)
include h₁ h₂

theorem keyCmp_trans {k₃ : List α} (h₃ : k₃.length = revs.length) (h : keyCmp revs k₁ k₂ ≠ .greater)
    (h' : keyCmp revs k₂ k₃ ≠ .greater) : keyCmp revs k₁ k₃ ≠ .greater := by
  induction revs generalizing k₁ k₂ k₃ with
  | nil => simp [keyCmp]
  | cons rev revs ih =>
    match k₁, k₂, k₃ with
    | a :: k₁, b :: k₂, c :: k₃ =>
      simp only [List.length_cons, Nat.add_right_cancel_iff] at h₁ h₂ h₃
      rw [keyCmp_cons_ne_greater] at *
      rcases h with h | ⟨rfl, h⟩ <;> rcases h' with h' | ⟨rfl, h'⟩
      · exact .inl (directed_pageColCmp_trans h h')
      · exact .inl h
      · exact .inl h'
      · exact .inr ⟨rfl, ih h₁ h₂ h₃ h h'⟩

theorem keyCmp_antisymm (h : keyCmp revs k₁ k₂ = .matched) : k₁ = k₂ := by
  induction revs generalizing k₁ k₂ with
  | nil => simp_all
  | cons rev revs ih =>
    match k₁, k₂ with
    | a :: k₁, b :: k₂ =>
      simp only [List.length_cons, Nat.add_right_cancel_iff] at h₁ h₂
      rw [keyCmp, Dvc.next_eq_matched, directed_pageColCmp_matched] at h
      rw [h.1, ih h₁ h₂ h.2]

end

/-- Keys of an index: one column for each key part. -/
structure Key (α : Type u) (revs : List Bool) where
  parts : List α
  length_parts : parts.length = revs.length
deriving DecidableEq, Repr

namespace Key

variable {revs : List Bool}

omit [LinearOrder α] in
theorem parts_injective : Function.Injective (fun k : Key α revs => k.parts) := by
  rintro ⟨k, h⟩ ⟨k', h'⟩ rfl
  rfl

instance : LE (Key α revs) := ⟨fun k k' => keyCmp revs k.parts k'.parts ≠ .greater⟩

theorem le_def {k k' : Key α revs} : k ≤ k' ↔ keyCmp revs k.parts k'.parts ≠ .greater := Iff.rfl

instance : DecidableLE (Key α revs) := fun k k' =>
  inferInstanceAs (Decidable (keyCmp revs k.parts k'.parts ≠ .greater))

/-- The order of an index is a linear order of its keys. -/
instance : LinearOrder (Key α revs) where
  le_refl k := by simp [le_def]
  le_trans k₁ k₂ k₃ := keyCmp_trans k₁.2 k₂.2 k₃.2
  le_antisymm k k' h h' := by
    rw [le_def, keyCmp_swap, Ne, Dvc.reverse_eq_greater] at h'
    rw [le_def] at h
    refine parts_injective (keyCmp_antisymm k.2 k'.2 ?_)
    cases hc : keyCmp revs k.parts k'.parts <;> simp_all
  le_total k k' := by
    simp only [le_def]
    rw [keyCmp_swap revs k.parts k'.parts]
    cases keyCmp revs k.parts k'.parts <;> simp
  toDecidableLE := inferInstance

theorem lt_iff {k k' : Key α revs} : k < k' ↔ keyCmp revs k.parts k'.parts = .less := by
  rw [lt_iff_not_ge, le_def, not_not, keyCmp_swap, Dvc.reverse_eq_greater]

end Key

/-! ## Searches are monotone -/

variable (spec : SearchSpec α)

/-- The upper bound lets smaller columns through. -/
theorem compareMax_mono (h : v ≤ v') : compareMax v spec ≤ compareMax v' spec := by
  unfold compareMax
  cases spec.maxOp with
  | none => exact le_rfl
  | lt =>
    simp only [pageColCmp_eq_less]
    split_ifs with h₁ h₂ h₂
    · exact le_rfl
    · decide
    · exact absurd (h.trans_lt h₂) h₁
    · exact le_rfl
  | lte =>
    simp only [pageColCmp_eq_less, pageColCmp_eq_matched, ← le_iff_eq_or_lt]
    split_ifs with h₁ h₂ h₂
    · exact le_rfl
    · decide
    · exact absurd (h.trans h₂) h₁
    · exact le_rfl

/-- The upper bound never says that a column is too small. -/
theorem matched_le_compareMax (v : α) : .matched ≤ compareMax v spec := by
  unfold compareMax
  split
  · exact le_rfl
  · split_ifs <;> decide
  · split_ifs
    · exact le_rfl
    · decide

theorem pageColCmp_mono (p : α) (h : v ≤ v') : pageColCmp v p ≤ pageColCmp v' p := by
  simp only [Dvc.le_iff, pageColCmp_eq_less, pageColCmp_eq_greater]
  exact ⟨h.trans_lt, fun hc => hc.trans_le h⟩

/-- `itc_compare_spec` is monotone in the column. -/
theorem itcCompareSpec_mono (h : v ≤ v') : itcCompareSpec v spec ≤ itcCompareSpec v' spec := by
  have hmax := compareMax_mono spec h
  unfold itcCompareSpec
  cases spec.minOp with
  | none => exact hmax
  | eq => exact pageColCmp_mono _ h
  | gt =>
    by_cases hv : spec.min < v
    · simpa [pageColCmp_eq_greater.2 hv, pageColCmp_eq_greater.2 (hv.trans_le h)] using hmax
    · simp [pageColCmp_eq_greater, hv]
  | gte =>
    rcases lt_trichotomy v spec.min with hv | hv | hv
    · simp [pageColCmp_eq_less.2 hv]
    · subst hv
      rcases h.eq_or_lt with rfl | h
      · exact le_rfl
      · simpa [pageColCmp_eq_greater.2 h] using matched_le_compareMax spec v'
    · simpa [pageColCmp_eq_greater.2 hv, pageColCmp_eq_greater.2 (hv.trans_le h)] using hmax

/-- The directed comparison of one part is monotone along the index. -/
theorem directed_itcCompareSpec_mono (h : directed spec.isReverse (pageColCmp v v') = .less) :
    directed spec.isReverse (itcCompareSpec v spec) ≤
      directed spec.isReverse (itcCompareSpec v' spec) := by
  rw [directed_pageColCmp_less] at h
  cases hr : spec.isReverse with
  | false =>
    simp only [hr, Bool.false_eq_true, if_false] at h
    simpa [directed] using itcCompareSpec_mono spec h.le
  | true =>
    simp only [hr, if_true] at h
    simp only [directed, if_true, Dvc.le_iff, Dvc.reverse_eq_less, Dvc.reverse_eq_greater]
    exact (Dvc.le_iff.1 (itcCompareSpec_mono spec h.le)).symm

namespace SearchSpec

/-- The column is below what the condition asks for. -/
def Under (spec : SearchSpec α) (v : α) : Prop :=
  match spec.minOp with
  | .none => False
  | .gt => v ≤ spec.min
  | .eq | .gte => v < spec.min

/-- The column equals the bound of an equality, or is in the range of the condition. -/
def Meets (spec : SearchSpec α) (v : α) : Prop :=
  match spec.minOp, spec.maxOp with
  | .eq, _ => v = spec.min
  | _, .none => ¬ spec.Under v
  | minOp, .lt => minOp = .gte ∧ v = spec.min ∨ ¬ spec.Under v ∧ v < spec.max
  | minOp, .lte => minOp = .gte ∧ v = spec.min ∨ ¬ spec.Under v ∧ v ≤ spec.max

/-- The column stands before the range in an index of the direction of the search. -/
def Before (spec : SearchSpec α) (v : α) : Prop :=
  if spec.isReverse then ¬ spec.Under v ∧ ¬ spec.Meets v else spec.Under v

end SearchSpec

theorem itcCompareSpec_eq_less {spec : SearchSpec α} :
    itcCompareSpec v spec = .less ↔ spec.Under v := by
  obtain ⟨minOp, min, maxOp, max, rev⟩ := spec
  cases minOp <;> cases maxOp <;> simp [itcCompareSpec, compareMax, SearchSpec.Under,
    pageColCmp] <;>
    grind

theorem itcCompareSpec_eq_matched {spec : SearchSpec α} :
    itcCompareSpec v spec = .matched ↔ spec.Meets v := by
  obtain ⟨minOp, min, maxOp, max, rev⟩ := spec
  cases minOp <;> cases maxOp <;> simp [itcCompareSpec, compareMax, SearchSpec.Under,
    SearchSpec.Meets, pageColCmp] <;> grind

theorem directed_itcCompareSpec_eq_less {spec : SearchSpec α} :
    directed spec.isReverse (itcCompareSpec v spec) = .less ↔ spec.Before v := by
  rw [directed, SearchSpec.Before, ← itcCompareSpec_eq_less, ← itcCompareSpec_eq_matched]
  cases itcCompareSpec v spec <;> split_ifs <;> simp [Dvc.reverse]

theorem directed_itcCompareSpec_eq_matched {spec : SearchSpec α} :
    directed spec.isReverse (itcCompareSpec v spec) = .matched ↔ spec.Meets v := by
  rw [directed, ← itcCompareSpec_eq_matched]
  cases itcCompareSpec v spec <;> split_ifs <;> simp [Dvc.reverse]

/-- The first part of a key that does not meet its condition stands before. -/
def Precedes : List (SearchSpec α) → List α → Prop
  | spec :: specs, v :: vs => spec.Before v ∨ spec.Meets v ∧ Precedes specs vs
  | _, _ => False

theorem pgKeyCompare_eq_less (specs : List (SearchSpec α)) (vs : List α) :
    pgKeyCompare specs vs = .less ↔ Precedes specs vs := by
  induction specs generalizing vs with
  | nil => simp [pgKeyCompare, Precedes]
  | cons spec specs ih =>
    cases vs with
    | nil => simp [pgKeyCompare, Precedes]
    | cons v vs =>
      rw [pgKeyCompare, Precedes, ← directed_itcCompareSpec_eq_less,
        ← directed_itcCompareSpec_eq_matched, ← ih]
      cases directed spec.isReverse (itcCompareSpec v spec) <;> simp

theorem pgKeyCompare_eq_matched (specs : List (SearchSpec α)) (vs : List α) :
    pgKeyCompare specs vs = .matched ↔ ∀ p ∈ specs.zip vs, p.1.Meets p.2 := by
  induction specs generalizing vs with
  | nil => simp [pgKeyCompare]
  | cons spec specs ih =>
    cases vs with
    | nil => simp [pgKeyCompare]
    | cons v vs =>
      rw [pgKeyCompare, List.zip_cons_cons, List.forall_mem_cons, ← ih,
        ← directed_itcCompareSpec_eq_matched]
      cases directed spec.isReverse (itcCompareSpec v spec) <;> simp

/-- Equalities on leading key parts, then at most one other condition. -/
def EqThenRange : List (SearchSpec α) → Prop
  | [] => True
  | [_] => True
  | spec :: specs => spec.minOp = .eq ∧ EqThenRange specs

/-- `pg_key_compare` is monotone along an index whose leading parts have the
directions of the search. -/
theorem pgKeyCompare_mono {specs : List (SearchSpec α)} (hs : EqThenRange specs)
    (hr : specs.map SearchSpec.isReverse <+: revs) :
    Monotone fun k : Key α revs => pgKeyCompare specs k.parts := by
  rintro ⟨k, hk⟩ ⟨k', hk'⟩ h
  rw [Key.le_def] at h
  simp only at h ⊢
  induction specs generalizing revs k k' with
  | nil => simp [pgKeyCompare]
  | cons spec specs ih =>
    match revs, k, k' with
    | [], [], _ => simp at hr
    | rev :: revs, a :: k, b :: k' =>
      obtain ⟨hrev, hr'⟩ : spec.isReverse = rev ∧ specs.map SearchSpec.isReverse <+: revs := by
        simpa using hr
      subst hrev
      have hs' : EqThenRange specs := by
        match specs with
        | [] => trivial
        | _ :: _ => exact hs.2
      simp only [List.length_cons, Nat.add_right_cancel_iff] at hk hk'
      rw [pgKeyCompare, pgKeyCompare]
      rcases keyCmp_cons_ne_greater.1 h with hab | ⟨rfl, hkk⟩
      · refine Dvc.next_mono (directed_itcCompareSpec_mono spec hab) fun ha hb => ?_
        match specs with
        | [] => simp [pgKeyCompare]
        | spec' :: specs =>
          -- an equality does not match two columns
          rw [itcCompareSpec, hs.1, directed_pageColCmp_matched] at ha hb
          rw [directed_pageColCmp_matched.2 (ha.trans hb.symm)] at hab
          cases hab
      · exact Dvc.next_mono le_rfl fun _ _ => ih hs' hr' k hk k' hk' hkk

/-- `pg_insert_key_compare` with a full key is the order of the index. -/
theorem pgInsertKeyCompare_eq (specs : List (SearchSpec α)) (k : List α) :
    pgInsertKeyCompare specs k =
      keyCmp (specs.map SearchSpec.isReverse) k (specs.map SearchSpec.min) := by
  induction specs generalizing k with
  | nil => simp [pgInsertKeyCompare, keyCmp]
  | cons spec specs ih =>
    cases k with
    | nil => simp [pgInsertKeyCompare, keyCmp]
    | cons v vs => simp [pgInsertKeyCompare, keyCmp, ih]

/-- `pg_insert_key_compare` compares keys in the order of the index. -/
theorem pgInsertKeyCompare_key {specs : List (SearchSpec α)} {key : Key α revs}
    (hrevs : specs.map SearchSpec.isReverse = revs) (hkey : specs.map SearchSpec.min = key.parts)
    (k : Key α revs) : pgInsertKeyCompare specs k.parts = pageColCmp k key := by
  rw [pgInsertKeyCompare_eq, hrevs, hkey]
  rcases lt_trichotomy k key with h | rfl | h
  · rw [pageColCmp_eq_less.2 h, Key.lt_iff.1 h]
  · simp
  · rw [pageColCmp_eq_greater.2 h, keyCmp_swap, Key.lt_iff.1 h]
    rfl

end Virtuoso.Search
