import Mathlib.Algebra.Group.Fin.Basic
import Mathlib.Algebra.Order.Ring.Nat
import Mathlib.Data.List.Destutter
import Mathlib.Data.List.Sort
import Mathlib.Data.Prod.Lex

/-!
# Triples and deltas

A delta (`graph_delta.c`) holds the triples that a transaction adds and those it
deletes, as two growing arrays in no particular order: an entry is taken out by
moving the last one over it.  An addition first looks for a pending deletion of
the triple to cancel, a deletion for a pending addition; neither looks at older
deltas or at the base store, and additions are not checked for repetitions.
-/

namespace Virtuoso.Graph

/-- The ids have literals. -/
instance neZeroIds : NeZero (2 ^ 64) := ⟨by decide⟩

/-- `graph_node_id_t`; the arithmetic of `uint64_t` wraps. -/
abbrev NodeId := Fin (2 ^ 64)

/-- `graph_pred_id_t`. -/
abbrev PredId := Fin (2 ^ 64)

/-- `GRAPH_NODE_ID_INVALID` and `GRAPH_PRED_ID_INVALID`. -/
abbrev idInvalid : Fin (2 ^ 64) := 0

/-- `graph_triple_t`. -/
@[ext]
structure Triple where
  subject : NodeId
  predicate : PredId
  object : NodeId
deriving DecidableEq

namespace Triple

/-- The triple as a key of the order in which `graph_delta_addition_cmp` sorts. -/
def key (t : Triple) : NodeId ×ₗ PredId ×ₗ NodeId :=
  toLex (t.subject, toLex (t.predicate, t.object))

theorem key_injective : Function.Injective key := by
  rintro ⟨s, p, o⟩ ⟨s', p', o'⟩ h
  simpa [key] using h

/-- Triples are ordered by subject, then predicate, then object. -/
instance : LinearOrder Triple := LinearOrder.lift' key key_injective

theorem lt_iff {t u : Triple} :
    t < u ↔ t.subject < u.subject ∨ t.subject = u.subject ∧
      (t.predicate < u.predicate ∨ t.predicate = u.predicate ∧ t.object < u.object) := by
  change t.key < u.key ↔ _
  simp [key, Prod.Lex.toLex_lt_toLex]

theorem subject_le_of_le {t u : Triple} (h : t ≤ u) : t.subject ≤ u.subject := by
  rcases h.lt_or_eq with h | rfl
  · rcases lt_iff.1 h with h | ⟨h, -⟩
    · exact h.le
    · exact h.le
  · exact le_rfl

end Triple

/-- `graph_delta_addition_cmp`. -/
def graphDeltaAdditionCmp (ta tb : Triple) : ℤ :=
  if ta.subject ≠ tb.subject then if ta.subject < tb.subject then -1 else 1
  else if ta.predicate ≠ tb.predicate then if ta.predicate < tb.predicate then -1 else 1
  else if ta.object ≠ tb.object then if ta.object < tb.object then -1 else 1
  else 0

/-- The comparison function reports the order of triples. -/
theorem graphDeltaAdditionCmp_le_zero_iff (t u : Triple) :
    graphDeltaAdditionCmp t u ≤ 0 ↔ t ≤ u := by
  rw [← not_lt, ← not_lt, not_iff_not, Triple.lt_iff, graphDeltaAdditionCmp]
  split_ifs with hs hs' hp hp' ho ho' <;> simp_all [lt_iff_le_and_ne, eq_comm, le_of_lt]

/-- `qsort` with `graph_delta_addition_cmp`. -/
def qsortTriples (ts : List Triple) : List Triple :=
  ts.insertionSort fun t u => graphDeltaAdditionCmp t u ≤ 0

theorem qsortTriples_eq (ts : List Triple) : qsortTriples ts = ts.insertionSort (· ≤ ·) := by
  unfold qsortTriples
  congr
  funext t u
  exact propext (graphDeltaAdditionCmp_le_zero_iff t u)

theorem qsortTriples_perm (ts : List Triple) : (qsortTriples ts).Perm ts :=
  List.perm_insertionSort _ _

theorem pairwise_qsortTriples (ts : List Triple) : (qsortTriples ts).Pairwise (· ≤ ·) := by
  rw [qsortTriples_eq]
  exact List.pairwise_insertionSort _ _

/-- The loop that keeps an entry of a sorted array when it differs from the last
one kept. -/
def dropRepeats {α : Type*} [DecidableEq α] (xs : List α) : List α := xs.destutter (· ≠ ·)

theorem dropRepeats_eq_dedup {α : Type*} [PartialOrder α] [DecidableEq α] {xs : List α}
    (h : xs.Pairwise (· ≤ ·)) : dropRepeats xs = xs.dedup :=
  h.destutter_eq_dedup

/-! ## The arrays of a delta -/

/-- Overwrite entry `i` by the last one, unless it is the last, and shorten the array. -/
def takeOut {α : Type*} (xs : List α) (i : ℕ) : List α :=
  match xs.getLast? with
  | none => xs
  | some last => (if i < xs.length - 1 then xs.set i last else xs).dropLast

theorem takeOut_perm {α : Type*} {xs : List α} {i : ℕ} (hi : i < xs.length) :
    (takeOut xs i).Perm (xs.eraseIdx i) := by
  obtain rfl | ⟨init, last, rfl⟩ := xs.eq_nil_or_concat'
  · simp at hi
  · have hlen : i < init.length + 1 := by simpa using hi
    rw [takeOut, List.getLast?_concat]
    by_cases h : i < init.length
    · have hset : (init.set i last).Perm (last :: init.eraseIdx i) := by
        rw [List.set_eq_take_append_cons_drop, if_pos h, List.eraseIdx_eq_take_drop_succ]
        exact List.perm_middle
      simpa [h, List.set_append_left, List.eraseIdx_append_of_lt_length] using
        hset.trans (List.perm_append_singleton _ _).symm
    · obtain rfl : i = init.length := by omega
      simp [List.eraseIdx_append_of_length_le]

/-- Take out the entry that the search for `t` meets first, if there is one. -/
def cancel (ts : List Triple) (t : Triple) : Option (List Triple) :=
  let i := ts.idxOf t
  if i < ts.length then some (takeOut ts i) else none

theorem cancel_eq_none {ts : List Triple} {t : Triple} : cancel ts t = none ↔ t ∉ ts := by
  simp [cancel, List.idxOf_lt_length_iff]

/-- What is left is the array without one occurrence of `t`. -/
theorem cancel_eq_some {ts rest : List Triple} {t : Triple} (h : cancel ts t = some rest) :
    t ∈ ts ∧ rest.Perm (ts.erase t) := by
  simp only [cancel, Option.ite_none_right_eq_some, Option.some.injEq] at h
  obtain ⟨hi, rfl⟩ := h
  rw [List.erase_eq_eraseIdx_of_idxOf rfl]
  exact ⟨List.idxOf_lt_length_iff.1 hi, takeOut_perm hi⟩

/-- `GRAPH_INITIAL_DELTA_CAPACITY`. -/
def initialDeltaCapacity : ℕ := 256

/-- `graph_delta_t`; the newest delta of a chain is the head of a list. -/
structure Delta where
  additions : List Triple
  additionCapacity : ℕ
  deletions : List Triple
  deletionCapacity : ℕ

namespace Delta

/-- `graph_delta_create`. -/
def create : Delta where
  additions := []
  additionCapacity := initialDeltaCapacity
  deletions := []
  deletionCapacity :=
    if initialDeltaCapacity / 4 < 16 then 16 else initialDeltaCapacity / 4

/-- `ensure_addition_capacity` and `ensure_deletion_capacity`: the capacity after
room for one more entry is made.  The doubled capacity is a `uint32_t`; when it
wraps, the entry is written outside the array and the model has no value. -/
def ensureCapacity (count capacity : ℕ) : Option ℕ :=
  if count < capacity then some capacity
  else
    let newCap := capacity * 2 % 2 ^ 32
    if count < newCap then some newCap else none

/-- `graph_delta_add_triple`. -/
def addTriple (d : Delta) (t : Triple) : Option Delta :=
  match cancel d.deletions t with
  | some deletions => some { d with deletions }
  | none => do
      let additionCapacity ← ensureCapacity d.additions.length d.additionCapacity
      some { d with additions := d.additions ++ [t], additionCapacity }

/-- `graph_delta_remove_triple`. -/
def removeTriple (d : Delta) (t : Triple) : Option Delta :=
  match cancel d.additions t with
  | some additions => some { d with additions }
  | none =>
    if t ∈ d.deletions then some d
    else do
      let deletionCapacity ← ensureCapacity d.deletions.length d.deletionCapacity
      some { d with deletions := d.deletions ++ [t], deletionCapacity }

/-! ## What one operation does -/

variable {d d' : Delta} {t : Triple}

/-- An addition cancels a pending deletion, or is appended. -/
theorem addTriple_cases (h : d.addTriple t = some d') :
    (t ∈ d.deletions ∧ d'.deletions.Perm (d.deletions.erase t) ∧ d'.additions = d.additions) ∨
    (t ∉ d.deletions ∧ d'.deletions = d.deletions ∧ d'.additions = d.additions ++ [t]) := by
  unfold addTriple at h
  split at h
  next rest hc =>
    obtain ⟨ht, hp⟩ := cancel_eq_some hc
    cases h
    exact .inl ⟨ht, hp, rfl⟩
  next hc =>
    obtain ⟨cap, -, hd⟩ := Option.bind_eq_some_iff.1 h
    cases hd
    exact .inr ⟨cancel_eq_none.1 hc, rfl, rfl⟩

/-- A removal cancels a pending addition, does nothing if the deletion is pending
already, or appends it. -/
theorem removeTriple_cases (h : d.removeTriple t = some d') :
    (t ∈ d.additions ∧ d'.additions.Perm (d.additions.erase t) ∧ d'.deletions = d.deletions) ∨
    (t ∉ d.additions ∧ t ∈ d.deletions ∧ d' = d) ∨
    (t ∉ d.additions ∧ t ∉ d.deletions ∧ d'.additions = d.additions ∧
      d'.deletions = d.deletions ++ [t]) := by
  unfold removeTriple at h
  split at h
  next rest hc =>
    obtain ⟨ht, hp⟩ := cancel_eq_some hc
    cases h
    exact .inl ⟨ht, hp, rfl⟩
  next hc =>
    split at h
    next hd =>
      cases h
      exact .inr (.inl ⟨cancel_eq_none.1 hc, hd, rfl⟩)
    next hd =>
      obtain ⟨cap, -, he⟩ := Option.bind_eq_some_iff.1 h
      cases he
      exact .inr (.inr ⟨cancel_eq_none.1 hc, hd, rfl, rfl⟩)

/-- The capacities are powers of two that hold the entries. -/
structure Roomy (d : Delta) : Prop where
  additions : d.additions.length ≤ d.additionCapacity
  deletions : d.deletions.length ≤ d.deletionCapacity
  additionCapacity : ∃ k, 0 < k ∧ k < 32 ∧ d.additionCapacity = 2 ^ k
  deletionCapacity : ∃ k, 0 < k ∧ k < 32 ∧ d.deletionCapacity = 2 ^ k

theorem roomy_create : create.Roomy :=
  ⟨by simp [create], by simp [create], ⟨8, by decide⟩, ⟨6, by decide⟩⟩

/-- Growth keeps the capacity a power of two and makes room for one more entry. -/
theorem ensureCapacity_spec {count capacity cap : ℕ} (hc : ∃ k, 0 < k ∧ k < 32 ∧ capacity = 2 ^ k)
    (h : ensureCapacity count capacity = some cap) :
    count < cap ∧ ∃ k, 0 < k ∧ k < 32 ∧ cap = 2 ^ k := by
  obtain ⟨k, hk₀, hk, rfl⟩ := hc
  simp only [ensureCapacity] at h
  split_ifs at h with h₁ h₂
  · cases h
    exact ⟨h₁, k, hk₀, hk, rfl⟩
  · cases h
    refine ⟨h₂, k + 1, by omega, ?_, ?_⟩
    · by_contra hle
      obtain rfl : k = 31 := by omega
      simp at h₂
    · have hlt : 2 ^ (k + 1) < 2 ^ 32 := by
        by_contra hge
        have : k = 31 := by
          have := (Nat.pow_le_pow_iff_right (n := 32) (m := k + 1) Nat.one_lt_two).1 (not_lt.1 hge)
          omega
        subst this
        simp at h₂
      rw [← Nat.pow_succ, Nat.mod_eq_of_lt hlt]

/-- There is room for one more entry as long as there are fewer than `2 ^ 31`. -/
theorem ensureCapacity_isSome {count capacity : ℕ} (hc : ∃ k, 0 < k ∧ k < 32 ∧ capacity = 2 ^ k)
    (hle : count ≤ capacity) (hlt : count < 2 ^ 31) : (ensureCapacity count capacity).isSome := by
  obtain ⟨k, hk₀, hk, rfl⟩ := hc
  simp only [ensureCapacity]
  split_ifs with h₁ h₂
  · rfl
  · rfl
  · have hk' : k < 31 := (Nat.pow_lt_pow_iff_right Nat.one_lt_two).1 (by omega)
    have hpow : 2 ^ (k + 1) < 2 ^ 32 := Nat.pow_lt_pow_right Nat.one_lt_two (by omega)
    rw [← Nat.pow_succ, Nat.mod_eq_of_lt hpow, Nat.pow_succ] at h₂
    have := Nat.two_pow_pos k
    omega

theorem Roomy.addTriple (hd : d.Roomy) (h : d.addTriple t = some d') : d'.Roomy := by
  unfold Delta.addTriple at h
  split at h
  next rest hc =>
    cases h
    have hlen := (cancel_eq_some hc).2.length_eq.trans_le (List.length_erase_le (a := t))
    exact ⟨hd.additions, hlen.trans hd.deletions, hd.additionCapacity, hd.deletionCapacity⟩
  next hc =>
    obtain ⟨cap, hcap, he⟩ := Option.bind_eq_some_iff.1 h
    cases he
    obtain ⟨hlt, hpow⟩ := ensureCapacity_spec hd.additionCapacity hcap
    exact ⟨by simpa using Nat.succ_le_of_lt hlt, hd.deletions, hpow, hd.deletionCapacity⟩

theorem Roomy.removeTriple (hd : d.Roomy) (h : d.removeTriple t = some d') : d'.Roomy := by
  unfold Delta.removeTriple at h
  split at h
  next rest hc =>
    cases h
    have hlen := (cancel_eq_some hc).2.length_eq.trans_le (List.length_erase_le (a := t))
    exact ⟨hlen.trans hd.additions, hd.deletions, hd.additionCapacity, hd.deletionCapacity⟩
  next hc =>
    split at h
    next => exact Option.some.inj h ▸ hd
    next =>
      obtain ⟨cap, hcap, he⟩ := Option.bind_eq_some_iff.1 h
      cases he
      obtain ⟨hlt, hpow⟩ := ensureCapacity_spec hd.deletionCapacity hcap
      exact ⟨hd.additions, by simpa using Nat.succ_le_of_lt hlt, hd.additionCapacity, hpow⟩

theorem addTriple_isSome (hd : d.Roomy) (hlt : d.additions.length < 2 ^ 31) (t : Triple) :
    (d.addTriple t).isSome := by
  unfold addTriple
  split
  · rfl
  · obtain ⟨cap, hcap⟩ := Option.isSome_iff_exists.1
      (ensureCapacity_isSome hd.additionCapacity hd.additions hlt)
    simp [hcap]

theorem removeTriple_isSome (hd : d.Roomy) (hlt : d.deletions.length < 2 ^ 31) (t : Triple) :
    (d.removeTriple t).isSome := by
  unfold removeTriple
  split
  · rfl
  · split
    · rfl
    · obtain ⟨cap, hcap⟩ := Option.isSome_iff_exists.1
        (ensureCapacity_isSome hd.deletionCapacity hd.deletions hlt)
      simp [hcap]

end Delta

end Virtuoso.Graph
