import Mathlib.Data.List.Pairwise
import Mathlib.Data.List.Perm.Lattice

/-!
# Dictionaries

A dictionary is the list of its entries; keys are compared up to an equivalence `eqv`, and
no two keys of a dictionary are equivalent.  The order of the entries does not matter: all
operations respect permutations, and they act on the part of the entries that can hold the
key (`lookup_append`, `assign_append`, `remove_append`).
-/

universe u v

namespace Virtuoso.Lib

/-- `eqv` is an equivalence of keys. -/
structure IsKeyEq {K : Type u} (eqv : K → K → Bool) : Prop where
  refl : ∀ a, eqv a a = true
  symm : ∀ a b, eqv a b = true → eqv b a = true
  trans : ∀ a b c, eqv a b = true → eqv b c = true → eqv a c = true

theorem IsKeyEq.comm {K : Type u} {eqv : K → K → Bool} (he : IsKeyEq eqv) (a b : K) :
    eqv a b = eqv b a := by
  rw [Bool.eq_iff_iff]
  exact ⟨he.symm a b, he.symm b a⟩

namespace Dictionary

variable {K : Type u} {D : Type v} (eqv : K → K → Bool)

def lookup (m : List (K × D)) (k : K) : Option (K × D) := m.find? fun e => eqv e.1 k

/-- The dictionary with the data of a key set.  A key that is present stays as it is. -/
def assign (m : List (K × D)) (k : K) (d : D) : List (K × D) :=
  if m.any fun e => eqv e.1 k then m.map fun e => if eqv e.1 k then (e.1, d) else e
  else (k, d) :: m

def remove (m : List (K × D)) (k : K) : List (K × D) := m.filter fun e => !eqv e.1 k

/-- No two keys are equivalent. -/
def Distinct (m : List (K × D)) : Prop := m.Pairwise fun e e' => eqv e.1 e'.1 = false

def Absent (m : List (K × D)) (k : K) : Prop := ∀ e ∈ m, eqv e.1 k = false

variable {eqv} {m m' : List (K × D)} {k : K} {d : D}

theorem any_eq_false : (m.any fun e => eqv e.1 k) = false ↔ Absent eqv m k := by
  simp [Absent]

theorem lookup_eq_none : lookup eqv m k = none ↔ Absent eqv m k := by
  simp [lookup, Absent]

theorem Absent.assign (h : Absent eqv m k) : assign eqv m k d = (k, d) :: m := by
  rw [Dictionary.assign, any_eq_false.2 h]
  rfl

theorem Absent.remove (h : Absent eqv m k) : remove eqv m k = m :=
  List.filter_eq_self.2 fun e he => by rw [h e he]; rfl

theorem Absent.perm (h : Absent eqv m k) (hp : m.Perm m') : Absent eqv m' k :=
  fun e he => h e (hp.mem_iff.2 he)

theorem absent_append : Absent eqv (m ++ m') k ↔ Absent eqv m k ∧ Absent eqv m' k := by
  simp only [Absent, List.mem_append, or_imp, forall_and]

/-! ## Parts that cannot hold the key -/

theorem lookup_append (h : Absent eqv m' k) : lookup eqv (m ++ m') k = lookup eqv m k := by
  rw [lookup, List.find?_append, ← lookup, ← lookup, lookup_eq_none.2 h, Option.or_none]

theorem remove_append (h : Absent eqv m' k) : remove eqv (m ++ m') k = remove eqv m k ++ m' := by
  rw [remove, List.filter_append, ← remove, ← remove, h.remove]

theorem assign_append (h : Absent eqv m' k) :
    assign eqv (m ++ m') k d = assign eqv m k d ++ m' := by
  by_cases hm : Absent eqv m k
  · rw [(absent_append.2 ⟨hm, h⟩).assign, hm.assign, List.cons_append]
  · have hany : (m.any fun e => eqv e.1 k) = true := by
      rw [← Bool.not_eq_false, any_eq_false]
      exact hm
    have hrest : (m'.map fun e => if eqv e.1 k then (e.1, d) else e) = m' := by
      refine (List.map_congr_left fun e he => ?_).trans (List.map_id m')
      rw [h e he]
      rfl
    rw [assign, List.any_append, hany, Bool.true_or, if_pos rfl, List.map_append, hrest, assign,
      if_pos hany]

/-! ## Permutations -/

theorem assign_perm (hp : m.Perm m') : (assign eqv m k d).Perm (assign eqv m' k d) := by
  by_cases hm : Absent eqv m k
  · rw [hm.assign, (hm.perm hp).assign]
    exact hp.cons _
  · have hm' : ¬ Absent eqv m' k := fun h => hm (h.perm hp.symm)
    rw [← any_eq_false, Bool.not_eq_false] at hm hm'
    rw [assign, if_pos hm, assign, if_pos hm']
    exact hp.map _

theorem remove_perm (hp : m.Perm m') : (remove eqv m k).Perm (remove eqv m' k) := hp.filter _

theorem Distinct.remove (h : Distinct eqv m) : Distinct eqv (remove eqv m k) :=
  List.Pairwise.filter _ h

section KeyEq

variable (he : IsKeyEq eqv)
include he

theorem Distinct.perm (h : Distinct eqv m) (hp : m.Perm m') : Distinct eqv m' :=
  (hp.pairwise_iff fun hab => (he.comm _ _).trans hab).1 h

theorem Distinct.append (h : Distinct eqv m) (h' : Distinct eqv m')
    (hc : ∀ e ∈ m, Absent eqv m' e.1) : Distinct eqv (m ++ m') :=
  List.pairwise_append.2 ⟨h, h', fun e hm e' hm' => (he.comm _ _).trans (hc e hm e' hm')⟩

theorem Distinct.cons (h : Distinct eqv m) (ha : Absent eqv m k) : Distinct eqv ((k, d) :: m) :=
  List.pairwise_cons.2 ⟨fun e hm => (he.comm _ _).trans (ha e hm), h⟩

theorem Distinct.assign (h : Distinct eqv m) : Distinct eqv (assign eqv m k d) := by
  by_cases hm : Absent eqv m k
  · rw [hm.assign]
    exact h.cons he hm
  · rw [← any_eq_false, Bool.not_eq_false] at hm
    rw [Dictionary.assign, if_pos hm]
    refine List.pairwise_map.2 (List.Pairwise.imp (fun {a b} hab => ?_) h)
    have hkey : ∀ e : K × D, (if eqv e.1 k then (e.1, d) else e).1 = e.1 := fun e => by
      split_ifs <;> rfl
    rw [hkey, hkey]
    exact hab

/-- At most one entry has an equivalent key, so the order of the entries does not matter. -/
theorem lookup_perm (h : Distinct eqv m) (hp : m.Perm m') : lookup eqv m k = lookup eqv m' k := by
  rw [lookup, lookup, ← List.head?_filter, ← List.head?_filter]
  have hf := hp.filter fun e => eqv e.1 k
  have hdist : Distinct eqv (m.filter fun e => eqv e.1 k) := List.Pairwise.filter _ h
  have hall : ∀ e ∈ m.filter fun e => eqv e.1 k, eqv e.1 k = true := fun e hm => by
    simpa using (List.mem_filter.1 hm).2
  generalize (m.filter fun e => eqv e.1 k) = l at hf hdist hall
  cases l with
  | nil => rw [List.nil_perm.1 hf]
  | cons a l =>
    cases l with
    | nil => rw [List.singleton_perm.1 hf]
    | cons b l =>
      -- two entries for one key are equivalent to each other
      have hab := (List.pairwise_cons.1 hdist).1 b List.mem_cons_self
      have hb := hall b (List.mem_cons_of_mem _ List.mem_cons_self)
      rw [he.trans _ _ _ (hall a List.mem_cons_self) (he.symm _ _ hb)] at hab
      cases hab

section Middle

variable {e : K × D} (h : Distinct eqv (m ++ e :: m')) (hk : eqv e.1 k = true)
include h hk

end Middle

/-! ### Dictionaries given by places -/

variable {R : Type*} {rs : List R} {r : R} {f : R → K × D}

/-- Different places have inequivalent keys. -/
theorem Distinct.eqv_iff (h : Distinct eqv (rs.map f)) (hr : r ∈ rs) (hk : eqv (f r).1 k = true)
    {r' : R} (hr' : r' ∈ rs) : eqv (f r').1 k = true ↔ r' = r := by
  refine ⟨fun hk' => ?_, fun hrr => hrr ▸ hk⟩
  by_contra hne
  have hpair : rs.Pairwise fun a b => eqv (f a).1 (f b).1 = false := List.pairwise_map.1 h
  have hsymm : Std.Symm fun a b => eqv (f a).1 (f b).1 = false :=
    ⟨fun a b hab => (he.comm _ _).trans hab⟩
  have hfalse := hpair.forall hr' hr hne
  rw [he.trans _ _ _ hk' (he.symm _ _ hk)] at hfalse
  cases hfalse

theorem Distinct.nodup (h : Distinct eqv (rs.map f)) : rs.Nodup :=
  (List.pairwise_map.1 h).imp fun {a b} hab hne => by
    rw [hne, he.refl] at hab
    cases hab

/-- The entry of a key is the one at its place. -/
theorem Distinct.lookup_map (h : Distinct eqv (rs.map f)) (hr : r ∈ rs)
    (hk : eqv (f r).1 k = true) : lookup eqv (rs.map f) k = some (f r) := by
  cases hl : lookup eqv (rs.map f) k with
  | none =>
    have := lookup_eq_none.1 hl _ (List.mem_map_of_mem hr)
    rw [hk] at this
    cases this
  | some e =>
    have hfound : e ∈ rs.map f ∧ eqv e.1 k = true := by
      rw [lookup] at hl
      have hp := List.find?_some hl
      exact ⟨List.mem_of_find?_eq_some hl, hp⟩
    obtain ⟨r', hr', rfl⟩ := List.mem_map.1 hfound.1
    rw [(h.eqv_iff he hr hk hr').1 hfound.2]

variable [DecidableEq R]

section

variable (h : Distinct eqv (rs.map f)) (hr : r ∈ rs) (hk : eqv (f r).1 k = true)
include h hr hk

/-- Setting a key that is present writes the data at its place. -/
theorem Distinct.assign_map :
    Dictionary.assign eqv (rs.map f) k d = rs.map fun r' => if r' = r then ((f r).1, d)
      else f r' := by
  have hany : ((rs.map f).any fun e => eqv e.1 k) = true :=
    List.any_eq_true.2 ⟨f r, List.mem_map_of_mem hr, hk⟩
  rw [Dictionary.assign, if_pos hany, List.map_map]
  apply List.map_congr_left
  intro r' hr'
  by_cases hrr : r' = r
  · subst hrr
    rw [if_pos rfl, Function.comp_apply, if_pos hk]
  · rw [if_neg hrr, Function.comp_apply, if_neg]
    rwa [h.eqv_iff he hr hk hr']

/-- Removing a key that is present drops its place. -/
theorem Distinct.remove_map : Dictionary.remove eqv (rs.map f) k = (rs.erase r).map f := by
  rw [Dictionary.remove, List.filter_map, (h.nodup he).erase_eq_filter]
  congr 1
  apply List.filter_congr
  intro r' hr'
  have := h.eqv_iff he hr hk hr'
  by_cases hrr : r' = r
  · simp [hrr, hk]
  · rw [Function.comp_apply, Bool.not_eq_true _ |>.mp fun hc => hrr (this.1 hc)]
    simp [hrr]

/-! ### Sizes -/

theorem Distinct.length_remove_map :
    (Dictionary.remove eqv (rs.map f) k).length + 1 = rs.length := by
  rw [h.remove_map he hr hk, List.length_map, List.length_erase_of_mem hr]
  have := List.length_pos_of_mem hr
  omega

end

omit he [DecidableEq R] in
theorem length_assign :
    (assign eqv m k d).length = if (lookup eqv m k).isSome then m.length else m.length + 1 := by
  cases hl : lookup eqv m k with
  | none =>
    rw [(lookup_eq_none.1 hl).assign]
    rfl
  | some e =>
    have hany : (m.any fun e => eqv e.1 k) = true := by
      rw [← Bool.not_eq_false, any_eq_false, ← lookup_eq_none, hl]
      exact Option.some_ne_none e
    rw [assign, if_pos hany, List.length_map]
    rfl

omit [DecidableEq R] in
theorem Distinct.length_remove (h : Distinct eqv m) :
    (Dictionary.remove eqv m k).length + (if (lookup eqv m k).isSome then 1 else 0) = m.length := by
  classical
  cases hl : lookup eqv m k with
  | none =>
    rw [(lookup_eq_none.1 hl).remove]
    rfl
  | some e =>
    have hmem : e ∈ m := List.mem_of_find?_eq_some hl
    have hk : eqv e.1 k = true := by
      rw [lookup] at hl
      have hp := List.find?_some hl
      exact hp
    have hid : Distinct eqv (m.map id) := by rwa [List.map_id]
    have hlen := hid.length_remove_map he hmem hk
    rwa [List.map_id] at hlen

end KeyEq

/-! ## Dictionaries kept in numbered parts

The keys have a number, equivalent keys the same one, and the entries are kept in one list
for each number.  An operation on a key only has to be carried out on the key's own list. -/

/-- All lists but one make up a rest that does not depend on that one. -/
theorem exists_rest {α : Type*} {f f' : ℕ → List α} {n count : ℕ} (hn : n < count)
    (hoff : ∀ j < count, j ≠ n → f' j = f j) :
    ∃ rest, ((List.range count).flatMap f).Perm (f n ++ rest) ∧
      ((List.range count).flatMap f').Perm (f' n ++ rest) ∧
      ∀ x ∈ rest, ∃ j < count, j ≠ n ∧ x ∈ f j := by
  have hp := List.perm_cons_erase (List.mem_range.2 hn)
  have hne : ∀ j ∈ (List.range count).erase n, j ≠ n ∧ j < count := fun j hj => by
    obtain ⟨h₁, h₂⟩ := (List.nodup_range.mem_erase_iff).1 hj
    exact ⟨h₁, List.mem_range.1 h₂⟩
  refine ⟨((List.range count).erase n).flatMap f, hp.flatMap_right f, ?_, fun x hx => ?_⟩
  · rw [List.flatMap_congr fun j hj => (hoff j (hne j hj).2 (hne j hj).1).symm]
    exact hp.flatMap_right f'
  · obtain ⟨j, hj, hx⟩ := List.mem_flatMap.1 hx
    exact ⟨j, (hne j hj).2, (hne j hj).1, hx⟩

/-- The entries in `f n` are those of the keys with number `n`. -/
structure Split (eqv : K → K → Bool) (place : K → ℕ) (count : ℕ) (f : ℕ → List (K × D)) :
    Prop where
  place_eq : ∀ n < count, ∀ e ∈ f n, place e.1 = n
  distinct : ∀ n < count, Distinct eqv (f n)

namespace Split

variable {place : K → ℕ} {count n : ℕ} {f f' : ℕ → List (K × D)}

/-- The dictionary that is kept. -/
abbrev flat (count : ℕ) (f : ℕ → List (K × D)) : List (K × D) := (List.range count).flatMap f

section Place

variable (hplace : ∀ a b, eqv a b = true → place a = place b)
include hplace

/-- The key of one list is absent from all others. -/
theorem absent (hf : Split eqv place count f) {j : ℕ} (hj : j < count) (hne : place k ≠ j) :
    Absent eqv (f j) k := by
  intro e he
  by_contra hcmp
  exact hne ((hplace _ _ (by simpa using hcmp)).symm.trans (hf.place_eq j hj e he))

theorem absent_rest (hf : Split eqv place count f) {rest : List (K × D)}
    (hrest : ∀ e ∈ rest, ∃ j < count, j ≠ place k ∧ e ∈ f j) : Absent eqv rest k := by
  intro e he
  obtain ⟨j, hj, hne, hmem⟩ := hrest e he
  exact hf.absent hplace hj hne.symm e hmem

variable (he : IsKeyEq eqv)
include he

theorem distinct_flat (hf : Split eqv place count f) : Distinct eqv (flat count f) := by
  induction count with
  | zero => exact List.Pairwise.nil
  | succ count ih =>
    have hf' : Split eqv place count f :=
      ⟨fun n hn => hf.place_eq n (Nat.lt_succ_of_lt hn),
        fun n hn => hf.distinct n (Nat.lt_succ_of_lt hn)⟩
    rw [flat, List.range_succ, List.flatMap_append, List.flatMap_singleton]
    refine Distinct.append he (ih hf') (hf.distinct count (Nat.lt_succ_self _)) fun e hmem => ?_
    obtain ⟨j, hj, hmem⟩ := List.mem_flatMap.1 hmem
    have hj := List.mem_range.1 hj
    have hpl := hf'.place_eq j hj e hmem
    exact hf.absent hplace (Nat.lt_succ_self _) (by omega)

section

variable (hf : Split eqv place count f) (hk : place k < count)
include hf hk

theorem lookup_flat : lookup eqv (flat count f) k = lookup eqv (f (place k)) k := by
  obtain ⟨rest, hp, -, hrest⟩ := exists_rest (f := f) hk fun _ _ _ => rfl
  rw [lookup_perm he (hf.distinct_flat hplace he) hp, lookup_append (hf.absent_rest hplace hrest)]

/-- Setting a key in its own list sets it in the dictionary. -/
theorem assign (hoff : ∀ j < count, j ≠ place k → f' j = f j)
    (hn : (f' (place k)).Perm (assign eqv (f (place k)) k d)) :
    Split eqv place count f' ∧ (flat count f').Perm (Dictionary.assign eqv (flat count f) k d) := by
  obtain ⟨rest, hp, hp', hrest⟩ := exists_rest hk hoff
  refine ⟨⟨fun j hj e hmem => ?_, fun j hj => ?_⟩, ?_⟩
  · by_cases hjk : j = place k
    · subst hjk
      have hmem := hn.mem_iff.1 hmem
      rw [Dictionary.assign] at hmem
      split_ifs at hmem
      · obtain ⟨e', he', rfl⟩ := List.mem_map.1 hmem
        have := hf.place_eq _ hj e' he'
        split_ifs <;> exact this
      · rcases List.mem_cons.1 hmem with rfl | hmem
        · rfl
        · exact hf.place_eq _ hj e hmem
    · exact hf.place_eq j hj e (hoff j hj hjk ▸ hmem)
  · by_cases hjk : j = place k
    · subst hjk
      exact ((hf.distinct _ hj).assign he).perm he hn.symm
    · rw [hoff j hj hjk]
      exact hf.distinct j hj
  · have hmid := assign_append (d := d) (m := f (place k)) (hf.absent_rest hplace hrest)
    exact (hp'.trans (hn.append_right rest)).trans
      ((List.Perm.of_eq hmid.symm).trans (assign_perm hp.symm))

/-- Removing a key from its own list removes it from the dictionary. -/
theorem remove (hoff : ∀ j < count, j ≠ place k → f' j = f j)
    (hn : (f' (place k)).Perm (remove eqv (f (place k)) k)) :
    Split eqv place count f' ∧ (flat count f').Perm (Dictionary.remove eqv (flat count f) k) := by
  obtain ⟨rest, hp, hp', hrest⟩ := exists_rest hk hoff
  refine ⟨⟨fun j hj e hmem => ?_, fun j hj => ?_⟩, ?_⟩
  · by_cases hjk : j = place k
    · subst hjk
      exact hf.place_eq _ hj e (List.mem_of_mem_filter (hn.mem_iff.1 hmem))
    · exact hf.place_eq j hj e (hoff j hj hjk ▸ hmem)
  · by_cases hjk : j = place k
    · subst hjk
      exact ((hf.distinct _ hj).remove).perm he hn.symm
    · rw [hoff j hj hjk]
      exact hf.distinct j hj
  · have hmid := remove_append (m := f (place k)) (hf.absent_rest hplace hrest)
    exact (hp'.trans (hn.append_right rest)).trans
      ((List.Perm.of_eq hmid.symm).trans (remove_perm hp.symm))

end

end Place

end Split

end Dictionary

end Virtuoso.Lib
