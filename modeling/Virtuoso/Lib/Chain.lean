import Mathlib.Data.List.AList

/-!
# Chains in a heap

A heap maps the addresses in use to nodes; a node names its successor by address, and the
null address `0` ends a chain.  `IsChain next h p l` says that the nodes reached from the
pointer `p` are those at the addresses `l`, in order.

A chain depends only on the successors of its own nodes (`IsChain.congr`), it visits no
address twice (`IsChain.nodup`) and therefore is not longer than the heap
(`IsChain.length_le`), which bounds every loop that follows it.
-/

universe u

namespace Virtuoso.Lib

/-- The nodes in use, by address. -/
abbrev Heap (N : Type u) := AList fun _ : ℕ => N

variable {N : Type u} {next : N → ℕ} {h h' : Heap N}

/-- The nodes reached from the pointer are those at the given addresses. -/
def IsChain (next : N → ℕ) (h : Heap N) : ℕ → List ℕ → Prop
  | p, [] => p = 0
  | p, a :: l => p = a ∧ a ≠ 0 ∧ ∃ r, h.lookup a = some r ∧ IsChain next h (next r) l

namespace IsChain

variable {l : List ℕ} {p : ℕ}

theorem congr (hl : IsChain next h p l)
    (hn : ∀ a ∈ l, (h'.lookup a).map next = (h.lookup a).map next) : IsChain next h' p l := by
  induction l generalizing p with
  | nil => exact hl
  | cons a l ih =>
    obtain ⟨rfl, h0, r, hr, hrest⟩ := hl
    obtain ⟨r', hr', hnext⟩ : ∃ r', h'.lookup p = some r' ∧ next r' = next r := by
      have := hn p List.mem_cons_self
      rw [hr] at this
      simpa using this
    refine ⟨rfl, h0, r', hr', ?_⟩
    rw [hnext]
    exact ih hrest fun a ha => hn a (List.mem_cons_of_mem _ ha)

theorem unique {l' : List ℕ} (hl : IsChain next h p l) (hl' : IsChain next h p l') : l = l' := by
  induction l generalizing p l' with
  | nil =>
    cases l' with
    | nil => rfl
    | cons a l' => exact absurd (hl'.1.symm.trans hl) hl'.2.1
  | cons a l ih =>
    cases l' with
    | nil => exact absurd (hl.1.symm.trans hl') hl.2.1
    | cons a' l' =>
      obtain ⟨rfl, -, r, hr, hrest⟩ := hl
      obtain ⟨rfl, -, r', hr', hrest'⟩ := hl'
      obtain rfl : r = r' := by simpa [hr] using hr'
      rw [ih hrest hrest']

/-- From each node of a chain the rest of the chain goes on. -/
theorem of_append {a : ℕ} {l₁ l₂ : List ℕ} (hl : IsChain next h p (l₁ ++ a :: l₂)) :
    IsChain next h a (a :: l₂) := by
  induction l₁ generalizing p with
  | nil =>
    obtain ⟨rfl, hrest⟩ := hl
    exact ⟨rfl, hrest⟩
  | cons b l₁ ih =>
    obtain ⟨-, -, r, -, hrest⟩ := hl
    exact ih hrest

theorem nodup (hl : IsChain next h p l) : l.Nodup := by
  induction l generalizing p with
  | nil => exact List.nodup_nil
  | cons a l ih =>
    refine List.nodup_cons.2 ⟨fun hmem => ?_, ?_⟩
    · -- the chain from a second visit would be a proper part of itself
      obtain ⟨l₁, l₂, rfl⟩ := List.append_of_mem hmem
      have hfirst : IsChain next h a (a :: (l₁ ++ a :: l₂)) := hl.1 ▸ hl
      have hsecond : IsChain next h a (a :: l₂) := of_append hl.2.2.choose_spec.2
      have := congrArg List.length (hfirst.unique hsecond)
      simp only [List.length_cons, List.length_append] at this
      omega
    · exact ih hl.2.2.choose_spec.2

theorem exists_lookup (hl : IsChain next h p l) {a : ℕ} (ha : a ∈ l) :
    ∃ r, h.lookup a = some r := by
  obtain ⟨l₁, l₂, rfl⟩ := List.append_of_mem ha
  obtain ⟨-, -, r, hr, -⟩ := of_append hl
  exact ⟨r, hr⟩

theorem length_le (hl : IsChain next h p l) : l.length ≤ h.entries.length := by
  have hsub : l ⊆ h.keys := by
    intro a ha
    obtain ⟨r, hr⟩ := hl.exists_lookup ha
    rw [← AList.mem_keys, ← AList.lookup_isSome, hr]
    rfl
  have := (List.subperm_of_subset hl.nodup hsub).length_le
  simpa [AList.keys, List.keys] using this

end IsChain

end Virtuoso.Lib
