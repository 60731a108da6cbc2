import Mathlib.Data.List.Nodup
import Mathlib.Data.List.Range

/-!
# Buffers with assigned slots

Several writers fill a buffer.  If the slots of the writers are assigned before they
start, the order in which the writes arrive does not matter.
-/

universe u

namespace Virtuoso.Lib

variable {β : Type u}

/-- The buffer after the writes, in order. -/
def writeAll (ws : List (ℕ × β)) (buf : ℕ → β) : ℕ → β :=
  ws.foldl (fun buf w => Function.update buf w.1 w.2) buf

variable {buf : ℕ → β}

theorem writeAll_of_notMem {ws : List (ℕ × β)} {k : ℕ} (h : k ∉ ws.map Prod.fst) :
    writeAll ws buf k = buf k := by
  induction ws generalizing buf with
  | nil => rfl
  | cons w ws ih =>
    obtain ⟨hk, hrest⟩ := not_or.1 (mt List.mem_cons.2 h)
    exact (ih hrest).trans (Function.update_of_ne hk _ _)

/-- A slot written once holds what was written. -/
theorem writeAll_of_mem {ws : List (ℕ × β)} {w : ℕ × β} (hnodup : (ws.map Prod.fst).Nodup)
    (h : w ∈ ws) : writeAll ws buf w.1 = w.2 := by
  induction ws generalizing buf with
  | nil => cases h
  | cons w' ws ih =>
    obtain ⟨hnew, hrest⟩ := List.nodup_cons.1 hnodup
    rcases List.mem_cons.1 h with rfl | hmem
    · exact (writeAll_of_notMem hnew).trans (Function.update_self _ _ _)
    · exact ih hrest hmem

/-- If what is written depends on the slot alone, a slot that is written holds it. -/
theorem writeAll_map {v : ℕ → β} {ks : List ℕ} {k : ℕ} (h : k ∈ ks) :
    writeAll (ks.map fun k => (k, v k)) buf k = v k := by
  induction ks generalizing buf with
  | nil => cases h
  | cons k' ks ih =>
    by_cases hmem : k ∈ ks
    · exact ih hmem
    · obtain rfl : k = k' := (List.mem_cons.1 h).resolve_right hmem
      have hnew : k ∉ (ks.map fun k => (k, v k)).map Prod.fst := by simpa using hmem
      exact (writeAll_of_notMem hnew).trans (Function.update_self _ _ _)

/-- Consecutive ranges make up one range. -/
theorem flatMap_range'_offsets {c : ℕ → ℕ} {n : ℕ} (hmono : ∀ k < n, c k ≤ c (k + 1)) :
    ((List.range n).flatMap fun k => List.range' (c k) (c (k + 1) - c k)) =
      List.range' (c 0) (c n - c 0) := by
  induction n with
  | zero => simp
  | succ n ih =>
    have hstart : c 0 ≤ c n := by
      clear ih
      induction n with
      | zero => exact le_rfl
      | succ n ih =>
        exact (ih fun k hk => hmono k (hk.trans (Nat.lt_succ_self _))).trans
          (hmono n ((Nat.lt_succ_self n).trans (Nat.lt_succ_self _)))
    have hlast := hmono n (Nat.lt_succ_self n)
    rw [List.range_succ, List.flatMap_append, List.flatMap_singleton,
      ih fun k hk => hmono k (hk.trans (Nat.lt_succ_self n))]
    have hjoin := List.range'_append_1 (s := c 0) (m := c n - c 0) (n := c (n + 1) - c n)
    rw [show c 0 + (c n - c 0) = c n by omega,
      show c n - c 0 + (c (n + 1) - c n) = c (n + 1) - c 0 by omega] at hjoin
    exact hjoin

end Virtuoso.Lib
