import Virtuoso.Graph.BfsExact

/-!
# Path reconstruction

`graph_algo_reconstruct_path` goes through the parents in the order of their array, from
`parents[0]` on, and not from a node to its parent.  The source is stored last, whether there is
room for it or not.
-/

namespace Virtuoso.Graph

section Code

variable (parents : ℕ → NodeId) (nodeCount : ℕ) (source : NodeId) (pathCapacity : ℕ)

/-- The loop of `graph_algo_reconstruct_path`: the error it returns or the `current` it ends with,
and the `length` ids in `path_out`.  The index `length - 1` is found in the array as long as
`left`, which is `node_count - length`, is not 0. -/
def pathLoop (left : ℕ) (current : NodeId) (pathOut : Array NodeId) :
    (GraphError ⊕ NodeId) × Array NodeId :=
  if current ≠ idInvalid ∧ current ≠ source then
    if pathCapacity ≤ pathOut.size then (.inl .capacityExceeded, pathOut)
    else
      match left with
      | 0 => (.inr current, pathOut.push current)
      | left + 1 =>
        if nodeCount < pathOut.size + 1 then (.inl .corrupted, pathOut.push current)
        else pathLoop left (parents pathOut.size) (pathOut.push current)
  else (.inr current, pathOut)

/-- `graph_algo_reconstruct_path`: the error code, and what was stored in `path_out`. -/
def graphAlgoReconstructPath (target : NodeId) : GraphError × Array NodeId :=
  match pathLoop parents nodeCount source pathCapacity nodeCount target #[] with
  | (.inl error, pathOut) => (error, pathOut)
  | (.inr current, pathOut) =>
    if current ≠ source then (.noPath, pathOut) else (.ok, (pathOut.push source).reverse)

end Code

/-- The path that the parents record: from the source to the target, each node the recorded parent
of the next. -/
structure IsPath (nodeMap : List NodeId) (parents : ℕ → NodeId) (source target : NodeId)
    (path : List NodeId) : Prop where
  head : path.head? = some source
  last : path.getLast? = some target
  parent : path.IsChain fun u v => ∃ i, nodeMap[i]? = some v ∧ parents i = u

/-- The path is stored, or there is none, or it has too many nodes, and the answer says so; nothing
is stored beyond the capacity. -/
def Reconstructs (nodeMap : List NodeId) (parents : ℕ → NodeId) (source target : NodeId)
    (pathCapacity : ℕ) : Prop :=
  let r := graphAlgoReconstructPath parents nodeMap.length source pathCapacity target
  r.2.size ≤ pathCapacity ∧
    ((r.1 = .ok ∧ IsPath nodeMap parents source target r.2.toList) ∨
      (r.1 = .noPath ∧ ∀ path, ¬ IsPath nodeMap parents source target path) ∨
      r.1 = .capacityExceeded ∧
        ∃ path, IsPath nodeMap parents source target path ∧ pathCapacity < path.length)

/-! ## What the loop goes through -/

section Loop

variable {nodeMap : List NodeId} {parents : ℕ → NodeId} {nodeCount : ℕ} {source target : NodeId}
  {pathCapacity k : ℕ}

/-- The target, then the parents in the order of the array. -/
def inOrder (parents : ℕ → NodeId) (target : NodeId) : ℕ → NodeId
  | 0 => target
  | k + 1 => parents k

/-- The loop goes on at the first `k` of them. -/
def GoesOn (parents : ℕ → NodeId) (source target : NodeId) (k : ℕ) : Prop :=
  ∀ j < k, inOrder parents target j ≠ idInvalid ∧ inOrder parents target j ≠ source

section

variable (hk : k ≤ nodeCount) (hcap : k ≤ pathCapacity) (hon : GoesOn parents source target k)
include hk hcap hon

theorem pathLoop_advance :
    pathLoop parents nodeCount source pathCapacity nodeCount target #[] =
      pathLoop parents nodeCount source pathCapacity (nodeCount - k) (inOrder parents target k)
        ((List.range k).map (inOrder parents target)).toArray := by
  induction k with
  | zero => rfl
  | succ k ih =>
    obtain ⟨left, hleft⟩ : ∃ left, nodeCount - k = left + 1 := ⟨nodeCount - (k + 1), by omega⟩
    rw [ih (by omega) (by omega) fun j hj => hon j (by omega), hleft, pathLoop,
      if_pos (hon k (Nat.lt_succ_self k)), show nodeCount - (k + 1) = left by omega]
    simp [List.range_succ, inOrder, show ¬ pathCapacity ≤ k by omega,
      show ¬ nodeCount < k + 1 by omega]

/-- The loop ends at the source or at an invalid id. -/
theorem reconstruct_of_stop
    (hstop : inOrder parents target k = idInvalid ∨ inOrder parents target k = source) :
    graphAlgoReconstructPath parents nodeCount source pathCapacity target =
      if inOrder parents target k ≠ source then
        (.noPath, ((List.range k).map (inOrder parents target)).toArray)
      else (.ok, ((List.range (k + 1)).map (inOrder parents target)).reverse.toArray) := by
  rw [graphAlgoReconstructPath, pathLoop_advance hk hcap hon, pathLoop.eq_def, if_neg (by tauto)]
  split_ifs with h
  · exact if_pos h
  · simp [List.range_succ, not_not.1 h]

end

/-- There is no room. -/
theorem reconstruct_of_full (hle : pathCapacity ≤ nodeCount)
    (hon : GoesOn parents source target (pathCapacity + 1)) :
    graphAlgoReconstructPath parents nodeCount source pathCapacity target =
      (.capacityExceeded, ((List.range pathCapacity).map (inOrder parents target)).toArray) := by
  rw [graphAlgoReconstructPath, pathLoop_advance hle le_rfl fun j hj => hon j (by omega),
    pathLoop.eq_def, if_pos (hon _ (Nat.lt_succ_self _)), if_pos (by simp)]

/-- The array ends. -/
theorem reconstruct_of_end (hlt : nodeCount < pathCapacity)
    (hon : GoesOn parents source target (nodeCount + 1)) :
    graphAlgoReconstructPath parents nodeCount source pathCapacity target =
      (.noPath, ((List.range (nodeCount + 1)).map (inOrder parents target)).toArray) := by
  have hlast := hon _ (Nat.lt_succ_self _)
  rw [graphAlgoReconstructPath, pathLoop_advance le_rfl hlt.le fun j hj => hon j (by omega),
    Nat.sub_self, pathLoop, if_pos hlast, if_neg (by simpa using hlt)]
  simp [hlast.2, List.range_succ]

/-- What is stored is the path exactly if each id is the recorded parent of the one before. -/
theorem isPath_inOrder_iff (hsource : inOrder parents target k = source) :
    IsPath nodeMap parents source target
      ((List.range (k + 1)).map (inOrder parents target)).reverse ↔
      ∀ j < k, ∃ i, nodeMap[i]? = some (inOrder parents target j) ∧ parents i = parents j := by
  have hchain :=
    List.isChain_range_succ (fun j l => ∃ i, nodeMap[i]? = some (inOrder parents target j) ∧
      parents i = inOrder parents target l) k
  refine ⟨fun h => hchain.1 ?_, fun h => ⟨?_, ?_, ?_⟩⟩
  · simpa only [List.isChain_reverse, List.isChain_map] using h.parent
  · rw [List.head?_reverse, List.range_succ]
    simp [hsource]
  · rw [List.getLast?_reverse, List.range_succ_eq_map]
    rfl
  · simpa only [List.isChain_reverse, List.isChain_map] using hchain.2 h

theorem goesOn_or (n : ℕ) : GoesOn parents source target n ∨
    ∃ k < n, GoesOn parents source target k ∧
      (inOrder parents target k = idInvalid ∨ inOrder parents target k = source) := by
  induction n with
  | zero => exact .inl fun j hj => absurd hj (Nat.not_lt_zero j)
  | succ n ih =>
    rcases ih with h | ⟨k, hk, h⟩
    · by_cases hn : inOrder parents target n = idInvalid ∨ inOrder parents target n = source
      · exact .inr ⟨n, Nat.lt_succ_self n, h, hn⟩
      · refine .inl fun j hj => ?_
        rcases Nat.lt_succ_iff_lt_or_eq.1 hj with hj | rfl
        · exact h j hj
        · exact not_or.1 hn
    · exact .inr ⟨k, by omega, h⟩

end Loop

/-- **When a path is reconstructed.**  Read in the order of the array, the parents must happen to be
the path, and it must leave room for the source; or they must not end before the capacity is used
up, for a path that is too long; or end with an invalid id or with the array, for none. -/
theorem reconstructs_iff (nodeMap : List NodeId) (parents : ℕ → NodeId) (source target : NodeId)
    (pathCapacity : ℕ) :
    Reconstructs nodeMap parents source target pathCapacity ↔
      (∃ k < pathCapacity, k ≤ nodeMap.length ∧ GoesOn parents source target k ∧
          inOrder parents target k = source ∧
          ∀ j < k, ∃ i, nodeMap[i]? = some (inOrder parents target j) ∧ parents i = parents j) ∨
        ((∃ path, IsPath nodeMap parents source target path ∧ pathCapacity < path.length) ∧
          pathCapacity ≤ nodeMap.length ∧ GoesOn parents source target (pathCapacity + 1)) ∨
        (∀ path, ¬ IsPath nodeMap parents source target path) ∧
          ((∃ k ≤ pathCapacity, k ≤ nodeMap.length ∧ GoesOn parents source target k ∧
              inOrder parents target k = idInvalid ∧ idInvalid ≠ source) ∨
            nodeMap.length < pathCapacity ∧ GoesOn parents source target (nodeMap.length + 1)) := by
  constructor
  · rintro ⟨hsize, h⟩
    rcases @goesOn_or parents source target (min nodeMap.length pathCapacity + 1) with
      hon | ⟨k, hk, hon, hstop⟩
    · rcases le_or_gt pathCapacity nodeMap.length with hle | hlt
      · rw [min_eq_right hle] at hon
        rw [reconstruct_of_full hle hon] at h
        exact .inr (.inl ⟨by simpa using h, hle, hon⟩)
      · rw [min_eq_left hlt.le] at hon
        rw [reconstruct_of_end hlt hon] at h
        exact .inr (.inr ⟨by simpa using h, .inr ⟨hlt, hon⟩⟩)
    · rw [reconstruct_of_stop (by omega) (by omega) hon hstop] at hsize h
      by_cases hsource : inOrder parents target k = source
      · simp only [ne_eq, hsource, not_true_eq_false, if_false] at hsize h
        refine .inl ⟨k, by simpa using hsize, by omega, hon, hsource, ?_⟩
        exact (isPath_inOrder_iff hsource).1 (by simpa using h)
      · have hinvalid := hstop.resolve_right hsource
        simp only [ne_eq, hsource, not_false_eq_true, if_true] at h
        exact .inr (.inr
          ⟨by simpa using h, .inl ⟨k, by omega, by omega, hon, hinvalid, hinvalid ▸ hsource⟩⟩)
  · rintro (⟨k, hk, hle, hon, hsource, hpath⟩ | ⟨hlong, hle, hon⟩ |
      ⟨hnone, ⟨k, hk, hle, hon, hinvalid, hne⟩ | ⟨hlt, hon⟩⟩)
    · rw [Reconstructs, reconstruct_of_stop hle hk.le hon (.inr hsource),
        if_neg (not_not.2 hsource)]
      exact ⟨by simpa using hk, .inl ⟨rfl, (isPath_inOrder_iff hsource).2 hpath⟩⟩
    · rw [Reconstructs, reconstruct_of_full hle hon]
      exact ⟨by simp, .inr (.inr ⟨rfl, hlong⟩)⟩
    · rw [Reconstructs, reconstruct_of_stop hle hk hon (.inl hinvalid), if_pos (hinvalid ▸ hne)]
      exact ⟨by simpa using hk, .inr (.inl ⟨rfl, hnone⟩)⟩
    · rw [Reconstructs, reconstruct_of_end hlt hon]
      exact ⟨by simpa using hlt, .inr (.inl ⟨rfl, hnone⟩)⟩

/-- A search that succeeds, and the path to its source: it is stored where no room is left. -/
theorem exists_not_reconstructs :
    ∃ (c : BfsCall) (r : BfsResult), CompactSnapshot c.snapshot (starList 3) ∧
      graphAlgoBfs c r = some (.ok, r) ∧
      ¬ Reconstructs c.snapshot.nodeMap r.parents c.source c.source 0 := by
  obtain ⟨s, hs⟩ := exists_starSnapshot (n := 3) (by norm_num)
  have hsource : 1 ∈ s.nodeMap :=
    hs.nodeMap_eq ▸ (by decide : (1 : NodeId) ∈ collectNodes (starList 3))
  obtain ⟨r, hr, -, hsame⟩ := bfsWell_of_lt hs (by rw [starList, length_fan]; norm_num)
    ⟨s, 1, .outgoing, none, true, false, none, fun _ => none⟩
      ⟨fun _ => none, fun _ => 0, 0, 0, 0⟩ rfl hsource
  refine ⟨_, r, hs, hsame _ r rfl rfl rfl rfl, fun h => absurd h.1 ?_⟩
  rw [graphAlgoReconstructPath, pathLoop.eq_def]
  simp

end Virtuoso.Graph
