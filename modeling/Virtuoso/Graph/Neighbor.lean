import Virtuoso.Graph.Compact

/-!
# The neighbour iterator

Every traversal walks the neighbours of a vertex through one iterator.  It yields
node indices: first along the forward row, then along the inverse row, then along
the additions of the delta chain.  Without a predicate filter and a delta chain the
endpoint indices are read off the rows (`fast`), and a caller may jump to a position
or take a whole row as a run.

The iterator is described by the list `rest` of what it still yields; a neighbour
that the snapshot cannot place (`UINT64_MAX`) is `none`.
-/

namespace Virtuoso.Graph

open Lib

/-- `graph_direction_t`. -/
inductive Direction
  | outgoing
  | incoming
  | both
deriving DecidableEq

/-- The forward rows are walked. -/
def Direction.Forwards (dir : Direction) : Prop := dir = .outgoing ∨ dir = .both

/-- The inverse rows are walked. -/
def Direction.Backwards (dir : Direction) : Prop := dir = .incoming ∨ dir = .both

instance (dir : Direction) : Decidable dir.Forwards := inferInstanceAs (Decidable (_ ∨ _))

instance (dir : Direction) : Decidable dir.Backwards := inferInstanceAs (Decidable (_ ∨ _))

/-- `graph_pred_filter_t`. -/
structure PredFilter where
  predicates : List PredId
  exclude : Bool

/-- `pred_matches`. -/
def predMatches : Option PredFilter → PredId → Bool
  | none, _ => true
  | some filter, pred =>
    let found := decide (pred ∈ filter.predicates)
    if filter.exclude then !found else found

/-- `graph_chain_has_deletions`. -/
def graphChainHasDeletions (deltaHead : List Delta) : Bool :=
  deltaHead.any fun d => decide (d.deletions.length ≠ 0)

/-- `graph_snapshot_find_node`.  A snapshot of a dense store without a chain has no table. -/
def graphSnapshotFindNode (s : Snapshot) (id : NodeId) : Option ℕ :=
  if s.graph.base.denseIds = true ∧ s.deltaHead = [] then graphBaseNodeIndex s.graph.base id
  else s.nodeMap.idxOf? id

/-- `graph_base_get_edges_at`: the first slot of a row and its length as a `uint32_t`. -/
def graphBaseGetEdgesAt (b : Base) (idx : Option ℕ) : ℕ × ℕ :=
  match idx with
  | none => (0, 0)
  | some i =>
    if b.nodeCount ≤ i then (0, 0)
    else (b.edgeOffsets i, (b.edgeOffsets (i + 1) - b.edgeOffsets i) % 2 ^ 32)

/-- `graph_base_get_inverse_edges_at`. -/
def graphBaseGetInverseEdgesAt (b : Base) (idx : Option ℕ) : ℕ × ℕ :=
  match idx with
  | none => (0, 0)
  | some i =>
    if b.hasInverse = false ∨ b.nodeCount ≤ i then (0, 0)
    else (b.invOffsets i, (b.invOffsets (i + 1) - b.invOffsets i) % 2 ^ 32)

/-- `neighbor_ctx_t`. -/
structure NeighborCtx where
  snapshot : Snapshot
  node : NodeId
  direction : Direction
  predFilter : Option PredFilter
  baseStart : ℕ
  baseCount : ℕ
  baseIdx : ℕ
  invStart : ℕ
  invCount : ℕ
  invIdx : ℕ
  /-- The additions of the chain that were not walked yet: `delta` and `delta_idx`. -/
  additions : List Triple
  useIx : Bool
  hasDel : Bool
  fast : Bool

/-- `neighbor_init_at`; `indexWalk` is the switch `graph_neighbor_index_walk`. -/
def neighborInitAt (indexWalk : Bool) (s : Snapshot) (nodeIndex : ℕ) (direction : Direction)
    (predFilter : Option PredFilter) : NeighborCtx :=
  let base := s.graph.base
  let node :=
    if s.deltaHead ≠ [] then s.nodeMap.getD nodeIndex idInvalid
    else if nodeIndex < base.nodeCount then base.nodeIds nodeIndex
    else idInvalid
  let baseIndex :=
    if s.deltaHead ≠ [] then
      if node ≠ idInvalid then graphBaseNodeIndex base node else none
    else some nodeIndex
  let row := if direction.Forwards then graphBaseGetEdgesAt base baseIndex else (0, 0)
  let invRow := if direction.Backwards then graphBaseGetInverseEdgesAt base baseIndex else (0, 0)
  let useIx := decide (s.deltaHead = [])
  let hasDel := graphChainHasDeletions s.deltaHead
  { snapshot := s
    node
    direction
    predFilter
    baseStart := row.1
    baseCount := row.2
    baseIdx := 0
    invStart := invRow.1
    invCount := invRow.2
    invIdx := 0
    additions := s.deltaHead.flatMap Delta.additions
    useIx
    hasDel
    fast := indexWalk && predFilter.isNone && useIx && !hasDel }

namespace NeighborCtx

/-- The endpoint index in position `at'` of the forward row. -/
def targetAt (c : NeighborCtx) (at' : ℕ) : ℕ :=
  graphIxAt (fun i => c.snapshot.graph.base.edgeTargets (c.baseStart + i)) at'

/-- The endpoint index in position `at'` of the inverse row. -/
def sourceAt (c : NeighborCtx) (at' : ℕ) : ℕ :=
  graphIxAt (fun i => c.snapshot.graph.base.invSources (c.invStart + i)) at'

/-- The general walk yields the edge in position `at'` of the forward row. -/
def keepsOut (c : NeighborCtx) (at' : ℕ) : Bool :=
  let pred := graphBaseSlotPred c.snapshot.graph.base (c.baseStart + at')
  let obj := graphBaseSlotObj c.snapshot.graph.base (c.baseStart + at')
  predMatches c.predFilter pred &&
    !(c.hasDel && graphIsTripleDeleted c.snapshot.deltaHead ⟨c.node, pred, obj⟩)

def outIx (c : NeighborCtx) (at' : ℕ) : Option ℕ :=
  if c.useIx then some (c.targetAt at')
  else
    graphSnapshotFindNode c.snapshot
      (graphBaseSlotObj c.snapshot.graph.base (c.baseStart + at'))

/-- The general walk yields the edge in position `at'` of the inverse row. -/
def keepsIn (c : NeighborCtx) (at' : ℕ) : Bool :=
  let pred := graphBaseInvSlotPred c.snapshot.graph.base (c.invStart + at')
  let subj := graphBaseInvSlotSubj c.snapshot.graph.base (c.invStart + at')
  predMatches c.predFilter pred &&
    !(c.hasDel && graphIsTripleDeleted c.snapshot.deltaHead ⟨subj, pred, c.node⟩)

def inIx (c : NeighborCtx) (at' : ℕ) : Option ℕ :=
  if c.useIx then some (c.sourceAt at')
  else
    graphSnapshotFindNode c.snapshot
      (graphBaseInvSlotSubj c.snapshot.graph.base (c.invStart + at'))

/-- The general walk yields the addition `t`. -/
def keepsAddition (c : NeighborCtx) (t : Triple) : Bool :=
  (match c.direction with
    | .outgoing => decide (t.subject = c.node)
    | .incoming => decide (t.object = c.node)
    | .both => decide (t.subject = c.node) || decide (t.object = c.node)) &&
    predMatches c.predFilter t.predicate

def additionIx (c : NeighborCtx) (t : Triple) : Option ℕ :=
  graphSnapshotFindNode c.snapshot (if t.subject = c.node then t.object else t.subject)

/-- The positions of the forward row that are left. -/
def outLeft (c : NeighborCtx) : List ℕ := List.range' c.baseIdx (c.baseCount - c.baseIdx)

/-- The positions of the inverse row that are left. -/
def inLeft (c : NeighborCtx) : List ℕ := List.range' c.invIdx (c.invCount - c.invIdx)

/-- What the iterator still yields. -/
def rest (c : NeighborCtx) : List (Option ℕ) :=
  if c.fast then
    c.outLeft.map (fun at' => some (c.targetAt at')) ++ c.inLeft.map fun at' =>
      some (c.sourceAt at')
  else
    (c.outLeft.filter c.keepsOut).map c.outIx ++ (c.inLeft.filter c.keepsIn).map c.inIx ++
      (c.additions.filter c.keepsAddition).map c.additionIx

end NeighborCtx

/-- The delta phase of `neighbor_next`: the first addition that is not skipped. -/
def nextAddition (c : NeighborCtx) : Option (Option ℕ × NeighborCtx) :=
  match c.additions.dropWhile fun t => !c.keepsAddition t with
  | t :: additions => some (c.additionIx t, { c with additions })
  | [] => none

/-- The inverse row and what follows it. -/
def nextIncoming (c : NeighborCtx) : Option (Option ℕ × NeighborCtx) :=
  match c.inLeft.find? c.keepsIn with
  | some at' => some (c.inIx at', { c with invIdx := at' + 1 })
  | none => nextAddition { c with invIdx := c.invCount }

/-- The forward row and what follows it. -/
def nextOutgoing (c : NeighborCtx) : Option (Option ℕ × NeighborCtx) :=
  match c.outLeft.find? c.keepsOut with
  | some at' => some (c.outIx at', { c with baseIdx := at' + 1 })
  | none => nextIncoming { c with baseIdx := c.baseCount }

/-- `neighbor_next`: the neighbour and the advanced iterator, or `none` at the end. -/
def neighborNext (c : NeighborCtx) : Option (Option ℕ × NeighborCtx) :=
  if c.fast then
    if c.baseIdx < c.baseCount then
      some (some (c.targetAt c.baseIdx), { c with baseIdx := c.baseIdx + 1 })
    else if c.invIdx < c.invCount then
      some (some (c.sourceAt c.invIdx), { c with invIdx := c.invIdx + 1 })
    else none
  else nextOutgoing c

/-- `while (neighbor_next (&ctx, &ix))`: what the next `fuel` calls yield. -/
def neighborYields : ℕ → NeighborCtx → List (Option ℕ)
  | 0, _ => []
  | fuel + 1, c =>
    match neighborNext c with
    | none => []
    | some (ix, c') => ix :: neighborYields fuel c'

/-- More calls than the walk has edges to offer. -/
def NeighborCtx.calls (c : NeighborCtx) : ℕ := c.baseCount + c.invCount + c.additions.length + 1

/-- `neighbor_skip`: `none` for the caller that has to count itself. -/
def neighborSkip (c : NeighborCtx) (n : ℕ) : Option NeighborCtx :=
  if !c.fast then none
  else if n ≤ c.baseCount then some { c with baseIdx := n }
  else
    let n := n - c.baseCount
    some { c with baseIdx := c.baseCount, invIdx := if c.invCount < n then c.invCount else n }

/-- `neighbor_next_run`: what is left of a row. -/
def neighborNextRun (c : NeighborCtx) : Option (List ℕ × NeighborCtx) :=
  if !c.fast then none
  else if c.baseIdx < c.baseCount then
    some (c.outLeft.map c.targetAt, { c with baseIdx := c.baseCount })
  else if c.invIdx < c.invCount then
    some (c.inLeft.map c.sourceAt, { c with invIdx := c.invCount })
  else none

/-- The runs that the next `fuel` calls give. -/
def neighborRuns : ℕ → NeighborCtx → List (List ℕ)
  | 0, _ => []
  | fuel + 1, c =>
    match neighborNextRun c with
    | none => []
    | some (run, c') => run :: neighborRuns fuel c'

/-- `NEIGHBOR_FOREACH`: the indices for which the body runs.  There are two runs at most. -/
def neighborForeach (c : NeighborCtx) : List ℕ :=
  let runs := neighborRuns 3 c
  if runs ≠ [] then runs.flatten else (neighborYields c.calls c).filterMap id

/-! ## What the iterator yields -/

variable {n : ℕ} {b : Base}

/-- The first match of a range, and the matches after it. -/
theorem filter_range'_of_find? {p : ℕ → Bool} {s a : ℕ} (h : (List.range' s n).find? p = some a) :
    (List.range' s n).filter p = a :: (List.range' (a + 1) (s + n - (a + 1))).filter p := by
  induction n generalizing s with
  | zero => cases h
  | succ n ih =>
    rw [List.range'_succ] at h ⊢
    cases hp : p s with
    | true =>
      rw [List.find?_cons_of_pos hp] at h
      cases h
      rw [List.filter_cons_of_pos hp]
      congr 3
      omega
    | false =>
      have hp' : ¬ p s = true := by simp [hp]
      rw [List.find?_cons_of_neg hp'] at h
      rw [List.filter_cons_of_neg hp', ih h]
      congr 3
      omega

theorem filter_eq_nil_of_find? {α : Type*} {p : α → Bool} {l : List α} (h : l.find? p = none) :
    l.filter p = [] := by
  rw [List.filter_eq_nil_iff]
  exact List.find?_eq_none.1 h

namespace NeighborCtx

variable {c c' : NeighborCtx}

theorem outLeft_cons (h : c.baseIdx < c.baseCount) :
    c.outLeft = c.baseIdx :: { c with baseIdx := c.baseIdx + 1 }.outLeft := by
  obtain ⟨k, hk⟩ := Nat.exists_eq_add_of_lt h
  simp only [outLeft, hk]
  rw [show c.baseIdx + k + 1 - c.baseIdx = k + 1 by omega,
    show c.baseIdx + k + 1 - (c.baseIdx + 1) = k by omega, List.range'_succ]

theorem inLeft_cons (h : c.invIdx < c.invCount) :
    c.inLeft = c.invIdx :: { c with invIdx := c.invIdx + 1 }.inLeft := by
  obtain ⟨k, hk⟩ := Nat.exists_eq_add_of_lt h
  simp only [inLeft, hk]
  rw [show c.invIdx + k + 1 - c.invIdx = k + 1 by omega,
    show c.invIdx + k + 1 - (c.invIdx + 1) = k by omega, List.range'_succ]

theorem outLeft_eq_nil (h : c.baseCount ≤ c.baseIdx) : c.outLeft = [] := by
  simp [outLeft, Nat.sub_eq_zero_of_le h]

theorem inLeft_eq_nil (h : c.invCount ≤ c.invIdx) : c.inLeft = [] := by
  simp [inLeft, Nat.sub_eq_zero_of_le h]

/-- What an iterator yields, given the outcome of the next call. -/
def yieldedBy : Option (Option ℕ × NeighborCtx) → List (Option ℕ)
  | none => []
  | some r => r.1 :: r.2.rest

theorem rest_nextAddition (hfast : ¬ c.fast = true) (hout : c.baseIdx = c.baseCount)
    (hin : c.invIdx = c.invCount) : c.rest = yieldedBy (nextAddition c) := by
  have hsplit := List.takeWhile_append_dropWhile (p := fun t => !c.keepsAddition t)
    (l := c.additions)
  have hskip : (c.additions.takeWhile fun t => !c.keepsAddition t).filter c.keepsAddition = [] := by
    rw [List.filter_eq_nil_iff]
    intro u hu
    simpa using List.all_eq_true.1 List.all_takeWhile u hu
  rw [rest, if_neg hfast, outLeft_eq_nil hout.ge, inLeft_eq_nil hin.ge, ← hsplit,
    List.filter_append, hskip, nextAddition]
  cases hrest : c.additions.dropWhile fun t => !c.keepsAddition t with
  | nil => rfl
  | cons t additions =>
    have hkeep : c.keepsAddition t = true := by
      have := List.head_dropWhile_not (fun t => !c.keepsAddition t)
        (show c.additions.dropWhile _ ≠ [] by simp [hrest])
      simpa [hrest] using this
    rw [List.nil_append, List.filter_cons_of_pos hkeep]
    simp only [yieldedBy, rest, if_neg hfast]
    rw [outLeft_eq_nil (c := { c with additions }) hout.ge,
      inLeft_eq_nil (c := { c with additions }) hin.ge]
    rfl

theorem rest_nextIncoming (hfast : ¬ c.fast = true) (hout : c.baseIdx = c.baseCount) :
    c.rest = yieldedBy (nextIncoming c) := by
  rw [nextIncoming]
  cases hfind : c.inLeft.find? c.keepsIn with
  | none =>
    refine Eq.trans ?_ (rest_nextAddition (c := { c with invIdx := c.invCount }) hfast hout rfl)
    rw [rest, rest, if_neg hfast, if_neg hfast, filter_eq_nil_of_find? hfind,
      inLeft_eq_nil (c := { c with invIdx := c.invCount }) le_rfl]
    rfl
  | some at' =>
    have hrow := filter_range'_of_find? hfind
    have hmem := List.mem_of_find?_eq_some hfind
    rw [inLeft, List.mem_range'_1] at hmem
    rw [show c.invIdx + (c.invCount - c.invIdx) = c.invCount by omega] at hrow
    simp only [yieldedBy, rest, if_neg hfast]
    rw [outLeft_eq_nil hout.ge, outLeft_eq_nil (c := { c with invIdx := at' + 1 }) hout.ge, inLeft,
      hrow]
    rfl

theorem rest_nextOutgoing (hfast : ¬ c.fast = true) : c.rest = yieldedBy (nextOutgoing c) := by
  rw [nextOutgoing]
  cases hfind : c.outLeft.find? c.keepsOut with
  | none =>
    refine Eq.trans ?_ (rest_nextIncoming (c := { c with baseIdx := c.baseCount }) hfast rfl)
    rw [rest, rest, if_neg hfast, if_neg hfast, filter_eq_nil_of_find? hfind,
      outLeft_eq_nil (c := { c with baseIdx := c.baseCount }) le_rfl]
    rfl
  | some at' =>
    have hrow := filter_range'_of_find? hfind
    have hmem := List.mem_of_find?_eq_some hfind
    rw [outLeft, List.mem_range'_1] at hmem
    rw [show c.baseIdx + (c.baseCount - c.baseIdx) = c.baseCount by omega] at hrow
    simp only [yieldedBy, rest, if_neg hfast]
    rw [outLeft, hrow]
    rfl

/-- Each call yields the head of what is left. -/
theorem rest_neighborNext (c : NeighborCtx) : c.rest = yieldedBy (neighborNext c) := by
  rw [neighborNext]
  split_ifs with hfast h₁ h₂
  · simp only [yieldedBy, rest, if_pos hfast]
    rw [outLeft_cons h₁]
    rfl
  · simp only [yieldedBy, rest, if_pos hfast]
    rw [outLeft_eq_nil (not_lt.1 h₁),
      outLeft_eq_nil (c := { c with invIdx := c.invIdx + 1 }) (not_lt.1 h₁), inLeft_cons h₂]
    rfl
  · rw [rest, if_pos hfast, outLeft_eq_nil (not_lt.1 h₁), inLeft_eq_nil (not_lt.1 h₂)]
    rfl
  · exact rest_nextOutgoing hfast

theorem length_rest_lt_calls (c : NeighborCtx) : c.rest.length < c.calls := by
  have h₁ : c.outLeft.length ≤ c.baseCount := by simp [outLeft]
  have h₂ : c.inLeft.length ≤ c.invCount := by simp [inLeft]
  unfold rest calls
  split_ifs
  · simp only [List.length_append, List.length_map]
    omega
  · have h₃ := List.length_filter_le c.keepsOut c.outLeft
    have h₄ := List.length_filter_le c.keepsIn c.inLeft
    have h₅ := List.length_filter_le c.keepsAddition c.additions
    simp only [List.length_append, List.length_map]
    omega

end NeighborCtx

theorem neighborYields_of_lt {fuel : ℕ} {c : NeighborCtx} (h : c.rest.length < fuel) :
    neighborYields fuel c = c.rest := by
  induction fuel generalizing c with
  | zero => exact absurd h (Nat.not_lt_zero _)
  | succ fuel ih =>
    rw [neighborYields]
    have hrest := c.rest_neighborNext
    cases hnext : neighborNext c with
    | none => rw [hrest, hnext, NeighborCtx.yieldedBy]
    | some r =>
      rw [hnext, NeighborCtx.yieldedBy] at hrest
      rw [hrest] at h ⊢
      exact congrArg (r.1 :: ·) (ih (Nat.lt_of_succ_lt_succ h))

theorem neighborYields_eq (c : NeighborCtx) : neighborYields c.calls c = c.rest :=
  neighborYields_of_lt c.length_rest_lt_calls

/-- The runs are what the calls one by one would yield. -/
theorem neighborForeach_eq (c : NeighborCtx) : neighborForeach c = c.rest.filterMap id := by
  have hmap (l : List ℕ) (f : ℕ → ℕ) : (l.map fun x => some (f x)).filterMap id = l.map f := by
    rw [List.filterMap_map]
    exact congrFun List.filterMap_eq_map l
  simp only [neighborForeach, neighborYields_eq]
  split_ifs with hruns
  · by_cases hfast : c.fast = true
    · rw [NeighborCtx.rest, if_pos hfast, List.filterMap_append, hmap, hmap]
      by_cases h₁ : c.baseIdx < c.baseCount
      · by_cases h₂ : c.invIdx < c.invCount
        · simp [neighborRuns, neighborNextRun, hfast, h₁, h₂, NeighborCtx.inLeft,
            NeighborCtx.sourceAt]
        · simp [neighborRuns, neighborNextRun, hfast, h₁, h₂,
            NeighborCtx.inLeft_eq_nil (not_lt.1 h₂)]
      · by_cases h₂ : c.invIdx < c.invCount
        · simp [neighborRuns, neighborNextRun, hfast, h₁, h₂,
            NeighborCtx.outLeft_eq_nil (not_lt.1 h₁)]
        · simp [neighborRuns, neighborNextRun, hfast, h₁, h₂] at hruns
    · simp [neighborRuns, neighborNextRun, hfast] at hruns
  · rfl

/-- A jump is as good as so many calls. -/
theorem rest_neighborSkip {c c' : NeighborCtx} (hbase : c.baseIdx = 0) (hinv : c.invIdx = 0)
    (h : neighborSkip c n = some c') : c'.rest = c.rest.drop n := by
  unfold neighborSkip at h
  by_cases hfast : c.fast = true
  swap
  · simp [hfast] at h
  rw [if_neg (by simp [hfast])] at h
  have hout : c.outLeft = List.range c.baseCount := by
    rw [NeighborCtx.outLeft, hbase, Nat.sub_zero, List.range_eq_range']
  have hin : c.inLeft = List.range c.invCount := by
    rw [NeighborCtx.inLeft, hinv, Nat.sub_zero, List.range_eq_range']
  have hdrop (n k : ℕ) : (List.range k).drop n = List.range' n (k - n) := by
    rw [List.range_eq_range', List.drop_range']
    simp
  split_ifs at h with hn
  · cases h
    rw [NeighborCtx.rest, NeighborCtx.rest, if_pos hfast, if_pos hfast, hout,
      List.drop_append_of_le_length (by simpa using hn), ← List.map_drop, hdrop]
    rfl
  · cases h
    have hlen : (c.outLeft.map fun at' => some (c.targetAt at')).length = c.baseCount := by
      rw [List.length_map, hout, List.length_range]
    rw [NeighborCtx.rest, NeighborCtx.rest, if_pos hfast, if_pos hfast, List.drop_append, hlen,
      List.drop_eq_nil_of_le (by rw [hlen]; exact (not_le.1 hn).le), ← List.map_drop, hin, hdrop,
      NeighborCtx.outLeft_eq_nil (by exact le_rfl)]
    simp only [NeighborCtx.inLeft]
    split_ifs with hlt
    · rw [Nat.sub_self, Nat.sub_eq_zero_of_le hlt.le]
      rfl
    · rfl

/-! ## Walks over a store without a delta chain -/

/-- The slots of the forward row that a walk along `dir` visits. -/
def outSlots (b : Base) (dir : Direction) (v : ℕ) : List ℕ :=
  if dir.Forwards then
    List.range' (graphBaseGetEdgesAt b (some v)).1 (graphBaseGetEdgesAt b (some v)).2
  else []

/-- The slots of the inverse row that a walk along `dir` visits. -/
def inSlots (b : Base) (dir : Direction) (v : ℕ) : List ℕ :=
  if dir.Backwards then
    List.range' (graphBaseGetInverseEdgesAt b (some v)).1 (graphBaseGetInverseEdgesAt b (some v)).2
  else []

/-- The neighbours that a traversal of the snapshot meets at `v`. -/
def neighbors (indexWalk : Bool) (s : Snapshot) (dir : Direction) (filter : Option PredFilter)
    (v : ℕ) : List ℕ :=
  neighborForeach (neighborInitAt indexWalk s v dir filter)

theorem graphBaseGetEdgesAt_lt (b : Base) (idx : Option ℕ) :
    (graphBaseGetEdgesAt b idx).2 < 2 ^ 32 := by
  unfold graphBaseGetEdgesAt
  split
  · exact Nat.two_pow_pos 32
  · split_ifs
    · exact Nat.two_pow_pos 32
    · exact Nat.mod_lt _ (Nat.two_pow_pos 32)

theorem graphBaseGetInverseEdgesAt_lt (b : Base) (idx : Option ℕ) :
    (graphBaseGetInverseEdgesAt b idx).2 < 2 ^ 32 := by
  unfold graphBaseGetInverseEdgesAt
  split
  · exact Nat.two_pow_pos 32
  · split_ifs
    · exact Nat.two_pow_pos 32
    · exact Nat.mod_lt _ (Nat.two_pow_pos 32)

/-- The positions of a row that are counted are slots of it. -/
theorem mem_rowSlots_of_lt {v at' : ℕ} (h : at' < (graphBaseGetEdgesAt b (some v)).2) :
    v < b.nodeCount ∧ (graphBaseGetEdgesAt b (some v)).1 + at' ∈ rowSlots b v := by
  rw [graphBaseGetEdgesAt] at h ⊢
  split_ifs at h ⊢ with hv
  · cases h
  · exact ⟨not_le.1 hv, List.mem_range'_1.2 ⟨Nat.le_add_right _ _, by omega⟩⟩

theorem mem_invRowSlots_of_lt {v at' : ℕ} (h : at' < (graphBaseGetInverseEdgesAt b (some v)).2) :
    b.hasInverse = true ∧
      v < b.nodeCount ∧ (graphBaseGetInverseEdgesAt b (some v)).1 + at' ∈ invRowSlots b v := by
  rw [graphBaseGetInverseEdgesAt] at h ⊢
  split_ifs at h ⊢ with hv
  · cases h
  · rw [not_or, Bool.not_eq_false, not_le] at hv
    exact ⟨hv.1, hv.2, List.mem_range'_1.2 ⟨Nat.le_add_right _ _, by omega⟩⟩

/-- A position within a row of less than `2 ^ 32` slots is read where it is. -/
theorem graphIxAt_of_mem {slice : ℕ → ℕ} {i : ℕ} (hn : n < 2 ^ 32) (hi : i ∈ List.range n) :
    graphIxAt slice i = slice i := by
  rw [graphIxAt, Nat.mod_eq_of_lt ((List.mem_range.1 hi).trans hn)]

section Chainless

variable {s : Snapshot} {indexWalk : Bool} {dir : Direction} {filter : Option PredFilter} {v : ℕ}

theorem baseCount_neighborInitAt_lt :
    (neighborInitAt indexWalk s v dir filter).baseCount < 2 ^ 32 := by
  by_cases h : dir.Forwards
  · simpa only [neighborInitAt, if_pos h] using graphBaseGetEdgesAt_lt _ _
  · simpa only [neighborInitAt, if_neg h] using Nat.two_pow_pos 32

theorem invCount_neighborInitAt_lt :
    (neighborInitAt indexWalk s v dir filter).invCount < 2 ^ 32 := by
  by_cases h : dir.Backwards
  · simpa only [neighborInitAt, if_pos h] using graphBaseGetInverseEdgesAt_lt _ _
  · simpa only [neighborInitAt, if_neg h] using Nat.two_pow_pos 32

theorem outLeft_neighborInitAt :
    (neighborInitAt indexWalk s v dir filter).outLeft =
      List.range (neighborInitAt indexWalk s v dir filter).baseCount := by
  rw [List.range_eq_range']
  rfl

theorem inLeft_neighborInitAt :
    (neighborInitAt indexWalk s v dir filter).inLeft =
      List.range (neighborInitAt indexWalk s v dir filter).invCount := by
  rw [List.range_eq_range']
  rfl

theorem outSlots_eq (hchain : s.deltaHead = []) :
    outSlots s.graph.base dir v =
      (List.range (neighborInitAt indexWalk s v dir filter).baseCount).map
        ((neighborInitAt indexWalk s v dir filter).baseStart + ·) := by
  rw [List.range_eq_range', List.map_add_range']
  simp only [outSlots, neighborInitAt, hchain]
  split_ifs <;> simp_all

theorem inSlots_eq (hchain : s.deltaHead = []) :
    inSlots s.graph.base dir v =
      (List.range (neighborInitAt indexWalk s v dir filter).invCount).map
        ((neighborInitAt indexWalk s v dir filter).invStart + ·) := by
  rw [List.range_eq_range', List.map_add_range']
  simp only [inSlots, neighborInitAt, hchain]
  split_ifs <;> simp_all

/-- Without a chain both walks yield the endpoints of the edges that pass the filter. -/
theorem rest_neighborInitAt (hchain : s.deltaHead = []) :
    (neighborInitAt indexWalk s v dir filter).rest =
      ((outSlots s.graph.base dir v).filter fun x =>
          predMatches filter (graphBaseSlotPred s.graph.base x)).map
        (fun x => some (s.graph.base.edgeTargets x)) ++
      ((inSlots s.graph.base dir v).filter fun x =>
          predMatches filter (graphBaseInvSlotPred s.graph.base x)).map
        fun x => some (s.graph.base.invSources x) := by
  have hslots : outSlots s.graph.base dir v =
      (List.range (neighborInitAt indexWalk s v dir filter).baseCount).map
        ((neighborInitAt indexWalk s v dir filter).baseStart + ·) := outSlots_eq hchain
  have hinSlots : inSlots s.graph.base dir v =
      (List.range (neighborInitAt indexWalk s v dir filter).invCount).map
        ((neighborInitAt indexWalk s v dir filter).invStart + ·) := inSlots_eq hchain
  set c := neighborInitAt indexWalk s v dir filter with hc
  have hcount : c.baseCount < 2 ^ 32 := baseCount_neighborInitAt_lt
  have hinCount : c.invCount < 2 ^ 32 := invCount_neighborInitAt_lt
  have hix : c.useIx = true := decide_eq_true hchain
  have hdel : c.hasDel = false := by simp [hc, neighborInitAt, hchain, graphChainHasDeletions]
  have hadd : c.additions = [] := by simp [hc, neighborInitAt, hchain]
  have htarget : ∀ at' ∈ List.range c.baseCount,
      c.targetAt at' = s.graph.base.edgeTargets (c.baseStart + at') :=
    fun at' hat => graphIxAt_of_mem hcount hat
  have hsource : ∀ at' ∈ List.range c.invCount,
      c.sourceAt at' = s.graph.base.invSources (c.invStart + at') :=
    fun at' hat => graphIxAt_of_mem hinCount hat
  rw [NeighborCtx.rest, hc, outLeft_neighborInitAt, inLeft_neighborInitAt, ← hc, hslots, hinSlots]
  split_ifs with hfast
  · have hnone : filter = none := by
      simp only [hc, neighborInitAt, Bool.and_eq_true, Option.isNone_iff_eq_none] at hfast
      exact hfast.1.1.2
    subst hnone
    simp only [predMatches, List.filter_true, List.map_map]
    congr 1
    · exact List.map_congr_left fun at' hat => congrArg some (htarget at' hat)
    · exact List.map_congr_left fun at' hat => congrArg some (hsource at' hat)
  · have hout (at' : ℕ) : c.keepsOut at' =
        predMatches filter (graphBaseSlotPred s.graph.base (c.baseStart + at')) := by
      simp only [NeighborCtx.keepsOut, hdel, Bool.false_and, Bool.not_false, Bool.and_true]
      rfl
    have hin (at' : ℕ) : c.keepsIn at' =
        predMatches filter (graphBaseInvSlotPred s.graph.base (c.invStart + at')) := by
      simp only [NeighborCtx.keepsIn, hdel, Bool.false_and, Bool.not_false, Bool.and_true]
      rfl
    rw [hadd, List.filter_nil, List.map_nil, List.append_nil, List.filter_map, List.filter_map,
      List.map_map, List.map_map, List.filter_congr fun at' _ => hout at',
      List.filter_congr fun at' _ => hin at']
    congr 1
    · refine List.map_congr_left fun at' hat => ?_
      rw [NeighborCtx.outIx, if_pos hix, htarget at' (List.mem_of_mem_filter hat)]
      rfl
    · refine List.map_congr_left fun at' hat => ?_
      rw [NeighborCtx.inIx, if_pos hix, hsource at' (List.mem_of_mem_filter hat)]
      rfl

/-- The neighbours are what the iterator yields: no index is missing. -/
theorem rest_eq_map_neighbors (hchain : s.deltaHead = []) :
    (neighborInitAt indexWalk s v dir filter).rest =
      (neighbors indexWalk s dir filter v).map some := by
  rw [neighbors, neighborForeach_eq, rest_neighborInitAt hchain]
  simp only [List.filterMap_append, List.filterMap_map, List.map_append, Function.comp_def, id_eq,
    List.filterMap_eq_map', List.map_map]

/-- A vertex has no more neighbours than its rows have slots. -/
theorem length_neighbors_le (hchain : s.deltaHead = []) :
    (neighbors indexWalk s dir filter v).length ≤
      (outSlots s.graph.base dir v).length + (inSlots s.graph.base dir v).length := by
  have hrest : (neighborInitAt indexWalk s v dir filter).rest.length =
      ((neighbors indexWalk s dir filter v).map some).length :=
    congrArg List.length (rest_eq_map_neighbors hchain)
  rw [rest_neighborInitAt hchain, List.length_append, List.length_map, List.length_map,
    List.length_map] at hrest
  rw [← hrest]
  exact Nat.add_le_add (List.length_filter_le _ _) (List.length_filter_le _ _)

theorem mem_neighbors (hchain : s.deltaHead = []) {w : ℕ} :
    w ∈ neighbors indexWalk s dir filter v ↔
      (∃ x ∈ outSlots s.graph.base dir v,
        predMatches filter (graphBaseSlotPred s.graph.base x) = true ∧
          s.graph.base.edgeTargets x = w) ∨
      ∃ x ∈ inSlots s.graph.base dir v,
        predMatches filter (graphBaseInvSlotPred s.graph.base x) = true ∧
          s.graph.base.invSources x = w := by
  have hmem : w ∈ neighbors indexWalk s dir filter v ↔
      some w ∈ (neighborInitAt indexWalk s v dir filter).rest := by
    simp [rest_eq_map_neighbors hchain]
  rw [hmem, rest_neighborInitAt hchain]
  simp [and_assoc]

/-- The slots that a walk visits are slots of the row, at any size. -/
theorem of_mem_outSlots {x : ℕ} (hx : x ∈ outSlots b dir v) :
    dir.Forwards ∧ v < b.nodeCount ∧ x ∈ rowSlots b v := by
  obtain ⟨hdir, hx⟩ := List.mem_ite_nil_right.1 hx
  obtain ⟨k, hk, rfl⟩ := List.mem_range'.1 hx
  rw [Nat.one_mul]
  exact ⟨hdir, mem_rowSlots_of_lt hk⟩

theorem of_mem_inSlots {x : ℕ} (hx : x ∈ inSlots b dir v) :
    dir.Backwards ∧ b.hasInverse = true ∧ v < b.nodeCount ∧ x ∈ invRowSlots b v := by
  obtain ⟨hdir, hx⟩ := List.mem_ite_nil_right.1 hx
  obtain ⟨k, hk, rfl⟩ := List.mem_range'.1 hx
  rw [Nat.one_mul]
  exact ⟨hdir, mem_invRowSlots_of_lt hk⟩

/-- Only nodes of the store have neighbours. -/
theorem lt_of_neighbors (hchain : s.deltaHead = []) {w : ℕ}
    (hw : w ∈ neighbors indexWalk s dir filter v) : v < s.graph.base.nodeCount := by
  rcases (mem_neighbors hchain).1 hw with ⟨x, hx, -⟩ | ⟨x, hx, -⟩
  · exact (of_mem_outSlots hx).2.1
  · exact (of_mem_inSlots hx).2.2.1

end Chainless

end Virtuoso.Graph
