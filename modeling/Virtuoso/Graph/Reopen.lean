import Mathlib.Data.List.Find
import Virtuoso.Graph.Adjacent
import Virtuoso.Graph.File

/-!
# Reopened graphs

Two graphs answer alike if neighbour walks, lookups and degrees agree.  A graph that was read
from its file answers like the original.  A mapped graph has no endpoint indices: its forward
rows are walked by id, which gives the same neighbours, but its inverse rows are not walked at
all, since the accessor wants the endpoint indices; and where the file has no inverse index the
degree function follows a `NULL` pointer.  So the mapped graph answers alike exactly if no walk
meets an inverse edge and the inverse offsets are there whenever there is a node (`MapsWell`).
-/

namespace Virtuoso.Graph

open Lib

variable {at' : ℕ} {b : Base}

/-! ## Walks and degrees with missing arrays -/

/-- `neighbor_init_at`, with its tests for missing arrays. -/
def neighborInit (indexWalk : Bool) (arrays : Arrays) (s : Snapshot) (nodeIndex : ℕ)
    (direction : Direction) (predFilter : Option PredFilter) : NeighborCtx :=
  let c := neighborInitAt indexWalk s nodeIndex direction predFilter
  -- `graph_base_get_inverse_edges_at` wants both arrays
  let inverse := arrays.invOffsets && arrays.invSources
  let invCount := if inverse then c.invCount else 0
  let useIx := c.useIx && arrays.edgeTargets &&
    (!s.graph.base.hasInverse || arrays.invSources)
  { c with
    invStart := if inverse then c.invStart else 0
    invCount
    useIx
    fast := indexWalk && predFilter.isNone && useIx && !c.hasDel &&
      (decide (c.baseCount = 0) || arrays.edgeTargets) &&
      (decide (invCount = 0) || arrays.invSources) }

/-- `neighbor_init_at_pred`. -/
def neighborInitPred (indexWalk : Bool) (arrays : Arrays) (s : Snapshot) (nodeIndex : ℕ)
    (direction : Direction) (predFilter : Option PredFilter) : NeighborCtx :=
  { neighborInit indexWalk arrays s nodeIndex direction predFilter with fast := false }

/-- `neighbor_next` and then `neighbor_pred`, on an iterator whose index walk is off. -/
def neighborNextPred (c : NeighborCtx) : Option ((Option ℕ × PredId) × NeighborCtx) :=
  match c.outLeft.find? c.keepsOut with
  | some at' =>
    some ((c.outIx at', graphBaseSlotPred c.snapshot.graph.base (c.baseStart + at')),
      { c with baseIdx := at' + 1 })
  | none =>
    match c.inLeft.find? c.keepsIn with
    | some at' =>
      some ((c.inIx at', graphBaseInvSlotPred c.snapshot.graph.base (c.invStart + at')),
        { c with baseIdx := c.baseCount, invIdx := at' + 1 })
    | none =>
      match c.additions.dropWhile fun t => !c.keepsAddition t with
      | t :: additions =>
        some ((c.additionIx t, t.predicate),
          { c with baseIdx := c.baseCount, invIdx := c.invCount, additions })
      | [] => none

variable {c : NeighborCtx}

theorem neighborNextPred_out (h : c.outLeft.find? c.keepsOut = some at') :
    neighborNextPred c =
      some ((c.outIx at', graphBaseSlotPred c.snapshot.graph.base (c.baseStart + at')),
        { c with baseIdx := at' + 1 }) := by
  rw [neighborNextPred, h]

theorem neighborNextPred_in (hout : c.outLeft.find? c.keepsOut = none)
    (h : c.inLeft.find? c.keepsIn = some at') :
    neighborNextPred c =
      some ((c.inIx at', graphBaseInvSlotPred c.snapshot.graph.base (c.invStart + at')),
        { c with baseIdx := c.baseCount, invIdx := at' + 1 }) := by
  rw [neighborNextPred, hout, h]

theorem neighborNextPred_none (hout : c.outLeft.find? c.keepsOut = none)
    (hin : c.inLeft.find? c.keepsIn = none) (hadd : c.additions = []) :
    neighborNextPred c = none := by
  rw [neighborNextPred, hout, hin, hadd]
  rfl

/-- The neighbours and predicates that the next `fuel` calls give. -/
def neighborYieldsPred : ℕ → NeighborCtx → List (Option ℕ × PredId)
  | 0, _ => []
  | fuel + 1, c =>
    match neighborNextPred c with
    | none => []
    | some (yielded, c') => yielded :: neighborYieldsPred fuel c'

/-- `graph_base_node_degree`; `none` where it reads through a `NULL` pointer. -/
def graphBaseNodeDegree (arrays : Arrays) (b : Base) (node : NodeId) (direction : Direction) :
    Option ℕ :=
  if b.nodeCount = 0 then some 0
  else
    match graphBaseNodeIndex b node with
    | none => some 0
    | some idx =>
      let outDeg := if direction.Forwards then b.edgeOffsets (idx + 1) - b.edgeOffsets idx else 0
      if direction.Backwards ∧ b.hasInverse = true then
        if arrays.invOffsets then some (outDeg + (b.invOffsets (idx + 1) - b.invOffsets idx))
        else none
      else some outDeg

/-- The two graphs have the same nodes and answer alike. -/
structure AnswersAlike (g g' : OpenGraph) : Prop where
  nodeCount : g'.graph.base.nodeCount = g.graph.base.nodeCount
  nodeIds : ∀ i < g.graph.base.nodeCount, g'.graph.base.nodeIds i = g.graph.base.nodeIds i
  /-- The walks over new snapshots give the same neighbours, and the same predicates. -/
  walks : ∃ s s', graphSnapshotCreate g.graph = some s ∧ graphSnapshotCreate g'.graph = some s' ∧
    ∀ indexWalk i dir filter,
      (let c := neighborInit indexWalk g.arrays s i dir filter
       let c' := neighborInit indexWalk g'.arrays s' i dir filter
       neighborYields c'.calls c' = neighborYields c.calls c) ∧
      (let c := neighborInitPred indexWalk g.arrays s i dir filter
       let c' := neighborInitPred indexWalk g'.arrays s' i dir filter
       neighborYieldsPred c'.calls c' = neighborYieldsPred c.calls c)
  contains : ∀ t, graphBaseContains g'.graph.base t = graphBaseContains g.graph.base t
  degree : ∀ id dir, graphBaseNodeDegree g'.arrays g'.graph.base id dir =
    graphBaseNodeDegree g.arrays g.graph.base id dir

/-- The stores whose files can be mapped: without nodes, or with an inverse index of which the
walks see nothing because the lengths of its rows, cast to `uint32_t`, are zero. -/
def MapsWell (b : Base) : Prop :=
  b.nodeCount = 0 ∨
    b.hasInverse = true ∧ ∀ i < b.nodeCount, (b.invOffsets (i + 1) - b.invOffsets i) % 2 ^ 32 = 0

instance (b : Base) : Decidable (MapsWell b) := inferInstanceAs (Decidable (_ ∨ _))

/-! ## Walks that agree -/

/-- Two iterators without additions that agree on every slot ahead of them. -/
structure NeighborCtx.Alike (c c' : NeighborCtx) : Prop where
  baseIdx : c'.baseIdx = c.baseIdx
  baseCount : c'.baseCount = c.baseCount
  invIdx : c'.invIdx = c.invIdx
  invCount : c'.invCount = c.invCount
  additions : c.additions = [] ∧ c'.additions = []
  out : ∀ at' < c.baseCount, c'.keepsOut at' = c.keepsOut at' ∧ c'.outIx at' = c.outIx at' ∧
    graphBaseSlotPred c'.snapshot.graph.base (c'.baseStart + at') =
      graphBaseSlotPred c.snapshot.graph.base (c.baseStart + at')
  inc : ∀ at' < c.invCount, c'.keepsIn at' = c.keepsIn at' ∧ c'.inIx at' = c.inIx at' ∧
    graphBaseInvSlotPred c'.snapshot.graph.base (c'.invStart + at') =
      graphBaseInvSlotPred c.snapshot.graph.base (c.invStart + at')

namespace NeighborCtx

variable {c c' : NeighborCtx}

theorem mem_outLeft (h : at' ∈ c.outLeft) : at' < c.baseCount := by
  rw [outLeft, List.mem_range'_1] at h
  omega

theorem mem_inLeft (h : at' ∈ c.inLeft) : at' < c.invCount := by
  rw [inLeft, List.mem_range'_1] at h
  omega

namespace Alike

section

variable (h : Alike c c')
include h

theorem outLeft : c'.outLeft = c.outLeft := by
  rw [NeighborCtx.outLeft, NeighborCtx.outLeft, h.baseIdx, h.baseCount]

theorem inLeft : c'.inLeft = c.inLeft := by
  rw [NeighborCtx.inLeft, NeighborCtx.inLeft, h.invIdx, h.invCount]

theorem find?_out : c'.outLeft.find? c'.keepsOut = c.outLeft.find? c.keepsOut := by
  rw [h.outLeft]
  exact List.find?_congr fun at' hat => (h.out at' (mem_outLeft hat)).1

theorem find?_in : c'.inLeft.find? c'.keepsIn = c.inLeft.find? c.keepsIn := by
  rw [h.inLeft]
  exact List.find?_congr fun at' hat => (h.inc at' (mem_inLeft hat)).1

/-- The next calls give the same, and leave iterators that agree. -/
theorem neighborNextPred :
    (Graph.neighborNextPred c = none ∧ Graph.neighborNextPred c' = none) ∨
    ∃ yielded d d', Graph.neighborNextPred c = some (yielded, d) ∧
      Graph.neighborNextPred c' = some (yielded, d') ∧ Alike d d' := by
  cases hout : c.outLeft.find? c.keepsOut with
  | some at' =>
    obtain ⟨-, hix, hpred⟩ := h.out at' (mem_outLeft (List.mem_of_find?_eq_some hout))
    have hnext := neighborNextPred_out (h.find?_out.trans hout)
    rw [hix, hpred] at hnext
    refine .inr ⟨_, _, _, neighborNextPred_out hout, hnext, ?_⟩
    exact ⟨rfl, h.baseCount, h.invIdx, h.invCount, h.additions, h.out, h.inc⟩
  | none =>
    have hout' := h.find?_out.trans hout
    cases hin : c.inLeft.find? c.keepsIn with
    | some at' =>
      obtain ⟨-, hix, hpred⟩ := h.inc at' (mem_inLeft (List.mem_of_find?_eq_some hin))
      have hnext := neighborNextPred_in hout' (h.find?_in.trans hin)
      rw [hix, hpred] at hnext
      refine .inr ⟨_, _, _, neighborNextPred_in hout hin, hnext, ?_⟩
      exact ⟨h.baseCount, h.baseCount, rfl, h.invCount, h.additions, h.out, h.inc⟩
    | none =>
      have hin' := h.find?_in.trans hin
      exact .inl ⟨neighborNextPred_none hout hin h.additions.1,
        neighborNextPred_none hout' hin' h.additions.2⟩

theorem neighborYieldsPred (fuel : ℕ) :
    Graph.neighborYieldsPred fuel c' = Graph.neighborYieldsPred fuel c := by
  induction fuel generalizing c c' with
  | zero => rfl
  | succ fuel ih =>
    rcases h.neighborNextPred with ⟨hc, hc'⟩ | ⟨yielded, d, d', hc, hc', hd⟩
    · simp only [Graph.neighborYieldsPred, hc, hc']
    · simp only [Graph.neighborYieldsPred, hc, hc', ih hd]

end

end Alike

/-- The index walk is on only where the general walk would drop nothing. -/
def FastIfPlain (c : NeighborCtx) : Prop :=
  c.fast = true → c.predFilter = none ∧ c.useIx = true ∧ c.hasDel = false

/-- Without additions, both walks yield what the slots that are kept resolve to. -/
theorem rest_eq_of_fastIfPlain (hc : c.FastIfPlain) (hadd : c.additions = []) :
    c.rest = (c.outLeft.filter c.keepsOut).map c.outIx ++
      (c.inLeft.filter c.keepsIn).map c.inIx := by
  unfold rest
  split_ifs with hfast
  · obtain ⟨hfilter, hix, hdel⟩ := hc hfast
    have hout : c.keepsOut = fun _ => true := by
      funext at'
      simp [keepsOut, hfilter, hdel, predMatches]
    have hin : c.keepsIn = fun _ => true := by
      funext at'
      simp [keepsIn, hfilter, hdel, predMatches]
    have houtIx : c.outIx = fun at' => some (c.targetAt at') := by
      funext at'
      simp [outIx, hix]
    have hinIx : c.inIx = fun at' => some (c.sourceAt at') := by
      funext at'
      simp [inIx, hix]
    rw [hout, hin, houtIx, hinIx, List.filter_true, List.filter_true]
  · simp [hadd]

/-- Iterators that agree yield the same, by whichever walk. -/
theorem Alike.neighborYields (h : Alike c c') (hc : c.FastIfPlain) (hc' : c'.FastIfPlain) :
    Graph.neighborYields c'.calls c' = Graph.neighborYields c.calls c := by
  rw [neighborYields_eq, neighborYields_eq, rest_eq_of_fastIfPlain hc h.additions.1,
    rest_eq_of_fastIfPlain hc' h.additions.2, h.outLeft, h.inLeft]
  have hout : c.outLeft.filter c'.keepsOut = c.outLeft.filter c.keepsOut :=
    List.filter_congr fun at' hat => (h.out at' (mem_outLeft hat)).1
  have hin : c.inLeft.filter c'.keepsIn = c.inLeft.filter c.keepsIn :=
    List.filter_congr fun at' hat => (h.inc at' (mem_inLeft hat)).1
  rw [hout, hin]
  congr 1
  · refine List.map_congr_left fun at' hat => ?_
    exact (h.out at' (mem_outLeft (List.mem_of_mem_filter hat))).2.1
  · refine List.map_congr_left fun at' hat => ?_
    exact (h.inc at' (mem_inLeft (List.mem_of_mem_filter hat))).2.1

end NeighborCtx

/-! ## Snapshots without a chain -/

section Chainless

variable {s s' : Snapshot} {a a' : Arrays} {indexWalk : Bool} {i : ℕ} {dir : Direction}
  {filter : Option PredFilter}

/-- The endpoint indices are used. -/
def usesIx (a : Arrays) (b : Base) : Bool := a.edgeTargets && (!b.hasInverse || a.invSources)

/-- The row that a walk along `dir` starts with. -/
def outRow (b : Base) (dir : Direction) (i : ℕ) : ℕ × ℕ :=
  if dir.Forwards then graphBaseGetEdgesAt b (some i) else (0, 0)

/-- The inverse row that a walk along `dir` goes on with. -/
def inRow (a : Arrays) (b : Base) (dir : Direction) (i : ℕ) : ℕ × ℕ :=
  if dir.Backwards ∧ (a.invOffsets && a.invSources) = true then
    graphBaseGetInverseEdgesAt b (some i)
  else (0, 0)

theorem neighborInit_eq (hchain : s.deltaHead = []) :
    neighborInit indexWalk a s i dir filter =
      { snapshot := s
        node := if i < s.graph.base.nodeCount then s.graph.base.nodeIds i else idInvalid
        direction := dir
        predFilter := filter
        baseStart := (outRow s.graph.base dir i).1
        baseCount := (outRow s.graph.base dir i).2
        baseIdx := 0
        invStart := (inRow a s.graph.base dir i).1
        invCount := (inRow a s.graph.base dir i).2
        invIdx := 0
        additions := []
        useIx := usesIx a s.graph.base
        hasDel := false
        fast := indexWalk && filter.isNone && usesIx a s.graph.base &&
          (decide ((outRow s.graph.base dir i).2 = 0) || a.edgeTargets) &&
          (decide ((inRow a s.graph.base dir i).2 = 0) || a.invSources) } := by
  have hstart : (if (a.invOffsets && a.invSources) = true then
      (if dir.Backwards then graphBaseGetInverseEdgesAt s.graph.base (some i) else (0, 0)).1
        else 0) =
      (inRow a s.graph.base dir i).1 := by
    unfold inRow
    split_ifs <;> simp_all
  have hcount : (if (a.invOffsets && a.invSources) = true then
      (if dir.Backwards then graphBaseGetInverseEdgesAt s.graph.base (some i) else (0, 0)).2
        else 0) =
      (inRow a s.graph.base dir i).2 := by
    unfold inRow
    split_ifs <;> simp_all
  simp only [neighborInit, neighborInitAt, hchain, graphChainHasDeletions, usesIx, outRow,
    List.any_nil, List.flatMap_nil, ne_eq, not_true_eq_false, if_false, decide_true, Bool.true_and,
    Bool.not_false, Bool.and_true, ← hstart, ← hcount]
  rfl

theorem fastIfPlain_neighborInit (hchain : s.deltaHead = []) :
    (neighborInit indexWalk a s i dir filter).FastIfPlain := by
  rw [neighborInit_eq hchain]
  intro hfast
  simp only [Bool.and_eq_true, Option.isNone_iff_eq_none] at hfast
  exact ⟨hfast.1.1.1.2, hfast.1.1.2, rfl⟩

theorem outRow_lt (b : Base) (dir : Direction) (i : ℕ) : (outRow b dir i).2 < 2 ^ 32 := by
  unfold outRow
  split_ifs
  · exact graphBaseGetEdgesAt_lt b _
  · exact Nat.two_pow_pos 32

theorem inRow_lt (a : Arrays) (b : Base) (dir : Direction) (i : ℕ) :
    (inRow a b dir i).2 < 2 ^ 32 := by
  unfold inRow
  split_ifs
  · exact graphBaseGetInverseEdgesAt_lt b _
  · exact Nat.two_pow_pos 32

/-- The slots that a walk visits are slots of the row. -/
theorem mem_rowSlots_outRow (h : at' < (outRow b dir i).2) :
    i < b.nodeCount ∧ (outRow b dir i).1 + at' ∈ rowSlots b i := by
  by_cases hdir : dir.Forwards
  · simp only [outRow, if_pos hdir] at h ⊢
    exact mem_rowSlots_of_lt h
  · simp [outRow, if_neg hdir] at h

theorem mem_invRowSlots_inRow (h : at' < (inRow a b dir i).2) :
    b.hasInverse = true ∧ i < b.nodeCount ∧ (inRow a b dir i).1 + at' ∈ invRowSlots b i := by
  by_cases hdir : dir.Backwards ∧ (a.invOffsets && a.invSources) = true
  · simp only [inRow, if_pos hdir] at h ⊢
    exact mem_invRowSlots_of_lt h
  · rw [inRow, if_neg hdir] at h
    exact absurd h (Nat.not_lt_zero at')

/-- Every forward slot is resolved to the index of its object. -/
def ResolvesOut (a : Arrays) (s : Snapshot) (nodes : List NodeId) : Prop :=
  ∀ i < s.graph.base.nodeCount, ∀ at' ∈ rowSlots s.graph.base i,
    (if usesIx a s.graph.base = true then some (s.graph.base.edgeTargets at')
      else graphSnapshotFindNode s (s.graph.base.edges at').object) =
      some (nodes.idxOf (s.graph.base.edges at').object)

/-- Every inverse slot is resolved to the index of its subject. -/
def ResolvesIn (a : Arrays) (s : Snapshot) (nodes : List NodeId) : Prop :=
  ∀ i < s.graph.base.nodeCount, ∀ at' ∈ invRowSlots s.graph.base i,
    (if usesIx a s.graph.base = true then some (s.graph.base.invSources at')
      else graphSnapshotFindNode s (s.graph.base.invEdges at').subject) =
      some (nodes.idxOf (s.graph.base.invEdges at').subject)

variable {nodes : List NodeId}

section

variable (hchain : s.deltaHead = [])
include hchain

theorem outIx_neighborInit (hrec : s.graph.base.onePred = false) (hres : ResolvesOut a s nodes)
    (hat : at' < (outRow s.graph.base dir i).2) :
    (neighborInit indexWalk a s i dir filter).outIx at' =
      some (nodes.idxOf (s.graph.base.edges ((outRow s.graph.base dir i).1 + at')).object) := by
  obtain ⟨hi, hslot⟩ := mem_rowSlots_outRow hat
  have hlt : at' % 2 ^ 32 = at' := Nat.mod_eq_of_lt (hat.trans (outRow_lt _ _ _))
  rw [neighborInit_eq hchain, ← hres i hi _ hslot]
  simp only [NeighborCtx.outIx, NeighborCtx.targetAt, graphIxAt, hlt, graphBaseSlotObj, hrec,
    Bool.false_eq_true, if_false]

theorem inIx_neighborInit (hrec : s.graph.base.onePred = false) (hres : ResolvesIn a s nodes)
    (hat : at' < (inRow a s.graph.base dir i).2) :
    (neighborInit indexWalk a s i dir filter).inIx at' =
      some (nodes.idxOf
        (s.graph.base.invEdges ((inRow a s.graph.base dir i).1 + at')).subject) := by
  obtain ⟨-, hi, hslot⟩ := mem_invRowSlots_inRow hat
  have hlt : at' % 2 ^ 32 = at' := Nat.mod_eq_of_lt (hat.trans (inRow_lt _ _ _ _))
  rw [neighborInit_eq hchain, ← hres i hi _ hslot]
  simp only [NeighborCtx.inIx, NeighborCtx.sourceAt, graphIxAt, hlt, graphBaseInvSlotSubj, hrec,
    Bool.false_eq_true, if_false]

theorem keepsOut_neighborInit (at' : ℕ) :
    (neighborInit indexWalk a s i dir filter).keepsOut at' =
      predMatches filter
        (graphBaseSlotPred s.graph.base ((outRow s.graph.base dir i).1 + at')) := by
  rw [neighborInit_eq hchain]
  simp [NeighborCtx.keepsOut]

theorem keepsIn_neighborInit (at' : ℕ) :
    (neighborInit indexWalk a s i dir filter).keepsIn at' =
      predMatches filter
        (graphBaseInvSlotPred s.graph.base ((inRow a s.graph.base dir i).1 + at')) := by
  rw [neighborInit_eq hchain]
  simp [NeighborCtx.keepsIn]

end

variable {b' : Base}

theorem Copies.outRow (h : Copies b b') : outRow b' dir i = Graph.outRow b dir i := by
  have hrow : graphBaseGetEdgesAt b' (some i) = graphBaseGetEdgesAt b (some i) := by
    simp only [graphBaseGetEdgesAt, h.nodeCount]
    split_ifs with hi
    · rfl
    · rw [h.edgeOffsets i (by omega), h.edgeOffsets (i + 1) (by omega)]
  rw [Graph.outRow, Graph.outRow, hrow]

theorem CopiesInverse.inRow (h : CopiesInverse b b') (hinv : b.hasInverse = true)
    (hcount : b'.nodeCount = b.nodeCount)
    (ha : (a'.invOffsets && a'.invSources) = (a.invOffsets && a.invSources)) :
    inRow a' b' dir i = Graph.inRow a b dir i := by
  have hrow : graphBaseGetInverseEdgesAt b' (some i) = graphBaseGetInverseEdgesAt b (some i) := by
    simp only [graphBaseGetInverseEdgesAt, hcount, h.hasInverse, hinv, Bool.true_eq_false, false_or]
    split_ifs with hi
    · rfl
    · rw [h.invOffsets i (by omega), h.invOffsets (i + 1) (by omega)]
  rw [Graph.inRow, Graph.inRow, hrow, ha]

/-- The inverse rows of two stores are walked alike: they are the same rows of the same edges,
or no walk visits any. -/
def InRowsAlike (a a' : Arrays) (s s' : Snapshot) (nodes : List NodeId) : Prop :=
  (s.graph.base.hasInverse = true ∧ CopiesInverse s.graph.base s'.graph.base ∧
    (a'.invOffsets && a'.invSources) = (a.invOffsets && a.invSources) ∧
    ResolvesIn a s nodes ∧ ResolvesIn a' s' nodes) ∨
  ∀ dir i, (inRow a s.graph.base dir i).2 = 0 ∧ (inRow a' s'.graph.base dir i).2 = 0

theorem Copies.slotPred (h : Copies b b') (hb : b.onePred = false) (hat : at' < b.edgeCount) :
    graphBaseSlotPred b' at' = graphBaseSlotPred b at' := by
  simp [graphBaseSlotPred, h.records, hb, h.edges at' hat]

theorem CopiesInverse.slotPred (h : CopiesInverse b b') (hb : b.onePred = false)
    (hb' : b'.onePred = false) (hat : at' < b.edgeCount) :
    graphBaseInvSlotPred b' at' = graphBaseInvSlotPred b at' := by
  simp [graphBaseInvSlotPred, hb', hb, h.invEdges at' hat]

/-- Walks over a store and a copy agree if both resolve their slots. -/
theorem alike_neighborInit (hb : Recorded s.graph.base nodes)
    (hc : Copies s.graph.base s'.graph.base) (hchain : s.deltaHead = [])
    (hchain' : s'.deltaHead = [])
    (hout : ResolvesOut a s nodes) (hout' : ResolvesOut a' s' nodes)
    (hin : InRowsAlike a a' s s' nodes) :
    (neighborInit indexWalk a s i dir filter).Alike
      (neighborInit indexWalk a' s' i dir filter) := by
  have hrow : outRow s'.graph.base dir i = outRow s.graph.base dir i := hc.outRow
  refine
    { baseIdx := by rw [neighborInit_eq hchain, neighborInit_eq hchain']
      baseCount := by rw [neighborInit_eq hchain, neighborInit_eq hchain', hrow]
      invIdx := by rw [neighborInit_eq hchain, neighborInit_eq hchain']
      invCount := ?_
      additions := by rw [neighborInit_eq hchain, neighborInit_eq hchain']; exact ⟨rfl, rfl⟩
      out := ?_
      inc := ?_ }
  · rw [neighborInit_eq hchain, neighborInit_eq hchain']
    rcases hin with ⟨hinv, hci, ha, -, -⟩ | hnone
    · rw [hci.inRow hinv hc.nodeCount ha]
    · exact (hnone dir i).2.trans (hnone dir i).1.symm
  · intro at' hat
    have hlt : at' < (outRow s.graph.base dir i).2 := by rwa [neighborInit_eq hchain] at hat
    obtain ⟨hi, hslot⟩ := mem_rowSlots_outRow hlt
    have hedge := (hb.target i hi _ hslot).1
    have hpred := hc.slotPred hb.records hedge
    refine ⟨?_, ?_, ?_⟩
    · rw [keepsOut_neighborInit hchain, keepsOut_neighborInit hchain', hrow, hpred]
    · rw [outIx_neighborInit hchain hb.records hout hlt,
        outIx_neighborInit hchain' hc.records hout' (hrow ▸ hlt), hrow, hc.edges _ hedge]
    · rw [neighborInit_eq hchain, neighborInit_eq hchain']
      rw [hrow, hpred]
  · intro at' hat
    have hlt : at' < (inRow a s.graph.base dir i).2 := by rwa [neighborInit_eq hchain] at hat
    rcases hin with ⟨hinv, hci, ha, hres, hres'⟩ | hnone
    · have hrow' : inRow a' s'.graph.base dir i = inRow a s.graph.base dir i :=
        hci.inRow hinv hc.nodeCount ha
      obtain ⟨-, hi, hslot⟩ := mem_invRowSlots_inRow hlt
      have hedge := (hb.source hinv i hi _ hslot).1
      have hpred := hci.slotPred hb.records hc.records hedge
      refine ⟨?_, ?_, ?_⟩
      · rw [keepsIn_neighborInit hchain, keepsIn_neighborInit hchain', hrow', hpred]
      · rw [inIx_neighborInit hchain hb.records hres hlt,
          inIx_neighborInit hchain' hc.records hres' (hrow' ▸ hlt), hrow', hci.invEdges _ hedge]
      · rw [neighborInit_eq hchain, neighborInit_eq hchain']
        rw [hrow', hpred]
    · rw [(hnone dir i).1] at hlt
      exact absurd hlt (Nat.not_lt_zero at')

/-- Then they yield the same neighbours and predicates. -/
theorem walks_of_alike (hchain : s.deltaHead = []) (hchain' : s'.deltaHead = [])
    (h : (neighborInit indexWalk a s i dir filter).Alike
      (neighborInit indexWalk a' s' i dir filter)) :
    (let c := neighborInit indexWalk a s i dir filter
     let c' := neighborInit indexWalk a' s' i dir filter
     neighborYields c'.calls c' = neighborYields c.calls c) ∧
    (let c := neighborInitPred indexWalk a s i dir filter
     let c' := neighborInitPred indexWalk a' s' i dir filter
     neighborYieldsPred c'.calls c' = neighborYieldsPred c.calls c) := by
  refine ⟨h.neighborYields (fastIfPlain_neighborInit hchain) (fastIfPlain_neighborInit hchain'), ?_⟩
  have hpred : (neighborInitPred indexWalk a s i dir filter).Alike
      (neighborInitPred indexWalk a' s' i dir filter) :=
    ⟨h.baseIdx, h.baseCount, h.invIdx, h.invCount, h.additions, h.out, h.inc⟩
  have hcalls : (neighborInitPred indexWalk a' s' i dir filter).calls =
      (neighborInitPred indexWalk a s i dir filter).calls := by
    simp only [NeighborCtx.calls, hpred.baseCount, hpred.invCount, hpred.additions.1,
      hpred.additions.2]
  dsimp only
  rw [hcalls]
  exact hpred.neighborYieldsPred _

end Chainless

/-! ## Lookups and degrees of a copy -/

section Copied

variable {b b' : Base} {nodes : List NodeId}

/-- A copy contains the same triples. -/
theorem Copies.contains (hc : Copies b b') (hb : Recorded b nodes) (hb' : NodeTable b' nodes)
    (t : Triple) : graphBaseContains b' t = graphBaseContains b t := by
  simp only [graphBaseContains, hc.nodeCount, hb'.nodeIndex, hb.nodeIndex]
  by_cases hzero : b.nodeCount = 0
  · simp [hzero]
  by_cases hs : t.subject ∈ nodes
  · rw [if_pos hs]
    have hi := hb.idxOf_lt hs
    generalize nodes.idxOf t.subject = i at hi
    dsimp only
    rw [hc.edgeOffsets i (by omega), hc.edgeOffsets (i + 1) (by omega)]
    have hcount : (b.edgeOffsets (i + 1) - b.edgeOffsets i) % 2 ^ 32 ≤
        b.edgeOffsets (i + 1) - b.edgeOffsets i := Nat.mod_le _ _
    generalize (b.edgeOffsets (i + 1) - b.edgeOffsets i) % 2 ^ 32 = count at hcount
    -- the search and the test look at slots of the row
    have hedge (j : ℕ) (hj : j < count) :
        b'.edges (b.edgeOffsets i + j) = b.edges (b.edgeOffsets i + j) := by
      have hlast := hb.offsets_le (i + 1) hi
      exact hc.edges _ (by omega)
    have hfind : graphBaseRowFind b' (b.edgeOffsets i) count t.predicate t.object =
        graphBaseRowFind b (b.edgeOffsets i) count t.predicate t.object := by
      simp only [graphBaseRowFind, hc.records, hb.records, Bool.not_false, if_true]
      apply lowerBound_congr
      intro j hj
      simp only [hedge j hj]
    rw [hfind]
    by_cases hlt : graphBaseRowFind b (b.edgeOffsets i) count t.predicate t.object < count
    · simp only [hlt, decide_true, Bool.true_and, graphBaseSlotIs, graphBaseSlotPred,
        graphBaseSlotObj, hc.records, hb.records, Bool.false_eq_true, if_false, hedge _ hlt]
    · simp [hlt]
  · simp [hs]

/-- The degrees agree if both have the inverse offsets, or both no inverse index. -/
theorem Copies.degree (hc : Copies b b') (hb : NodeTable b nodes) (hb' : NodeTable b' nodes)
    {a a' : Arrays}
    (hinv : (b.hasInverse = true ∧ CopiesInverse b b' ∧ a.invOffsets = true ∧
      a'.invOffsets = true) ∨ b.hasInverse = false ∧ b'.hasInverse = false)
    (id : NodeId) (dir : Direction) :
    graphBaseNodeDegree a' b' id dir = graphBaseNodeDegree a b id dir := by
  simp only [graphBaseNodeDegree, hc.nodeCount, hb'.nodeIndex, hb.nodeIndex]
  by_cases hzero : b.nodeCount = 0
  · simp [hzero]
  by_cases hid : id ∈ nodes
  · rw [if_pos hid]
    have hi := hb.idxOf_lt hid
    generalize nodes.idxOf id = i at hi
    dsimp only
    rw [hc.edgeOffsets i (by omega), hc.edgeOffsets (i + 1) (by omega)]
    rcases hinv with ⟨hi₁, hci, ha, ha'⟩ | ⟨hi₁, hi₂⟩
    · rw [hci.hasInverse, hi₁, ha, ha', hci.invOffsets i (by omega),
        hci.invOffsets (i + 1) (by omega)]
    · simp [hi₁, hi₂]
  · simp [hid]

end Copied

/-! ## Reopened graphs -/

/-- The graph with the arrays that it allocated. -/
def GraphState.opened (g : GraphState) : OpenGraph := ⟨g, Arrays.created g.base⟩

/-- A new snapshot of a graph without a chain. -/
theorem graphSnapshotCreate_of_nodeTable {g : GraphState} {nodes : List NodeId}
    (htab : NodeTable g.base nodes) (hchain : g.deltaHead = [])
    (hcount : g.base.nodeCount ≤ g.totalNodes) :
    ∃ s, graphSnapshotCreate g = some s ∧ s.graph.base = g.base ∧ s.deltaHead = [] ∧
      s.nodeMap = nodes := by
  have hmap : graphSnapshotBuildNodeMap g.base g.deltaHead g.totalNodes = some nodes := by
    rw [hchain, graphSnapshotBuildNodeMap_eq htab hcount]
  refine ⟨⟨{ g with snapshotCount := g.snapshotCount + 1 }, g.deltaHead, g.totalNodes,
    g.totalTriples, nodes⟩, ?_, rfl, hchain, rfl⟩
  rw [graphSnapshotCreate, hmap]
  rfl

section Resolved

variable {s : Snapshot} {a : Arrays} {nodes : List NodeId}

theorem usesIx_created (b : Base) : usesIx (Arrays.created b) b = true := by
  simp [usesIx, Arrays.created]

/-- A store with records resolves its slots by the endpoint indices. -/
theorem Recorded.resolvesOut (hb : Recorded s.graph.base nodes)
    (ha : a = Arrays.created s.graph.base) :
    ResolvesOut a s nodes := by
  intro i hi at' hat
  rw [ha, if_pos (usesIx_created _), (hb.target i hi at' hat).2.2]

theorem Recorded.resolvesIn (hb : Recorded s.graph.base nodes)
    (ha : a = Arrays.created s.graph.base)
    (hinv : s.graph.base.hasInverse = true) : ResolvesIn a s nodes := by
  intro i hi at' hat
  rw [ha, if_pos (usesIx_created _), (hb.source hinv i hi at' hat).2.2]

/-- Without endpoint indices the slots are resolved by the ids. -/
theorem resolvesOut_of_findNode (hb : Recorded b nodes) (hc : Copies b s.graph.base)
    (htab : NodeTable s.graph.base nodes) (hmap : s.nodeMap = nodes) (ha : a.edgeTargets = false) :
    ResolvesOut a s nodes := by
  intro i hi at' hat
  have hi' : i < b.nodeCount := hc.nodeCount ▸ hi
  obtain ⟨hlt, hmem, -⟩ := hb.target i hi' at' (hc.rowSlots hi' ▸ hat)
  rw [if_neg (by simp [usesIx, ha])]
  exact graphSnapshotFindNode_eq htab hmap (hc.edges at' hlt ▸ hmem)

theorem inRow_eq_zero (h : (a.invOffsets && a.invSources) = false) (dir : Direction) (i : ℕ) :
    (inRow a b dir i).2 = 0 := by
  simp [inRow, h]

end Resolved

section Answers

variable {g : GraphState} {g' : OpenGraph} {nodes : List NodeId}

section

variable (hb : Recorded g.base nodes) (ho : Opens g.base nodes g') (hchain : g.deltaHead = [])
include hb ho hchain

/-- A graph opened from the file of a store answers alike if its slots are resolved alike. -/
theorem Opens.answersAlike (hcount : g.base.nodeCount ≤ g.totalNodes)
    (hwalk : ∀ s s', s.graph.base = g.base → s'.graph.base = g'.graph.base → s'.nodeMap = nodes →
      ResolvesOut g'.arrays s' nodes ∧ InRowsAlike (Arrays.created g.base) g'.arrays s s' nodes)
    (hdegree : (g.base.hasInverse = true ∧ g'.arrays.invOffsets = true) ∨
      g.base.hasInverse = false ∧ g'.graph.base.hasInverse = false ∨ g.base.nodeCount = 0) :
    AnswersAlike g.opened g' := by
  obtain ⟨s, hs, hbase, hs₀, -⟩ := graphSnapshotCreate_of_nodeTable hb.toNodeTable hchain hcount
  obtain ⟨s', hs', hbase', hs₀', hmap'⟩ := graphSnapshotCreate_of_nodeTable ho.table ho.chain
    (ho.copies.nodeCount.trans ho.total.symm).le
  refine
    { nodeCount := ho.copies.nodeCount
      nodeIds := ho.copies.nodeIds
      walks := ⟨s, s', hs, hs', fun indexWalk i dir filter => ?_⟩
      contains := ho.copies.contains hb ho.table
      degree := fun id dir => ?_ }
  · obtain ⟨hout', hin⟩ := hwalk s s' hbase hbase' hmap'
    have hrec : Recorded s.graph.base nodes := hbase ▸ hb
    have hout : ResolvesOut (Arrays.created g.base) s nodes :=
      hrec.resolvesOut (by rw [hbase])
    apply walks_of_alike hs₀ hs₀'
    exact alike_neighborInit hrec (hbase ▸ hbase' ▸ ho.copies) hs₀ hs₀' hout hout' hin
  · rcases hdegree with ⟨hinv, ha⟩ | ⟨hinv, hinv'⟩ | hzero
    · exact ho.copies.degree hb.toNodeTable ho.table (.inl ⟨hinv, ho.inverse hinv, hinv, ha⟩) id dir
    · exact ho.copies.degree hb.toNodeTable ho.table (.inr ⟨hinv, hinv'⟩) id dir
    · have hzero' := ho.copies.nodeCount.trans hzero
      simp [graphBaseNodeDegree, hzero, hzero', GraphState.opened]

/-- A graph that is read from the file answers alike. -/
theorem Opens.answersAlike_of_recorded (hcount : g.base.nodeCount ≤ g.totalNodes)
    (hrec : Recorded g'.graph.base nodes) (hinv : g'.graph.base.hasInverse = g.base.hasInverse)
    (ha : g'.arrays = Arrays.created g'.graph.base) : AnswersAlike g.opened g' := by
  refine ho.answersAlike hb hchain hcount ?_ ?_
  · intro s s' hs hs' _
    have ha' : g'.arrays = Arrays.created s'.graph.base := by rw [ha, hs']
    have hrec' : Recorded s'.graph.base nodes := hs' ▸ hrec
    refine ⟨hrec'.resolvesOut ha', ?_⟩
    by_cases hi : g.base.hasInverse = true
    · refine .inl ⟨hs ▸ hi, hs ▸ hs' ▸ ho.inverse hi, ?_, ?_, ?_⟩
      · rw [ha]
        simp [Arrays.created, hinv]
      · exact Recorded.resolvesIn (hs ▸ hb) (by rw [hs]) (hs ▸ hi)
      · exact hrec'.resolvesIn ha' (hs' ▸ hinv.trans hi)
    · have hi' : g.base.hasInverse = false := by simpa using hi
      refine .inr fun dir i => ⟨inRow_eq_zero ?_ dir i, inRow_eq_zero ?_ dir i⟩
      · simp [Arrays.created, hi']
      · rw [ha]
        simp [Arrays.created, hinv, hi']
  · by_cases hi : g.base.hasInverse = true
    · exact .inl ⟨hi, by rw [ha]; exact hinv.trans hi⟩
    · have hi' : g.base.hasInverse = false := by simpa using hi
      exact .inr (.inl ⟨hi', hinv.trans hi'⟩)

end

/-- The inverse rows of a store that maps well are not walked. -/
theorem MapsWell.inRow_eq_zero (h : MapsWell b) (dir : Direction) (i : ℕ) :
    (inRow (Arrays.created b) b dir i).2 = 0 := by
  unfold inRow graphBaseGetInverseEdgesAt
  split_ifs with hdir
  · dsimp only
    split_ifs with hi
    · rfl
    · obtain ⟨hinv, hlt⟩ := not_or.1 hi
      rcases h with hzero | ⟨-, hrows⟩
      · omega
      · exact hrows i (not_le.1 hlt)
  · rfl

/-- What a walk along the inverse rows yields has their length. -/
theorem length_neighborYields_incoming {s : Snapshot} {a : Arrays} (hchain : s.deltaHead = [])
    (i : ℕ) :
    (neighborYields (neighborInit true a s i .incoming none).calls
      (neighborInit true a s i .incoming none)).length = (inRow a s.graph.base .incoming i).2 := by
  have hadd : (neighborInit true a s i .incoming none).additions = [] := by
    rw [neighborInit_eq hchain]
  have hkeep : (neighborInit true a s i .incoming none).keepsIn = fun _ => true := by
    funext at'
    rw [keepsIn_neighborInit hchain, predMatches]
  rw [neighborYields_eq, NeighborCtx.rest_eq_of_fastIfPlain (fastIfPlain_neighborInit hchain) hadd,
    hkeep, List.filter_true, neighborInit_eq hchain]
  simp [NeighborCtx.outLeft, NeighborCtx.inLeft, outRow, Direction.Forwards]

/-- A mapped graph answers alike exactly if its inverse index is there and not walked. -/
theorem Opens.answersAlike_mapped_iff (hb : Recorded g.base nodes) (ho : Opens g.base nodes g')
    (hchain : g.deltaHead = []) (hcount : g.base.nodeCount ≤ g.totalNodes)
    (hinv : g'.graph.base.hasInverse = true)
    (ha : g'.arrays = ⟨true, false, g.base.hasInverse, g.base.hasInverse, false⟩) :
    AnswersAlike g.opened g' ↔ MapsWell g.base := by
  constructor
  · intro h
    by_contra hnot
    obtain ⟨hne, hrest⟩ := not_or.1 hnot
    by_cases hi : g.base.hasInverse = true
    · -- some inverse row is walked in the original only
      have : ∃ i < g.base.nodeCount,
          (g.base.invOffsets (i + 1) - g.base.invOffsets i) % 2 ^ 32 ≠ 0 := by
        by_contra hall
        exact hrest ⟨hi, by simpa using hall⟩
      obtain ⟨i, hlt, hrow⟩ := this
      obtain ⟨s, s', hs, hs', hwalk⟩ := h.walks
      obtain ⟨t, ht, hbase, ht₀, -⟩ := graphSnapshotCreate_of_nodeTable hb.toNodeTable hchain hcount
      obtain ⟨t', ht', -, ht₀', -⟩ := graphSnapshotCreate_of_nodeTable ho.table ho.chain
        (ho.copies.nodeCount.trans ho.total.symm).le
      obtain rfl : t = s := Option.some.inj (ht.symm.trans hs)
      obtain rfl : t' = s' := Option.some.inj (ht'.symm.trans hs')
      have hlen := congrArg List.length (hwalk true i .incoming none).1
      rw [length_neighborYields_incoming ht₀', length_neighborYields_incoming ht₀,
        Graph.inRow_eq_zero (by simp [ha]), hbase] at hlen
      apply hrow
      rw [hlen]
      simp [GraphState.opened, inRow, Arrays.created, graphBaseGetInverseEdgesAt, hi,
        not_le.2 hlt, Direction.Backwards]
    · -- the degree of the first node follows the missing offsets
      have hdeg := h.degree (g.base.nodeIds 0) .incoming
      have hpos : 0 < g.base.nodeCount := Nat.pos_of_ne_zero hne
      have hmem := hb.ids_mem hpos
      simp [graphBaseNodeDegree, GraphState.opened, ho.copies.nodeCount, hne, ho.table.nodeIndex,
        hb.nodeIndex, hmem, hinv, ha, hi, Direction.Backwards] at hdeg
  · intro h
    refine ho.answersAlike hb hchain hcount ?_ ?_
    · intro s s' hs hs' hmap
      refine ⟨resolvesOut_of_findNode hb (hs' ▸ ho.copies) (hs' ▸ ho.table) hmap (by rw [ha]), ?_⟩
      refine .inr fun dir i =>
        ⟨hs ▸ h.inRow_eq_zero dir i, Graph.inRow_eq_zero (by simp [ha]) dir i⟩
    · rcases h with hzero | ⟨hi, -⟩
      · exact .inr (.inr hzero)
      · exact .inl ⟨hi, by rw [ha]; exact hi⟩

end Answers

/-- The file of a graph without a delta chain that keeps its edge records can be read and
mapped.  The graph that was read answers like the original; the mapped one does so exactly if
the store maps well. -/
theorem reopened_answersAlike_iff (g : GraphState) (hg : history.Reachable g)
    (hchain : g.deltaHead = []) (hrec : g.base.onePred = false) (predicateCount : Fin (2 ^ 32))
    (file : List UInt8)
    (hfile : graphWriteToFile g.base (Arrays.created g.base) predicateCount = some (.ok, file))
    (sw : Switches) (mem : Memory) :
    ∃ r m, graphReadFromFile sw mem file = .ok r ∧ graphMmapOpen sw mem file = .ok m ∧
      AnswersAlike g.opened r ∧ (AnswersAlike g.opened m ↔ MapsWell g.base) := by
  have hstored := stored_of_reachable hg
  obtain ⟨nodes, hb⟩ := hstored.recorded hrec
  obtain ⟨hholds, hfit⟩ := holdsStore_of_write hfile
  obtain ⟨r, hr, hro, hrrec, hrinv, hra⟩ := graphReadFromFile_spec hholds hb hfit sw mem
  obtain ⟨m, hm, hmo, hminv, hma⟩ := graphMmapOpen_spec hholds hb hfit sw mem
  refine ⟨r, m, hr, hm, ?_, ?_⟩
  · exact hro.answersAlike_of_recorded hb hchain hstored.counted hrrec hrinv hra
  · exact hmo.answersAlike_mapped_iff hb hchain hstored.counted hminv hma

/-- A store with records is written if the positions fit. -/
theorem graphWriteToFile_eq_ok (hb : b.onePred = false) (hfit : endOfSections b < 2 ^ 63)
    (predicateCount : Fin (2 ^ 32)) :
    ∃ file, graphWriteToFile b (Arrays.created b) predicateCount = some (.ok, file) := by
  rw [graphWriteToFile, if_neg (by simp [Arrays.created, hb]), if_neg (not_le.2 hfit)]
  exact ⟨_, rfl⟩

/-- Two edges between two nodes with different predicates, compacted. -/
def twoEdges : GraphState :=
  (graphCompact ⟨true, true, true⟩ .cleared
    ((performAll newGraph [.add ⟨1, 5, 2⟩, .add ⟨1, 6, 2⟩, .commit]).getD newGraph)).2

theorem twoEdges_spec : history.Reachable twoEdges ∧ twoEdges.deltaHead = [] ∧
    twoEdges.base.onePred = false ∧ endOfSections twoEdges.base < 2 ^ 63 ∧
    ¬ MapsWell twoEdges.base := by
  refine ⟨?_, by decide +kernel, by decide +kernel, by decide +kernel, by decide +kernel⟩
  obtain ⟨g, hg⟩ : ∃ g, performAll newGraph [.add ⟨1, 5, 2⟩, .add ⟨1, 6, 2⟩, .commit] = some g :=
    ⟨_, rfl⟩
  refine .step (a := .compact ⟨true, true, true⟩ .cleared)
    (reachable_performAll reachable_newGraph hg).1 trivial ?_
  rw [twoEdges, hg]
  rfl

/-- The file of two edges is read back, and the graph answers alike. -/
theorem reopened_answersAlike_twoEdges :
    ∃ file r, graphWriteToFile twoEdges.base (Arrays.created twoEdges.base) 2 = some (.ok, file) ∧
      graphReadFromFile ⟨true, true, true⟩ .cleared file = .ok r ∧
        AnswersAlike twoEdges.opened r := by
  obtain ⟨hg, hchain, hrec, hfit, -⟩ := twoEdges_spec
  obtain ⟨file, hfile⟩ := graphWriteToFile_eq_ok hrec hfit 2
  obtain ⟨r, m, hr, -, halike, -⟩ := reopened_answersAlike_iff twoEdges hg hchain hrec 2 file hfile
    ⟨true, true, true⟩ .cleared
  exact ⟨file, r, hfile, hr, halike⟩

/-- The same file, mapped: the walk along the edges into node 2 yields nothing. -/
theorem mapped_loses_incoming :
    ∃ g file m, history.Reachable g ∧ g.deltaHead = [] ∧ g.base.onePred = false ∧
      graphWriteToFile g.base (Arrays.created g.base) 2 = some (.ok, file) ∧
      graphMmapOpen ⟨true, true, true⟩ .cleared file = .ok m ∧ ¬ AnswersAlike g.opened m := by
  obtain ⟨hg, hchain, hrec, hfit, hmaps⟩ := twoEdges_spec
  obtain ⟨file, hfile⟩ := graphWriteToFile_eq_ok hrec hfit 2
  have hstored := stored_of_reachable hg
  obtain ⟨nodes, hb⟩ := hstored.recorded hrec
  obtain ⟨hholds, hlong⟩ := holdsStore_of_write hfile
  obtain ⟨m, hm, hmo, hminv, hma⟩ := graphMmapOpen_spec hholds hb hlong ⟨true, true, true⟩ .cleared
  refine ⟨twoEdges, file, m, hg, hchain, hrec, hfile, hm, fun halike => hmaps ?_⟩
  exact (hmo.answersAlike_mapped_iff hb hchain hstored.counted hminv hma).1 halike

end Virtuoso.Graph
