import Virtuoso.Graph.Delta
import Virtuoso.Lib.LowerBound

/-!
# The base store

The base store (`graph_base_store_t`) keeps the compacted triples as a pair of
CSRs: the slots `edge_offsets[i] ..< edge_offsets[i + 1]` are the edges out of node
`i`, and the inverse arrays hold the same edges by their objects.  Three switches
replace stored data by derived data: a run of consecutive node ids is indexed by
subtraction, endpoint indices are kept in 32 bits, and a store all of whose edges
carry one predicate has no edge records.

An array is a function of the slot; `UINT64_MAX` as "not in this store" is `none`.
-/

namespace Virtuoso.Graph

open Lib

/-- `graph_edge_t`. -/
structure Edge where
  predicate : PredId
  object : NodeId
deriving DecidableEq, Inhabited

/-- `graph_inverse_edge_t`. -/
structure InverseEdge where
  predicate : PredId
  subject : NodeId
deriving DecidableEq, Inhabited

/-- `graph_base_store_t`. -/
structure Base where
  nodeCapacity : ℕ
  nodeCount : ℕ
  edgeCount : ℕ
  nodeIds : ℕ → NodeId
  denseIds : Bool
  denseBase : NodeId
  edgeOffsets : ℕ → ℕ
  /-- Not allocated in a one-predicate store. -/
  edges : ℕ → Edge
  edgeTargets : ℕ → ℕ
  hasInverse : Bool
  invOffsets : ℕ → ℕ
  /-- Not allocated in a one-predicate store. -/
  invEdges : ℕ → InverseEdge
  invSources : ℕ → ℕ
  onePred : Bool
  thePred : PredId
  narrowIx : Bool

/-- `graph_dense_node_index`, `graph_narrow_edge_index` and `graph_one_pred_store`. -/
structure Switches where
  denseNodeIndex : Bool
  narrowEdgeIndex : Bool
  onePredStore : Bool

/-- What the allocator left in the arrays of a new store. -/
structure Memory where
  nodeIds : ℕ → NodeId
  offsets : ℕ → ℕ
  edges : ℕ → Edge
  invEdges : ℕ → InverseEdge
  indices : ℕ → ℕ

def Memory.cleared : Memory where
  nodeIds _ := 0
  offsets _ := 0
  edges _ := default
  invEdges _ := default
  indices _ := 0

/-- `graph_base_create`. -/
def graphBaseCreate (sw : Switches) (mem : Memory) (nodeCapacity : ℕ) (buildInverse onePred : Bool)
    (thePred : PredId) : Base where
  nodeCapacity := max nodeCapacity 16
  nodeCount := 0
  edgeCount := 0
  nodeIds := mem.nodeIds
  denseIds := false
  denseBase := 0
  edgeOffsets := Function.update mem.offsets 0 0
  edges := mem.edges
  edgeTargets := mem.indices
  hasInverse := buildInverse
  invOffsets := Function.update mem.offsets 0 0
  invEdges := mem.invEdges
  invSources := mem.indices
  onePred := onePred && sw.onePredStore
  thePred := if onePred && sw.onePredStore then thePred else 0
  -- `UINT32_MAX`
  narrowIx := sw.narrowEdgeIndex && decide (max nodeCapacity 16 ≤ 2 ^ 32 - 1)

/-- `graph_base_set_dense_descriptor`; the subtraction of ids wraps. -/
def graphBaseSetDenseDescriptor (sw : Switches) (b : Base) : Base :=
  { b with
    denseBase := if b.nodeCount ≠ 0 then b.nodeIds 0 else 0
    denseIds := sw.denseNodeIndex && decide (0 < b.nodeCount) &&
      decide ((b.nodeIds (b.nodeCount - 1) - b.nodeIds 0).val = b.nodeCount - 1) }

/-- `graph_base_node_index`. -/
def graphBaseNodeIndex (b : Base) (id : NodeId) : Option ℕ :=
  if b.nodeCount = 0 then none
  else if b.denseIds then
    let d := (id - b.denseBase).val
    if d < b.nodeCount then some d else none
  else
    let idx := lowerBound (fun i => decide (b.nodeIds i < id)) b.nodeCount
    if idx < b.nodeCount ∧ b.nodeIds idx = id then some idx else none

/-- `graph_ix_at`: the slot number is passed as a `uint32_t`. -/
def graphIxAt (slice : ℕ → ℕ) (at' : ℕ) : ℕ := slice (at' % 2 ^ 32)

/-- `graph_ix_set`: what is stored for index `ix`; the slot number is a `uint64_t` here. -/
def graphIxSet (narrow : Bool) (ix : ℕ) : ℕ := if narrow then ix % 2 ^ 32 else ix

/-- `graph_base_slot_pred`. -/
def graphBaseSlotPred (b : Base) (at' : ℕ) : PredId :=
  if b.onePred then b.thePred else (b.edges at').predicate

/-- `graph_base_slot_obj`. -/
def graphBaseSlotObj (b : Base) (at' : ℕ) : NodeId :=
  if b.onePred then b.nodeIds (graphIxAt b.edgeTargets at') else (b.edges at').object

/-- `graph_base_inv_slot_pred`. -/
def graphBaseInvSlotPred (b : Base) (at' : ℕ) : PredId :=
  if b.onePred then b.thePred else (b.invEdges at').predicate

/-- `graph_base_inv_slot_subj`. -/
def graphBaseInvSlotSubj (b : Base) (at' : ℕ) : NodeId :=
  if b.onePred then b.nodeIds (graphIxAt b.invSources at') else (b.invEdges at').subject

/-- `graph_binary_search_edge`. -/
def graphBinarySearchEdge (edges : ℕ → Edge) (count : ℕ) (pred : PredId) (obj : NodeId) : ℕ :=
  lowerBound
    (fun mid => decide ((edges mid).predicate < pred ∨
      (edges mid).predicate = pred ∧ (edges mid).object < obj))
    count

/-- `graph_base_row_find`. -/
def graphBaseRowFind (b : Base) (rowStart count : ℕ) (pred : PredId) (obj : NodeId) : ℕ :=
  if !b.onePred then graphBinarySearchEdge (fun i => b.edges (rowStart + i)) count pred obj
  else if pred ≠ b.thePred then count
  else
    match graphBaseNodeIndex b obj with
    | none => count
    | some want =>
      lowerBound (fun mid => decide (graphIxAt b.edgeTargets (rowStart + mid) < want)) count

/-- `graph_base_slot_is`. -/
def graphBaseSlotIs (b : Base) (at' : ℕ) (pred : PredId) (obj : NodeId) : Bool :=
  decide (graphBaseSlotPred b at' = pred) && decide (graphBaseSlotObj b at' = obj)

/-- `graph_base_contains`; the length of the row is cast to `uint32_t`. -/
def graphBaseContains (b : Base) (t : Triple) : Bool :=
  if b.nodeCount = 0 then false
  else
    match graphBaseNodeIndex b t.subject with
    | none => false
    | some nodeIx =>
      let start := b.edgeOffsets nodeIx
      let count := (b.edgeOffsets (nodeIx + 1) - start) % 2 ^ 32
      let at' := graphBaseRowFind b start count t.predicate t.object
      decide (at' < count) && graphBaseSlotIs b (start + at') t.predicate t.object

end Virtuoso.Graph
