import Mathlib.Data.Finset.Sort
import Virtuoso.Graph.Base
import Virtuoso.Lib.Machine

/-!
# The versioned triple store

A graph is a base store, a chain of committed deltas and a working delta that
collects the additions and removals since the last commit.  A lookup walks the
chain from the newest delta and stops at the first one that mentions the triple.
The counters of the graph are kept beside the deltas: every accepted addition
counts one up and every removal one down, whatever the delta made of it.
-/

namespace Virtuoso.Graph

open Lib

/-- `graph_t`. -/
structure GraphState where
  base : Base
  /-- The chain from `delta_head`, newest delta first. -/
  deltaHead : List Delta
  workingDelta : Delta
  /-- The ids in the slots of `node_index`. -/
  nodeIndex : List NodeId
  totalNodes : ℕ
  totalTriples : ℕ
  snapshotCount : ℕ
  /-- `config.build_inverse_index`. -/
  buildInverseIndex : Bool

/-- `graph_create`. -/
def graphCreate (sw : Switches) (mem : Memory) (initialNodeCapacity : ℕ)
    (buildInverseIndex : Bool) :
    GraphState where
  base := graphBaseCreate sw mem initialNodeCapacity buildInverseIndex false 0
  deltaHead := []
  workingDelta := Delta.create
  nodeIndex := []
  totalNodes := 0
  totalTriples := 0
  snapshotCount := 0
  buildInverseIndex := buildInverseIndex

/-- The error codes that the modelled functions return. -/
inductive GraphError
  | ok
  | notFound
  | invalidId
  | snapshotActive
  | corrupted
  | noPath
  | capacityExceeded
deriving DecidableEq

/-- The ids that `graph_add_triple` accepts. -/
def Triple.Valid (t : Triple) : Prop :=
  t.subject ≠ idInvalid ∧ t.predicate ≠ idInvalid ∧ t.object ≠ idInvalid

instance (t : Triple) : Decidable t.Valid := inferInstanceAs (Decidable (_ ∧ _ ∧ _))

/-- `graph_node_index_insert`: a new id takes a free slot of the table. -/
def graphNodeIndexInsert (idx : List NodeId) (id : NodeId) : List NodeId :=
  if id ∈ idx then idx else id :: idx

/-- `graph_add_triple`. -/
def graphAddTriple (g : GraphState) (t : Triple) : Option (GraphError × GraphState) :=
  if ¬ t.Valid then some (.invalidId, g)
  else do
    let workingDelta ← g.workingDelta.addTriple t
    let nodeIndex := graphNodeIndexInsert (graphNodeIndexInsert g.nodeIndex t.subject) t.object
    some (.ok,
      { g with
        workingDelta
        nodeIndex
        totalNodes := g.totalNodes + (nodeIndex.length - g.nodeIndex.length)
        totalTriples := g.totalTriples + 1 })

/-- `graph_remove_triple`. -/
def graphRemoveTriple (g : GraphState) (t : Triple) : Option (GraphError × GraphState) := do
  let workingDelta ← g.workingDelta.removeTriple t
  some (.ok,
    { g with
      workingDelta
      totalTriples := if 0 < g.totalTriples then g.totalTriples - 1 else g.totalTriples })

/-- The additions of a delta as `graph_commit` leaves them: sorted, without repetitions. -/
def canonicalAdditions (additions : List Triple) : List Triple :=
  if 1 < additions.length then dropRepeats (qsortTriples additions) else additions

/-- `graph_commit`. -/
def graphCommit (g : GraphState) : GraphState :=
  let working := g.workingDelta
  if working.additions.length = 0 ∧ working.deletions.length = 0 then g
  else
    let additions := canonicalAdditions working.additions
    let dropped := working.additions.length - additions.length
    { g with
      totalTriples :=
        if additions.length ≠ working.additions.length ∧ dropped ≤ g.totalTriples then
          g.totalTriples - dropped
        else g.totalTriples
      deltaHead := { working with additions } :: g.deltaHead
      workingDelta := Delta.create }

theorem canonicalAdditions_eq (additions : List Triple) :
    canonicalAdditions additions = (qsortTriples additions).dedup := by
  unfold canonicalAdditions
  split_ifs with h
  · exact dropRepeats_eq_dedup (pairwise_qsortTriples additions)
  · rcases additions with _ | ⟨t, _ | ⟨u, rest⟩⟩
    · rfl
    · rfl
    · simp at h

theorem mem_canonicalAdditions {additions : List Triple} {t : Triple} :
    t ∈ canonicalAdditions additions ↔ t ∈ additions := by
  rw [canonicalAdditions_eq, List.mem_dedup, (qsortTriples_perm additions).mem_iff]

theorem length_canonicalAdditions (additions : List Triple) :
    (canonicalAdditions additions).length = additions.dedup.length := by
  rw [canonicalAdditions_eq, ((qsortTriples_perm additions).dedup).length_eq]

/-- `graph_triple_state_t`. -/
inductive TripleState
  | notFound
  | exists'
  | deleted
deriving DecidableEq

/-- `graph_lookup_triple`, on the chain and the base store of a snapshot. -/
def graphLookupTriple (base : Base) : List Delta → Triple → TripleState
  | [], t => if graphBaseContains base t then .exists' else .notFound
  | d :: prev, t =>
    if t ∈ d.deletions then .deleted
    else if t ∈ d.additions then .exists'
    else graphLookupTriple base prev t

/-- The lookup below the working delta finds the triple. -/
def GraphState.Committed (g : GraphState) (t : Triple) : Prop :=
  graphLookupTriple g.base g.deltaHead t = .exists'

instance (g : GraphState) (t : Triple) : Decidable (g.Committed t) :=
  inferInstanceAs (Decidable (_ = _))

/-- `graph_snapshot_t`. -/
structure Snapshot where
  graph : GraphState
  deltaHead : List Delta
  nodeCount : ℕ
  tripleCount : ℕ
  nodeMap : List NodeId

/-- `graph_snapshot_node_insert`: fails when the map is full. -/
def graphSnapshotNodeInsert (nodeCount : ℕ) (nodeMap : List NodeId) (id : NodeId) :
    Option (List NodeId) :=
  if id ∈ nodeMap then some nodeMap
  else if nodeCount ≤ nodeMap.length then none
  else some (nodeMap ++ [id])

/-- The ids in the order in which `graph_snapshot_build_node_map` meets them. -/
def nodeMapSources (base : Base) (deltaHead : List Delta) : List NodeId :=
  (List.range base.nodeCount).map base.nodeIds ++
    deltaHead.flatMap fun d => d.additions.flatMap fun t => [t.subject, t.object]

/-- `graph_snapshot_build_node_map`: the node map, or `none` for `GRAPH_ERR_CORRUPTED`. -/
def graphSnapshotBuildNodeMap (base : Base) (deltaHead : List Delta) (nodeCount : ℕ) :
    Option (List NodeId) :=
  if base.denseIds = true ∧ deltaHead = [] then
    some (((List.range base.nodeCount).map base.nodeIds).take nodeCount)
  else do
    let nodeMap ← (nodeMapSources base deltaHead).foldlM (graphSnapshotNodeInsert nodeCount) []
    some (nodeMap.insertionSort (· ≤ ·))

/-- `graph_snapshot_create`; the graph counts the snapshots that are open. -/
def graphSnapshotCreate (g : GraphState) : Option Snapshot := do
  let nodeMap ← graphSnapshotBuildNodeMap g.base g.deltaHead g.totalNodes
  some
    { graph := { g with snapshotCount := g.snapshotCount + 1 }
      deltaHead := g.deltaHead
      nodeCount := g.totalNodes
      tripleCount := g.totalTriples
      nodeMap }

/-- The node map has room: `total_nodes` counts at least the nodes of the store and of the
chain.  The map of dense ids without a chain is cut instead. -/
def GraphState.MapFits (g : GraphState) : Prop :=
  (g.base.denseIds = true ∧ g.deltaHead = []) ∨
    (nodeMapSources g.base g.deltaHead).toFinset.card ≤ g.totalNodes

instance (g : GraphState) : Decidable g.MapFits := inferInstanceAs (Decidable (_ ∨ _))

/-- Insertions succeed exactly if the map has room for all ids. -/
theorem foldlM_nodeInsert_isSome_iff {nodeCount : ℕ} (ids nodeMap : List NodeId)
    (hmap : nodeMap.Nodup) (hlen : nodeMap.length ≤ nodeCount) :
    (ids.foldlM (graphSnapshotNodeInsert nodeCount) nodeMap).isSome ↔
      (nodeMap ++ ids).toFinset.card ≤ nodeCount := by
  induction ids generalizing nodeMap with
  | nil =>
    rw [List.append_nil, List.toFinset_card_of_nodup hmap]
    exact iff_of_true rfl hlen
  | cons id ids ih =>
    by_cases hm : id ∈ nodeMap
    · have hsame : (nodeMap ++ id :: ids).toFinset = (nodeMap ++ ids).toFinset := by
        ext x
        simp only [List.mem_toFinset, List.mem_append, List.mem_cons]
        constructor
        · rintro (hx | rfl | hx)
          exacts [.inl hx, .inl hm, .inr hx]
        · rintro (hx | hx)
          exacts [.inl hx, .inr (.inr hx)]
      simpa [graphSnapshotNodeInsert, hm, hsame] using ih nodeMap hmap hlen
    · have hnodup : (nodeMap ++ [id]).Nodup :=
        (List.perm_append_singleton id nodeMap).nodup_iff.2 (List.nodup_cons.2 ⟨hm, hmap⟩)
      by_cases hfull : nodeCount ≤ nodeMap.length
      · have hcard : nodeMap.length + 1 ≤ (nodeMap ++ id :: ids).toFinset.card := by
          have hlength := List.toFinset_card_of_nodup hnodup
          rw [List.length_append, List.length_singleton] at hlength
          rw [← hlength]
          refine Finset.card_le_card fun x hx => ?_
          simp only [List.mem_toFinset, List.mem_append, List.mem_singleton] at hx
          simp only [List.mem_toFinset, List.mem_append, List.mem_cons]
          exact hx.imp_right .inl
        refine iff_of_false (by simp [graphSnapshotNodeInsert, hm, hfull]) (by omega)
      · have := ih (nodeMap ++ [id]) hnodup (by simp; omega)
        simpa [graphSnapshotNodeInsert, hm, hfull] using this

/-- A snapshot can be taken exactly if the map has room. -/
theorem graphSnapshotCreate_isSome_iff {g : GraphState} :
    (graphSnapshotCreate g).isSome ↔ g.MapFits := by
  have hfold := foldlM_nodeInsert_isSome_iff (nodeMapSources g.base g.deltaHead) [] List.nodup_nil
    (Nat.zero_le g.totalNodes)
  rw [List.nil_append] at hfold
  rw [GraphState.MapFits, ← hfold, graphSnapshotCreate, graphSnapshotBuildNodeMap]
  by_cases hdense : g.base.denseIds = true ∧ g.deltaHead = []
  · simp [hdense]
  · rw [if_neg hdense, or_iff_right hdense]
    cases (nodeMapSources g.base g.deltaHead).foldlM (graphSnapshotNodeInsert g.totalNodes) [] <;>
      simp

theorem graphSnapshotCreate_eq_some {g : GraphState} (h : g.MapFits) :
    ∃ snap, graphSnapshotCreate g = some snap ∧ snap.graph.base = g.base ∧
      snap.deltaHead = g.deltaHead ∧ snap.tripleCount = g.totalTriples := by
  obtain ⟨snap, hsnap⟩ := Option.isSome_iff_exists.1 (graphSnapshotCreate_isSome_iff.2 h)
  obtain ⟨m, -, hm⟩ := Option.bind_eq_some_iff.1 hsnap
  refine ⟨snap, hsnap, ?_⟩
  cases hm
  exact ⟨rfl, rfl, rfl⟩

/-- There is room when the counted node index holds every node of the store and the chain. -/
theorem mapFits_of_index {g : GraphState} (hlen : g.nodeIndex.length ≤ g.totalNodes)
    (hmem : ∀ id ∈ nodeMapSources g.base g.deltaHead, id ∈ g.nodeIndex) : g.MapFits := by
  refine .inr (le_trans ?_ ((List.toFinset_card_le g.nodeIndex).trans hlen))
  exact Finset.card_le_card fun id hid => by simpa using hmem id (by simpa using hid)

/-- `graph_lookup_triple`. -/
def Snapshot.lookupTriple (s : Snapshot) (t : Triple) : TripleState :=
  graphLookupTriple s.graph.base s.deltaHead t

/-- `graph_snapshot_triple_count`. -/
def graphSnapshotTripleCount (s : Snapshot) : ℕ := s.tripleCount

end Virtuoso.Graph
