import Virtuoso.Graph.Neighbor
import Virtuoso.Lib.Distance

/-!
# Snapshots of a compacted store

A snapshot without a delta chain over a store that `graph_compact` built with its
inverse index.  Its node map is the node table of the store, so a snapshot index is
a store index.  The neighbours of a node are the other ends of its edges that pass the
filter, as far as the walks come: the length of a row is cast to 32 bits, and the inverse
rows hold the triples as the inverse build reads them.
-/

namespace Virtuoso.Graph

open Lib

/-- A snapshot without a delta chain over a compacted store of the sorted triples `ts`
with inverse index.  Additions that were not committed may already count as nodes. -/
structure CompactSnapshot (s : Snapshot) (ts : List Triple) : Prop where
  sorted : ts.Pairwise (· ≤ ·)
  valid : ∀ t ∈ ts, t.Valid
  made : ∃ (g : GraphState) (sw : Switches) (mem : Memory),
    g.deltaHead = [] ∧ g.base = buildBase sw mem true ts ∧ g.base.nodeCount ≤ g.totalNodes ∧
      graphSnapshotCreate g = some s

/-- New ids are appended to the map as long as there is room. -/
theorem foldlM_nodeInsert_eq {nodeCount : ℕ} (ids acc : List NodeId) (hnodup : (acc ++ ids).Nodup)
    (hlen : (acc ++ ids).length ≤ nodeCount) :
    ids.foldlM (graphSnapshotNodeInsert nodeCount) acc = some (acc ++ ids) := by
  induction ids generalizing acc with
  | nil => simp
  | cons id ids ih =>
    have hnew : id ∉ acc := by
      intro hmem
      exact (List.nodup_append.1 hnodup).2.2 id hmem id (by simp) rfl
    have hroom : ¬ nodeCount ≤ acc.length := by
      simp only [List.length_append, List.length_cons] at hlen
      omega
    rw [List.foldlM_cons, graphSnapshotNodeInsert, if_neg hnew, if_neg hroom]
    change ids.foldlM _ (acc ++ [id]) = _
    rw [ih (acc ++ [id]) (by simpa using hnodup) (by simpa using hlen)]
    simp

variable {nodes : List NodeId} {s : Snapshot} {id : NodeId} {i : ℕ} {filter : Option PredFilter}
  {dir : Direction}

theorem NodeTable.map_range {b : Base} (h : NodeTable b nodes) :
    (List.range b.nodeCount).map b.nodeIds = nodes := by
  refine List.ext_getElem (by simp [h.count]) fun i h₁ h₂ => ?_
  rw [List.getElem_map, List.getElem_range]
  exact h.ids i _ (List.getElem?_eq_getElem h₂)

/-- Without a chain the node map is the node table. -/
theorem graphSnapshotBuildNodeMap_eq {b : Base} (h : NodeTable b nodes) {nodeCount : ℕ}
    (hcount : b.nodeCount ≤ nodeCount) : graphSnapshotBuildNodeMap b [] nodeCount = some nodes := by
  have hlen : nodes.length ≤ nodeCount := h.count ▸ hcount
  rw [graphSnapshotBuildNodeMap]
  split_ifs with hdense
  · rw [h.map_range, List.take_of_length_le hlen]
  · have hsources : nodeMapSources b [] = nodes := by
      rw [nodeMapSources, h.map_range, List.flatMap_nil, List.append_nil]
    have hnodup : ([] ++ nodes).Nodup := h.ascending.imp fun h => h.ne
    rw [hsources, foldlM_nodeInsert_eq nodes [] hnodup hlen]
    exact congrArg some (List.Pairwise.insertionSort_eq (h.ascending.imp fun h => h.le))

/-- A node of the map is found at its index, in the store or in the map. -/
theorem graphSnapshotFindNode_eq (h : NodeTable s.graph.base nodes) (hmap : s.nodeMap = nodes)
    (hid : id ∈ nodes) : graphSnapshotFindNode s id = some (nodes.idxOf id) := by
  rw [graphSnapshotFindNode]
  split_ifs
  · rw [h.nodeIndex, if_pos hid]
  · rw [hmap]
    refine List.idxOf?_eq_some_iff.2 ⟨List.idxOf_lt_length_of_mem hid, List.getElem_idxOf _, ?_⟩
    intro j hj
    simpa using List.not_of_lt_findIdx hj

/-- A snapshot without a delta chain over a compacted store, with or without inverse index. -/
structure StoreSnapshot (s : Snapshot) (ts : List Triple) : Prop where
  sorted : ts.Pairwise (· ≤ ·)
  valid : ∀ t ∈ ts, t.Valid
  made : ∃ (g : GraphState) (sw : Switches) (mem : Memory) (inv : Bool),
    g.deltaHead = [] ∧ g.base = buildBase sw mem inv ts ∧ g.base.nodeCount ≤ g.totalNodes ∧
      graphSnapshotCreate g = some s

namespace StoreSnapshot

variable {s : Snapshot} {ts : List Triple} (h : StoreSnapshot s ts)
include h

theorem chain : s.deltaHead = [] := by
  obtain ⟨g, sw, mem, inv, hchain, -, -, hs⟩ := h.made
  obtain ⟨m, -, hm⟩ := Option.bind_eq_some_iff.1 hs
  cases hm
  exact hchain

theorem base_eq : ∃ sw mem inv, s.graph.base = buildBase sw mem inv ts := by
  obtain ⟨g, sw, mem, inv, -, hbase, -, hs⟩ := h.made
  obtain ⟨m, -, hm⟩ := Option.bind_eq_some_iff.1 hs
  cases hm
  exact ⟨sw, mem, inv, hbase⟩

theorem forward : Forward s.graph.base (collectNodes ts) ts := by
  obtain ⟨sw, mem, inv, hbase⟩ := h.base_eq
  exact hbase ▸ forward_buildBase sw mem inv h.sorted

theorem inverse (hinv : s.graph.base.hasInverse = true) :
    Inverse s.graph.base (collectNodes ts) (reread ts) := by
  obtain ⟨sw, mem, inv, hbase⟩ := h.base_eq
  rw [hbase, hasInverse_buildBase] at hinv
  exact hbase ▸ hinv ▸ inverse_buildBase sw mem h.sorted

/-- The node map is the node table. -/
theorem nodeMap_eq : s.nodeMap = collectNodes ts := by
  have htab := h.forward.toNodeTable
  obtain ⟨g, sw, mem, inv, hchain, -, hcount, hs⟩ := h.made
  obtain ⟨m, hmap, hm⟩ := Option.bind_eq_some_iff.1 hs
  cases hm
  change NodeTable g.base (collectNodes ts) at htab
  rw [hchain, graphSnapshotBuildNodeMap_eq htab hcount] at hmap
  exact (Option.some.inj hmap).symm

end StoreSnapshot

namespace CompactSnapshot

variable {s : Snapshot} {ts : List Triple}

section

variable (h : CompactSnapshot s ts)
include h

theorem store : StoreSnapshot s ts := by
  obtain ⟨g, sw, mem, hmade⟩ := h.made
  exact ⟨h.sorted, h.valid, g, sw, mem, true, hmade⟩

theorem chain : s.deltaHead = [] := h.store.chain

theorem forward : Forward s.graph.base (collectNodes ts) ts :=
  h.store.forward

theorem nodeMap_eq : s.nodeMap = collectNodes ts := h.store.nodeMap_eq

theorem hasInverse : s.graph.base.hasInverse = true := by
  obtain ⟨g, sw, mem, -, hbase, -, hs⟩ := h.made
  obtain ⟨m, -, hm⟩ := Option.bind_eq_some_iff.1 hs
  cases hm
  change g.base.hasInverse = true
  rw [hbase, hasInverse_buildBase]

theorem inverse : Inverse s.graph.base (collectNodes ts) (reread ts) :=
  h.store.inverse h.hasInverse

theorem nodeCount_le : s.graph.base.nodeCount ≤ s.nodeCount := by
  obtain ⟨g, sw, mem, -, -, hcount, hs⟩ := h.made
  obtain ⟨m, -, hm⟩ := Option.bind_eq_some_iff.1 hs
  cases hm
  exact hcount

theorem nodeMap_getElem? (hi : i < s.graph.base.nodeCount) :
    s.nodeMap[i]? = some (s.graph.base.nodeIds i) := by
  rw [h.nodeMap_eq]
  obtain ⟨id, hid⟩ : ∃ id, (collectNodes ts)[i]? = some id :=
    ⟨_, List.getElem?_eq_getElem (h.forward.count ▸ hi)⟩
  rw [hid, h.forward.ids i id hid]

theorem of_nodeMap_getElem? (hi : s.nodeMap[i]? = some id) :
    i < s.graph.base.nodeCount ∧ s.graph.base.nodeIds i = id := by
  rw [h.nodeMap_eq] at hi
  exact ⟨h.forward.count ▸ (List.getElem?_eq_some_iff.1 hi).1, h.forward.ids i id hi⟩

theorem length_nodeMap : s.nodeMap.length = s.graph.base.nodeCount := by
  rw [h.nodeMap_eq, h.forward.count]

/-- A node of the map is found at its index. -/
theorem findNode (hid : id ∈ s.nodeMap) :
    graphSnapshotFindNode s id = some (s.nodeMap.idxOf id) := by
  rw [h.nodeMap_eq] at hid ⊢
  exact graphSnapshotFindNode_eq h.forward.toNodeTable h.nodeMap_eq hid

end

end CompactSnapshot

/-! ## Edges between nodes -/

/-- `y` is the other end of an edge at `x` along the direction that passes the filter. -/
def Adjacent (ts : List Triple) (dir : Direction) (filter : Option PredFilter) (x y : NodeId) :
    Prop :=
  ∃ t ∈ ts, predMatches filter t.predicate = true ∧
    (dir.Forwards ∧ t.subject = x ∧ t.object = y ∨ dir.Backwards ∧ t.object = x ∧ t.subject = y)

/-- The entries of a row that a walk comes to: the length of the row is cast to `uint32_t`. -/
def walked (row : List Triple) : List Triple := row.take (row.length % 2 ^ 32)

theorem walked_of_lt {row : List Triple} (h : row.length < 2 ^ 32) : walked row = row := by
  rw [walked, Nat.mod_eq_of_lt h, List.take_length]

/-- The triples that a walk along the forward row of `x` comes to. -/
def walkedOut (ts : List Triple) (x : NodeId) : List Triple :=
  walked (ts.filter fun t => t.subject = x)

/-- The triples that a walk along the inverse row of `x` comes to. -/
def walkedIn (ts : List Triple) (x : NodeId) : List Triple :=
  walked ((reread ts).filter fun t => t.object = x)

/-- A walk from `x` comes to `y`. -/
def Seen (ts : List Triple) (dir : Direction) (filter : Option PredFilter) (x y : NodeId) : Prop :=
  (dir.Forwards ∧ ∃ t ∈ walkedOut ts x, predMatches filter t.predicate = true ∧ t.object = y) ∨
    dir.Backwards ∧ ∃ t ∈ walkedIn ts x, predMatches filter t.predicate = true ∧ t.subject = y

section Walked

variable {ts : List Triple} {x y : NodeId} {t : Triple}

theorem of_mem_walkedOut (h : t ∈ walkedOut ts x) : t ∈ ts ∧ t.subject = x := by
  simpa using List.mem_of_mem_take h

theorem of_mem_walkedIn (h : t ∈ walkedIn ts x) : t ∈ reread ts ∧ t.object = x := by
  simpa using List.mem_of_mem_take h

/-- The ends of an edge are nodes. -/
theorem Adjacent.mem_nodes (h : Adjacent ts dir filter x y) :
    x ∈ collectNodes ts ∧ y ∈ collectNodes ts := by
  obtain ⟨t, ht, -, ⟨-, rfl, rfl⟩ | ⟨-, rfl, rfl⟩⟩ := h
  · exact ⟨mem_collectNodes.2 ⟨t, ht, .inl rfl⟩, mem_collectNodes.2 ⟨t, ht, .inr rfl⟩⟩
  · exact ⟨mem_collectNodes.2 ⟨t, ht, .inr rfl⟩, mem_collectNodes.2 ⟨t, ht, .inl rfl⟩⟩

theorem Seen.mem_nodes (h : Seen ts dir filter x y) :
    x ∈ collectNodes ts ∧ y ∈ collectNodes ts := by
  obtain ⟨-, t, ht, -, rfl⟩ | ⟨-, t, ht, -, rfl⟩ := h
  · obtain ⟨hmem, rfl⟩ := of_mem_walkedOut ht
    exact ⟨mem_collectNodes.2 ⟨t, hmem, .inl rfl⟩, mem_collectNodes.2 ⟨t, hmem, .inr rfl⟩⟩
  · obtain ⟨hmem, rfl⟩ := of_mem_walkedIn ht
    obtain ⟨u, hu, v, hv, rfl⟩ := of_mem_reread hmem
    exact ⟨mem_collectNodes.2 ⟨v, hv, .inr rfl⟩, mem_collectNodes.2 ⟨u, hu, .inl rfl⟩⟩

end Walked

/-- Two enumerations of the same pairs stay the same when filtered by the second part. -/
theorem filter_map_fst {α β : Type*} {l : List ℕ} {l' : List α} {f : ℕ → ℕ} {g : α → ℕ}
    {p : ℕ → β} {q : α → β} {P : β → Bool}
    (h : (l.map fun x => (f x, p x)) = l'.map fun t => (g t, q t)) :
    (l.filter fun x => P (p x)).map f = (l'.filter fun t => P (q t)).map g := by
  have := congrArg (fun l => (l.filter fun x => P x.2).map Prod.fst) h
  simpa [List.filter_map, Function.comp_def] using this

/-- The first slots of a row enumerate the first entries. -/
theorem map_range'_of_row {α β : Type*} {start len n : ℕ} {row : List α} {f : ℕ → β} {g : α → β}
    (h : (List.range' start len).map f = row.map g) :
    (List.range' start (len % n)).map f = (row.take (row.length % n)).map g := by
  have hlen : len = row.length := by simpa using congrArg List.length h
  have hsplit := List.range'_append_1 (s := start) (m := len % n) (n := len - len % n)
  rw [Nat.add_sub_cancel' (Nat.mod_le _ _)] at hsplit
  rw [List.map_take, ← h, ← hlen, ← hsplit, List.map_append, List.take_left' (by simp)]

namespace CompactSnapshot

variable {s : Snapshot} {ts : List Triple} {dir : Direction} {filter : Option PredFilter}
  {indexWalk : Bool} {v w : ℕ} (h : CompactSnapshot s ts)
include h

/-- The neighbours of a node are the other ends of the edges that the walks come to and that pass
the filter, first those out of it and then those into it, in the order of the triples. -/
theorem neighbors_eq (hv : v < s.graph.base.nodeCount) :
    neighbors indexWalk s dir filter v =
      (if dir.Forwards then
        ((walkedOut ts (s.graph.base.nodeIds v)).filter fun t =>
          predMatches filter t.predicate).map fun t => (collectNodes ts).idxOf t.object else []) ++
      if dir.Backwards then
        ((walkedIn ts (s.graph.base.nodeIds v)).filter fun t =>
          predMatches filter t.predicate).map fun t => (collectNodes ts).idxOf t.subject
            else [] := by
  have hf := h.forward
  have hi := h.inverse
  have hrest := @rest_neighborInitAt s indexWalk dir filter v h.chain
  rw [neighbors, neighborForeach_eq, hrest]
  simp only [List.filterMap_append, List.filterMap_map, Function.comp_def, id_eq,
    List.filterMap_eq_map']
  congr 1
  · rw [outSlots, graphBaseGetEdgesAt, if_neg (not_le.2 hv)]
    split_ifs with hdir
    · refine filter_map_fst (map_range'_of_row ?_)
      rw [← hf.map_rowSlots hv, List.map_map]
      refine List.map_congr_left fun x hx => ?_
      have hget := (hf.of_mem_rowSlots hv hx).1
      rw [hf.target x _ hget, hf.slotPred hget]
      rfl
    · rfl
  · have hneg : ¬ (s.graph.base.hasInverse = false ∨ s.graph.base.nodeCount ≤ v) := by
      simp [h.hasInverse, hv]
    rw [inSlots, graphBaseGetInverseEdgesAt, if_neg hneg]
    split_ifs with hdir
    · refine filter_map_fst (map_range'_of_row ?_)
      rw [← hi.bucket_eq hv]
      refine hi.map_invRowSlots hv fun i t ht => ?_
      rw [hi.source v hv i t ht, hi.slotPred hv ht]
    · rfl

theorem mem_neighbors_iff (hv : v < s.graph.base.nodeCount) :
    w ∈ neighbors indexWalk s dir filter v ↔
      w < s.graph.base.nodeCount ∧
        Seen ts dir filter (s.graph.base.nodeIds v) (s.graph.base.nodeIds w) := by
  have hf := h.forward
  have hi := h.inverse
  have hidx {x : NodeId} (hx : x ∈ collectNodes ts) : (collectNodes ts).idxOf x = w ↔
      w < s.graph.base.nodeCount ∧ x = s.graph.base.nodeIds w := by
    constructor
    · rintro rfl
      exact ⟨hf.idxOf_lt hx, (hf.ids_idxOf hx).symm⟩
    · rintro ⟨hw, rfl⟩
      exact hf.idxOf_ids hw
  have hend {t : Triple} (ht : t ∈ walkedOut ts (s.graph.base.nodeIds v)) :=
    hidx (hf.object_mem (of_mem_walkedOut ht).1)
  have hstart {t : Triple} (ht : t ∈ walkedIn ts (s.graph.base.nodeIds v)) :=
    hidx (hi.ends t (of_mem_walkedIn ht).1).1
  rw [h.neighbors_eq hv, List.mem_append]
  constructor
  · rintro (hw | hw)
    · obtain ⟨hdir, hw⟩ := List.mem_ite_nil_right.1 hw
      obtain ⟨t, ht, heq⟩ := List.mem_map.1 hw
      obtain ⟨ht, hp⟩ := List.mem_filter.1 ht
      obtain ⟨hw, hobj⟩ := (hend ht).1 heq
      exact ⟨hw, .inl ⟨hdir, t, ht, hp, hobj⟩⟩
    · obtain ⟨hdir, hw⟩ := List.mem_ite_nil_right.1 hw
      obtain ⟨t, ht, heq⟩ := List.mem_map.1 hw
      obtain ⟨ht, hp⟩ := List.mem_filter.1 ht
      obtain ⟨hw, hsub⟩ := (hstart ht).1 heq
      exact ⟨hw, .inr ⟨hdir, t, ht, hp, hsub⟩⟩
  · rintro ⟨hw, ⟨hdir, t, ht, hp, hobj⟩ | ⟨hdir, t, ht, hp, hsub⟩⟩
    · refine .inl ?_
      rw [if_pos hdir]
      exact List.mem_map.2 ⟨t, List.mem_filter.2 ⟨ht, hp⟩, (hend ht).2 ⟨hw, hobj⟩⟩
    · refine .inr ?_
      rw [if_pos hdir]
      exact List.mem_map.2 ⟨t, List.mem_filter.2 ⟨ht, hp⟩, (hstart ht).2 ⟨hw, hsub⟩⟩

theorem lt_of_mem_neighbors (hw : w ∈ neighbors indexWalk s dir filter v) :
    w < s.graph.base.nodeCount :=
  ((h.mem_neighbors_iff (lt_of_neighbors h.chain hw)).1 hw).1

/-- Paths of nodes and paths of indices correspond. -/
theorem walk_iff {u k : ℕ} (hu : u < s.graph.base.nodeCount) (hv : v < s.graph.base.nodeCount) :
    Walk (Seen ts dir filter) (s.graph.base.nodeIds u) k (s.graph.base.nodeIds v) ↔
      Walk (fun v w => w ∈ neighbors indexWalk s dir filter v) u k v := by
  have hf := h.forward
  refine walk_map_iff (f := s.graph.base.nodeIds) (P := (· < s.graph.base.nodeCount))
    (fun v y hv => ?_) (fun v w _ hvw => h.lt_of_mem_neighbors hvw) (fun v w hv hw hvw => ?_) hu hv
  · constructor
    · intro hvy
      have hy := hvy.mem_nodes.2
      refine ⟨(collectNodes ts).idxOf y, hf.idxOf_lt hy, ?_, hf.ids_idxOf hy⟩
      exact (h.mem_neighbors_iff hv).2 ⟨hf.idxOf_lt hy, by rwa [hf.ids_idxOf hy]⟩
    · rintro ⟨w, -, hvw, rfl⟩
      exact ((h.mem_neighbors_iff hv).1 hvw).2
  · rw [← hf.idxOf_ids hv, ← hf.idxOf_ids hw, hvw]

end CompactSnapshot

/-! ## Rows that are walked to their end -/

/-- The walks come to every edge between two nodes, from both ends, and to no other. -/
structure RowsKept (ts : List Triple) : Prop where
  out : ∀ t : Triple, t.subject ≠ t.object → (t ∈ walkedOut ts t.subject ↔ t ∈ ts)
  into : ∀ t : Triple, t.subject ≠ t.object → (t ∈ walkedIn ts t.object ↔ t ∈ ts)

section RowsKept

variable {ts : List Triple} {x y : NodeId}

theorem walkedOut_of_lt (h : (ts.filter fun t => t.subject = x).length < 2 ^ 32) :
    walkedOut ts x = ts.filter fun t => t.subject = x := walked_of_lt h

theorem walkedIn_of_lt (hlen : ts.length ≤ 2 ^ 32)
    (h : (ts.filter fun t => t.object = x).length < 2 ^ 32) :
    walkedIn ts x = ts.filter fun t => t.object = x := by
  rw [walkedIn, reread_of_le hlen, walked_of_lt h]

/-- Rows of less than `2 ^ 32` edges are walked to their end. -/
theorem rowsKept_of_rows (hlen : ts.length ≤ 2 ^ 32)
    (hout : ∀ x, (ts.filter fun t => t.subject = x).length < 2 ^ 32)
    (hin : ∀ x, (ts.filter fun t => t.object = x).length < 2 ^ 32) : RowsKept ts where
  out t _ := by rw [walkedOut_of_lt (hout _)]; simp
  into t _ := by rw [walkedIn_of_lt hlen (hin _)]; simp

theorem rowsKept_of_lt (hlen : ts.length < 2 ^ 32) : RowsKept ts :=
  rowsKept_of_rows hlen.le (fun _ => (List.length_filter_le _ _).trans_lt hlen)
    fun _ => (List.length_filter_le _ _).trans_lt hlen

theorem RowsKept.seen_iff (h : RowsKept ts) (hne : x ≠ y) :
    Seen ts dir filter x y ↔ Adjacent ts dir filter x y := by
  constructor
  · rintro (⟨hdir, t, ht, hp, rfl⟩ | ⟨hdir, t, ht, hp, rfl⟩)
    · obtain ⟨hmem, hsub⟩ := of_mem_walkedOut ht
      exact ⟨t, hmem, hp, .inl ⟨hdir, hsub, rfl⟩⟩
    · obtain ⟨-, rfl⟩ := of_mem_walkedIn ht
      exact ⟨t, (h.into t hne.symm).1 ht, hp, .inr ⟨hdir, rfl, rfl⟩⟩
  · rintro ⟨t, ht, hp, ⟨hdir, rfl, rfl⟩ | ⟨hdir, rfl, rfl⟩⟩
    · exact .inl ⟨hdir, t, (h.out t hne).2 ht, hp, rfl⟩
    · exact .inr ⟨hdir, t, (h.into t hne.symm).2 ht, hp, rfl⟩

/-- A filter for one predicate. -/
def onlyPred (p : PredId) : Option PredFilter := some ⟨[p], false⟩

theorem predMatches_onlyPred {p q : PredId} : predMatches (onlyPred p) q = true ↔ q = p := by
  simp [onlyPred, predMatches]

/-- What the walks with one predicate come to tells the rows. -/
theorem rowsKept_of_seen
    (h : ∀ dir filter x y, x ≠ y → (Seen ts dir filter x y ↔ Adjacent ts dir filter x y)) :
    RowsKept ts where
  out t hne := by
    refine ⟨fun ht => (of_mem_walkedOut ht).1, fun ht => ?_⟩
    have hseen := (h .outgoing (onlyPred t.predicate) _ _ hne).2
      ⟨t, ht, predMatches_onlyPred.2 rfl, .inl ⟨.inl rfl, rfl, rfl⟩⟩
    rcases hseen with ⟨-, u, hu, hp, ho⟩ | ⟨hdir, -⟩
    · have : u = t := Triple.ext (of_mem_walkedOut hu).2 (predMatches_onlyPred.1 hp) ho
      exact this ▸ hu
    · exact absurd hdir (by decide)
  into t hne := by
    have hiff := h .incoming (onlyPred t.predicate) _ _ hne.symm
    constructor
    · intro ht
      obtain ⟨u, hu, hp, ⟨hdir, -⟩ | ⟨-, ho, hs⟩⟩ :=
        hiff.1 (.inr ⟨.inl rfl, t, ht, predMatches_onlyPred.2 rfl, rfl⟩)
      · exact absurd hdir (by decide)
      · have : u = t := Triple.ext hs (predMatches_onlyPred.1 hp) ho
        exact this ▸ hu
    · intro ht
      rcases hiff.2 ⟨t, ht, predMatches_onlyPred.2 rfl, .inr ⟨.inl rfl, rfl, rfl⟩⟩ with
        ⟨hdir, -⟩ | ⟨-, u, hu, hp, hs⟩
      · exact absurd hdir (by decide)
      · have : u = t := Triple.ext hs (predMatches_onlyPred.1 hp) (of_mem_walkedIn hu).2
        exact this ▸ hu

end RowsKept

/-- There is such a snapshot of every sorted list of valid triples. -/
theorem exists_compactSnapshot {ts : List Triple} (hsorted : ts.Pairwise (· ≤ ·))
    (hvalid : ∀ t ∈ ts, t.Valid) : ∃ s, CompactSnapshot s ts ∧
      s.graph.base.onePred = (commonPred ts).1 := by
  let sw : Switches := ⟨true, true, true⟩
  let g : GraphState :=
    { graphCreate sw .cleared 1024 true with
      base := buildBase sw .cleared true ts
      nodeIndex := collectNodes ts
      totalNodes := (buildBase sw .cleared true ts).nodeCount }
  have htab : NodeTable g.base (collectNodes ts) :=
    (forward_buildBase sw .cleared true hsorted).toNodeTable
  have hfits : g.MapFits := mapFits_of_index htab.count.ge fun id hid => by
    change id ∈ nodeMapSources g.base [] at hid
    rwa [nodeMapSources, htab.map_range, List.flatMap_nil, List.append_nil] at hid
  obtain ⟨s, hs, -⟩ := graphSnapshotCreate_eq_some hfits
  refine ⟨s, ⟨hsorted, hvalid, g, sw, .cleared, rfl, rfl, le_rfl, hs⟩, ?_⟩
  obtain ⟨m, -, hm⟩ := Option.bind_eq_some_iff.1 hs
  cases hm
  exact (onePred_buildBase sw .cleared true ts).trans (Bool.and_true _)

/-! ## Rows of any length -/

/-- The triples that `f` makes of `1, …, n`. -/
def fan (n : ℕ) (f : Fin (2 ^ 64) → Triple) : List Triple :=
  (List.range n).map fun i => f (Fin.ofNat (2 ^ 64) (i + 1))

/-- The edges of one predicate from node 1 to the nodes `1, …, n`, in order. -/
def starList (n : ℕ) : List Triple := fan n fun o => ⟨1, 1, o⟩

/-- As many edges from `a` to `b`, each of its own predicate. -/
def bundle (n : ℕ) (a b : NodeId) : List Triple := fan n fun p => ⟨a, p, b⟩

section Fan

variable {n : ℕ} {f : Fin (2 ^ 64) → Triple} {a b : NodeId}

theorem length_fan (n : ℕ) (f : Fin (2 ^ 64) → Triple) : (fan n f).length = n := by simp [fan]

theorem getElem?_fan (hi : i < n) : (fan n f)[i]? = some (f (Fin.ofNat (2 ^ 64) (i + 1))) := by
  simp [fan, hi]

theorem mem_fan {t : Triple} : t ∈ fan n f ↔ ∃ i < n, t = f (Fin.ofNat (2 ^ 64) (i + 1)) := by
  simp [fan, eq_comm]

section

variable (hn : n < 2 ^ 64)
include hn

theorem pairwise_fan (hf : StrictMono f) : (fan n f).Pairwise (· ≤ ·) := by
  rw [fan, List.pairwise_map]
  refine List.pairwise_lt_range.imp_of_mem fun {i j} hi hj hij => (hf ?_).le
  rw [List.mem_range] at hi hj
  rw [Fin.lt_def, Fin.val_ofNat, Fin.val_ofNat, Nat.mod_eq_of_lt (by omega),
    Nat.mod_eq_of_lt (by omega)]
  omega

theorem valid_fan (hf : ∀ j, j ≠ 0 → (f j).Valid) : ∀ t ∈ fan n f, t.Valid := by
  intro t ht
  obtain ⟨i, hi, rfl⟩ := mem_fan.1 ht
  refine hf _ fun h => ?_
  have := congrArg Fin.val h
  rw [Fin.val_ofNat, Nat.mod_eq_of_lt (by omega)] at this
  exact Nat.succ_ne_zero i this

theorem pairwise_starList : (starList n).Pairwise (· ≤ ·) :=
  pairwise_fan hn fun _ _ h => Triple.lt_iff.2 (.inr ⟨rfl, .inr ⟨rfl, h⟩⟩)

theorem valid_starList : ∀ t ∈ starList n, t.Valid := by
  have hone : (1 : Fin (2 ^ 64)) ≠ idInvalid := by decide
  exact valid_fan hn fun _ h => ⟨hone, hone, h⟩

theorem exists_starSnapshot : ∃ s, CompactSnapshot s (starList n) := by
  obtain ⟨s, hs, -⟩ := exists_compactSnapshot (pairwise_starList hn) (valid_starList hn)
  exact ⟨s, hs⟩

theorem pairwise_bundle : (bundle n a b).Pairwise (· ≤ ·) :=
  pairwise_fan hn fun _ _ h => Triple.lt_iff.2 (.inr ⟨rfl, .inl h⟩)

theorem valid_bundle (ha : a ≠ idInvalid) (hb : b ≠ idInvalid) : ∀ t ∈ bundle n a b, t.Valid :=
  valid_fan hn fun _ h => ⟨ha, h, hb⟩

end

theorem of_mem_bundle {t : Triple} (h : t ∈ bundle n a b) : t.subject = a ∧ t.object = b := by
  obtain ⟨i, -, rfl⟩ := mem_fan.1 h
  exact ⟨rfl, rfl⟩

/-- No walk comes to any of `2 ^ 32` entries. -/
theorem walked_eq_nil {row : List Triple} (h : row.length % 2 ^ 32 = 0) : walked row = [] := by
  rw [walked, h, List.take_zero]

/-- What only asks for the ends takes all of a bundle or nothing. -/
theorem length_filter_bundle {p : Triple → Bool} (hp : ∀ t u : Triple, t.subject = u.subject →
    t.object = u.object → p t = p u) : ((bundle n a b).filter p).length % n = 0 := by
  cases hc : p ⟨a, 0, b⟩ with
  | false =>
    rw [List.filter_eq_nil_iff.2 fun t ht => ?_, List.length_nil, Nat.zero_mod]
    rw [hp t ⟨a, 0, b⟩ (of_mem_bundle ht).1 (of_mem_bundle ht).2, hc]
    simp
  | true =>
    rw [List.filter_eq_self.2 fun t ht => ?_, bundle, length_fan, Nat.mod_self]
    rw [hp t ⟨a, 0, b⟩ (of_mem_bundle ht).1 (of_mem_bundle ht).2, hc]

end Fan

end Virtuoso.Graph
