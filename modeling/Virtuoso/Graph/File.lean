import Virtuoso.Graph.Persist
import Virtuoso.Lib.Buffer

/-!
# Graph files

`graph_write_to_file` copies the arrays of the base store to the sections of a file, behind a
header that says where they are; the endpoint indices are not among them.
`graph_read_from_file` copies the sections back and computes the endpoint indices again, while
`graph_mmap_open` uses the sections in place and leaves the endpoint arrays `NULL`.

A store with records is described by `Recorded`; what either way of opening makes of its file
is `graphReadFromFile_spec` and `graphMmapOpen_spec`.
-/

namespace Virtuoso.Graph

open Lib

/-- Which arrays of a store are there; the others are `NULL`. -/
structure Arrays where
  edges : Bool
  edgeTargets : Bool
  invOffsets : Bool
  invEdges : Bool
  invSources : Bool

/-- The arrays that `graph_base_create` allocates. -/
def Arrays.created (b : Base) : Arrays where
  edges := !b.onePred
  edgeTargets := true
  invOffsets := b.hasInverse
  invEdges := b.hasInverse && !b.onePred
  invSources := b.hasInverse

/-- A graph, and the arrays of its store. -/
structure OpenGraph where
  graph : GraphState
  arrays : Arrays

/-! ## The checksum -/

/-- One round of `crc64_init`. -/
def crc64Round (crc : UInt64) : UInt64 :=
  if crc &&& 1 = 1 then (crc >>> 1) ^^^ 0xC96C5795D7870F42 else crc >>> 1

/-- `crc64_table`. -/
def crc64Table (i : UInt64) : UInt64 := Nat.iterate crc64Round 8 i

/-- `crc64_update`. -/
def crc64Update (crc : UInt64) (data : List UInt8) : UInt64 :=
  ~~~data.foldl (fun crc p => crc64Table ((crc ^^^ p.toUInt64) &&& 0xFF) ^^^ (crc >>> 8)) (~~~crc)

/-! ## The header -/

/-- `GRAPH_MMAP_MAGIC`. -/
def mmapMagic : ℕ := 0x47524150484D4D50

/-- `GRAPH_MMAP_VERSION`. -/
def mmapVersion : ℕ := 1

/-- `GRAPH_MMAP_HEADER_SIZE`. -/
def mmapHeaderSize : ℕ := 4096

/-- `GRAPH_MMAP_FLAG_INVERSE`. -/
def mmapFlagInverse : ℕ := 1

/-- `GRAPH_MMAP_FLAG_SORTED`. -/
def mmapFlagSorted : ℕ := 8

/-- `graph_mmap_header_t`. -/
structure MmapHeader where
  magic : ℕ
  version : ℕ
  flags : ℕ
  nodeCount : ℕ
  tripleCount : ℕ
  predicateCount : ℕ
  nodeSectionOffset : ℕ
  nodeSectionSize : ℕ
  edgeOffsetSectionOffset : ℕ
  edgeOffsetSectionSize : ℕ
  edgeSectionOffset : ℕ
  edgeSectionSize : ℕ
  invOffsetSectionOffset : ℕ
  invOffsetSectionSize : ℕ
  invEdgeSectionOffset : ℕ
  invEdgeSectionSize : ℕ
  deltaSectionOffset : ℕ
  deltaSectionSize : ℕ
  checksum : ℕ
deriving DecidableEq

namespace MmapHeader

def fields (h : MmapHeader) : List (ℕ × ℕ) :=
  [(8, h.magic), (4, h.version), (4, h.flags), (8, h.nodeCount), (8, h.tripleCount),
    (8, h.predicateCount), (8, h.nodeSectionOffset), (8, h.nodeSectionSize),
    (8, h.edgeOffsetSectionOffset), (8, h.edgeOffsetSectionSize), (8, h.edgeSectionOffset),
    (8, h.edgeSectionSize), (8, h.invOffsetSectionOffset), (8, h.invOffsetSectionSize),
    (8, h.invEdgeSectionOffset), (8, h.invEdgeSectionSize), (8, h.deltaSectionOffset),
    (8, h.deltaSectionSize), (8, h.checksum)]

def ofFields : List ℕ → Option MmapHeader
  | [magic, version, flags, nodeCount, tripleCount, predicateCount, nodeSectionOffset,
      nodeSectionSize, edgeOffsetSectionOffset, edgeOffsetSectionSize, edgeSectionOffset,
      edgeSectionSize, invOffsetSectionOffset, invOffsetSectionSize, invEdgeSectionOffset,
      invEdgeSectionSize, deltaSectionOffset, deltaSectionSize, checksum] =>
      some
        { magic, version, flags, nodeCount, tripleCount, predicateCount, nodeSectionOffset,
          nodeSectionSize, edgeOffsetSectionOffset, edgeOffsetSectionSize, edgeSectionOffset,
          edgeSectionSize, invOffsetSectionOffset, invOffsetSectionSize, invEdgeSectionOffset,
          invEdgeSectionSize, deltaSectionOffset, deltaSectionSize, checksum }
  | _ => none

def widths : List ℕ := [8, 4, 4, 8, 8, 8, 8, 8, 8, 8, 8, 8, 8, 8, 8, 8, 8, 8, 8]

/-- The bytes of the header; the reserved ones are cleared. -/
def bytes (h : MmapHeader) : List UInt8 :=
  (h.fields.flatMap fun x => bytesLe x.1 x.2) ++ List.replicate (mmapHeaderSize - 144) 0

/-- The header of a file that is long enough for one. -/
def read (file : List UInt8) : Option MmapHeader :=
  if file.length < mmapHeaderSize then none
  else do
    let (values, _) ← readWords widths file
    ofFields values

end MmapHeader

/-! ## Entries of the sections -/

def Edge.bytes (e : Edge) : List UInt8 := bytesLe 8 e.predicate ++ bytesLe 8 e.object

def InverseEdge.bytes (e : InverseEdge) : List UInt8 := bytesLe 8 e.predicate ++ bytesLe 8 e.subject

def idOf (bs : List UInt8) : Fin (2 ^ 64) := Fin.ofNat _ (Block.ofBytes bs)

def edgeOf (bs : List UInt8) : Edge := ⟨idOf (bs.take 8), idOf (bs.drop 8)⟩

def inverseEdgeOf (bs : List UInt8) : InverseEdge := ⟨idOf (bs.take 8), idOf (bs.drop 8)⟩

/-! ## Writing -/

/-- `GRAPH_ALIGN_UP`. -/
def alignUp (x align : ℕ) : ℕ := (x + align - 1) / align * align

section Write

variable (b : Base)

/-- `node_section_offset`. -/
def nodeSection : ℕ := mmapHeaderSize

/-- `edge_offset_section_offset`. -/
def edgeOffsetSection : ℕ := nodeSection + alignUp (b.nodeCount * 8) 64

/-- `edge_section_offset`. -/
def edgeSection : ℕ := edgeOffsetSection b + alignUp ((b.nodeCount + 1) * 8) 64

/-- `inv_offset_section_offset` of a store with an inverse index. -/
def invOffsetSection : ℕ := edgeSection b + alignUp (b.edgeCount * 16) 64

/-- `inv_edge_section_offset` of a store with an inverse index. -/
def invEdgeSection : ℕ := invOffsetSection b + alignUp ((b.nodeCount + 1) * 8) 64

/-- `offset` at the end. -/
def endOfSections : ℕ :=
  if b.hasInverse then invEdgeSection b + alignUp (b.edgeCount * 16) 64 else invOffsetSection b

def nodeIdBytes : List UInt8 := arrayBytes (fun i => bytesLe 8 (b.nodeIds i)) b.nodeCount

def edgeOffsetBytes : List UInt8 :=
  arrayBytes (fun i => bytesLe 8 (b.edgeOffsets i)) (b.nodeCount + 1)

def edgeBytes : List UInt8 := arrayBytes (fun i => (b.edges i).bytes) b.edgeCount

def invOffsetBytes : List UInt8 :=
  arrayBytes (fun i => bytesLe 8 (b.invOffsets i)) (b.nodeCount + 1)

def invEdgeBytes : List UInt8 := arrayBytes (fun i => (b.invEdges i).bytes) b.edgeCount

/-- The header that `graph_write_to_file` fills in. -/
def mmapHeader (predicateCount : ℕ) : MmapHeader where
  magic := mmapMagic
  version := mmapVersion
  flags := if b.hasInverse then mmapFlagSorted ||| mmapFlagInverse else mmapFlagSorted
  nodeCount := b.nodeCount
  tripleCount := b.edgeCount
  predicateCount
  nodeSectionOffset := nodeSection
  nodeSectionSize := b.nodeCount * 8
  edgeOffsetSectionOffset := edgeOffsetSection b
  edgeOffsetSectionSize := (b.nodeCount + 1) * 8
  edgeSectionOffset := edgeSection b
  edgeSectionSize := b.edgeCount * 16
  invOffsetSectionOffset := if b.hasInverse then invOffsetSection b else 0
  invOffsetSectionSize := if b.hasInverse then (b.nodeCount + 1) * 8 else 0
  invEdgeSectionOffset := if b.hasInverse then invEdgeSection b else 0
  invEdgeSectionSize := if b.hasInverse then b.edgeCount * 16 else 0
  deltaSectionOffset := 0
  deltaSectionSize := 0
  checksum :=
    (crc64Update (crc64Update (crc64Update 0 (nodeIdBytes b)) (edgeOffsetBytes b))
      (edgeBytes b)).toNat

/-- The header and the forward sections. -/
def forwardFile (predicateCount : ℕ) : List UInt8 :=
  writeAt (writeAt (writeAt (writeAt [] 0 (mmapHeader b predicateCount).bytes)
    nodeSection (nodeIdBytes b))
    (edgeOffsetSection b) (edgeOffsetBytes b))
    (edgeSection b) (edgeBytes b)

/-- `graph_write_to_file`: the code and the file.  The number of predicates is that of the
registry, a `uint32_t`.  The positions are cast to `long` for `fseek`; there is no file when
they do not fit. -/
def graphWriteToFile (arrays : Arrays) (predicateCount : Fin (2 ^ 32)) :
    Option (FileError × List UInt8) :=
  if !arrays.edges || b.hasInverse && !arrays.invEdges then some (.notImplemented, [])
  else if 2 ^ 63 ≤ endOfSections b then none
  else
    let file := forwardFile b predicateCount
    some (.ok,
      if b.hasInverse then
        writeAt (writeAt file (invOffsetSection b) (invOffsetBytes b))
          (invEdgeSection b) (invEdgeBytes b)
      else file)

end Write

/-! ## Reading -/

/-- `fread` of `n` entries of `w` bytes from position `o` to the start of an array. -/
def freadArray {α : Type} (w : ℕ) (entryOf : List UInt8 → α) (file : List UInt8) (o n : ℕ)
    (array : ℕ → α) : Except FileError (ℕ → α) :=
  match readAt file o (w * n) with
  | none => .error .ioError
  | some bs => .ok fun i => if i < n then entryOf (entryAt w bs i) else array i

/-- The rows of the inverse index with their slots, in order. -/
def inverseSlots (b : Base) : List ℕ := (List.range b.nodeCount).flatMap (invRowSlots b)

/-- What `graph_base_rebuild_edge_indices` stores for an endpoint. -/
def endpointIx (b : Base) (id : NodeId) : ℕ :=
  graphIxSet b.narrowIx ((graphBaseNodeIndex b id).getD (2 ^ 64 - 1))

/-- `graph_base_rebuild_edge_indices`. -/
def graphBaseRebuildEdgeIndices (arrays : Arrays) (b : Base) : Base :=
  if b.nodeCount = 0 then b
  else if !arrays.edgeTargets || !arrays.edges then b
  else if b.hasInverse && (!arrays.invSources || !arrays.invEdges) then b
  else
    { b with
      edgeTargets :=
        writeAll ((forwardSlots b).map fun s => (s.2, endpointIx b (b.edges s.2).object))
          b.edgeTargets
      invSources :=
        if b.hasInverse then
          writeAll ((inverseSlots b).map fun at' => (at', endpointIx b (b.invEdges at').subject))
            b.invSources
        else b.invSources }

/-- The inverse sections, read into the arrays of a store that has an inverse index. -/
def readInverse (file : List UInt8) (header : MmapHeader) (b : Base) :
    Except FileError ((ℕ → ℕ) × (ℕ → InverseEdge)) :=
  if b.hasInverse then do
    let invOffsets ← freadArray 8 Block.ofBytes file header.invOffsetSectionOffset
      (header.nodeCount + 1) b.invOffsets
    let invEdges ← freadArray 16 inverseEdgeOf file header.invEdgeSectionOffset header.tripleCount
      b.invEdges
    .ok (invOffsets, invEdges)
  else .ok (b.invOffsets, b.invEdges)

/-- The graph that `graph_read_from_file` creates for a header. -/
def createFor (sw : Switches) (mem : Memory) (header : MmapHeader) : GraphState :=
  graphCreate sw mem (if 0 < header.nodeCount then header.nodeCount else 1024)
    (decide (header.flags &&& mmapFlagInverse ≠ 0))

/-- `graph_read_from_file`. -/
def graphReadFromFile (sw : Switches) (mem : Memory) (file : List UInt8) :
    Except FileError OpenGraph :=
  match MmapHeader.read file with
  | none => .error .ioError
  | some header =>
    if header.magic ≠ mmapMagic ∨ header.version ≠ mmapVersion then .error .versionMismatch
    else do
      let g := createFor sw mem header
      let nodeIds ← freadArray 8 idOf file header.nodeSectionOffset header.nodeCount g.base.nodeIds
      let edgeOffsets ← freadArray 8 Block.ofBytes file header.edgeOffsetSectionOffset
        (header.nodeCount + 1) g.base.edgeOffsets
      let edges ← freadArray 16 edgeOf file header.edgeSectionOffset header.tripleCount
        g.base.edges
      let (invOffsets, invEdges) ← readInverse file header g.base
      let base := graphBaseSetDenseDescriptor sw
        { g.base with
          nodeCount := header.nodeCount
          edgeCount := header.tripleCount
          nodeIds, edgeOffsets, edges, invOffsets, invEdges }
      .ok
        { graph :=
            { g with
              base := graphBaseRebuildEdgeIndices (Arrays.created base) base
              totalNodes := header.nodeCount
              totalTriples := header.tripleCount }
          arrays := Arrays.created base }

/-- The store whose arrays are the sections of the mapping. -/
def mappedBase (file : List UInt8) (header : MmapHeader) (b : Base) : Base :=
  { b with
    nodeCapacity := header.nodeCount
    nodeCount := header.nodeCount
    edgeCount := header.tripleCount
    nodeIds := fun i => idOf (entryAt 8 (file.drop header.nodeSectionOffset) i)
    edgeOffsets := fun i => Block.ofBytes (entryAt 8 (file.drop header.edgeOffsetSectionOffset) i)
    edges := fun i => edgeOf (entryAt 16 (file.drop header.edgeSectionOffset) i)
    hasInverse := decide (header.flags &&& mmapFlagInverse ≠ 0) || b.hasInverse
    invOffsets := fun i => Block.ofBytes (entryAt 8 (file.drop header.invOffsetSectionOffset) i)
    invEdges := fun i => inverseEdgeOf (entryAt 16 (file.drop header.invEdgeSectionOffset) i) }

/-- `graph_mmap_open`, for a mapping that reads as the bytes of the file.  The graph starts with
the default configuration, which asks for an inverse index. -/
def graphMmapOpen (sw : Switches) (mem : Memory) (file : List UInt8) :
    Except FileError OpenGraph :=
  match MmapHeader.read file with
  | none => .error .corrupted
  | some header =>
    if header.magic ≠ mmapMagic ∨ header.version ≠ mmapVersion then .error .versionMismatch
    else
      let g := graphCreate sw mem 1024 true
      let inverse := decide (header.flags &&& mmapFlagInverse ≠ 0)
      .ok
        { graph :=
            { g with
              base := graphBaseSetDenseDescriptor sw (mappedBase file header g.base)
              totalNodes := header.nodeCount
              totalTriples := header.tripleCount }
          arrays :=
            { edges := true
              edgeTargets := false
              invOffsets := inverse
              invEdges := inverse
              invSources := false } }

/-! ## Stores with records -/

/-- A store with edge records: the offsets stay within the edges, and the endpoint index of a
slot is the index of its endpoint. -/
structure Recorded (b : Base) (nodes : List NodeId) : Prop extends NodeTable b nodes where
  records : b.onePred = false
  offsets_le : ∀ i ≤ b.nodeCount, b.edgeOffsets i ≤ b.edgeCount
  target : ∀ i < b.nodeCount, ∀ at' ∈ rowSlots b i, at' < b.edgeCount ∧
    (b.edges at').object ∈ nodes ∧ b.edgeTargets at' = nodes.idxOf (b.edges at').object
  invOffsets_le : b.hasInverse = true → ∀ i ≤ b.nodeCount, b.invOffsets i ≤ b.edgeCount
  source : b.hasInverse = true → ∀ j < b.nodeCount, ∀ at' ∈ invRowSlots b j, at' < b.edgeCount ∧
    (b.invEdges at').subject ∈ nodes ∧ b.invSources at' = nodes.idxOf (b.invEdges at').subject

/-- What the inverse index of a store with records keeps. -/
def InverseRecorded (b : Base) (nodes : List NodeId) : Prop :=
  (∀ i ≤ b.nodeCount, b.invOffsets i ≤ b.edgeCount) ∧
  ∀ j < b.nodeCount, ∀ at' ∈ invRowSlots b j, at' < b.edgeCount ∧
    (b.invEdges at').subject ∈ nodes ∧ b.invSources at' = nodes.idxOf (b.invEdges at').subject

variable {ts : List Triple} {b : Base} {g : GraphState} {n : ℕ} {file : List UInt8}

/-- The forward arrays of sorted triples are those of a store with records. -/
theorem Forward.recorded {nodes : List NodeId} (h : Forward b nodes ts) (hone : b.onePred = false)
    (hinv : b.hasInverse = true → InverseRecorded b nodes) : Recorded b nodes := by
  refine
    { toNodeTable := h.toNodeTable
      records := hone
      offsets_le := fun i hi => ?_
      target := fun i hi at' hat => ?_
      invOffsets_le := fun hb => (hinv hb).1
      source := fun hb => (hinv hb).2 }
  · rw [h.edgeCount, ← h.offsets_last]
    exact h.offsets_mono hi le_rfl
  · have hget := (h.of_mem_rowSlots hi hat).1
    have hedge := h.edge hone at' _ hget
    refine ⟨h.edgeCount ▸ (List.getElem?_eq_some_iff.1 hget).1, ?_, ?_⟩
    · rw [hedge]
      exact h.object_mem (List.mem_of_getElem? hget)
    · rw [hedge]
      exact h.target at' _ hget

/-- The slots that the inverse build fills carry the same node in both arrays, whatever bucket
they came to. -/
theorem inverseRecorded_buildInverse {nodes : List NodeId} (h : Forward b nodes ts)
    (hinv : b.hasInverse = true) (hone : b.onePred = false)
    (hnarrow : b.narrowIx = true → b.nodeCount ≤ 2 ^ 32) :
    InverseRecorded (buildInverse b) nodes := by
  have hslot (s : ℕ × ℕ) (hs : s ∈ forwardSlots b) : s.1 < b.nodeCount ∧ s.2 < ts.length := by
    rw [forwardSlots_eq h] at hs
    obtain ⟨p, hp, rfl⟩ := List.mem_map.1 hs
    have hat : ts[p.2]? = some p.1 := by simpa using List.mem_zipIdx_iff_getElem?.1 hp
    exact ⟨h.idxOf_lt (h.subject_mem (List.mem_of_getElem? hat)),
      (List.getElem?_eq_some_iff.1 hat).1⟩
  have hlt : ∀ s ∈ forwardSlots b, slotTarget b s < b.nodeCount := by
    intro s hs
    have hat : s.2 % 2 ^ 32 < ts.length := (Nat.mod_le _ _).trans_lt (hslot s hs).2
    rw [slotTarget, graphIxAt, h.target _ _ (List.getElem?_eq_getElem hat)]
    exact h.idxOf_lt (h.object_mem (List.getElem_mem hat))
  have hoff (i : ℕ) (hi : i ≤ b.nodeCount) :
      inverseOffsets b i = bucketStart (slotTarget b) (forwardSlots b) i :=
    prefixSums_countInto (fun i hi => if_pos hi) hi
  have hlast : bucketStart (slotTarget b) (forwardSlots b) b.nodeCount = b.edgeCount := by
    rw [bucketStart_eq_length hlt, forwardSlots_eq h, h.edgeCount]
    simp
  have hle (i : ℕ) (hi : i ≤ b.nodeCount) : inverseOffsets b i ≤ b.edgeCount := by
    rw [hoff i hi, ← hlast]
    exact bucketStart_mono _ _ hi
  have hone' : ¬ b.onePred = true := ne_true_of_eq_false hone
  rw [buildInverse, if_pos hinv]
  refine ⟨hle, fun j hj at' hat => ?_⟩
  simp only [invRowSlots, List.mem_range'_1] at hat
  have hnext := hle (j + 1) hj
  have hin : at' < b.edgeCount := by omega
  refine ⟨hin, ?_⟩
  obtain ⟨k, hk, i, hi, rfl⟩ := exists_bucket_of_lt (hlast ▸ hin)
  have hs := List.getElem?_eq_getElem hi
  have hmem := List.mem_of_mem_filter (List.mem_of_getElem? hs)
  have hsources := place_spec (g := fun s : ℕ × ℕ => graphIxSet b.narrowIx s.1)
    (s := (inverseOffsets b, b.invSources)) hlt (fun k hk => hoff k hk.le) hk hs
  have hedges := place_spec
    (g := fun s : ℕ × ℕ => (⟨(b.edges s.2).predicate, b.nodeIds s.1⟩ : InverseEdge))
    (s := (inverseOffsets b, b.invEdges)) hlt (fun k hk => hoff k hk.le) hk hs
  have hnode := (hslot _ hmem).1
  dsimp only
  rw [if_neg hone', hsources, hedges, graphIxSet_eq hnarrow hnode]
  exact ⟨h.ids_mem hnode, (h.idxOf_ids hnode).symm⟩

theorem recorded_buildBase (sw : Switches) (mem : Memory) (inv : Bool) (hts : ts.Pairwise (· ≤ ·))
    (hone : (buildBase sw mem inv ts).onePred = false) :
    Recorded (buildBase sw mem inv ts) (collectNodes ts) := by
  refine (forward_buildBase sw mem inv hts).recorded hone fun hinv => ?_
  rw [hasInverse_buildBase] at hinv
  rw [onePred_buildBase] at hone
  exact inverseRecorded_buildInverse (forward_buildForward sw mem inv hts) hinv hone
    (narrowIx_startBase sw mem inv ts)

theorem recorded_graphBaseCreate (sw : Switches) (mem : Memory) (cap : ℕ) (inv : Bool) :
    Recorded (graphBaseCreate sw mem cap inv false 0) [] := by
  refine (forward_graphBaseCreate sw mem cap inv false 0).recorded (by simp [graphBaseCreate])
    fun _ => ⟨fun i hi => ?_, fun j hj => absurd hj (Nat.not_lt_zero j)⟩
  obtain rfl := Nat.le_zero.1 hi
  exact Nat.zero_le _

/-- The store of a run keeps its records if it has any, and its nodes are counted. -/
structure Stored (g : GraphState) : Prop where
  table : ∃ nodes, NodeTable g.base nodes
  recorded : g.base.onePred = false → ∃ nodes, Recorded g.base nodes
  counted : g.base.nodeCount ≤ g.totalNodes

theorem totalNodes_le_perform {g' : GraphState} {op : Op} (h : perform g op = some g') :
    g.totalNodes ≤ g'.totalNodes := by
  cases op with
  | add t =>
    by_cases ht : t.Valid
    · obtain ⟨d, -, -, -, -, -, -, htotal⟩ := perform_add ht h
      rw [htotal]
      exact Nat.le_add_right _ _
    · have hsame : g = g' := by simpa [perform, graphAddTriple, ht] using h
      rw [hsame]
  | remove t =>
    obtain ⟨d, -, -, -, -, -, -, htotal⟩ := perform_remove h
    exact htotal.ge
  | commit =>
    cases h
    rcases graphCommit_cases g with ⟨-, -, hg⟩ | ⟨d, n, -, -, hg⟩
    · rw [hg]
    · rw [hg]

theorem Stored.compact (h : Stored g) (sw : Switches) (mem : Memory) :
    Stored (graphCompact sw mem g).2 := by
  unfold graphCompact
  split_ifs
  · exact h
  · exact h
  · exact h
  · exact ⟨⟨_, (forward_buildBase sw mem _ (pairwise_qsortTriples _)).toNodeTable⟩,
      fun hone => ⟨_, recorded_buildBase sw mem _ (pairwise_qsortTriples _) hone⟩, le_rfl⟩

theorem stored_of_reachable (h : history.Reachable g) : Stored g := by
  apply Machine.Reach.invariant _ _ h
  · rintro _ ⟨sw, mem, cap, inv, rfl⟩
    have hb := recorded_graphBaseCreate sw mem cap inv
    exact ⟨⟨[], hb.toNodeTable⟩, fun _ => ⟨[], hb⟩, le_rfl⟩
  · rintro g (op | ⟨sw, mem⟩) g' hg - hstep
    · obtain ⟨hbase, -⟩ := perform_frame hstep
      exact ⟨hbase ▸ hg.table, hbase ▸ hg.recorded,
        hbase ▸ hg.counted.trans (totalNodes_le_perform hstep)⟩
    · obtain rfl := hstep
      exact hg.compact sw mem

/-! ## What the file holds -/

theorem le_alignUp (x : ℕ) : x ≤ alignUp x 64 := by
  unfold alignUp
  omega

theorem readAt_writeAt {f bs : List UInt8} (h : bs.length = n) (o : ℕ) :
    readAt (writeAt f o bs) o n = some bs := h ▸ readAt_writeAt_self f o bs

theorem length_edgeBytes (e : Edge) : e.bytes.length = 16 := by simp [Edge.bytes]

theorem length_inverseEdgeBytes (e : InverseEdge) : e.bytes.length = 16 := by
  simp [InverseEdge.bytes]

theorem MmapHeader.length_bytes (h : MmapHeader) : h.bytes.length = mmapHeaderSize := by
  have hfields : (h.fields.flatMap fun x => bytesLe x.1 x.2).length = 144 := by
    simp [fields]
  rw [bytes, List.length_append, List.length_replicate, hfields]
  rfl

theorem MmapHeader.ofFields_fields (h : MmapHeader) :
    ofFields (h.fields.map Prod.snd) = some h := rfl

/-- A header whose fields fit is read from the front of the file. -/
theorem MmapHeader.read_of_readAt {h : MmapHeader} (hfit : ∀ x ∈ h.fields, x.2 < 256 ^ x.1)
    (hfile : readAt file 0 mmapHeaderSize = some h.bytes) : read file = some h := by
  rw [readAt, Option.ite_none_right_eq_some] at hfile
  obtain ⟨hlen, hbytes⟩ := hfile
  have hlong : ¬ file.length < mmapHeaderSize := by
    rcases hlen with hlen | hlen
    · cases hlen
    · omega
  rw [List.drop_zero] at hbytes
  have hsplit : file = (h.fields.flatMap fun x => bytesLe x.1 x.2) ++
      (List.replicate (mmapHeaderSize - 144) 0 ++ file.drop mmapHeaderSize) := by
    rw [← List.append_assoc]
    conv_lhs => rw [← List.take_append_drop mmapHeaderSize file, Option.some.inj hbytes]
    rfl
  have hwords := readWords_bytesLe hfit (List.replicate (mmapHeaderSize - 144) 0 ++
    file.drop mmapHeaderSize)
  rw [← hsplit] at hwords
  rw [read, if_neg hlong]
  change (readWords (h.fields.map Prod.fst) file >>= fun r => ofFields r.1) = some h
  rw [hwords]
  exact h.ofFields_fields

/-- The header and the sections of the file of a store. -/
structure HoldsStore (file : List UInt8) (b : Base) (predicateCount : ℕ) : Prop where
  header : MmapHeader.read file = some (mmapHeader b predicateCount)
  nodeIds : readAt file nodeSection (8 * b.nodeCount) = some (nodeIdBytes b)
  edgeOffsets : readAt file (edgeOffsetSection b) (8 * (b.nodeCount + 1)) = some (edgeOffsetBytes b)
  edges : readAt file (edgeSection b) (16 * b.edgeCount) = some (edgeBytes b)
  invOffsets : b.hasInverse = true →
    readAt file (invOffsetSection b) (8 * (b.nodeCount + 1)) = some (invOffsetBytes b)
  invEdges : b.hasInverse = true →
    readAt file (invEdgeSection b) (16 * b.edgeCount) = some (invEdgeBytes b)

section Sections

variable (b : Base)

theorem nodeSection_add_le : nodeSection + 8 * b.nodeCount ≤ edgeOffsetSection b := by
  have := le_alignUp (b.nodeCount * 8)
  unfold edgeOffsetSection
  omega

theorem edgeOffsetSection_add_le :
    edgeOffsetSection b + 8 * (b.nodeCount + 1) ≤ edgeSection b := by
  have := le_alignUp ((b.nodeCount + 1) * 8)
  unfold edgeSection
  omega

theorem edgeSection_add_le : edgeSection b + 16 * b.edgeCount ≤ invOffsetSection b := by
  have := le_alignUp (b.edgeCount * 16)
  unfold invOffsetSection
  omega

theorem invOffsetSection_add_le :
    invOffsetSection b + 8 * (b.nodeCount + 1) ≤ invEdgeSection b := by
  have := le_alignUp ((b.nodeCount + 1) * 8)
  unfold invEdgeSection
  omega

theorem invOffsetSection_le : invOffsetSection b ≤ endOfSections b := by
  unfold endOfSections
  split_ifs
  · have := invOffsetSection_add_le b
    omega
  · exact le_rfl

theorem invEdgeSection_add_le (h : b.hasInverse = true) :
    invEdgeSection b + 16 * b.edgeCount ≤ endOfSections b := by
  have := le_alignUp (b.edgeCount * 16)
  rw [endOfSections, if_pos h]
  omega

variable {b} in
theorem edgeCount_lt (h : endOfSections b < 2 ^ 63) : b.edgeCount < 2 ^ 64 := by
  have h₁ := edgeSection_add_le b
  have h₂ := invOffsetSection_le b
  omega

/-- The fields of the header fit if the sections end in time. -/
theorem mmapHeader_fits (predicateCount : Fin (2 ^ 32)) (h : endOfSections b < 2 ^ 63) :
    ∀ x ∈ (mmapHeader b predicateCount).fields, x.2 < 256 ^ x.1 := by
  have h₁ := nodeSection_add_le b
  have h₂ := edgeOffsetSection_add_le b
  have h₃ := edgeSection_add_le b
  have h₄ := invOffsetSection_le b
  have hend := invEdgeSection_add_le b
  have hsum : (mmapHeader b predicateCount).checksum < 2 ^ 64 := UInt64.toNat_lt _
  have hflags : (mmapHeader b predicateCount).flags < 2 ^ 32 := by
    simp only [mmapHeader]
    split_ifs <;> decide
  have hinv : (mmapHeader b predicateCount).invOffsetSectionOffset < 2 ^ 63 ∧
      (mmapHeader b predicateCount).invOffsetSectionSize < 2 ^ 63 ∧
      (mmapHeader b predicateCount).invEdgeSectionOffset < 2 ^ 63 ∧
      (mmapHeader b predicateCount).invEdgeSectionSize < 2 ^ 63 := by
    simp only [mmapHeader]
    split_ifs with hb
    · have h₆ := hend hb
      refine ⟨?_, ?_, ?_, ?_⟩ <;> omega
    · simp
  intro x hx
  simp only [MmapHeader.fields, List.mem_cons, List.not_mem_nil, or_false] at hx
  rcases hx with rfl | rfl | rfl | rfl | rfl | rfl | rfl | rfl | rfl | rfl | rfl | rfl | rfl | rfl |
    rfl | rfl | rfl | rfl | rfl
  all_goals simp only [mmapHeader, mmapMagic, mmapVersion] at *
  all_goals omega

end Sections

theorem length_nodeIdBytes (b : Base) : (nodeIdBytes b).length = 8 * b.nodeCount :=
  length_arrayBytes (fun _ => length_bytesLe 8 _) _

theorem length_edgeOffsetBytes (b : Base) : (edgeOffsetBytes b).length = 8 * (b.nodeCount + 1) :=
  length_arrayBytes (fun _ => length_bytesLe 8 _) _

theorem length_edgeSection (b : Base) : (edgeBytes b).length = 16 * b.edgeCount :=
  length_arrayBytes (fun _ => length_edgeBytes _) _

theorem length_invOffsetBytes (b : Base) : (invOffsetBytes b).length = 8 * (b.nodeCount + 1) :=
  length_arrayBytes (fun _ => length_bytesLe 8 _) _

theorem length_invEdgeSection (b : Base) : (invEdgeBytes b).length = 16 * b.edgeCount :=
  length_arrayBytes (fun _ => length_inverseEdgeBytes _) _

/-- The header and the forward sections are found again: no section reaches into a later one. -/
theorem readAt_forwardFile (b : Base) (predicateCount : ℕ) :
    readAt (forwardFile b predicateCount) 0 mmapHeaderSize =
        some (mmapHeader b predicateCount).bytes ∧
      readAt (forwardFile b predicateCount) nodeSection (8 * b.nodeCount) = some (nodeIdBytes b) ∧
      readAt (forwardFile b predicateCount) (edgeOffsetSection b) (8 * (b.nodeCount + 1)) =
        some (edgeOffsetBytes b) ∧
      readAt (forwardFile b predicateCount) (edgeSection b) (16 * b.edgeCount) =
        some (edgeBytes b) := by
  have h₁ := nodeSection_add_le b
  have h₂ := edgeOffsetSection_add_le b
  have hstart : mmapHeaderSize = nodeSection := rfl
  refine ⟨?_, ?_, ?_, readAt_writeAt (length_edgeSection b) _⟩
  · apply readAt_writeAt_of_le _ (by omega)
    apply readAt_writeAt_of_le _ (by omega)
    apply readAt_writeAt_of_le _ (by omega)
    exact readAt_writeAt (MmapHeader.length_bytes _) 0
  · apply readAt_writeAt_of_le _ (by omega)
    apply readAt_writeAt_of_le _ h₁
    exact readAt_writeAt (length_nodeIdBytes b) _
  · apply readAt_writeAt_of_le _ h₂
    exact readAt_writeAt (length_edgeOffsetBytes b) _

/-- What `graph_write_to_file` wrote is found again. -/
theorem holdsStore_of_write {arrays : Arrays} {predicateCount : Fin (2 ^ 32)}
    (h : graphWriteToFile b arrays predicateCount = some (.ok, file)) :
    HoldsStore file b predicateCount ∧ endOfSections b < 2 ^ 63 := by
  obtain ⟨hheader, hnodes, hoffsets, hedges⟩ := readAt_forwardFile b predicateCount
  have h₁ := nodeSection_add_le b
  have h₂ := edgeOffsetSection_add_le b
  have h₃ := edgeSection_add_le b
  have h₄ := invOffsetSection_add_le b
  have hstart : mmapHeaderSize = nodeSection := rfl
  unfold graphWriteToFile at h
  split_ifs at h with hrefuse hlong hinv
  · simp at h
  · simp only [Option.some.injEq, Prod.mk.injEq, true_and] at h
    have hfit := mmapHeader_fits b predicateCount (not_le.1 hlong)
    -- the inverse sections come after what the forward file holds
    have hkeep {o n : ℕ} {c : List UInt8} (ho : o + n ≤ invOffsetSection b)
        (hc : readAt (forwardFile b predicateCount) o n = some c) : readAt file o n = some c := by
      rw [← h]
      apply readAt_writeAt_of_le _ (by omega)
      exact readAt_writeAt_of_le _ ho hc
    refine ⟨⟨?_, hkeep (by omega) hnodes, hkeep (by omega) hoffsets, hkeep h₃ hedges, fun _ => ?_,
      fun _ => ?_⟩, not_le.1 hlong⟩
    · exact MmapHeader.read_of_readAt hfit (hkeep (by omega) hheader)
    · rw [← h]
      apply readAt_writeAt_of_le _ h₄
      exact readAt_writeAt (length_invOffsetBytes b) _
    · rw [← h]
      exact readAt_writeAt (length_invEdgeSection b) _
  · simp only [Option.some.injEq, Prod.mk.injEq, true_and] at h
    have hfit := mmapHeader_fits b predicateCount (not_le.1 hlong)
    subst h
    exact ⟨⟨MmapHeader.read_of_readAt hfit hheader, hnodes, hoffsets, hedges,
      fun hb => absurd hb hinv, fun hb => absurd hb hinv⟩, not_le.1 hlong⟩

/-! ## What is read from it -/

theorem idOf_bytesLe (id : Fin (2 ^ 64)) : idOf (bytesLe 8 id) = id := by
  have hlt : (id : ℕ) < 256 ^ 8 := id.isLt.trans_eq (by norm_num)
  rw [idOf, ofBytes_bytesLe, Nat.mod_eq_of_lt hlt]
  exact Fin.ofNat_val_eq_self id

theorem edgeOf_bytes (e : Edge) : edgeOf e.bytes = e := by
  rw [edgeOf, Edge.bytes, List.take_left' (length_bytesLe 8 _),
    List.drop_left' (length_bytesLe 8 _), idOf_bytesLe, idOf_bytesLe]

theorem inverseEdgeOf_bytes (e : InverseEdge) : inverseEdgeOf e.bytes = e := by
  rw [inverseEdgeOf, InverseEdge.bytes, List.take_left' (length_bytesLe 8 _),
    List.drop_left' (length_bytesLe 8 _), idOf_bytesLe, idOf_bytesLe]

theorem ofBytes_bytesLe_of_lt (h : n < 2 ^ 64) : Block.ofBytes (bytesLe 8 n) = n := by
  rw [ofBytes_bytesLe]
  exact Nat.mod_eq_of_lt (h.trans_eq (by norm_num))

/-- An array that a section holds is read back. -/
theorem freadArray_eq_ok {α : Type} {w : ℕ} (entryOf : List UInt8 → α) {o : ℕ}
    {entry : ℕ → List UInt8} (hlen : ∀ i, (entry i).length = w)
    (hfile : readAt file o (w * n) = some (arrayBytes entry n)) (array : ℕ → α) :
    ∃ array', freadArray w entryOf file o n array = .ok array' ∧
      ∀ i < n, array' i = entryOf (entry i) := by
  refine ⟨_, by rw [freadArray, hfile], fun i hi => ?_⟩
  rw [if_pos hi, entryAt_arrayBytes hlen hi]

/-- The forward arrays of `b'` start with those of `b`. -/
structure Copies (b b' : Base) : Prop where
  nodeCount : b'.nodeCount = b.nodeCount
  edgeCount : b'.edgeCount = b.edgeCount
  records : b'.onePred = false
  nodeIds : ∀ i < b.nodeCount, b'.nodeIds i = b.nodeIds i
  edgeOffsets : ∀ i < b.nodeCount + 1, b'.edgeOffsets i = b.edgeOffsets i
  edges : ∀ at' < b.edgeCount, b'.edges at' = b.edges at'

/-- The inverse arrays of `b'` start with those of `b`. -/
structure CopiesInverse (b b' : Base) : Prop where
  hasInverse : b'.hasInverse = true
  invOffsets : ∀ i < b.nodeCount + 1, b'.invOffsets i = b.invOffsets i
  invEdges : ∀ at' < b.edgeCount, b'.invEdges at' = b.invEdges at'

section Copied

variable {b b' : Base} {nodes : List NodeId}

theorem Copies.setDenseDescriptor (h : Copies b b') (sw : Switches) :
    Copies b (graphBaseSetDenseDescriptor sw b') :=
  ⟨h.nodeCount, h.edgeCount, h.records, h.nodeIds, h.edgeOffsets, h.edges⟩

theorem Copies.rowSlots (h : Copies b b') {i : ℕ} (hi : i < b.nodeCount) :
    Graph.rowSlots b' i = Graph.rowSlots b i := by
  rw [Graph.rowSlots, Graph.rowSlots, h.edgeOffsets i (by omega), h.edgeOffsets (i + 1) (by omega)]

theorem CopiesInverse.invRowSlots (h : CopiesInverse b b') {j : ℕ} (hj : j < b.nodeCount) :
    Graph.invRowSlots b' j = Graph.invRowSlots b j := by
  rw [Graph.invRowSlots, Graph.invRowSlots, h.invOffsets j (by omega),
    h.invOffsets (j + 1) (by omega)]

/-- The descriptor of a copied node table describes it. -/
theorem Copies.nodeTable (h : Copies b b') (hb : NodeTable b nodes) (sw : Switches) :
    NodeTable (graphBaseSetDenseDescriptor sw b') nodes := by
  refine nodeTable_setDenseDescriptor sw hb.ascending (h.nodeCount.trans hb.count) ?_
  intro i id hid
  have hi : i < b.nodeCount := hb.count ▸ (List.getElem?_eq_some_iff.1 hid).1
  rw [h.nodeIds i hi]
  exact hb.ids i id hid

/-- An endpoint of the node table gets its index. -/
theorem endpointIx_eq (hb : NodeTable b nodes) (hnarrow : b.narrowIx = true → b.nodeCount ≤ 2 ^ 32)
    {id : NodeId} (hid : id ∈ nodes) : endpointIx b id = nodes.idxOf id := by
  rw [endpointIx, hb.nodeIndex, if_pos hid, Option.getD_some]
  exact graphIxSet_eq hnarrow (hb.idxOf_lt hid)

theorem mem_forwardSlots_snd {i at' : ℕ} (hi : i < b.nodeCount) (hat : at' ∈ rowSlots b i) :
    at' ∈ (forwardSlots b).map Prod.snd := by
  refine List.mem_map.2 ⟨(i, at'), ?_, rfl⟩
  exact List.mem_flatMap.2 ⟨i, List.mem_range.2 hi, List.mem_map.2 ⟨at', hat, rfl⟩⟩

/-- Rebuilding fills the endpoint indices of the rows and leaves the rest alone. -/
theorem graphBaseRebuildEdgeIndices_spec (hone : b.onePred = false) :
    ∃ targets sources, graphBaseRebuildEdgeIndices (Arrays.created b) b =
        { b with edgeTargets := targets, invSources := sources } ∧
      (∀ i < b.nodeCount, ∀ at' ∈ rowSlots b i,
        targets at' = endpointIx b (b.edges at').object) ∧
      (b.hasInverse = true → ∀ j < b.nodeCount, ∀ at' ∈ invRowSlots b j,
        sources at' = endpointIx b (b.invEdges at').subject) := by
  unfold graphBaseRebuildEdgeIndices
  by_cases hzero : b.nodeCount = 0
  · refine ⟨b.edgeTargets, b.invSources, if_pos hzero, ?_, ?_⟩
    · exact fun i hi => absurd hi (by omega)
    · exact fun _ i hi => absurd hi (by omega)
  rw [if_neg hzero, if_neg (by simp [Arrays.created, hone]),
    if_neg (by simp [Arrays.created, hone])]
  refine ⟨_, _, rfl, fun i hi at' hat => ?_, fun hinv j hj at' hat => ?_⟩
  · have hmap : ((forwardSlots b).map fun s => (s.2, endpointIx b (b.edges s.2).object)) =
        ((forwardSlots b).map Prod.snd).map fun at' =>
          (at', endpointIx b (b.edges at').object) := by
      rw [List.map_map]
      rfl
    rw [hmap]
    exact writeAll_map (v := fun at' => endpointIx b (b.edges at').object)
      (mem_forwardSlots_snd hi hat)
  · rw [if_pos hinv]
    exact writeAll_map (v := fun at' => endpointIx b (b.invEdges at').subject)
      (List.mem_flatMap.2 ⟨j, List.mem_range.2 hj, hat⟩)

/-- A copy whose endpoint indices are rebuilt is a store with records again. -/
theorem Recorded.rebuild (hb : Recorded b nodes) (hc : Copies b b') (htab : NodeTable b' nodes)
    (hinv : b'.hasInverse = b.hasInverse) (hcinv : b.hasInverse = true → CopiesInverse b b')
    (hnarrow : b'.narrowIx = true → b'.nodeCount ≤ 2 ^ 32) :
    Recorded (graphBaseRebuildEdgeIndices (Arrays.created b') b') nodes := by
  obtain ⟨targets, sources, heq, htargets, hsources⟩ := graphBaseRebuildEdgeIndices_spec hc.records
  rw [heq]
  refine
    { toNodeTable := ⟨htab.ascending, htab.count, htab.ids, htab.dense⟩
      records := hc.records
      offsets_le := fun i hi => ?_
      target := fun i hi at' hat => ?_
      invOffsets_le := fun h i hi => ?_
      source := fun h j hj at' hat => ?_ }
  · rw [hc.nodeCount] at hi
    rw [hc.edgeOffsets i (by omega), hc.edgeCount]
    exact hb.offsets_le i hi
  · change at' < b'.edgeCount ∧ (b'.edges at').object ∈ nodes ∧
      targets at' = nodes.idxOf (b'.edges at').object
    have hi' : i < b.nodeCount := hc.nodeCount ▸ hi
    obtain ⟨hlt, hmem, -⟩ := hb.target i hi' at' (hc.rowSlots hi' ▸ hat)
    rw [← hc.edges at' hlt] at hmem
    refine ⟨hc.edgeCount ▸ hlt, hmem, ?_⟩
    rw [htargets i hi at' hat, endpointIx_eq htab hnarrow hmem]
  · rw [hc.nodeCount] at hi
    rw [hinv] at h
    rw [(hcinv h).invOffsets i (by omega), hc.edgeCount]
    exact hb.invOffsets_le h i hi
  · change at' < b'.edgeCount ∧ (b'.invEdges at').subject ∈ nodes ∧
      sources at' = nodes.idxOf (b'.invEdges at').subject
    have hj' : j < b.nodeCount := hc.nodeCount ▸ hj
    have h' : b.hasInverse = true := hinv ▸ h
    obtain ⟨hlt, hmem, -⟩ := hb.source h' j hj' at' ((hcinv h').invRowSlots hj' ▸ hat)
    rw [← (hcinv h').invEdges at' hlt] at hmem
    refine ⟨hc.edgeCount ▸ hlt, hmem, ?_⟩
    rw [hsources h j hj at' hat, endpointIx_eq htab hnarrow hmem]

end Copied

section Opened

variable {b : Base} {nodes : List NodeId} {file : List UInt8} {predicateCount : ℕ}

theorem mmapHeader_inverse (b : Base) (predicateCount : ℕ) :
    decide ((mmapHeader b predicateCount).flags &&& mmapFlagInverse ≠ 0) = b.hasInverse := by
  by_cases hb : b.hasInverse = true
  · simp [mmapHeader, hb, mmapFlagSorted, mmapFlagInverse]
  · simp [mmapHeader, hb, mmapFlagSorted, mmapFlagInverse]

/-- The graph that is created for the file of a store has room for narrow indices only if the
nodes do not need more. -/
theorem narrowIx_createFor (sw : Switches) (mem : Memory) (header : MmapHeader)
    (h : (createFor sw mem header).base.narrowIx = true) : header.nodeCount ≤ 2 ^ 32 := by
  have hcap : max (if 0 < header.nodeCount then header.nodeCount else 1024) 16 ≤ 2 ^ 32 - 1 :=
    of_decide_eq_true (Bool.and_eq_true_iff.1 h).2
  split_ifs at hcap with hpos <;> omega

/-- The inverse sections are read back. -/
theorem readInverse_spec (hfile : HoldsStore file b predicateCount) (hb : Recorded b nodes)
    (hfit : b.edgeCount < 2 ^ 64) (b₀ : Base) (h₀ : b₀.hasInverse = b.hasInverse) :
    ∃ invOffsets invEdges, readInverse file (mmapHeader b predicateCount) b₀ =
        .ok (invOffsets, invEdges) ∧
      (b.hasInverse = true → (∀ i < b.nodeCount + 1, invOffsets i = b.invOffsets i) ∧
        ∀ at' < b.edgeCount, invEdges at' = b.invEdges at') := by
  unfold readInverse
  rw [h₀]
  by_cases hinv : b.hasInverse = true
  · obtain ⟨invOffsets, ho, hoffsets⟩ := freadArray_eq_ok Block.ofBytes
      (fun _ => length_bytesLe 8 _) (hfile.invOffsets hinv) b₀.invOffsets
    obtain ⟨invEdges, he, hedges⟩ := freadArray_eq_ok inverseEdgeOf
      (fun _ => length_inverseEdgeBytes _) (hfile.invEdges hinv) b₀.invEdges
    refine ⟨invOffsets, invEdges, ?_, fun _ => ⟨fun i hi => ?_, fun at' hat => ?_⟩⟩
    · simp only [mmapHeader, if_pos hinv, ho, he]
      rfl
    · rw [hoffsets i hi]
      have := hb.invOffsets_le hinv i (by omega)
      exact ofBytes_bytesLe_of_lt (by omega)
    · rw [hedges at' hat, inverseEdgeOf_bytes]
  · rw [if_neg hinv]
    exact ⟨_, _, rfl, fun h => absurd h hinv⟩

/-- A graph opened from the file of a store. -/
structure Opens (b : Base) (nodes : List NodeId) (g : OpenGraph) : Prop where
  copies : Copies b g.graph.base
  table : NodeTable g.graph.base nodes
  inverse : b.hasInverse = true → CopiesInverse b g.graph.base
  chain : g.graph.deltaHead = []
  total : g.graph.totalNodes = b.nodeCount

section

variable (hfile : HoldsStore file b predicateCount) (hb : Recorded b nodes)
include hfile hb

/-- Reading the file gives a store with records that copies the saved one. -/
theorem graphReadFromFile_spec (hfit : endOfSections b < 2 ^ 63) (sw : Switches) (mem : Memory) :
    ∃ g, graphReadFromFile sw mem file = .ok g ∧ Opens b nodes g ∧
      Recorded g.graph.base nodes ∧ g.graph.base.hasInverse = b.hasInverse ∧
      g.arrays = Arrays.created g.graph.base := by
  have hcount := edgeCount_lt hfit
  set header := mmapHeader b predicateCount with hheader
  set g₀ := createFor sw mem header with hg₀
  have hinv₀ : g₀.base.hasInverse = b.hasInverse := mmapHeader_inverse b predicateCount
  obtain ⟨nodeIds, hn, hnodeIds⟩ : ∃ nodeIds, freadArray 8 idOf file header.nodeSectionOffset
      header.nodeCount g₀.base.nodeIds = .ok nodeIds ∧
      ∀ i < b.nodeCount, nodeIds i = idOf (bytesLe 8 (b.nodeIds i)) :=
    freadArray_eq_ok idOf (fun _ => length_bytesLe 8 _) hfile.nodeIds _
  obtain ⟨edgeOffsets, ho, hedgeOffsets⟩ : ∃ edgeOffsets, freadArray 8 Block.ofBytes file
      header.edgeOffsetSectionOffset (header.nodeCount + 1) g₀.base.edgeOffsets = .ok edgeOffsets ∧
      ∀ i < b.nodeCount + 1, edgeOffsets i = Block.ofBytes (bytesLe 8 (b.edgeOffsets i)) :=
    freadArray_eq_ok Block.ofBytes (fun _ => length_bytesLe 8 _) hfile.edgeOffsets _
  obtain ⟨edges, he, hedges⟩ : ∃ edges, freadArray 16 edgeOf file header.edgeSectionOffset
      header.tripleCount g₀.base.edges = .ok edges ∧
      ∀ at' < b.edgeCount, edges at' = edgeOf (b.edges at').bytes :=
    freadArray_eq_ok edgeOf (fun _ => length_edgeBytes _) hfile.edges _
  obtain ⟨invOffsets, invEdges, hi, hinverse⟩ := readInverse_spec hfile hb hcount g₀.base hinv₀
  rw [← hheader] at hi
  obtain ⟨copied, hcopied⟩ : ∃ copied, copied =
      { g₀.base with
        nodeCount := header.nodeCount
        edgeCount := header.tripleCount
        nodeIds, edgeOffsets, edges, invOffsets, invEdges } := ⟨_, rfl⟩
  have hread : graphReadFromFile sw mem file = .ok
      { graph :=
          { g₀ with
            base := graphBaseRebuildEdgeIndices
              (Arrays.created (graphBaseSetDenseDescriptor sw copied))
              (graphBaseSetDenseDescriptor sw copied)
            totalNodes := header.nodeCount
            totalTriples := header.tripleCount }
        arrays := Arrays.created (graphBaseSetDenseDescriptor sw copied) } := by
    have hmagic : ¬ (header.magic ≠ mmapMagic ∨ header.version ≠ mmapVersion) := by
      simp [hheader, mmapHeader]
    simp only [graphReadFromFile, hfile.header, ← hheader, if_neg hmagic, ← hg₀, hn, ho, he, hi,
      hcopied]
    rfl
  have hcopies : Copies b copied := by
    subst hcopied
    refine ⟨rfl, rfl, rfl, fun i hi => ?_, fun i hi => ?_, fun at' hat => ?_⟩
    · exact (hnodeIds i hi).trans (idOf_bytesLe _)
    · have := hb.offsets_le i (by omega)
      exact (hedgeOffsets i hi).trans (ofBytes_bytesLe_of_lt (by omega))
    · exact (hedges at' hat).trans (edgeOf_bytes _)
  have hcopies' := hcopies.setDenseDescriptor sw
  have hinv' : (graphBaseSetDenseDescriptor sw copied).hasInverse = b.hasInverse := by
    subst hcopied
    exact hinv₀
  have hcinv : b.hasInverse = true → CopiesInverse b (graphBaseSetDenseDescriptor sw copied) := by
    intro h
    refine ⟨hinv'.trans h, ?_, ?_⟩
    · subst hcopied
      exact (hinverse h).1
    · subst hcopied
      exact (hinverse h).2
  have hnarrow : (graphBaseSetDenseDescriptor sw copied).narrowIx = true →
      (graphBaseSetDenseDescriptor sw copied).nodeCount ≤ 2 ^ 32 := by
    subst hcopied
    exact narrowIx_createFor sw mem header
  have htab := hcopies.nodeTable hb.toNodeTable sw
  have hrec := hb.rebuild hcopies' htab hinv' hcinv hnarrow
  obtain ⟨targets, sources, heq, -, -⟩ := graphBaseRebuildEdgeIndices_spec hcopies'.records
  refine ⟨_, hread, ⟨?_, hrec.toNodeTable, ?_, rfl, rfl⟩, hrec, ?_, ?_⟩
  · rw [heq]
    exact ⟨hcopies.nodeCount, hcopies.edgeCount, hcopies.records, hcopies.nodeIds,
      hcopies.edgeOffsets, hcopies.edges⟩
  · intro h
    rw [heq]
    exact ⟨(hcinv h).hasInverse, (hcinv h).invOffsets, (hcinv h).invEdges⟩
  · rw [heq]
    exact hinv'
  · rw [heq]
    rfl

/-- The sections can be used in place. -/
theorem copies_mappedBase (hcount : b.edgeCount < 2 ^ 64) (b₀ : Base) (h₀ : b₀.onePred = false) :
    Copies b (mappedBase file (mmapHeader b predicateCount) b₀) := by
  refine ⟨rfl, rfl, h₀, fun i hi => ?_, fun i hi => ?_, fun at' hat => ?_⟩
  · have hentry := entryAt_drop_of_readAt (fun _ => length_bytesLe 8 _) hfile.nodeIds hi
    exact (congrArg idOf hentry).trans (idOf_bytesLe _)
  · have hentry := entryAt_drop_of_readAt (fun _ => length_bytesLe 8 _) hfile.edgeOffsets hi
    have := hb.offsets_le i (by omega)
    exact (congrArg Block.ofBytes hentry).trans (ofBytes_bytesLe_of_lt (by omega))
  · have hentry := entryAt_drop_of_readAt (fun _ => length_edgeBytes _) hfile.edges hat
    exact (congrArg edgeOf hentry).trans (edgeOf_bytes _)

theorem copiesInverse_mappedBase (hcount : b.edgeCount < 2 ^ 64) (hinv : b.hasInverse = true)
    (b₀ : Base) : CopiesInverse b (mappedBase file (mmapHeader b predicateCount) b₀) := by
  have hoffset : (mmapHeader b predicateCount).invOffsetSectionOffset = invOffsetSection b :=
    if_pos hinv
  have hedge : (mmapHeader b predicateCount).invEdgeSectionOffset = invEdgeSection b := if_pos hinv
  refine ⟨?_, fun i hi => ?_, fun at' hat => ?_⟩
  · rw [mappedBase, mmapHeader_inverse, hinv]
    rfl
  · have hentry := entryAt_drop_of_readAt (fun _ => length_bytesLe 8 _) (hfile.invOffsets hinv) hi
    have := hb.invOffsets_le hinv i (by omega)
    rw [← hoffset] at hentry
    exact (congrArg Block.ofBytes hentry).trans (ofBytes_bytesLe_of_lt (by omega))
  · have hentry := entryAt_drop_of_readAt (fun _ => length_inverseEdgeBytes _) (hfile.invEdges hinv)
      hat
    rw [← hedge] at hentry
    exact (congrArg inverseEdgeOf hentry).trans (inverseEdgeOf_bytes _)

/-- Mapping the file gives a store that copies the saved one, says that it has an inverse
index, and has no endpoint indices. -/
theorem graphMmapOpen_spec (hfit : endOfSections b < 2 ^ 63) (sw : Switches) (mem : Memory) :
    ∃ g, graphMmapOpen sw mem file = .ok g ∧ Opens b nodes g ∧ g.graph.base.hasInverse = true ∧
      g.arrays = ⟨true, false, b.hasInverse, b.hasInverse, false⟩ := by
  have hcount := edgeCount_lt hfit
  have hmagic : ¬ ((mmapHeader b predicateCount).magic ≠ mmapMagic ∨
      (mmapHeader b predicateCount).version ≠ mmapVersion) := by
    simp [mmapHeader]
  refine ⟨_, by simp only [graphMmapOpen, hfile.header, if_neg hmagic]; rfl, ?_, ?_, ?_⟩
  · have hcopies := copies_mappedBase hfile hb hcount (graphCreate sw mem 1024 true).base
      (by simp [graphCreate, graphBaseCreate])
    refine ⟨hcopies.setDenseDescriptor sw, hcopies.nodeTable hb.toNodeTable sw, fun hinv => ?_, rfl,
      rfl⟩
    obtain ⟨h₁, h₂, h₃⟩ := copiesInverse_mappedBase hfile hb hcount hinv
      (graphCreate sw mem 1024 true).base
    exact ⟨h₁, h₂, h₃⟩
  · exact Bool.or_true _
  · rw [mmapHeader_inverse]

end

end Opened

end Virtuoso.Graph
