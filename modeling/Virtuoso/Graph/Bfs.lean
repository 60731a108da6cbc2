import Virtuoso.Graph.Adjacent
import Virtuoso.Lib.Buffer

/-!
# Breadth-first search

The queue of `graph_algo_bfs` holds node indices, and a level is a range of it.  A
level is expanded one vertex at a time, or, with a parallel session, in chunks: the
chunk's vertices get consecutive slots of a candidate buffer, the host's workers fill
the slots with the neighbours that look unvisited, and a serial pass claims them in
frontier order.  A vertex whose row is larger than the buffer is expanded serially.
-/

namespace Virtuoso.Graph

open Lib

variable {st : BfsState} {current : NodeId}

/-- How a host executor runs a section of `n` items: the slices it is cut into and the
order in which the writes of the slices arrive.  Every item is processed once. -/
structure Executor where
  slices : ℕ → List (ℕ × ℕ)
  merge : List (List (ℕ × Option ℕ)) → List (ℕ × Option ℕ)
  covers : ∀ n, ((slices n).flatMap fun sl => List.range' sl.1 (sl.2 - sl.1)).Perm (List.range n)
  arrive : ∀ writes, (merge writes).Perm writes.flatten

/-- The arguments of `graph_algo_bfs` and the globals that it reads. -/
structure BfsCall where
  snapshot : Snapshot
  source : NodeId
  direction : Direction
  predFilter : Option PredFilter
  /-- `graph_neighbor_index_walk`. -/
  indexWalk : Bool
  /-- `g_parallel_bfs`. -/
  parallelBfs : Bool
  /-- What `graph_parallel_begin` returns. -/
  session : Option Executor
  /-- What the candidate buffer of the workspace holds; `UINT64_MAX` is `none`. -/
  cand : ℕ → Option ℕ

/-- `graph_bfs_result_t`; a distance of `UINT64_MAX` is `none`. -/
structure BfsResult where
  distances : ℕ → Option ℕ
  parents : ℕ → NodeId
  nodeCount : ℕ
  reachedCount : ℕ
  maxDistance : ℕ

/-- The workspace and the counters of the loop. -/
structure BfsState where
  visited : ℕ → Bool
  distances : ℕ → Option ℕ
  parents : ℕ → NodeId
  queue : List ℕ
  reached : ℕ
  maxDist : ℕ

/-- `GRAPH_BFS_PAR_MIN`. -/
def bfsParMin : ℕ := 1024

/-- `GRAPH_BFS_CAND_CAP`. -/
def bfsCandCapMax : ℕ := 2 ^ 18

/-- `bfs_cand_cap`. -/
def bfsCandCap (v : ℕ) : ℕ :=
  if v < bfsParMin then 0 else if v < bfsCandCapMax then v else bfsCandCapMax

/-- `bfs_slot_degree`. -/
def bfsSlotDegree (b : Base) (dir : Direction) (idx : ℕ) : ℕ :=
  (if dir.Forwards then b.edgeOffsets (idx + 1) - b.edgeOffsets idx else 0) +
    if dir.Backwards ∧ b.hasInverse = true then b.invOffsets (idx + 1) - b.invOffsets idx else 0

/-- Claim the neighbour `ix` for `current`, unless it is visited. -/
def bfsClaim (current : NodeId) (dist : ℕ) (st : BfsState) (ix : ℕ) : BfsState :=
  if st.visited ix then st
  else
    { visited := Function.update st.visited ix true
      distances := Function.update st.distances ix (some (dist + 1))
      parents := Function.update st.parents ix current
      queue := st.queue ++ [ix]
      reached := st.reached + 1
      maxDist := if st.maxDist < dist + 1 then dist + 1 else st.maxDist }

def bfsClaimSlot (current : NodeId) (dist : ℕ) (st : BfsState) : Option ℕ → BfsState
  | none => st
  | some ix => bfsClaim current dist st ix

/-- The vertices from the head of the frontier whose slots fit, and `cbase`: where the
slots of each start, and where the last ones end. -/
def bfsTakeChunk (degree : ℕ → ℕ) (candCap : ℕ) : ℕ → ℕ → List ℕ → List ℕ × List ℕ
  | _, sum, [] => ([], [sum % 2 ^ 32])
  | cnt, sum, v :: rest =>
    if cnt < candCap ∧ ¬ candCap < sum + degree v then
      let chunk := bfsTakeChunk degree candCap (cnt + 1) (sum + degree v) rest
      (v :: chunk.1, sum % 2 ^ 32 :: chunk.2)
    else ([], [sum % 2 ^ 32])

namespace BfsCall

/-- `node_map[idx]`. -/
def nodeId (c : BfsCall) (idx : ℕ) : NodeId := c.snapshot.nodeMap.getD idx idInvalid

def neighborsOf (c : BfsCall) (v : ℕ) : List ℕ :=
  neighbors c.indexWalk c.snapshot c.direction c.predFilter v

/-- The slots that one vertex fills: its neighbours that look unvisited, then padding. -/
def expandVertex (c : BfsCall) (visited : ℕ → Bool) (v o stop : ℕ) : List (ℕ × Option ℕ) :=
  let ctx := neighborInitAt c.indexWalk c.snapshot v c.direction c.predFilter
  let found := neighborYields ctx.calls ctx
  (List.range (stop - o)).map fun i => (o + i, (found.getD i none).filter fun n => !visited n)

/-- `bfs_expand_slice`: the writes to the candidate buffer. -/
def expandSlice (c : BfsCall) (visited : ℕ → Bool) (frontier cbase : List ℕ) (start stop : ℕ) :
    List (ℕ × Option ℕ) :=
  (List.range' start (stop - start)).flatMap fun k =>
    c.expandVertex visited (frontier.getD k 0) (cbase.getD k 0) (cbase.getD (k + 1) 0)

/-- One chunk: the workers fill the buffer, then the candidates are claimed in order. -/
def runChunk (c : BfsCall) (exec : Executor) (dist : ℕ) (frontier cbase : List ℕ)
    (cand : ℕ → Option ℕ) (st : BfsState) : (ℕ → Option ℕ) × BfsState :=
  let cand' := writeAll
    (exec.merge ((exec.slices frontier.length).map fun sl =>
      c.expandSlice st.visited frontier cbase sl.1 sl.2)) cand
  (cand',
    (List.range frontier.length).foldl
      (fun st j =>
        (List.range' (cbase.getD j 0) (cbase.getD (j + 1) 0 - cbase.getD j 0)).foldl
          (fun st o => bfsClaimSlot (c.nodeId (frontier.getD j 0)) dist st (cand' o)) st)
      st)

def visit (c : BfsCall) (dist : ℕ) (st : BfsState) (v : ℕ) : BfsState :=
  (c.neighborsOf v).foldl (bfsClaim (c.nodeId v) dist) st

/-- One level.  The queue grows at its end only, so the frontier is read off it once;
every round takes at least one vertex. -/
def runLevel (c : BfsCall) (par : Option Executor) (candCap dist : ℕ) :
    ℕ → List ℕ → (ℕ → Option ℕ) → BfsState → (ℕ → Option ℕ) × BfsState
  | 0, _, cand, st => (cand, st)
  | _, [], cand, st => (cand, st)
  | fuel + 1, v :: rest, cand, st =>
    match par with
    | none => runLevel c par candCap dist fuel rest cand (c.visit dist st v)
    | some exec =>
      let chunk := bfsTakeChunk (bfsSlotDegree c.snapshot.graph.base c.direction) candCap 0 0
        (v :: rest)
      if 0 < chunk.1.length then
        let r := c.runChunk exec dist chunk.1 chunk.2 cand st
        runLevel c par candCap dist fuel ((v :: rest).drop chunk.1.length) r.1 r.2
      else runLevel c par candCap dist fuel rest cand (c.visit dist st v)

/-- The loop over the levels; `none` if `fuel` levels are not enough. -/
def run (c : BfsCall) (par : Option Executor) (candCap : ℕ) :
    ℕ → ℕ → ℕ → ℕ → (ℕ → Option ℕ) → BfsState → Option BfsState
  | fuel, levelLo, levelHi, dist, cand, st =>
    if levelLo < levelHi then
      match fuel with
      | 0 => none
      | fuel + 1 =>
        let level := (st.queue.drop levelLo).take (levelHi - levelLo)
        let usePar := if bfsParMin ≤ levelHi - levelLo then par else none
        let r := c.runLevel usePar candCap dist level.length level cand st
        run c par candCap fuel levelHi r.2.queue.length (dist + 1) r.1 r.2
    else some st

/-- The state in which the source waits in the queue. -/
def start (sourceIdx : ℕ) : BfsState where
  visited := Function.update (fun _ => false) sourceIdx true
  distances := Function.update (fun _ => none) sourceIdx (some 0)
  parents := fun _ => idInvalid
  queue := [sourceIdx]
  reached := 1
  maxDist := 0

/-- `par_ok` and `graph_parallel_begin`. -/
def par (c : BfsCall) : Option Executor :=
  if c.parallelBfs = true ∧ 0 < bfsCandCap c.snapshot.nodeCount ∧ c.snapshot.deltaHead = [] then
    c.session
  else none

end BfsCall

/-- `graph_algo_bfs`: the error code and what was written to `result`.  A level holds at
least one node, so the loop runs for at most as many levels as there are nodes. -/
def graphAlgoBfs (c : BfsCall) (result : BfsResult) : Option (GraphError × BfsResult) :=
  let v := c.snapshot.nodeCount
  if c.source = idInvalid then some (.invalidId, result)
  else if v = 0 then some (.ok, { result with nodeCount := 0, reachedCount := 0 })
  else
    -- `build_node_map` copies at most `V` ids
    let nodeCount := min c.snapshot.nodeMap.length v
    match graphSnapshotFindNode c.snapshot c.source with
    | none =>
      some (.notFound,
        { distances := fun _ => none
          parents := fun _ => idInvalid
          nodeCount
          reachedCount := 0
          maxDistance := 0 })
    | some sourceIdx =>
      (c.run c.par (bfsCandCap v) v 0 1 0 c.cand (BfsCall.start sourceIdx)).map fun st =>
        (.ok,
          { distances := st.distances
            parents := st.parents
            nodeCount
            reachedCount := st.reached
            maxDistance := st.maxDist })

/-! ## A chunk claims what its vertices would claim one by one -/

theorem bfsCandCap_lt (v : ℕ) : bfsCandCap v < 2 ^ 32 := by
  unfold bfsCandCap bfsCandCapMax
  split_ifs <;> omega

variable {dist x candCap cnt sum : ℕ} {ns front : List ℕ} {degree : ℕ → ℕ}

theorem bfsClaim_of_visited {ix : ℕ} (h : st.visited ix = true) :
    bfsClaim current dist st ix = st := if_pos h

theorem visited_bfsClaim {ix : ℕ} :
    (bfsClaim current dist st ix).visited x = true ↔ st.visited x = true ∨ x = ix := by
  by_cases h : st.visited ix = true
  · rw [bfsClaim_of_visited h]
    constructor
    · exact .inl
    · rintro (hx | rfl)
      · exact hx
      · exact h
  · rw [bfsClaim, if_neg h]
    by_cases hx : x = ix
    · simp [hx]
    · simp [hx]

theorem visited_foldl_bfsClaim :
    (ns.foldl (bfsClaim current dist) st).visited x = true ↔ st.visited x = true ∨ x ∈ ns := by
  induction ns generalizing st with
  | nil => simp
  | cons n ns ih =>
    rw [List.foldl_cons, ih, visited_bfsClaim, List.mem_cons, or_assoc]

/-- Neighbours that were visited when the buffer was filled are not missed. -/
theorem foldl_bfsClaimSlot {seen : ℕ → Bool} (hseen : ∀ x, seen x = true → st.visited x = true) :
    ns.foldl (fun st n => bfsClaimSlot current dist st ((some n).filter fun x => !seen x)) st =
      ns.foldl (bfsClaim current dist) st := by
  induction ns generalizing st with
  | nil => rfl
  | cons n ns ih =>
    have hhead : bfsClaimSlot current dist st ((some n).filter fun x => !seen x) =
        bfsClaim current dist st n := by
      cases hn : seen n with
      | true => simp [bfsClaimSlot, Option.filter_some, hn, bfsClaim_of_visited (hseen n hn)]
      | false => simp [bfsClaimSlot, Option.filter_some, hn]
    rw [List.foldl_cons, List.foldl_cons, hhead]
    exact ih fun x hx => visited_bfsClaim.2 (.inl (hseen x hx))

/-- The slots of a vertex, padding included, claim its neighbours. -/
theorem foldl_range_bfsClaimSlot {n : ℕ} {seen : ℕ → Bool}
    (hseen : ∀ x, seen x = true → st.visited x = true) (hn : ns.length ≤ n) :
    (List.range n).foldl
        (fun st i => bfsClaimSlot current dist st
          (((ns.map some).getD i none).filter fun x => !seen x)) st =
      ns.foldl (bfsClaim current dist) st := by
  have hslots : (List.range n).map (fun i => (ns.map some).getD i none) =
      ns.map some ++ List.replicate (n - ns.length) none := by
    refine List.ext_getElem (by simp; omega) fun i h₁ h₂ => ?_
    simp only [List.getElem_map, List.getElem_range, List.getElem_append, List.length_map]
    split_ifs with hi
    · simp [hi]
    · simp [not_lt.1 hi]
  have hpad (m : ℕ) (st : BfsState) : (List.replicate m (none : Option ℕ)).foldl
      (fun st o => bfsClaimSlot current dist st (o.filter fun x => !seen x)) st = st := by
    induction m with
    | zero => rfl
    | succ m ih => exact ih
  have hmap : ((List.range n).map fun i => (ns.map some).getD i none).foldl
      (fun st o => bfsClaimSlot current dist st (o.filter fun x => !seen x)) st =
        (List.range n).foldl
          (fun st i => bfsClaimSlot current dist st
            (((ns.map some).getD i none).filter fun x => !seen x)) st := List.foldl_map
  rw [← hmap, hslots, List.foldl_append, hpad, List.foldl_map, foldl_bfsClaimSlot hseen]

/-- A chunk is the head of the frontier, and its slots fit the buffer. -/
theorem bfsTakeChunk_fst :
    front.take (bfsTakeChunk degree candCap cnt sum front).1.length =
      (bfsTakeChunk degree candCap cnt sum front).1 := by
  induction front generalizing cnt sum with
  | nil => rfl
  | cons v rest ih =>
    rw [bfsTakeChunk]
    split_ifs
    · simp [ih]
    · rfl

theorem bfsTakeChunk_head :
    (bfsTakeChunk degree candCap cnt sum front).2.getD 0 0 = sum % 2 ^ 32 := by
  cases front with
  | nil => rfl
  | cons v rest =>
    rw [bfsTakeChunk]
    split_ifs <;> rfl

/-- Every vertex of a chunk gets as many slots as its degree. -/
theorem bfsTakeChunk_snd (hcap : candCap < 2 ^ 32) (hsum : sum ≤ candCap) {k : ℕ}
    (hk : k < (bfsTakeChunk degree candCap cnt sum front).1.length) :
    (bfsTakeChunk degree candCap cnt sum front).2.getD (k + 1) 0 =
      (bfsTakeChunk degree candCap cnt sum front).2.getD k 0 +
        degree ((bfsTakeChunk degree candCap cnt sum front).1.getD k 0) := by
  induction front generalizing cnt sum k with
  | nil => exact absurd hk (Nat.not_lt_zero _)
  | cons v rest ih =>
    rw [bfsTakeChunk] at hk ⊢
    split_ifs at hk ⊢ with hfits
    · have hsum' : sum + degree v ≤ candCap := not_lt.1 hfits.2
      cases k with
      | zero =>
        have hhead : (bfsTakeChunk degree candCap (cnt + 1) (sum + degree v) rest).2.getD 0 0 =
            (sum + degree v) % 2 ^ 32 := bfsTakeChunk_head
        simp only [List.getD_cons_succ, List.getD_cons_zero]
        rw [hhead, Nat.mod_eq_of_lt (hsum'.trans_lt hcap),
          Nat.mod_eq_of_lt (hsum.trans_lt hcap)]
      | succ k =>
        simp only [List.getD_cons_succ]
        exact ih hsum' (Nat.lt_of_succ_lt_succ hk)
    · exact absurd hk (Nat.not_lt_zero _)

namespace BfsCall

variable {c : BfsCall}

/-- A vertex has no more neighbours than the slots that it is given. -/
theorem length_neighborsOf_le (hchain : c.snapshot.deltaHead = []) (v : ℕ) :
    (c.neighborsOf v).length ≤ bfsSlotDegree c.snapshot.graph.base c.direction v := by
  set b := c.snapshot.graph.base
  have hout : (outSlots b c.direction v).length ≤
      if c.direction.Forwards then b.edgeOffsets (v + 1) - b.edgeOffsets v else 0 := by
    rw [outSlots, graphBaseGetEdgesAt]
    split_ifs
    · simp
    · simpa using Nat.mod_le _ _
    · simp
  have hin : (inSlots b c.direction v).length ≤
      if c.direction.Backwards ∧ b.hasInverse = true then b.invOffsets (v + 1) - b.invOffsets v
      else 0 := by
    rw [inSlots, graphBaseGetInverseEdgesAt]
    by_cases hdir : c.direction.Backwards
    · rw [if_pos hdir]
      by_cases hinv : b.hasInverse = false ∨ b.nodeCount ≤ v
      · simp [hinv]
      · obtain ⟨h₁, -⟩ := not_or.1 hinv
        rw [if_neg hinv, if_pos ⟨hdir, by simpa using h₁⟩]
        simpa using Nat.mod_le _ _
    · simp [hdir]
  exact (length_neighbors_le hchain).trans (Nat.add_le_add hout hin)

theorem expandVertex_eq (hchain : c.snapshot.deltaHead = []) (visited : ℕ → Bool) (v o stop : ℕ) :
    c.expandVertex visited v o stop =
      (List.range (stop - o)).map fun i =>
        (o + i, (((c.neighborsOf v).map some).getD i none).filter fun n => !visited n) := by
  simp only [expandVertex, neighborYields_eq, rest_eq_map_neighbors hchain]
  rfl

theorem visited_visit {v : ℕ} :
    (c.visit dist st v).visited x = true ↔ st.visited x = true ∨ x ∈ c.neighborsOf v :=
  visited_foldl_bfsClaim

/-- Whatever the executor does, the buffer holds the candidates of each vertex in its slots. -/
theorem writeAll_merge (exec : Executor) (visited : ℕ → Bool) {frontier cbase : List ℕ}
    (hbase : ∀ k < frontier.length, cbase.getD k 0 ≤ cbase.getD (k + 1) 0) (cand : ℕ → Option ℕ)
    {k : ℕ} (hk : k < frontier.length) {w : ℕ × Option ℕ}
    (hw : w ∈ c.expandVertex visited (frontier.getD k 0) (cbase.getD k 0) (cbase.getD (k + 1) 0)) :
    writeAll (exec.merge ((exec.slices frontier.length).map fun sl =>
      c.expandSlice visited frontier cbase sl.1 sl.2)) cand w.1 = w.2 := by
  set vertex : ℕ → List (ℕ × Option ℕ) := fun k =>
    c.expandVertex visited (frontier.getD k 0) (cbase.getD k 0) (cbase.getD (k + 1) 0) with hvertex
  have hperm : (exec.merge ((exec.slices frontier.length).map fun sl =>
      c.expandSlice visited frontier cbase sl.1 sl.2)).Perm
        ((List.range frontier.length).flatMap vertex) := by
    refine (exec.arrive _).trans ?_
    have hflat : ((exec.slices frontier.length).map fun sl =>
        c.expandSlice visited frontier cbase sl.1 sl.2).flatten =
          ((exec.slices frontier.length).flatMap fun sl =>
            List.range' sl.1 (sl.2 - sl.1)).flatMap vertex := by
      rw [List.flatMap_assoc]
      rfl
    rw [hflat]
    exact (exec.covers frontier.length).flatMap_right vertex
  have hkeys : ((List.range frontier.length).flatMap vertex).map Prod.fst =
      List.range' (cbase.getD 0 0) (cbase.getD frontier.length 0 - cbase.getD 0 0) := by
    rw [← flatMap_range'_offsets (c := fun k => cbase.getD k 0) hbase, List.map_flatMap]
    congr 1
    funext k
    simp only [hvertex, expandVertex, List.map_map]
    rw [List.range'_eq_map_range]
    rfl
  refine writeAll_of_mem ?_ (hperm.mem_iff.2 (List.mem_flatMap.2 ⟨k, List.mem_range.2 hk, hw⟩))
  rw [(hperm.map Prod.fst).nodup_iff, hkeys]
  exact List.nodup_range'

/-- The serial pass over the slots claims what the vertices would claim one by one. -/
theorem runChunk_snd (hchain : c.snapshot.deltaHead = []) (exec : Executor) (dist : ℕ)
    {frontier cbase : List ℕ} (cand : ℕ → Option ℕ) (st : BfsState)
    (hbase : ∀ k < frontier.length, cbase.getD (k + 1) 0 = cbase.getD k 0 +
      bfsSlotDegree c.snapshot.graph.base c.direction (frontier.getD k 0)) :
    (c.runChunk exec dist frontier cbase cand st).2 = frontier.foldl (c.visit dist) st := by
  have hmono : ∀ k < frontier.length, cbase.getD k 0 ≤ cbase.getD (k + 1) 0 := by
    intro k hk
    rw [hbase k hk]
    exact Nat.le_add_right _ _
  simp only [runChunk]
  set cand' := writeAll (exec.merge ((exec.slices frontier.length).map fun sl =>
    c.expandSlice st.visited frontier cbase sl.1 sl.2)) cand with hcand
  -- after `m` vertices the pass has done their visits, and nothing visited was forgotten
  have hpass (m : ℕ) (hm : m ≤ frontier.length) :
      (List.range m).foldl
        (fun st j =>
          (List.range' (cbase.getD j 0) (cbase.getD (j + 1) 0 - cbase.getD j 0)).foldl
            (fun st o => bfsClaimSlot (c.nodeId (frontier.getD j 0)) dist st (cand' o)) st)
        st = (frontier.take m).foldl (c.visit dist) st ∧
      ∀ x, st.visited x = true → ((frontier.take m).foldl (c.visit dist) st).visited x = true := by
    induction m with
    | zero => exact ⟨rfl, fun _ h => h⟩
    | succ m ih =>
      obtain ⟨hfold, hvis⟩ := ih (Nat.le_of_succ_le hm)
      set st' := (frontier.take m).foldl (c.visit dist) st with hst'
      have hget : frontier.getD m 0 = frontier[m] := List.getD_eq_getElem _ _ hm
      have hstep : (frontier.take (m + 1)).foldl (c.visit dist) st =
          c.visit dist st' (frontier.getD m 0) := by
        rw [← List.take_concat_get' _ _ hm, List.foldl_append, ← hst', hget]
        rfl
      refine ⟨?_, fun x hx => hstep ▸ visited_visit.2 (.inl (hvis x hx))⟩
      rw [List.range_succ, List.foldl_append, hfold, hstep]
      change (List.range' _ _).foldl _ st' = _
      have hlen : (c.neighborsOf (frontier.getD m 0)).length ≤
          cbase.getD (m + 1) 0 - cbase.getD m 0 := by
        rw [hbase m hm, Nat.add_sub_cancel_left]
        exact length_neighborsOf_le hchain _
      rw [List.range'_eq_map_range, List.foldl_map, visit, ← foldl_range_bfsClaimSlot hvis hlen]
      refine List.foldl_ext _ _ _ fun st'' i hi => ?_
      have hw : (cbase.getD m 0 + i,
          (((c.neighborsOf (frontier.getD m 0)).map some).getD i none).filter
            fun n => !st.visited n) ∈
          c.expandVertex st.visited (frontier.getD m 0) (cbase.getD m 0)
            (cbase.getD (m + 1) 0) := by
        rw [expandVertex_eq hchain]
        exact List.mem_map.2 ⟨i, hi, rfl⟩
      have hslot := writeAll_merge exec st.visited hmono cand hm hw
      exact congrArg (bfsClaimSlot _ dist st'') hslot
  have := (hpass frontier.length le_rfl).1
  rwa [List.take_length] at this

/-- A level is expanded as if one vertex at a time. -/
theorem runLevel_snd (hchain : c.snapshot.deltaHead = []) (par : Option Executor)
    (hcap : candCap < 2 ^ 32) (dist : ℕ) {fuel : ℕ} (hfuel : front.length ≤ fuel)
    (cand : ℕ → Option ℕ) (st : BfsState) :
    (c.runLevel par candCap dist fuel front cand st).2 = front.foldl (c.visit dist) st := by
  induction fuel generalizing front cand st with
  | zero =>
    obtain rfl := List.length_eq_zero_iff.1 (Nat.le_zero.1 hfuel)
    rfl
  | succ fuel ih =>
    cases front with
    | nil => rfl
    | cons v rest =>
      have hrest : rest.length ≤ fuel := Nat.le_of_succ_le_succ hfuel
      cases par with
      | none => exact ih hrest _ _
      | some exec =>
        simp only [runLevel]
        split_ifs with hchunk
        · set chunk := bfsTakeChunk (bfsSlotDegree c.snapshot.graph.base c.direction) candCap
            0 0 (v :: rest) with hdef
          have hlen : ((v :: rest).drop chunk.1.length).length ≤ fuel := by
            rw [List.length_drop]
            omega
          rw [ih hlen, runChunk_snd hchain exec dist cand st
            fun k hk => bfsTakeChunk_snd hcap (Nat.zero_le _) hk]
          rw [← List.foldl_append]
          congr 1
          conv_rhs => rw [← List.take_append_drop chunk.1.length (v :: rest)]
          rw [hdef, bfsTakeChunk_fst]
        · exact ih hrest _ _

theorem visit_congr {c' : BfsCall} (hs : c'.snapshot = c.snapshot)
    (hn : c'.neighborsOf = c.neighborsOf) : c'.visit = c.visit := by
  funext dist st v
  simp only [visit, nodeId, hs, hn]

/-- The session and the buffer do not matter. -/
theorem run_congr {c' : BfsCall} (hchain : c.snapshot.deltaHead = [])
    (hs : c'.snapshot = c.snapshot) (hn : c'.neighborsOf = c.neighborsOf)
    (par par' : Option Executor) (hcap : candCap < 2 ^ 32) (fuel levelLo levelHi dist : ℕ)
    (cand cand' : ℕ → Option ℕ) (st : BfsState) :
    c'.run par' candCap fuel levelLo levelHi dist cand' st =
      c.run par candCap fuel levelLo levelHi dist cand st := by
  have hchain' : c'.snapshot.deltaHead = [] := hs ▸ hchain
  induction fuel generalizing levelLo levelHi dist cand cand' st with
  | zero => rw [run, run]
  | succ fuel ih =>
    rw [run, run]
    by_cases hlt : levelLo < levelHi
    · rw [if_pos hlt, if_pos hlt]
      simp only [runLevel_snd hchain _ hcap dist le_rfl, runLevel_snd hchain' _ hcap dist le_rfl,
        visit_congr hs hn]
      exact ih _ _ _ _ _ _
    · rw [if_neg hlt, if_neg hlt]

end BfsCall

end Virtuoso.Graph
