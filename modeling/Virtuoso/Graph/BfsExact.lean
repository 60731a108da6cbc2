import Mathlib.Data.Set.Card
import Virtuoso.Graph.Bfs

/-!
# Breadth-first search is exact

What a level adds to the state is described by `Grown`: the new end of the queue, whose
vertices were not visited before.  From it follows the invariant of the loop over the
levels, that after level `d` exactly the vertices within distance `d` are visited.
-/

namespace Virtuoso.Graph

open Lib

variable {st : BfsState}

/-- The vertices `new` were claimed at distance `dist + 1`, each for an allowed parent. -/
structure Grown (dist : ℕ) (ok : ℕ → NodeId → Prop) (st : BfsState) (new : List ℕ)
    (st' : BfsState) : Prop where
  queue : st'.queue = st.queue ++ new
  nodup : new.Nodup
  fresh : ∀ v ∈ new, st.visited v = false
  visited : ∀ v, st'.visited v = true ↔ st.visited v = true ∨ v ∈ new
  claimed : ∀ v ∈ new, st'.distances v = some (dist + 1) ∧ ok v (st'.parents v)
  kept : ∀ v ∉ new, st'.distances v = st.distances v ∧ st'.parents v = st.parents v
  reached : st'.reached = st.reached + new.length
  maxDist : st'.maxDist = if new = [] then st.maxDist else max st.maxDist (dist + 1)

namespace Grown

variable {dist : ℕ} {ok : ℕ → NodeId → Prop} {st st' st'' : BfsState} {new new' : List ℕ}

theorem refl (dist : ℕ) (ok : ℕ → NodeId → Prop) (st : BfsState) : Grown dist ok st [] st := by
  constructor <;> simp

theorem trans (h : Grown dist ok st new st') (h' : Grown dist ok st' new' st'') :
    Grown dist ok st (new ++ new') st'' := by
  have hdisj (v : ℕ) (hv : v ∈ new) : v ∉ new' := by
    intro hv'
    exact absurd ((h.visited v).2 (.inr hv)) (by simp [h'.fresh v hv'])
  refine ⟨?_, ?_, ?_, ?_, ?_, ?_, ?_, ?_⟩
  · rw [h'.queue, h.queue, List.append_assoc]
  · refine List.nodup_append.2 ⟨h.nodup, h'.nodup, ?_⟩
    rintro v hv _ hv' rfl
    exact hdisj v hv hv'
  · intro v hv
    rcases List.mem_append.1 hv with hv | hv
    · exact h.fresh v hv
    · have := h'.fresh v hv
      rw [← Bool.not_eq_true, h.visited, not_or] at this
      simpa using this.1
  · intro v
    rw [h'.visited, h.visited, List.mem_append, or_assoc]
  · intro v hv
    rcases List.mem_append.1 hv with hv | hv
    · obtain ⟨hd, hp⟩ := h'.kept v (hdisj v hv)
      rw [hd, hp]
      exact h.claimed v hv
    · exact h'.claimed v hv
  · intro v hv
    obtain ⟨hv₁, hv₂⟩ := not_or.1 (mt List.mem_append.2 hv)
    exact ⟨(h'.kept v hv₂).1.trans (h.kept v hv₁).1, (h'.kept v hv₂).2.trans (h.kept v hv₁).2⟩
  · rw [h'.reached, h.reached, List.length_append, Nat.add_assoc]
  · rw [h'.maxDist, h.maxDist]
    by_cases h₁ : new = []
    · simp [h₁]
    · by_cases h₂ : new' = []
      · simp [h₁, h₂]
      · simp [h₁, h₂]

theorem bfsClaim {current : NodeId} {ix : ℕ} (st : BfsState) (hok : ok ix current) :
    ∃ new, Grown dist ok st new (bfsClaim current dist st ix) := by
  by_cases h : st.visited ix = true
  · rw [bfsClaim_of_visited h]
    exact ⟨[], refl dist ok st⟩
  · refine ⟨[ix], ?_⟩
    refine
      { queue := ?_, nodup := List.nodup_singleton ix, fresh := ?_, visited := ?_, claimed := ?_,
        kept := ?_, reached := ?_, maxDist := ?_ }
    · rw [Graph.bfsClaim, if_neg h]
    · simpa using h
    · intro v
      rw [visited_bfsClaim, List.mem_singleton]
    · intro v hv
      obtain rfl := List.mem_singleton.1 hv
      rw [Graph.bfsClaim, if_neg h]
      simpa using hok
    · intro v hv
      have hne : v ≠ ix := by simpa using hv
      rw [Graph.bfsClaim, if_neg h]
      exact ⟨Function.update_of_ne hne _ _, Function.update_of_ne hne _ _⟩
    · rw [Graph.bfsClaim, if_neg h]
      rfl
    · rw [Graph.bfsClaim, if_neg h, if_neg (List.cons_ne_nil _ _)]
      split_ifs with hlt
      · exact (max_eq_right hlt.le).symm
      · exact (max_eq_left (not_lt.1 hlt)).symm

/-- A fold whose steps grow the state grows it. -/
theorem foldl {α : Type*} {f : BfsState → α → BfsState} {l : List α}
    (h : ∀ a ∈ l, ∀ st, ∃ new, Grown dist ok st new (f st a)) (st : BfsState) :
    ∃ new, Grown dist ok st new (l.foldl f st) := by
  induction l generalizing st with
  | nil => exact ⟨[], refl dist ok st⟩
  | cons a l ih =>
    obtain ⟨new, hnew⟩ := h a (by simp) st
    obtain ⟨new', hnew'⟩ := ih (fun b hb => h b (by simp [hb])) (f st a)
    exact ⟨new ++ new', hnew.trans hnew'⟩

end Grown

variable {d n k : ℕ}

namespace BfsCall

variable {c : BfsCall} {src : ℕ}

/-- The edges that the traversal follows. -/
def Edge (c : BfsCall) (v w : ℕ) : Prop := w ∈ c.neighborsOf v

/-- The level at distance `d` waits in the queue from position `lo` on. -/
structure AtLevel (c : BfsCall) (src d lo : ℕ) (st : BfsState) : Prop where
  visited : ∀ v, st.visited v = true ↔ ∃ k ≤ d, IsDist c.Edge src v k
  distances : ∀ v k, st.distances v = some k ↔ k ≤ d ∧ IsDist c.Edge src v k
  level : ∀ v, v ∈ st.queue.drop lo ↔ IsDist c.Edge src v d
  queue : ∀ v, v ∈ st.queue ↔ st.visited v = true
  nodup : st.queue.Nodup
  parents : ∀ v k, k < d → IsDist c.Edge src v (k + 1) →
    ∃ u, IsDist c.Edge src u k ∧ c.Edge u v ∧ st.parents v = c.nodeId u
  reached : st.reached = st.queue.length
  maxDist : IsGreatest {k | k ≤ d ∧ ∃ v, IsDist c.Edge src v k} st.maxDist

theorem atLevel_start (c : BfsCall) (src : ℕ) : AtLevel c src 0 0 (start src) := by
  have hzero (v k : ℕ) : (k ≤ 0 ∧ IsDist c.Edge src v k) ↔ k = 0 ∧ v = src := by
    constructor
    · rintro ⟨hk, h⟩
      obtain rfl := Nat.le_zero.1 hk
      exact ⟨rfl, isDist_zero_iff.1 h⟩
    · rintro ⟨rfl, h⟩
      exact ⟨le_rfl, isDist_zero_iff.2 h⟩
  refine ⟨fun v => ?_, fun v k => ?_, fun v => ?_, fun v => ?_, List.nodup_singleton _, ?_, rfl, ?_⟩
  · simp only [hzero, start]
    by_cases hv : v = src
    · simp [hv]
    · simp [hv]
  · rw [hzero]
    simp only [start]
    by_cases hv : v = src
    · simp [hv, eq_comm]
    · simp [hv]
  · simp [start, isDist_zero_iff]
  · simp only [start]
    by_cases hv : v = src
    · simp [hv]
    · simp [hv]
  · intro v k hk
    exact absurd hk (Nat.not_lt_zero k)
  · refine ⟨⟨le_rfl, src, isDist_zero_iff.2 rfl⟩, ?_⟩
    rintro k ⟨hk, -⟩
    exact hk

/-- The visits of a level grow the state by neighbours of its vertices. -/
theorem exists_grown (dist : ℕ) (front : List ℕ) (st : BfsState) :
    ∃ new, Grown dist (fun v p => ∃ u ∈ front, c.Edge u v ∧ p = c.nodeId u) st new
      (front.foldl (c.visit dist) st) := by
  refine Grown.foldl (fun u hu st => ?_) st
  exact Grown.foldl (fun v hv st => Grown.bfsClaim st ⟨u, hu, hv, rfl⟩) st

theorem visited_foldl_visit {dist x : ℕ} {front : List ℕ} :
    (front.foldl (c.visit dist) st).visited x = true ↔
      st.visited x = true ∨ ∃ u ∈ front, c.Edge u x := by
  induction front generalizing st with
  | nil => simp
  | cons u front ih =>
    rw [List.foldl_cons, ih, visited_visit]
    simp [Edge, or_assoc]

variable {lo : ℕ}

/-- One level more. -/
theorem AtLevel.step (h : AtLevel c src d lo st) :
    AtLevel c src (d + 1) st.queue.length ((st.queue.drop lo).foldl (c.visit d) st) := by
  obtain ⟨new, hnew⟩ := exists_grown (c := c) d (st.queue.drop lo) st
  have hvis (x : ℕ) : ((st.queue.drop lo).foldl (c.visit d) st).visited x = true ↔
      st.visited x = true ∨ ∃ u ∈ st.queue.drop lo, c.Edge u x := visited_foldl_visit
  -- what was claimed is exactly the next level
  have hlevel (v : ℕ) : v ∈ new ↔ IsDist c.Edge src v (d + 1) := by
    constructor
    · intro hv
      obtain ⟨u, hu, huv, -⟩ := (hnew.claimed v hv).2
      refine ((h.level u).1 hu).step huv fun k hk hdist => ?_
      exact absurd ((h.visited v).2 ⟨k, hk, hdist⟩) (by simp [hnew.fresh v hv])
    · intro hv
      obtain ⟨u, hu, huv⟩ := hv.exists_prev
      rcases (hnew.visited v).1 ((hvis v).2 (.inr ⟨u, (h.level u).2 hu, huv⟩)) with hold | hv'
      · obtain ⟨k, hk, hdist⟩ := (h.visited v).1 hold
        have := hdist.unique hv
        omega
      · exact hv'
  have hsplit (v k : ℕ) : (k ≤ d + 1 ∧ IsDist c.Edge src v k) ↔
      (k ≤ d ∧ IsDist c.Edge src v k) ∨ k = d + 1 ∧ v ∈ new := by
    rw [Nat.le_succ_iff, or_and_right, hlevel]
    refine or_congr_right (and_congr_right ?_)
    rintro rfl
    rfl
  refine ⟨fun v => ?_, fun v k => ?_, fun v => ?_, fun v => ?_, ?_, fun v k hk hdist => ?_, ?_, ?_⟩
  · rw [hnew.visited, h.visited]
    simp only [hsplit, exists_or]
    simp
  · rw [hsplit, ← h.distances]
    by_cases hv : v ∈ new
    · have hnone : st.distances v ≠ some k := by
        intro hk
        obtain ⟨hle, hdist⟩ := (h.distances v k).1 hk
        exact absurd ((h.visited v).2 ⟨k, hle, hdist⟩) (by simp [hnew.fresh v hv])
      rw [(hnew.claimed v hv).1, Option.some.injEq, or_iff_right hnone, eq_comm]
      exact (and_iff_left hv).symm
    · rw [(hnew.kept v hv).1]
      simp [hv]
  · rw [hnew.queue, List.drop_left, hlevel]
  · rw [hnew.queue, List.mem_append, h.queue, hnew.visited]
  · rw [hnew.queue]
    refine List.nodup_append.2 ⟨h.nodup, hnew.nodup, ?_⟩
    rintro v hv _ hv' rfl
    exact absurd ((h.queue v).1 hv) (by simp [hnew.fresh v hv'])
  · rcases Nat.lt_succ_iff_lt_or_eq.1 hk with hk | rfl
    · have hv : v ∉ new := by
        intro hv
        have := hdist.unique ((hlevel v).1 hv)
        omega
      rw [(hnew.kept v hv).2]
      exact h.parents v k hk hdist
    · obtain ⟨u, hu, huv, hp⟩ := (hnew.claimed v ((hlevel v).2 hdist)).2
      exact ⟨u, (h.level u).1 hu, huv, hp⟩
  · rw [hnew.reached, h.reached, hnew.queue, List.length_append]
  · rw [hnew.maxDist]
    split_ifs with hnil
    · refine ⟨⟨h.maxDist.1.1.trans (Nat.le_succ d), h.maxDist.1.2⟩, ?_⟩
      rintro k ⟨hk, v, hdist⟩
      rcases (hsplit v k).1 ⟨hk, hdist⟩ with hold | ⟨-, hv⟩
      · exact h.maxDist.2 ⟨hold.1, v, hold.2⟩
      · exact absurd hv (by simp [hnil])
    · obtain ⟨v, hv⟩ := List.exists_mem_of_ne_nil new hnil
      rw [max_eq_right (h.maxDist.1.1.trans (Nat.le_succ d))]
      exact ⟨⟨le_rfl, v, (hlevel v).1 hv⟩, fun k hk => hk.1⟩

theorem walk_lt (hsrc : src < n) (hedge : ∀ v w, v < n → c.Edge v w → w < n) {v : ℕ}
    (hw : Walk c.Edge src k v) : v < n := by
  induction hw with
  | nil => exact hsrc
  | snoc _ hstep ih => exact hedge _ _ ih hstep

theorem AtLevel.length_queue_le (h : AtLevel c src d lo st) (hsrc : src < n)
    (hedge : ∀ v w, v < n → c.Edge v w → w < n) : st.queue.length ≤ n := by
  have hsub : st.queue ⊆ List.range n := by
    intro v hv
    obtain ⟨k, -, hdist⟩ := (h.visited v).1 ((h.queue v).1 hv)
    exact List.mem_range.2 (walk_lt hsrc hedge hdist.walk)
  simpa using (h.nodup.subperm hsub).length_le

/-- The search of a graph whose edges stay below `n` ends after its last level. -/
theorem run_spec (hchain : c.snapshot.deltaHead = []) (par : Option Executor) {candCap : ℕ}
    (hcap : candCap < 2 ^ 32) (hsrc : src < n) (hedge : ∀ v w, v < n → c.Edge v w → w < n)
    {fuel : ℕ} (hfuel : n ≤ fuel + lo) (cand : ℕ → Option ℕ) (h : AtLevel c src d lo st)
    (hlo : lo ≤ st.queue.length) :
    ∃ st' d', c.run par candCap fuel lo st.queue.length d cand st = some st' ∧
      AtLevel c src d' st'.queue.length st' := by
  have hlen := h.length_queue_le hsrc hedge
  induction fuel generalizing d lo cand st with
  | zero =>
    have hlo' : lo = st.queue.length := by omega
    rw [run, if_neg (not_lt.2 hlo'.ge)]
    exact ⟨st, d, rfl, hlo' ▸ h⟩
  | succ fuel ih =>
    rw [run]
    by_cases hlt : lo < st.queue.length
    · rw [if_pos hlt]
      have htake : (st.queue.drop lo).take (st.queue.length - lo) = st.queue.drop lo := by
        rw [← List.length_drop, List.take_length]
      simp only [runLevel_snd hchain _ hcap d le_rfl, htake]
      refine ih (by omega) _ h.step ?_ (h.step.length_queue_le hsrc hedge)
      obtain ⟨new, hnew⟩ := exists_grown (c := c) d (st.queue.drop lo) st
      rw [hnew.queue, List.length_append]
      exact Nat.le_add_right _ _
    · rw [if_neg hlt]
      exact ⟨st, d, rfl, (hlo.antisymm (not_lt.1 hlt)) ▸ h⟩

/-- Behind an empty level the search has seen everything. -/
theorem AtLevel.isDist_iff (h : AtLevel c src d lo st) (hempty : st.queue.drop lo = []) (v k : ℕ) :
    st.distances v = some k ↔ IsDist c.Edge src v k := by
  rw [h.distances, and_iff_right_iff_imp]
  intro hdist
  by_contra hlt
  have hnone (u : ℕ) : ¬ IsDist c.Edge src u d := by
    rw [← h.level, hempty]
    simp
  exact not_isDist_of_le hnone (not_le.1 hlt).le hdist

end BfsCall

/-! ## Exactness -/

/-- The result is that of a breadth-first search from `source` along the edges `adj`. -/
structure BfsExact (s : Snapshot) (adj : NodeId → NodeId → Prop) (source : NodeId)
    (r : BfsResult) : Prop where
  nodeCount : r.nodeCount = s.nodeMap.length
  /-- A node has the length of a shortest path as its distance, if there is a path. -/
  distance : ∀ i id, s.nodeMap[i]? = some id → ∀ k,
    r.distances i = some k ↔ IsDist adj source id k
  /-- The parent of a reached node is a neighbour at distance one less. -/
  parent : ∀ i id, s.nodeMap[i]? = some id → id ≠ source → ∀ k, r.distances i = some k →
    adj (r.parents i) id ∧
      ∃ j, s.nodeMap[j]? = some (r.parents i) ∧ ∃ m, r.distances j = some m ∧ k = m + 1
  reached : r.reachedCount = {id | ∃ k, Walk adj source k id}.ncard
  maxDistance : IsGreatest {k | ∃ id, IsDist adj source id k} r.maxDistance

/-- The answer does not depend on loops. -/
theorem BfsExact.congr_ne {s : Snapshot} {adj adj' : NodeId → NodeId → Prop} {source : NodeId}
    {r : BfsResult} (hr : BfsExact s adj source r) (h : ∀ x y, x ≠ y → (adj x y ↔ adj' x y)) :
    BfsExact s adj' source r where
  nodeCount := hr.nodeCount
  distance i id hi k := by rw [hr.distance i id hi, isDist_congr_ne h]
  parent i id hi hne k hk := by
    obtain ⟨hadj, j, hj, m, hm, rfl⟩ := hr.parent i id hi hne k hk
    refine ⟨(h _ _ fun heq => ?_).1 hadj, j, hj, m, hm, rfl⟩
    -- a node has one distance only
    rw [heq] at hj
    have := ((hr.distance i id hi _).1 hk).unique ((hr.distance j id hj _).1 hm)
    omega
  reached := by
    simp only [hr.reached, ← reflTransGen_iff_walk, reflTransGen_congr_ne h]
  maxDistance := by simpa only [isDist_congr_ne h] using hr.maxDistance

/-- From every node of the snapshot, in every direction and with every filter, the search
is exact, and its result does not depend on the switches, the session and the workspace. -/
def BfsWell (s : Snapshot) (ts : List Triple) : Prop :=
  ∀ (c : BfsCall) (result : BfsResult), c.snapshot = s → c.source ∈ s.nodeMap →
    ∃ r, graphAlgoBfs c result = some (.ok, r) ∧
      BfsExact s (Adjacent ts c.direction c.predFilter) c.source r ∧
      ∀ (c' : BfsCall) (result' : BfsResult), c'.snapshot = s → c'.source = c.source →
        c'.direction = c.direction → c'.predFilter = c.predFilter →
          graphAlgoBfs c' result' = some (.ok, r)

section Search

variable {s : Snapshot} {ts : List Triple} {c : BfsCall}

/-- The walk along the rows and the walk along the edge records meet the same neighbours. -/
theorem neighbors_indexWalk (hchain : s.deltaHead = []) (indexWalk indexWalk' : Bool)
    (dir : Direction) (filter : Option PredFilter) :
    neighbors indexWalk s dir filter = neighbors indexWalk' s dir filter := by
  funext v
  rw [neighbors, neighbors, neighborForeach_eq, neighborForeach_eq, rest_neighborInitAt hchain,
    rest_neighborInitAt hchain]

section

variable (h : CompactSnapshot s ts)
include h

/-- A search from a node of the snapshot ends, at whatever its loop ends with. -/
theorem graphAlgoBfs_eq (hs : c.snapshot = s) (hsource : c.source ∈ s.nodeMap)
    (result : BfsResult) :
    graphAlgoBfs c result =
      (c.run c.par (bfsCandCap s.nodeCount) s.nodeCount 0 1 0 c.cand
        (BfsCall.start (s.nodeMap.idxOf c.source))).map fun st =>
          (.ok,
            { distances := st.distances
              parents := st.parents
              nodeCount := s.nodeMap.length
              reachedCount := st.reached
              maxDistance := st.maxDist }) := by
  subst hs
  have hmem := hsource
  rw [h.nodeMap_eq] at hmem
  have hvalid : c.source ≠ idInvalid := by
    obtain ⟨t, ht, heq | heq⟩ := (h.forward.endpoints _).1 hmem
    · exact heq ▸ (h.valid t ht).1
    · exact heq ▸ (h.valid t ht).2.2
  have hcount := h.nodeCount_le
  have hlt := h.forward.idxOf_lt hmem
  have hlen : min c.snapshot.nodeMap.length c.snapshot.nodeCount = c.snapshot.nodeMap.length :=
    min_eq_left (h.length_nodeMap.trans_le hcount)
  simp only [graphAlgoBfs]
  rw [if_neg hvalid, if_neg (by omega), h.findNode hsource, hlen]

/-- Two searches with the same question have the same answer. -/
theorem graphAlgoBfs_congr {c' : BfsCall} (hs : c.snapshot = s) (hs' : c'.snapshot = s)
    (hsource : c.source ∈ s.nodeMap) (heq : c'.source = c.source)
    (hdir : c'.direction = c.direction) (hfilter : c'.predFilter = c.predFilter)
    (result result' : BfsResult) : graphAlgoBfs c' result' = graphAlgoBfs c result := by
  have hn : c'.neighborsOf = c.neighborsOf := by
    change neighbors c'.indexWalk c'.snapshot c'.direction c'.predFilter = _
    rw [hs', hdir, hfilter, neighbors_indexWalk h.chain c'.indexWalk c.indexWalk, ← hs]
    rfl
  rw [graphAlgoBfs_eq h hs hsource, graphAlgoBfs_eq h hs' (heq ▸ hsource), heq]
  congr 1
  exact BfsCall.run_congr (hs ▸ h.chain) (hs'.trans hs.symm) hn _ _ (bfsCandCap_lt _) _ _ _ _ _ _ _

/-- The state in which the search ends. -/
theorem exists_bfsState (hs : c.snapshot = s) (hsource : c.source ∈ s.nodeMap)
    (result : BfsResult) :
    ∃ st d, BfsCall.AtLevel c (s.nodeMap.idxOf c.source) d st.queue.length st ∧
      graphAlgoBfs c result = some (.ok,
        { distances := st.distances
          parents := st.parents
          nodeCount := s.nodeMap.length
          reachedCount := st.reached
          maxDistance := st.maxDist }) := by
  have hmem := hsource
  rw [h.nodeMap_eq] at hmem
  have hlt := h.forward.idxOf_lt hmem
  rw [← h.nodeMap_eq] at hlt
  have hedge (v w : ℕ) (_ : v < s.graph.base.nodeCount) (hvw : c.Edge v w) :
      w < s.graph.base.nodeCount := by
    subst hs
    exact h.lt_of_mem_neighbors hvw
  obtain ⟨st, d, hrun, hst⟩ := BfsCall.run_spec (hs ▸ h.chain) c.par (bfsCandCap_lt s.nodeCount) hlt
    hedge (show s.graph.base.nodeCount ≤ s.nodeCount + 0 from h.nodeCount_le) c.cand
    (BfsCall.atLevel_start c _) (Nat.zero_le _)
  refine ⟨st, d, hst, ?_⟩
  rw [graphAlgoBfs_eq h hs hsource]
  change (c.run c.par (bfsCandCap s.nodeCount) s.nodeCount 0 1 0 c.cand _) = _ at hrun
  rw [hrun]
  rfl

/-- Distances of nodes and distances of indices are the same. -/
theorem isDist_nodeIds (hs : c.snapshot = s) {src v : ℕ}
    (hsrc : src < s.graph.base.nodeCount) (hv : v < s.graph.base.nodeCount) :
    IsDist (Seen ts c.direction c.predFilter) (s.graph.base.nodeIds src)
        (s.graph.base.nodeIds v) k ↔
      IsDist c.Edge src v k := by
  subst hs
  have hwalk (k : ℕ) : Walk (Seen ts c.direction c.predFilter)
      (c.snapshot.graph.base.nodeIds src) k (c.snapshot.graph.base.nodeIds v) ↔
        Walk c.Edge src k v := h.walk_iff hsrc hv
  simp only [IsDist, hwalk]

/-- A node that a path reaches has an index. -/
theorem exists_index_of_walk {dir : Direction} {filter : Option PredFilter} {source id : NodeId}
    (hsource : source ∈ s.nodeMap) (hw : Walk (Seen ts dir filter) source k id) :
    ∃ v < s.graph.base.nodeCount, s.graph.base.nodeIds v = id := by
  have hf := h.forward
  have hid : id ∈ collectNodes ts := by
    cases hw with
    | nil => rwa [← h.nodeMap_eq]
    | snoc _ hstep => exact hstep.mem_nodes.2
  exact ⟨_, hf.idxOf_lt hid, hf.ids_idxOf hid⟩

/-- What the loop ends with is the exact answer for the edges that the walks come to. -/
theorem bfsExact_of_atLevel (hs : c.snapshot = s) (hsource : c.source ∈ s.nodeMap)
    (hst : BfsCall.AtLevel c (s.nodeMap.idxOf c.source) d st.queue.length st) :
    BfsExact s (Seen ts c.direction c.predFilter) c.source
      { distances := st.distances
        parents := st.parents
        nodeCount := s.nodeMap.length
        reachedCount := st.reached
        maxDistance := st.maxDist } := by
  have hf := h.forward
  have hmem := hsource
  rw [h.nodeMap_eq] at hmem
  set src := s.nodeMap.idxOf c.source with hsrc
  rw [h.nodeMap_eq] at hsrc
  have hlt : src < s.graph.base.nodeCount := hsrc ▸ hf.idxOf_lt hmem
  have hid : s.graph.base.nodeIds src = c.source := hsrc ▸ hf.ids_idxOf hmem
  have hdist (v : ℕ) (hv : v < s.graph.base.nodeCount) (k : ℕ) :
      IsDist (Seen ts c.direction c.predFilter) c.source (s.graph.base.nodeIds v) k ↔
        IsDist c.Edge src v k := by
    rw [← hid]
    exact isDist_nodeIds h hs hlt hv
  have hall := hst.isDist_iff (by simp)
  have hedge (v w : ℕ) (_ : v < s.graph.base.nodeCount) (hvw : c.Edge v w) :
      w < s.graph.base.nodeCount := by
    subst hs
    exact h.lt_of_mem_neighbors hvw
  have hbound (v k : ℕ) (hw : IsDist c.Edge src v k) : v < s.graph.base.nodeCount :=
    BfsCall.walk_lt hlt hedge hw.walk
  refine ⟨rfl, ?_, ?_, ?_, ?_⟩
  · intro i id hget k
    obtain ⟨hi, rfl⟩ := h.of_nodeMap_getElem? hget
    rw [hdist i hi, ← hall]
  · intro i id hget hne k hk
    obtain ⟨hi, rfl⟩ := h.of_nodeMap_getElem? hget
    have hk := (hall i k).1 hk
    cases k with
    | zero =>
      rw [isDist_zero_iff.1 hk, hid] at hne
      exact absurd rfl hne
    | succ k =>
      have hkd : k < d := (hst.distances i _).1 ((hall i _).2 hk) |>.1
      obtain ⟨u, hu, hui, hp⟩ := hst.parents i k hkd hk
      have hul := hbound u k hu
      have hget := h.nodeMap_getElem? hul
      have hparent : st.parents i = s.graph.base.nodeIds u := by
        rw [hp, BfsCall.nodeId, hs, List.getD_eq_getElem?_getD, hget, Option.getD_some]
      refine ⟨?_, u, ?_, k, (hall u k).2 hu, rfl⟩
      · change Seen ts _ _ (st.parents i) _
        rw [hparent]
        subst hs
        exact ((h.mem_neighbors_iff hul).1 hui).2
      · exact hget.trans (congrArg some hparent.symm)
  · have hset : {id | ∃ k, Walk (Seen ts c.direction c.predFilter) c.source k id} =
        s.graph.base.nodeIds '' {v | v ∈ st.queue} := by
      ext id
      constructor
      · rintro ⟨k, hw⟩
        obtain ⟨v, hv, rfl⟩ := exists_index_of_walk h hsource hw
        obtain ⟨m, -, hm⟩ := hw.exists_isDist
        refine ⟨v, ?_, rfl⟩
        have := (hall v m).2 ((hdist v hv m).1 hm)
        exact (hst.queue v).2 ((hst.visited v).2 ⟨m, (hst.distances v m).1 this⟩)
      · rintro ⟨v, hv, rfl⟩
        obtain ⟨k, -, hk⟩ := (hst.visited v).1 ((hst.queue v).1 hv)
        exact ⟨k, ((hdist v (hbound v k hk) k).2 hk).walk⟩
    have hinj : Set.InjOn s.graph.base.nodeIds {v | v ∈ st.queue} := by
      intro v hv w hw heq
      obtain ⟨k, -, hk⟩ := (hst.visited v).1 ((hst.queue v).1 hv)
      obtain ⟨m, -, hm⟩ := (hst.visited w).1 ((hst.queue w).1 hw)
      rw [← hf.idxOf_ids (hbound v k hk), ← hf.idxOf_ids (hbound w m hm), heq]
    rw [hset, hinj.ncard_image, hst.reached, ← List.toFinset_card_of_nodup hst.nodup,
      ← Set.ncard_coe_finset]
    simp
  · have hset : {k | ∃ id, IsDist (Seen ts c.direction c.predFilter) c.source id k} =
        {k | k ≤ d ∧ ∃ v, IsDist c.Edge src v k} := by
      ext k
      constructor
      · rintro ⟨id, hk⟩
        obtain ⟨v, hv, rfl⟩ := exists_index_of_walk h hsource hk.walk
        have hk' := (hdist v hv k).1 hk
        exact ⟨((hst.distances v k).1 ((hall v k).2 hk')).1, v, hk'⟩
      · rintro ⟨-, v, hk⟩
        exact ⟨_, (hdist v (hbound v k hk) k).2 hk⟩
    rw [hset]
    exact hst.maxDist

/-- The search is exact for the edges that the walks come to, at any size. -/
theorem exists_bfsExact (hs : c.snapshot = s) (hsource : c.source ∈ s.nodeMap)
    (result : BfsResult) : ∃ r, graphAlgoBfs c result = some (.ok, r) ∧
      BfsExact s (Seen ts c.direction c.predFilter) c.source r := by
  obtain ⟨st, d, hst, heq⟩ := exists_bfsState h hs hsource result
  exact ⟨_, heq, bfsExact_of_atLevel h hs hsource hst⟩

theorem bfsWell_of_rowsKept (hrows : RowsKept ts) : BfsWell s ts := by
  intro c result hs hsource
  obtain ⟨r, heq, hexact⟩ := exists_bfsExact h hs hsource result
  refine ⟨r, heq, hexact.congr_ne fun x y => hrows.seen_iff,
    fun c' result' hs' hsrc hdir hfilter => ?_⟩
  rw [graphAlgoBfs_congr h hs hs' hsource hsrc hdir hfilter result result', heq]

theorem bfsWell_of_lt (hlen : ts.length < 2 ^ 32) : BfsWell s ts :=
  bfsWell_of_rowsKept h (rowsKept_of_lt hlen)

/-- The nodes at distance one tell what the walks come to. -/
theorem rowsKept_of_bfsWell (hwell : BfsWell s ts) : RowsKept ts := by
  refine rowsKept_of_seen fun dir filter x y hne => ?_
  have hiff (hx : x ∈ collectNodes ts) (hy : y ∈ collectNodes ts) :
      Seen ts dir filter x y ↔ Adjacent ts dir filter x y := by
    let c : BfsCall := ⟨s, x, dir, filter, true, false, none, fun _ => none⟩
    let result : BfsResult := ⟨fun _ => none, fun _ => 0, 0, 0, 0⟩
    have hsource : c.source ∈ s.nodeMap := h.nodeMap_eq ▸ hx
    obtain ⟨r, heq, hseen⟩ := exists_bfsExact h (c := c) rfl hsource result
    obtain ⟨r', heq', hexact, -⟩ := hwell c result rfl hsource
    obtain rfl := (Prod.mk.inj (Option.some.inj (heq.symm.trans heq'))).2
    have hget : s.nodeMap[(collectNodes ts).idxOf y]? = some y := by
      rw [h.nodeMap_eq, List.getElem?_idxOf hy]
    have hdist := (hseen.distance _ y hget 1).symm.trans (hexact.distance _ y hget 1)
    rwa [isDist_one_iff, isDist_one_iff, and_iff_right hne.symm, and_iff_right hne.symm] at hdist
  constructor
  · intro hxy
    exact (hiff hxy.mem_nodes.1 hxy.mem_nodes.2).1 hxy
  · intro hxy
    exact (hiff hxy.mem_nodes.1 hxy.mem_nodes.2).2 hxy

end

end Search

/-- Breadth-first search over a compacted store is exact, and independent of how the work is
divided, exactly if the walks come to every edge between two nodes and to no other. -/
theorem bfsWell_iff (s : Snapshot) (ts : List Triple) (h : CompactSnapshot s ts) :
    BfsWell s ts ↔ RowsKept ts :=
  ⟨rowsKept_of_bfsWell h, bfsWell_of_rowsKept h⟩

theorem bfsWell_star_of_three :
    ∃ s, CompactSnapshot s (starList 3) ∧ BfsWell s (starList 3) := by
  obtain ⟨s, hs⟩ := exists_starSnapshot (n := 3) (by norm_num)
  exact ⟨s, hs, (bfsWell_iff s _ hs).2 (rowsKept_of_lt (by rw [starList, length_fan]; norm_num))⟩

/-- With `2 ^ 32` edges at one node, that node has no neighbours. -/
theorem exists_not_bfsWell :
    ∃ (s : Snapshot) (ts : List Triple), ts.length = 2 ^ 32 ∧ CompactSnapshot s ts ∧
      ¬ BfsWell s ts := by
  obtain ⟨n, hn⟩ : ∃ n, n = 2 ^ 32 := ⟨_, rfl⟩
  obtain ⟨s, hs, -⟩ := exists_compactSnapshot (pairwise_bundle (n := n) (by omega))
    (valid_bundle (by omega) (a := 1) (b := 2) (by decide) (by decide))
  refine ⟨s, _, (length_fan _ _).trans hn, hs, fun hwell => ?_⟩
  have hmem : ⟨1, 1, 2⟩ ∈ bundle n 1 2 := mem_fan.2 ⟨0, by omega, rfl⟩
  have hwalk := ((rowsKept_of_bfsWell hs hwell).out ⟨1, 1, 2⟩ (by decide)).2 hmem
  rw [walkedOut, walked_eq_nil] at hwalk
  · cases hwalk
  · rw [← hn]
    exact length_filter_bundle fun t u hsub _ => by rw [hsub]

end Virtuoso.Graph
