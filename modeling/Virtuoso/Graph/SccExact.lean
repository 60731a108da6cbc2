import Virtuoso.Graph.SccSearch
import Virtuoso.Lib.Components

/-!
# The components are exact

The second pass takes the nodes in reverse order of finishing.  What it has visited is
a union of components that is closed under predecessors, so the search along the
incoming edges from a new node stays in the component of that node.
-/

namespace Virtuoso.Graph

open Lib Relation Function

variable {st : SccState} {st' : DfsState ((ℕ → Option ℕ) × ℕ)}

variable {x u v : ℕ} {s : Snapshot}

section SecondPass

variable {ctx : ℕ → NeighborCtx} {adj adjIn : ℕ → List ℕ} {n slots : ℕ}

/-- What the second pass keeps: the ids of the nodes that it marks. -/
theorem records_secondPass (ctx : ℕ → NeighborCtx) (count : ℕ) (ids : ℕ → Option ℕ) :
    Records (sccSecondPass ctx count) fun marks _ e =>
      e.2 = marks.length ∧ ∀ v, e.1 v = if v ∈ marks then some count else ids v where
  mark marks fin e v h := by
    refine ⟨?_, fun u => ?_⟩
    · change e.2 + 1 = _
      rw [h.1, List.length_append, List.length_singleton]
    · change update e.1 v (some count) u = _
      by_cases hu : u = v
      · simp [hu]
      · rw [update_of_ne hu, h.2 u]
        simp [hu]
  finish _ _ _ _ h := h

/-- The finish order of the first pass: everything, in an order that `Dfs.Good` describes. -/
structure FinishOrder (adj : ℕ → List ℕ) (n : ℕ) (order : List ℕ) : Prop where
  good : Dfs.Good (EdgeIn adj) ⟨[], order⟩
  all : ∀ v, v ∈ order ↔ v < n
  lt : ∀ v w, EdgeIn adj v w → v < n ∧ w < n

variable {B A : List ℕ}

theorem FinishOrder.partner (h : FinishOrder adj n (A ++ B)) {b : ℕ} (hb : b ∈ B)
    (hxb : ReflTransGen (EdgeIn adj) x b) : ∃ z ∈ B, Mutual (EdgeIn adj) x z := by
  have hx : x < n := by
    rcases hxb.cases_head with rfl | ⟨y, hxy, -⟩
    · exact (h.all x).1 (List.mem_append_right _ hb)
    · exact (h.lt x y hxy).1
  refine h.good.exists_partner hb hxb fun z hz => (h.all z).2 ?_
  exact reflTransGen_mem (S := (· < n)) (fun a c _ hac => (h.lt a c hac).2) hz hx

/-- The components of the nodes `last`, which finished last, are numbered. -/
structure Collected (adj adjIn : ℕ → List ℕ) (n : ℕ) (last : List ℕ) (st : SccState) : Prop where
  idle : ∃ fin, Idle adjIn n st.visited st.edgeIndex fin
  visited : ∀ v, st.visited v = true ↔ ∃ b ∈ last, Mutual (EdgeIn adj) v b
  ids : ∀ v, st.visited v = true ↔ st.componentIds v ≠ none
  numbered : Numbered (EdgeIn adj) st.componentIds st.componentCount st.largestSize

theorem collected_start (adj adjIn : ℕ → List ℕ) (n : ℕ) :
    Collected adj adjIn n [] ⟨fun _ => false, fun _ => 0, fun _ => none, 0, 0⟩ where
  idle := ⟨[], idle_start adjIn n⟩
  visited := by simp
  ids := by simp
  numbered := numbered_none _

/-- What is collected is closed under predecessors. -/
theorem Collected.of_edge (h : Collected adj adjIn n B st) (horder : FinishOrder adj n (A ++ B))
    (huv : EdgeIn adj u v) (hv : st.visited v = true) : st.visited u = true := by
  obtain ⟨b, hb, hvb⟩ := (h.visited v).1 hv
  exact (h.visited u).2 (horder.partner hb (.head huv hvb.1))

/-- A node of a collected component adds nothing. -/
theorem Collected.skip (h : Collected adj adjIn n B st) (hvis : st.visited x = true) :
    Collected adj adjIn n (x :: B) st := by
  obtain ⟨b, hb, hxb⟩ := (h.visited x).1 hvis
  refine ⟨h.idle, fun v => ?_, h.ids, h.numbered⟩
  rw [h.visited]
  constructor
  · rintro ⟨c, hc, hvc⟩
    exact ⟨c, List.mem_cons_of_mem _ hc, hvc⟩
  · rintro ⟨c, hc, hvc⟩
    rcases List.mem_cons.1 hc with rfl | hc
    · exact ⟨b, hb, hvc.trans hxb⟩
    · exact ⟨c, hc, hvc⟩

/-- The search from a new node marks its component. -/
theorem Collected.mem_marks (h : Collected adj adjIn n B st)
    (horder : FinishOrder adj n (A ++ x :: B))
    (hflip : ∀ v w, ReflTransGen (EdgeIn adjIn) v w ↔ ReflTransGen (EdgeIn adj) w v)
    (hvis : ¬ st.visited x = true) (v : ℕ) :
    ReflTransGen (EdgeIn adjIn) x v ∧ ¬ st.visited v = true ↔ Mutual (EdgeIn adj) v x := by
  rw [hflip]
  constructor
  · rintro ⟨hvx, hnot⟩
    obtain ⟨z, hz, hvz⟩ := horder.partner List.mem_cons_self hvx
    rcases List.mem_cons.1 hz with rfl | hz
    · exact hvz
    · exact absurd ((h.visited v).2 ⟨z, hz, hvz⟩) hnot
  · intro hvx
    refine ⟨hvx.1, fun hv => hvis ?_⟩
    obtain ⟨b, hb, hvb⟩ := (h.visited v).1 hv
    exact (h.visited x).2 ⟨b, hb, hvx.symm.trans hvb⟩

section

variable (hw : Walks ctx adjIn n) (hn : n ≤ slots)
  (hflip : ∀ v w, ReflTransGen (EdgeIn adjIn) v w ↔ ReflTransGen (EdgeIn adj) w v)
include hw hn hflip

/-- The next node of the finish order collects its component. -/
theorem Collected.step (h : Collected adj adjIn n B st) (horder : FinishOrder adj n (A ++ x :: B)) :
    ∃ st', sccCollect ctx slots st x = some st' ∧ Collected adj adjIn n (x :: B) st' := by
  have hB : FinishOrder adj n ((A ++ [x]) ++ B) := by simpa using horder
  by_cases hvis : st.visited x = true
  · exact ⟨st, if_pos hvis, h.skip hvis⟩
  obtain ⟨fin, hidle⟩ := h.idle
  have hx : x < n := (horder.all x).1 (by simp)
  obtain ⟨r, fin', marks, hsearch, hidle', hmem, -, hnodup, hmarks, hsize, hids⟩ :=
    hidle.search (p := sccSecondPass ctx st.componentCount)
      ⟨st.visited, st.edgeIndex, [], (st.componentIds, 0)⟩ hw
      (records_secondPass ctx st.componentCount st.componentIds) hn hx (by simpa using hvis)
      ⟨rfl, fun v => by simp⟩
  have hnone : st.componentIds x = none := by
    simpa [h.ids] using hvis
  have hvis' (v : ℕ) : r.visited v = true ↔ st.visited v = true ∨ v ∈ marks := by
    rw [hidle'.visited, hmarks, hidle.visited, hmem]
    tauto
  have hmark (v : ℕ) : v ∈ marks ↔ Mutual (EdgeIn adj) v x := by
    rw [← h.mem_marks horder hflip hvis, hmarks, hmem, hidle.visited]
    tauto
  have hpred (u v : ℕ) (huv : EdgeIn adj u v) (hv : st.componentIds v ≠ none) :
      st.componentIds u ≠ none := (h.ids u).1 (h.of_edge hB huv ((h.ids v).2 hv))
  have hadd := h.numbered.add hnone hnodup hmark hpred
  have hextra : r.extra.1 = Numbered.mark st.componentIds st.componentCount marks := funext hids
  rw [← hextra, ← hsize] at hadd
  refine ⟨⟨r.visited, r.edgeIndex, r.extra.1, st.componentCount + 1,
    if st.largestSize < r.extra.2 then r.extra.2 else st.largestSize⟩, ?_, ⟨fin', hidle'⟩,
    fun v => ?_, fun v => ?_, hadd⟩
  · rw [sccCollect, if_neg hvis, hsearch]
    rfl
  · rw [hvis', hmark, h.visited]
    simp only [List.mem_cons, exists_eq_or_imp]
    exact or_comm
  · change r.visited v = true ↔ r.extra.1 v ≠ none
    rw [hvis', hids, h.ids]
    split_ifs with hv
    · simp [hv]
    · simp [hv]

/-- The second pass numbers all components. -/
theorem collected_foldlM (horder : FinishOrder adj n (A ++ B)) (h : Collected adj adjIn n B st) :
    ∃ st', A.reverse.foldlM (sccCollect ctx slots) st = some st' ∧
      Collected adj adjIn n (A ++ B) st' := by
  induction A using List.reverseRecOn generalizing B st with
  | nil => exact ⟨st, rfl, h⟩
  | append_singleton A x ih =>
    obtain ⟨st₁, hst₁, h₁⟩ := h.step hw hn hflip (A := A) (x := x) (by simpa using horder)
    obtain ⟨st', hst', h'⟩ := ih (B := x :: B) (by simpa using horder) h₁
    refine ⟨st', ?_, by simpa using h'⟩
    rw [List.reverse_append, List.reverse_singleton, List.singleton_append, List.foldlM_cons, hst₁]
    exact hst'

end

end SecondPass

/-! ## The rows of a compacted store -/

section Rows

variable {s : Snapshot} {ts : List Triple} {filter : Option PredFilter} {indexWalk : Bool}

/-- A walk in one direction yields fewer than `2 ^ 32` neighbours. -/
theorem length_neighbors_lt (hchain : s.deltaHead = []) {dir : Direction} (hdir : dir ≠ .both)
    (v : ℕ) : (neighbors indexWalk s dir filter v).length < 2 ^ 32 := by
  have hle : (neighbors indexWalk s dir filter v).length ≤
      (outSlots s.graph.base dir v).length + (inSlots s.graph.base dir v).length :=
    length_neighbors_le hchain
  cases dir with
  | outgoing =>
    have hin : inSlots s.graph.base .outgoing v = [] := if_neg (by simp [Direction.Backwards])
    rw [hin, outSlots, if_pos (.inl rfl), List.length_range'] at hle
    exact hle.trans_lt (graphBaseGetEdgesAt_lt s.graph.base (some v))
  | incoming =>
    have hout : outSlots s.graph.base .incoming v = [] := if_neg (by simp [Direction.Forwards])
    rw [hout, inSlots, if_pos (.inl rfl), List.length_range', List.length_nil, Nat.zero_add] at hle
    exact hle.trans_lt (graphBaseGetInverseEdgesAt_lt s.graph.base (some v))
  | both => exact absurd rfl hdir

theorem walks_neighbors (h : CompactSnapshot s ts) (indexWalk : Bool)
    (filter : Option PredFilter) {dir : Direction} (hdir : dir ≠ .both) :
    Walks (fun i => neighborInitAt indexWalk s i dir filter) (neighbors indexWalk s dir filter)
      s.graph.base.nodeCount where
  rest _ := rest_eq_map_neighbors h.chain
  baseIdx _ := rfl
  invIdx _ := rfl
  length_lt := length_neighbors_lt h.chain hdir
  lt _ _ _ := h.lt_of_mem_neighbors

end Rows

/-! ## Exactness -/

/-- `x` reaches `y` along the edges that pass the filter. -/
def Reaches (ts : List Triple) (filter : Option PredFilter) (x y : NodeId) : Prop :=
  ReflTransGen (Adjacent ts .outgoing filter) x y

/-- The walks reach what the edges reach. -/
structure ReachKept (ts : List Triple) : Prop where
  out : ∀ filter x y, ReflTransGen (Seen ts .outgoing filter) x y ↔ Reaches ts filter x y
  into : ∀ filter x y, ReflTransGen (Seen ts .incoming filter) x y ↔ Reaches ts filter y x

theorem RowsKept.reachKept {ts : List Triple} (h : RowsKept ts) : ReachKept ts where
  out _ _ _ := reflTransGen_congr_ne fun _ _ => h.seen_iff
  into filter x y := by
    have hswap : Adjacent ts .incoming filter = swap (Adjacent ts .outgoing filter) := by
      funext x y
      simp [Adjacent, swap, Direction.Forwards, Direction.Backwards, and_comm]
    rw [reflTransGen_congr_ne fun _ _ => h.seen_iff, hswap]
    exact reflTransGen_swap

/-- The nodes of the snapshot in component `k`. -/
def SccResult.members (r : SccResult) (s : Snapshot) (k : ℕ) : Set NodeId :=
  {x | ∃ i, s.nodeMap[i]? = some x ∧ r.componentIds i = some k}

/-- The result numbers the strongly connected components of the triples `ts`. -/
structure SccExact (s : Snapshot) (ts : List Triple) (filter : Option PredFilter) (r : SccResult) :
    Prop where
  nodeCount : r.nodeCount = s.nodeMap.length
  /-- Every node has an id below the number of components. -/
  ids : ∀ i x, s.nodeMap[i]? = some x → ∃ k < r.componentCount, r.componentIds i = some k
  same : ∀ i j x y, s.nodeMap[i]? = some x → s.nodeMap[j]? = some y →
    (r.componentIds i = r.componentIds j ↔ Reaches ts filter x y ∧ Reaches ts filter y x)
  used : ∀ k < r.componentCount, ∃ i x, s.nodeMap[i]? = some x ∧ r.componentIds i = some k
  largest : 0 < r.componentCount →
    IsGreatest {m | ∃ k < r.componentCount, m = (r.members s k).ncard} r.largestComponentSize
  /-- An edge between components leads to the larger id. -/
  order : ∀ i j x y k l, s.nodeMap[i]? = some x → s.nodeMap[j]? = some y →
    Adjacent ts .outgoing filter x y → r.componentIds i = some k → r.componentIds j = some l →
      k ≠ l → k < l

/-- With every filter and either walk the components are exact; that there is a result
means that the stack had room. -/
def SccWell (s : Snapshot) (ts : List Triple) : Prop :=
  ∀ (indexWalk : Bool) (filter : Option PredFilter) (result : SccResult),
    ∃ r, graphAlgoScc indexWalk s filter result = some (.ok, r) ∧ SccExact s ts filter r

section Components

variable {s : Snapshot} {ts : List Triple} {filter : Option PredFilter} {indexWalk : Bool}

section

variable (h : CompactSnapshot s ts)
include h

section

variable (hu : u < s.graph.base.nodeCount) (hv : v < s.graph.base.nodeCount)
include hu hv

/-- Paths of nodes and paths of indices correspond. -/
theorem reflTransGen_nodeIds {dir : Direction} :
    ReflTransGen (Seen ts dir filter) (s.graph.base.nodeIds u) (s.graph.base.nodeIds v) ↔
      ReflTransGen (EdgeIn (neighbors indexWalk s dir filter)) u v := by
  rw [reflTransGen_iff_walk, reflTransGen_iff_walk]
  exact exists_congr fun k => h.walk_iff hu hv

variable (hreach : ReachKept ts)
include hreach

theorem reaches_nodeIds :
    Reaches ts filter (s.graph.base.nodeIds u) (s.graph.base.nodeIds v) ↔
      ReflTransGen (EdgeIn (neighbors indexWalk s .outgoing filter)) u v := by
  rw [← hreach.out, reflTransGen_nodeIds h hu hv]

theorem mutual_nodeIds :
    (Reaches ts filter (s.graph.base.nodeIds u) (s.graph.base.nodeIds v) ∧
        Reaches ts filter (s.graph.base.nodeIds v) (s.graph.base.nodeIds u)) ↔
      Mutual (EdgeIn (neighbors indexWalk s .outgoing filter)) u v :=
  and_congr (reaches_nodeIds h hu hv hreach) (reaches_nodeIds h hv hu hreach)

end

/-- The inverse rows lead back where the forward rows lead. -/
theorem reflTransGen_incoming (hreach : ReachKept ts) (u v : ℕ) :
    ReflTransGen (EdgeIn (neighbors indexWalk s .incoming filter)) u v ↔
      ReflTransGen (EdgeIn (neighbors indexWalk s .outgoing filter)) v u := by
  -- a path that is not empty stays among the nodes
  have hnodes {dir : Direction} {u v : ℕ}
      (hw : ReflTransGen (EdgeIn (neighbors indexWalk s dir filter)) u v) :
      u = v ∨ u < s.graph.base.nodeCount ∧ v < s.graph.base.nodeCount := by
    rcases hw.cases_head with rfl | ⟨x, hux, hxv⟩
    · exact .inl rfl
    · refine .inr ⟨lt_of_neighbors h.chain hux, ?_⟩
      rcases hxv.cases_tail with rfl | ⟨y, -, hyv⟩
      · exact h.lt_of_mem_neighbors hux
      · exact h.lt_of_mem_neighbors hyv
  have hiff (hu : u < s.graph.base.nodeCount) (hv : v < s.graph.base.nodeCount) :
      ReflTransGen (EdgeIn (neighbors indexWalk s .incoming filter)) u v ↔
        ReflTransGen (EdgeIn (neighbors indexWalk s .outgoing filter)) v u := by
    rw [← reflTransGen_nodeIds h hu hv, hreach.into, reaches_nodeIds h hv hu hreach]
  constructor
  · intro hw
    rcases hnodes hw with rfl | ⟨hu, hv⟩
    · exact .refl
    · exact (hiff hu hv).1 hw
  · intro hw
    rcases hnodes hw with rfl | ⟨hv, hu⟩
    · exact .refl
    · exact (hiff hu hv).2 hw

/-- A numbering of the indices is a numbering of the nodes. -/
theorem sccExact_of_numbered (hreach : ReachKept ts) {ids : ℕ → Option ℕ} {count largest : ℕ}
    (hnum : Numbered (EdgeIn (neighbors indexWalk s .outgoing filter)) ids count largest)
    (hall : ∀ v, ids v ≠ none ↔ v < s.graph.base.nodeCount) :
    SccExact s ts filter ⟨ids, s.nodeMap.length, count, largest⟩ := by
  have hf := h.forward
  have hsome (i : ℕ) (hi : i < s.graph.base.nodeCount) : ∃ k, ids i = some k :=
    Option.ne_none_iff_exists'.1 ((hall i).2 hi)
  have hlt (i k : ℕ) (hk : ids i = some k) : i < s.graph.base.nodeCount :=
    (hall i).1 (by simp [hk])
  have hmembers (k : ℕ) :
      (SccResult.members ⟨ids, s.nodeMap.length, count, largest⟩ s k).ncard =
        (classOf ids k).ncard := by
    have himage : SccResult.members ⟨ids, s.nodeMap.length, count, largest⟩ s k =
        s.graph.base.nodeIds '' classOf ids k := by
      ext x
      constructor
      · rintro ⟨i, hi, hk⟩
        exact ⟨i, hk, (h.of_nodeMap_getElem? hi).2⟩
      · rintro ⟨i, hk, rfl⟩
        exact ⟨i, h.nodeMap_getElem? (hlt i k hk), hk⟩
    rw [himage, Set.InjOn.ncard_image]
    intro i hi j hj heq
    rw [← hf.idxOf_ids (hlt i k hi), ← hf.idxOf_ids (hlt j k hj), heq]
  refine ⟨rfl, fun i x hi => ?_, fun i j x y hi hj => ?_, fun k hk => ?_, fun hpos => ?_,
    fun i j x y k l hi hj hxy hk hl hne => ?_⟩
  · obtain ⟨hil, -⟩ := h.of_nodeMap_getElem? hi
    obtain ⟨k, hk⟩ := hsome i hil
    exact ⟨k, hnum.lt i k hk, hk⟩
  · obtain ⟨hil, rfl⟩ := h.of_nodeMap_getElem? hi
    obtain ⟨hjl, rfl⟩ := h.of_nodeMap_getElem? hj
    obtain ⟨k, hk⟩ := hsome i hil
    rw [mutual_nodeIds h hil hjl hreach, ← hnum.same i j k hk]
    change ids i = ids j ↔ ids j = some k
    rw [hk, eq_comm]
  · obtain ⟨i, hi⟩ := hnum.used k hk
    exact ⟨i, _, h.nodeMap_getElem? (hlt i k hi), hi⟩
  · constructor
    · obtain ⟨k, hk, hkl⟩ := hnum.largest (.inl hpos)
      exact ⟨k, hk, by rw [hmembers, hkl]⟩
    · rintro m ⟨k, hk, rfl⟩
      rw [hmembers]
      exact hnum.le k hk
  · obtain ⟨hil, rfl⟩ := h.of_nodeMap_getElem? hi
    obtain ⟨hjl, rfl⟩ := h.of_nodeMap_getElem? hj
    have hpath : ReflTransGen (EdgeIn (neighbors indexWalk s .outgoing filter)) i j :=
      (reaches_nodeIds h hil hjl hreach).1 (.single hxy)
    refine lt_of_le_of_ne ?_ hne
    -- ids do not fall along a path
    clear hxy hjl hne
    induction hpath generalizing l with
    | refl => exact (Option.some.inj (hk.symm.trans hl)).le
    | @tail v w _ hvw ih =>
      obtain ⟨m, hm⟩ := hsome v (lt_of_neighbors h.chain hvw)
      exact (ih m hm (h.nodeMap_getElem? (hlt v m hm))).trans (hnum.order v w m l hvw hm hl)

/-- The two passes, on a snapshot that has nodes. -/
theorem graphAlgoScc_eq (hpos : s.nodeCount ≠ 0) (result : SccResult) :
    graphAlgoScc indexWalk s filter result =
      (sccFinishOrder (fun i => neighborInitAt indexWalk s i .outgoing filter) s.nodeCount
        (List.range s.graph.base.nodeCount) ⟨fun _ => false, fun _ => 0, [], []⟩).bind fun first =>
          (first.extra.reverse.foldlM
            (sccCollect (fun i => neighborInitAt indexWalk s i .incoming filter) s.nodeCount)
            ⟨fun _ => false, fun _ => 0, fun _ => none, 0, 0⟩).bind fun second =>
              some (.ok, ⟨second.componentIds, s.nodeMap.length, second.componentCount,
                second.largestSize⟩) := by
  have hmin : min s.nodeMap.length s.nodeCount = s.graph.base.nodeCount := by
    rw [h.length_nodeMap]
    exact min_eq_left h.nodeCount_le
  simp only [graphAlgoScc]
  rw [if_neg hpos, hmin, h.length_nodeMap]
  rfl

/-- The first pass over the outgoing rows. -/
theorem exists_finishOrder :
    ∃ first, sccFinishOrder (fun i => neighborInitAt indexWalk s i .outgoing filter) s.nodeCount
        (List.range s.graph.base.nodeCount) ⟨fun _ => false, fun _ => 0, [], []⟩ = some first ∧
      FinishOrder (neighbors indexWalk s .outgoing filter) s.graph.base.nodeCount first.extra := by
  have hw := walks_neighbors h indexWalk filter (show Direction.outgoing ≠ .both by decide)
  obtain ⟨first, hfirst, hidle, hmem⟩ := sccFinishOrder_spec hw h.nodeCount_le
    (List.range s.graph.base.nodeCount) (fun x hx => List.mem_range.1 hx)
    ⟨fun _ => false, fun _ => 0, [], []⟩ (idle_start _ _)
  refine ⟨first, hfirst, hidle.good, fun v => ⟨hidle.lt v, fun hv => ?_⟩, fun v w hvw => ?_⟩
  · exact (hmem v).2 (.inr ⟨v, List.mem_range.2 hv, .refl⟩)
  · exact ⟨lt_of_neighbors h.chain hvw, h.lt_of_mem_neighbors hvw⟩

/-- The two passes number the components of the graph that the walks see, if both see the same. -/
theorem exists_numbered (hzero : s.nodeCount ≠ 0)
    (hflip : ∀ u v, ReflTransGen (EdgeIn (neighbors indexWalk s .incoming filter)) u v ↔
      ReflTransGen (EdgeIn (neighbors indexWalk s .outgoing filter)) v u) (result : SccResult) :
    ∃ ids count largest, graphAlgoScc indexWalk s filter result =
        some (.ok, ⟨ids, s.nodeMap.length, count, largest⟩) ∧
      Numbered (EdgeIn (neighbors indexWalk s .outgoing filter)) ids count largest ∧
      ∀ v, ids v ≠ none ↔ v < s.graph.base.nodeCount := by
  obtain ⟨first, hfirst, horder⟩ := @exists_finishOrder s ts filter indexWalk h
  have hw : Walks (fun i => neighborInitAt indexWalk s i .incoming filter)
      (neighbors indexWalk s .incoming filter) s.graph.base.nodeCount :=
    walks_neighbors h indexWalk filter (by decide)
  obtain ⟨second, hsecond, hcol⟩ := collected_foldlM hw h.nodeCount_le hflip (B := [])
    (by simpa using horder) (collected_start _ _ _)
  refine ⟨second.componentIds, second.componentCount, second.largestSize, ?_, hcol.numbered,
    fun v => ?_⟩
  · rw [graphAlgoScc_eq h hzero, hfirst, Option.bind_some, hsecond, Option.bind_some]
  · rw [← hcol.ids, hcol.visited, List.append_nil]
    constructor
    · rintro ⟨b, hb, hvb⟩
      have hb' := (horder.all b).1 hb
      rcases hvb.1.cases_head with rfl | ⟨y, hy, -⟩
      · exact hb'
      · exact (horder.lt v y hy).1
    · intro hv
      exact ⟨v, (horder.all v).2 hv, .refl _ v⟩

theorem exists_sccExact (hreach : ReachKept ts) (indexWalk : Bool) (filter : Option PredFilter)
    (result : SccResult) :
    ∃ r, graphAlgoScc indexWalk s filter result = some (.ok, r) ∧ SccExact s ts filter r := by
  by_cases hzero : s.nodeCount = 0
  · have hnil : s.nodeMap = [] := by
      rw [← List.length_eq_zero_iff, h.length_nodeMap]
      exact Nat.le_zero.1 (hzero ▸ h.nodeCount_le)
    refine ⟨_, by rw [graphAlgoScc, if_pos hzero], ?_⟩
    constructor <;> simp [hnil]
  obtain ⟨ids, count, largest, hr, hnum, hall⟩ :=
    exists_numbered h hzero (reflTransGen_incoming h hreach) result
  exact ⟨_, hr, sccExact_of_numbered h hreach hnum hall⟩

theorem sccWell_of_lt (hlen : ts.length < 2 ^ 32) : SccWell s ts :=
  exists_sccExact h (rowsKept_of_lt hlen).reachKept

end

end Components

/-! ## Rows that are not walked at all -/

/-- As many edges both ways between two nodes. -/
def bothWays (n : ℕ) : List Triple := bundle n 1 2 ++ bundle n 2 1

section BothWays

variable {n : ℕ}

theorem length_bothWays (n : ℕ) : (bothWays n).length = n + n := by
  rw [bothWays, List.length_append, bundle, bundle, length_fan, length_fan]

theorem exists_bothWays_snapshot (hn : n < 2 ^ 64) : ∃ s, CompactSnapshot s (bothWays n) := by
  have hone : (1 : Fin (2 ^ 64)) ≠ idInvalid := by decide
  have htwo : (2 : Fin (2 ^ 64)) ≠ idInvalid := by decide
  have hsorted : (bothWays n).Pairwise (· ≤ ·) := by
    refine List.pairwise_append.2 ⟨pairwise_bundle hn, pairwise_bundle hn,
      fun t ht u hu => le_of_lt ?_⟩
    refine Triple.lt_iff.2 (.inl ?_)
    rw [(of_mem_bundle ht).1, (of_mem_bundle hu).1]
    decide
  obtain ⟨s, hs, -⟩ := exists_compactSnapshot hsorted fun t ht =>
    (List.mem_append.1 ht).elim (valid_bundle hn hone htwo t) (valid_bundle hn htwo hone t)
  exact ⟨s, hs⟩

variable (hn : n = 2 ^ 32)
include hn

theorem walkedOut_bothWays (x : NodeId) : walkedOut (bothWays n) x = [] := by
  refine walked_eq_nil ?_
  rw [bothWays, List.filter_append, List.length_append, ← hn, Nat.add_mod,
    length_filter_bundle fun t u hsub _ => by rw [hsub],
    length_filter_bundle fun t u hsub _ => by rw [hsub]]
  exact Nat.zero_mod n

/-- The inverse build reads the objects of the first half twice. -/
theorem object_of_mem_reread {t : Triple} (ht : t ∈ reread (bothWays n)) : t.object = 2 := by
  obtain ⟨p, -, rfl⟩ := List.mem_map.1 ht
  have hlt : p.2 % 2 ^ 32 < n := by omega
  have hget : (bothWays n)[p.2 % 2 ^ 32]? = some ⟨1, Fin.ofNat (2 ^ 64) (p.2 % 2 ^ 32 + 1), 2⟩ := by
    rw [bothWays, List.getElem?_append_left (by rwa [bundle, length_fan]), bundle, getElem?_fan hlt]
  change objectAt (bothWays n) (p.2 % 2 ^ 32) = 2
  rw [objectAt, tripleAt_eq hget]

theorem walkedIn_bothWays (x : NodeId) : walkedIn (bothWays n) x = [] := by
  refine walked_eq_nil ?_
  by_cases hx : x = 2
  · rw [List.filter_eq_self.2 fun t ht => decide_eq_true
      ((object_of_mem_reread hn ht).trans hx.symm), length_reread, length_bothWays]
    omega
  · rw [List.filter_eq_nil_iff.2 fun t ht hobj =>
      hx ((of_decide_eq_true hobj).symm.trans (object_of_mem_reread hn ht))]
    rfl

theorem notMem_neighbors_bothWays (h : CompactSnapshot s (bothWays n)) {dir : Direction}
    {filter : Option PredFilter} {indexWalk : Bool} {v w : ℕ} :
    w ∉ neighbors indexWalk s dir filter v := by
  intro hw
  rcases ((h.mem_neighbors_iff (lt_of_neighbors h.chain hw)).1 hw).2 with
    ⟨-, t, ht, -⟩ | ⟨-, t, ht, -⟩
  · rw [walkedOut_bothWays hn] at ht
    cases ht
  · rw [walkedIn_bothWays hn] at ht
    cases ht

/-- The two nodes get different ids. -/
theorem not_sccWell_bothWays (h : CompactSnapshot s (bothWays n)) : ¬ SccWell s (bothWays n) := by
  intro hwell
  have hno {dir : Direction} {u v : ℕ}
      (huv : ReflTransGen (EdgeIn (neighbors true s dir none)) u v) : u = v := by
    rcases huv.cases_head with rfl | ⟨y, hy, -⟩
    · rfl
    · exact absurd hy (notMem_neighbors_bothWays hn h)
  have hflip (u v : ℕ) : ReflTransGen (EdgeIn (neighbors true s .incoming none)) u v ↔
      ReflTransGen (EdgeIn (neighbors true s .outgoing none)) v u :=
    ⟨fun huv => hno huv ▸ .refl, fun hvu => hno hvu ▸ .refl⟩
  have hout : (⟨1, 1, 2⟩ : Triple) ∈ bothWays n :=
    List.mem_append_left _ (mem_fan.2 ⟨0, by omega, rfl⟩)
  have hback : (⟨2, 1, 1⟩ : Triple) ∈ bothWays n :=
    List.mem_append_right _ (mem_fan.2 ⟨0, by omega, rfl⟩)
  have hone := h.forward.subject_mem hout
  have htwo := h.forward.subject_mem hback
  have hzero : s.nodeCount ≠ 0 := by
    have := h.forward.idxOf_lt hone
    have := h.nodeCount_le
    omega
  obtain ⟨r, hr, hexact⟩ := hwell true none ⟨fun _ => none, 0, 0, 0⟩
  obtain ⟨ids, count, largest, hr', hnum, -⟩ :=
    exists_numbered h hzero hflip ⟨fun _ => none, 0, 0, 0⟩
  obtain rfl := (Prod.mk.inj (Option.some.inj (hr.symm.trans hr'))).2
  have hget {x : NodeId} (hx : x ∈ collectNodes (bothWays n)) :
      s.nodeMap[(collectNodes (bothWays n)).idxOf x]? = some x := by
    rw [h.nodeMap_eq, List.getElem?_idxOf hx]
  obtain ⟨k, -, hk⟩ := hexact.ids _ _ (hget hone)
  have hsame := (hexact.same _ _ _ _ (hget hone) (hget htwo)).2
    ⟨.single ⟨_, hout, rfl, .inl ⟨.inl rfl, rfl, rfl⟩⟩,
      .single ⟨_, hback, rfl, .inl ⟨.inl rfl, rfl, rfl⟩⟩⟩
  have heq := hno ((hnum.same _ _ k hk).1 (hsame.symm.trans hk)).1
  exact absurd ((List.idxOf_inj hone).1 heq) (by decide)

end BothWays

/-- The components of a compacted store are exact, and the stack suffices, if the walks along its
rows reach what the edges reach. -/
theorem sccWell_of_reachKept (s : Snapshot) (ts : List Triple) (h : CompactSnapshot s ts)
    (hreach : ReachKept ts) : SccWell s ts := exists_sccExact h hreach

theorem sccWell_star_of_three :
    ∃ s, CompactSnapshot s (starList 3) ∧ SccWell s (starList 3) := by
  obtain ⟨s, hs⟩ := exists_starSnapshot (n := 3) (by decide)
  have hrows : RowsKept (starList 3) := rowsKept_of_lt (by rw [starList, length_fan]; norm_num)
  exact ⟨s, hs, sccWell_of_reachKept s _ hs hrows.reachKept⟩

/-- With `2 ^ 32` edges each way between two nodes, they are in two components. -/
theorem exists_not_sccWell :
    ∃ (s : Snapshot) (ts : List Triple), ts.length = 2 ^ 33 ∧ CompactSnapshot s ts ∧
      ¬ SccWell s ts := by
  obtain ⟨n, hn⟩ : ∃ n, n = 2 ^ 32 := ⟨_, rfl⟩
  obtain ⟨s, hs⟩ := exists_bothWays_snapshot (n := n) (by omega)
  exact ⟨s, _, by rw [length_bothWays]; omega, hs, not_sccWell_bothWays hn hs⟩

end Virtuoso.Graph
