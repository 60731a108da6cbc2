import Mathlib.Data.List.GetD
import Virtuoso.Graph.Base
import Virtuoso.Lib.Bucket

/-!
# Building the CSR pair

`graph_compact` builds a base store from the sorted triples: the node table from
their endpoints, the forward rows by a merge of the triples with the node table,
and the inverse rows from the forward ones, where a row number is a subject index
and the stored endpoint index an object index.

Each loop over the triples or the slots is one of the passes of a counting sort;
a loop that writes several arrays is given once for each of them.
-/

namespace Virtuoso.Graph

open Lib

variable {i : ℕ} {ts : List Triple} {t : Triple} {nodes : List NodeId}

/-- The sorted unique endpoints; `graph_node_id_cmp` compares ids. -/
def collectNodes (ts : List Triple) : List NodeId :=
  dropRepeats ((ts.flatMap fun t => [t.subject, t.object]).insertionSort (· ≤ ·))

/-- `one_pred` and `the_pred`: whether all triples carry the predicate of the first. -/
def commonPred : List Triple → Bool × PredId
  | [] => (false, 0)
  | t :: ts => (ts.all fun u => decide (u.predicate = t.predicate), t.predicate)

/-- `memcpy` of the node table to the start of the array. -/
def copyNodes (nodes : List NodeId) (arr : ℕ → NodeId) (i : ℕ) : NodeId := nodes.getD i (arr i)

/-- `memset` of the first `n + 1` offsets. -/
def clearOffsets (n : ℕ) (off : ℕ → ℕ) (i : ℕ) : ℕ := if i ≤ n then 0 else off i

/-- Move the merge cursor to the first node that is not below the subject. -/
def mergeCursor (b : Base) (subject : NodeId) : ℕ → ℕ → ℕ
  | 0, k => k
  | fuel + 1, k =>
    if k < b.nodeCount ∧ b.nodeIds k < subject then mergeCursor b subject fuel (k + 1) else k

/-- The triples with the rows at which the merge cursor, started from `k`, meets them. -/
def mergeRows (b : Base) : ℕ → List Triple → List (ℕ × Triple)
  | _, [] => []
  | k, t :: ts =>
    let k' := mergeCursor b t.subject b.nodeCount k
    (k', t) :: mergeRows b k' ts

/-- The forward CSR: bucket by subject, in the order of the triples. -/
def buildForward (b : Base) (ts : List Triple) : Base :=
  let rows := mergeRows b 0 ts
  let offsets := prefixSums b.nodeCount
    (countInto Prod.fst rows (clearOffsets b.nodeCount b.edgeOffsets))
  { b with
    edgeOffsets := offsets
    edges :=
      if b.onePred then b.edges
      else
        (place Prod.fst (fun r => (⟨r.2.predicate, r.2.object⟩ : Edge)) rows (offsets, b.edges)).2
    edgeTargets :=
      (place Prod.fst
        (fun r => graphIxSet b.narrowIx ((graphBaseNodeIndex b r.2.object).getD (2 ^ 64 - 1))) rows
        (offsets, b.edgeTargets)).2 }

/-- The rows of the forward CSR with their slots, in order. -/
def forwardSlots (b : Base) : List (ℕ × ℕ) :=
  (List.range b.nodeCount).flatMap fun i =>
    (List.range' (b.edgeOffsets i) (b.edgeOffsets (i + 1) - b.edgeOffsets i)).map fun at' =>
      (i, at')

def slotTarget (b : Base) (s : ℕ × ℕ) : ℕ := graphIxAt b.edgeTargets s.2

def inverseOffsets (b : Base) : ℕ → ℕ :=
  prefixSums b.nodeCount
    (countInto (slotTarget b) (forwardSlots b) (clearOffsets b.nodeCount b.invOffsets))

/-- The inverse CSR: bucket by object, in the order of the forward slots. -/
def buildInverse (b : Base) : Base :=
  if b.hasInverse then
    { b with
      invOffsets := inverseOffsets b
      invEdges :=
        if b.onePred then b.invEdges
        else
          (place (slotTarget b)
            (fun s => (⟨(b.edges s.2).predicate, b.nodeIds s.1⟩ : InverseEdge)) (forwardSlots b)
            (inverseOffsets b, b.invEdges)).2
      invSources :=
        (place (slotTarget b) (fun s => graphIxSet b.narrowIx s.1) (forwardSlots b)
          (inverseOffsets b, b.invSources)).2 }
  else b

def startBase (sw : Switches) (mem : Memory) (buildInverseIndex : Bool) (ts : List Triple) : Base :=
  let nodes := collectNodes ts
  let nb := graphBaseCreate sw mem nodes.length buildInverseIndex (commonPred ts).1
    (commonPred ts).2
  graphBaseSetDenseDescriptor sw
    { nb with
      nodeCount := nodes.length
      edgeCount := ts.length
      nodeIds := copyNodes nodes nb.nodeIds }

/-- The base store that `graph_compact` builds from the sorted triples. -/
def buildBase (sw : Switches) (mem : Memory) (buildInverseIndex : Bool) (ts : List Triple) : Base :=
  buildInverse (buildForward (startBase sw mem buildInverseIndex ts) ts)

/-! ## The node table -/

theorem collectNodes_eq (ts : List Triple) :
    collectNodes ts =
      ((ts.flatMap fun t => [t.subject, t.object]).insertionSort (· ≤ ·)).dedup :=
  dropRepeats_eq_dedup (List.pairwise_insertionSort _ _)

variable {id : NodeId} {j at' : ℕ} {b : Base}

theorem mem_collectNodes : id ∈ collectNodes ts ↔ ∃ t ∈ ts, id = t.subject ∨ id = t.object := by
  rw [collectNodes_eq, List.mem_dedup, List.mem_insertionSort]
  simp

theorem pairwise_collectNodes (ts : List Triple) : (collectNodes ts).Pairwise (· < ·) := by
  rw [collectNodes_eq]
  have hle : (((ts.flatMap fun t => [t.subject, t.object]).insertionSort (· ≤ ·)).dedup).Pairwise
      (· ≤ ·) := (List.pairwise_insertionSort _ _).sublist (List.dedup_sublist _)
  exact (hle.and (List.nodup_dedup _)).imp fun h => lt_of_le_of_ne h.1 h.2

/-- The node table of a store: `nodes` ascends, and a dense descriptor describes it. -/
structure NodeTable (b : Base) (nodes : List NodeId) : Prop where
  ascending : nodes.Pairwise (· < ·)
  count : b.nodeCount = nodes.length
  ids : ∀ i id, nodes[i]? = some id → b.nodeIds i = id
  dense : b.denseIds = true → ∀ i id, nodes[i]? = some id → (id - b.denseBase).val = i

namespace NodeTable

variable {b : Base} {nodes : List NodeId}

section

variable (h : NodeTable b nodes)
include h

theorem ids_idxOf (hid : id ∈ nodes) : b.nodeIds (nodes.idxOf id) = id :=
  h.ids _ _ (by rw [List.getElem?_idxOf hid])

theorem idxOf_lt (hid : id ∈ nodes) : nodes.idxOf id < b.nodeCount :=
  h.count ▸ List.idxOf_lt_length_of_mem hid

theorem ids_mem (hi : i < b.nodeCount) : b.nodeIds i ∈ nodes := by
  obtain ⟨id, hid⟩ : ∃ id, nodes[i]? = some id := by
    rw [h.count] at hi
    exact ⟨_, List.getElem?_eq_getElem hi⟩
  rw [h.ids i id hid]
  exact List.mem_of_getElem? hid

/-- The table ascends. -/
theorem ids_lt (hij : i < j) (hj : j < b.nodeCount) : b.nodeIds i < b.nodeIds j := by
  rw [h.count] at hj
  have hi : i < nodes.length := hij.trans hj
  rw [h.ids i _ (List.getElem?_eq_getElem hi), h.ids j _ (List.getElem?_eq_getElem hj)]
  exact List.pairwise_iff_getElem.1 h.ascending i j hi hj hij

theorem ids_lt_iff (hi : i < b.nodeCount) (hj : j < b.nodeCount) :
    b.nodeIds i < b.nodeIds j ↔ i < j := by
  constructor
  · intro hlt
    by_contra hle
    rcases (not_lt.1 hle).lt_or_eq with hji | rfl
    · exact absurd (h.ids_lt hji hi) hlt.not_gt
    · exact lt_irrefl _ hlt
  · intro hij
    exact h.ids_lt hij hj

theorem idxOf_ids (hi : i < b.nodeCount) : nodes.idxOf (b.nodeIds i) = i := by
  have hmem := h.ids_mem hi
  by_contra hne
  rcases Nat.lt_or_gt_of_ne hne with hlt | hlt
  · exact absurd (h.ids_idxOf hmem) (h.ids_lt hlt hi).ne
  · exact absurd (h.ids_idxOf hmem) (h.ids_lt hlt (h.idxOf_lt hmem)).ne'

theorem idxOf_lt_iff {x y : NodeId} (hx : x ∈ nodes) (hy : y ∈ nodes) :
    nodes.idxOf x < nodes.idxOf y ↔ x < y := by
  rw [← h.ids_lt_iff (h.idxOf_lt hx) (h.idxOf_lt hy), h.ids_idxOf hx, h.ids_idxOf hy]

/-- Subtraction and search find the same index. -/
theorem nodeIndex (id : NodeId) :
    graphBaseNodeIndex b id = if id ∈ nodes then some (nodes.idxOf id) else none := by
  simp only [graphBaseNodeIndex]
  by_cases hzero : b.nodeCount = 0
  · have hnil : nodes = [] := List.length_eq_zero_iff.1 (h.count ▸ hzero)
    simp [hzero, hnil]
  rw [if_neg hzero]
  by_cases hdense : b.denseIds = true
  · rw [if_pos hdense]
    by_cases hid : id ∈ nodes
    · have hd := h.dense hdense _ _ (List.getElem?_idxOf hid)
      simp [hid, hd, h.idxOf_lt hid]
    · rw [if_neg hid, if_neg]
      intro hlt
      -- the id at this distance from the base is `id` itself
      have hlt' := h.count ▸ hlt
      have hat := h.dense hdense _ _ (List.getElem?_eq_getElem hlt')
      have heq : nodes[(id - b.denseBase).val] = id := sub_left_inj.1 (Fin.ext hat)
      exact hid (heq ▸ List.getElem_mem hlt')
  · rw [if_neg hdense]
    have hcut : Cuts (fun i => decide (b.nodeIds i < id)) 0 b.nodeCount _ :=
      lowerBound_cuts fun i j hij hj hb => by
        rcases hij.lt_or_eq with hij | rfl
        · exact decide_eq_true ((h.ids_lt hij hj).trans (of_decide_eq_true hb))
        · exact hb
    generalize lowerBound (fun i => decide (b.nodeIds i < id)) b.nodeCount = r at hcut
    by_cases hid : id ∈ nodes
    · have hr : r = nodes.idxOf id := by
        rcases Nat.lt_trichotomy r (nodes.idxOf id) with hlt | heq | hgt
        · have hfail := hcut.fails r le_rfl (hlt.trans (h.idxOf_lt hid))
          exact absurd (h.ids_idxOf hid ▸ h.ids_lt hlt (h.idxOf_lt hid)) (of_decide_eq_false hfail)
        · exact heq
        · have := of_decide_eq_true (hcut.holds _ (Nat.zero_le _) hgt)
          exact absurd (h.ids_idxOf hid) this.ne
      subst hr
      simp [hid, h.idxOf_lt hid, h.ids_idxOf hid]
    · rw [if_neg hid, if_neg]
      rintro ⟨hlt, rfl⟩
      exact hid (h.ids_mem hlt)

end

end NodeTable

/-- Ascending ids that span no more than their number leave no gap. -/
theorem sub_head_of_dense (hasc : nodes.Pairwise (· < ·)) {first last : NodeId}
    (hfirst : nodes[0]? = some first) (hlast : nodes[nodes.length - 1]? = some last)
    (hspan : (last - first).val = nodes.length - 1) (hid : nodes[i]? = some id) :
    (id - first).val = i := by
  obtain ⟨hi, rfl⟩ := List.getElem?_eq_some_iff.1 hid
  obtain ⟨h0, rfl⟩ := List.getElem?_eq_some_iff.1 hfirst
  obtain ⟨hn, rfl⟩ := List.getElem?_eq_some_iff.1 hlast
  have hgap (j k : ℕ) (hj : j < nodes.length) (hk : k < nodes.length) (hjk : j ≤ k) :
      nodes[j].val + (k - j) ≤ nodes[k].val := by
    induction k, hjk using Nat.le_induction with
    | base => simp
    | succ k hjk ih =>
      have hlt : nodes[k] < nodes[k + 1] :=
        List.pairwise_iff_getElem.1 hasc k (k + 1) (by omega) hk (by omega)
      have := ih (by omega)
      have hval : nodes[k].val < nodes[k + 1].val := hlt
      omega
  have h₁ := hgap 0 i h0 hi (Nat.zero_le i)
  have h₂ := hgap i (nodes.length - 1) hi hn (by omega)
  rw [Fin.sub_val_of_le (show nodes[0].val ≤ nodes[nodes.length - 1].val by omega)] at hspan
  rw [Fin.sub_val_of_le (show nodes[0].val ≤ nodes[i].val by omega)]
  omega

/-- The descriptor of a table that ascends describes it. -/
theorem nodeTable_setDenseDescriptor (sw : Switches) (hasc : nodes.Pairwise (· < ·))
    (hcount : b.nodeCount = nodes.length) (hids : ∀ i id, nodes[i]? = some id → b.nodeIds i = id) :
    NodeTable (graphBaseSetDenseDescriptor sw b) nodes := by
  refine ⟨hasc, hcount, hids, ?_⟩
  intro hdense i id hid
  have hpos : 0 < nodes.length := (Nat.zero_le i).trans_lt (List.getElem?_eq_some_iff.1 hid).1
  have hbase : (graphBaseSetDenseDescriptor sw b).denseBase = b.nodeIds 0 :=
    if_pos (hcount ▸ hpos.ne')
  have hspan : (b.nodeIds (nodes.length - 1) - b.nodeIds 0).val = nodes.length - 1 := by
    have := (Bool.and_eq_true_iff.1 hdense).2
    exact hcount ▸ of_decide_eq_true this
  have hfirst := List.getElem?_eq_getElem hpos
  have hlast := List.getElem?_eq_getElem (Nat.sub_lt hpos Nat.one_pos)
  rw [hids _ _ hfirst, hids _ _ hlast] at hspan
  rw [hbase, hids _ _ hfirst]
  exact sub_head_of_dense hasc hfirst hlast hspan hid

theorem nodeTable_startBase (sw : Switches) (mem : Memory) (inv : Bool) (ts : List Triple) :
    NodeTable (startBase sw mem inv ts) (collectNodes ts) := by
  refine nodeTable_setDenseDescriptor sw (pairwise_collectNodes ts) rfl ?_
  intro i id h
  change copyNodes (collectNodes ts) mem.nodeIds i = id
  rw [copyNodes, List.getD_eq_getElem?_getD, h, Option.getD_some]

/-! ## The merge -/

/-- The cursor stops at the index of the subject. -/
theorem mergeCursor_eq (h : NodeTable b nodes) {subject : NodeId} (hs : subject ∈ nodes)
    {fuel k : ℕ} (hk : k ≤ nodes.idxOf subject) (hfuel : nodes.idxOf subject ≤ k + fuel) :
    mergeCursor b subject fuel k = nodes.idxOf subject := by
  induction fuel generalizing k with
  | zero =>
    rw [mergeCursor]
    omega
  | succ fuel ih =>
    rw [mergeCursor]
    rcases hk.lt_or_eq with hlt | rfl
    · have hlt' : b.nodeIds k < subject := h.ids_idxOf hs ▸ h.ids_lt hlt (h.idxOf_lt hs)
      rw [if_pos ⟨hlt.trans (h.idxOf_lt hs), hlt'⟩]
      exact ih hlt (by omega)
    · rw [if_neg]
      rintro ⟨-, hlt⟩
      exact absurd (h.ids_idxOf hs) hlt.ne

/-- The merge meets every triple at the row of its subject. -/
theorem mergeRows_eq (h : NodeTable b nodes) (hts : ts.Pairwise (· ≤ ·))
    (hmem : ∀ t ∈ ts, t.subject ∈ nodes) {k : ℕ} (hk : ∀ t ∈ ts, k ≤ nodes.idxOf t.subject) :
    mergeRows b k ts = ts.map fun t => (nodes.idxOf t.subject, t) := by
  induction ts generalizing k with
  | nil => rfl
  | cons t ts ih =>
    obtain ⟨ht, hts⟩ := List.pairwise_cons.1 hts
    have hsub : t.subject ∈ nodes := hmem t (by simp)
    have hcur : mergeCursor b t.subject b.nodeCount k = nodes.idxOf t.subject :=
      mergeCursor_eq h hsub (hk t (by simp)) (by have := h.idxOf_lt hsub; omega)
    rw [mergeRows, List.map_cons, hcur, ih hts fun u hu => hmem u (by simp [hu])]
    intro u hu
    rw [← not_lt, h.idxOf_lt_iff (hmem u (by simp [hu])) hsub, not_lt]
    exact Triple.subject_le_of_le (ht u hu)

/-! ## The forward rows -/

/-- The forward arrays of `b` hold the sorted triples `ts` slot by slot. -/
structure Forward (b : Base) (nodes : List NodeId) (ts : List Triple) : Prop
    extends NodeTable b nodes where
  endpoints : ∀ id, id ∈ nodes ↔ ∃ t ∈ ts, id = t.subject ∨ id = t.object
  sorted : ts.Pairwise (· ≤ ·)
  edgeCount : b.edgeCount = ts.length
  offsets : ∀ i ≤ b.nodeCount, b.edgeOffsets i = bucketStart (fun t => nodes.idxOf t.subject) ts i
  target : ∀ at' t, ts[at']? = some t → b.edgeTargets at' = nodes.idxOf t.object
  edge : b.onePred = false → ∀ at' t, ts[at']? = some t → b.edges at' = ⟨t.predicate, t.object⟩
  pred : b.onePred = true → ∀ t ∈ ts, t.predicate = b.thePred

theorem commonPred_spec (h : (commonPred ts).1 = true) :
    ∀ t ∈ ts, t.predicate = (commonPred ts).2 := by
  cases ts with
  | nil => simp
  | cons t ts =>
    have : ∀ u ∈ ts, u.predicate = t.predicate := by simpa [commonPred] using h
    simpa [commonPred] using this

/-- An index of the table survives the narrowing of the endpoint arrays. -/
theorem graphIxSet_eq {n ix : ℕ} (hn : b.narrowIx = true → n ≤ 2 ^ 32) (hix : ix < n) :
    graphIxSet b.narrowIx ix = ix := by
  unfold graphIxSet
  split_ifs with h
  · exact Nat.mod_eq_of_lt (hix.trans_le (hn h))
  · rfl

theorem narrowIx_startBase (sw : Switches) (mem : Memory) (inv : Bool) (ts : List Triple)
    (h : (startBase sw mem inv ts).narrowIx = true) :
    (startBase sw mem inv ts).nodeCount ≤ 2 ^ 32 := by
  have h₁ : max (collectNodes ts).length 16 ≤ 2 ^ 32 - 1 :=
    of_decide_eq_true (Bool.and_eq_true_iff.1 h).2
  have h₂ : (startBase sw mem inv ts).nodeCount = (collectNodes ts).length := rfl
  omega

/-- The offsets and the slots of the forward build are those of the sorted triples. -/
theorem forward_buildForward (sw : Switches) (mem : Memory) (inv : Bool)
    (hts : ts.Pairwise (· ≤ ·)) :
    Forward (buildForward (startBase sw mem inv ts) ts) (collectNodes ts) ts := by
  have htab := nodeTable_startBase sw mem inv ts
  set b := startBase sw mem inv ts with hb
  set nodes := collectNodes ts with hnodes
  have hsub (t : Triple) (ht : t ∈ ts) : t.subject ∈ nodes := mem_collectNodes.2 ⟨t, ht, .inl rfl⟩
  have hobj (t : Triple) (ht : t ∈ ts) : t.object ∈ nodes := mem_collectNodes.2 ⟨t, ht, .inr rfl⟩
  have hrows : mergeRows b 0 ts = ts.map fun t => (nodes.idxOf t.subject, t) :=
    mergeRows_eq htab hts hsub fun _ _ => Nat.zero_le _
  set rows := mergeRows b 0 ts
  have hstart (i : ℕ) :
      bucketStart Prod.fst rows i = bucketStart (fun t => nodes.idxOf t.subject) ts i := by
    rw [hrows, bucketStart_map]
    rfl
  have hoff (i : ℕ) (hi : i ≤ b.nodeCount) :
      prefixSums b.nodeCount (countInto Prod.fst rows (clearOffsets b.nodeCount b.edgeOffsets)) i =
        bucketStart Prod.fst rows i :=
    prefixSums_countInto (fun i hi => if_pos hi) hi
  have hlt : ∀ r ∈ rows, r.1 < b.nodeCount := by
    rw [hrows]
    rintro _ hr
    obtain ⟨t, ht, rfl⟩ := List.mem_map.1 hr
    exact htab.idxOf_lt (hsub t ht)
  have hasc : rows.Pairwise fun r r' => r.1 ≤ r'.1 := by
    rw [hrows, List.pairwise_map]
    refine hts.imp_of_mem fun {t u} ht hu hle => ?_
    rw [← not_lt, htab.idxOf_lt_iff (hsub u hu) (hsub t ht), not_lt]
    exact Triple.subject_le_of_le hle
  have hat (at' : ℕ) (t : Triple) (h : ts[at']? = some t) :
      rows[at']? = some (nodes.idxOf t.subject, t) := by
    rw [hrows, List.getElem?_map, h, Option.map_some]
  refine
    { toNodeTable := ⟨htab.ascending, htab.count, htab.ids, htab.dense⟩
      endpoints := fun id => mem_collectNodes
      sorted := hts
      edgeCount := rfl
      offsets := fun i hi => (hoff i hi).trans (hstart i)
      target := fun at' t h => ?_
      edge := fun hone at' t h => ?_
      pred := fun hone => ?_ }
  · have hplaced := place_ascending
      (g := fun r : ℕ × Triple =>
        graphIxSet b.narrowIx ((graphBaseNodeIndex b r.2.object).getD (2 ^ 64 - 1)))
      (s := (_, b.edgeTargets)) hlt (fun k hk => hoff k hk.le) hasc (hat at' t h)
    have ht := hobj t (List.mem_of_getElem? h)
    refine hplaced.trans ?_
    rw [htab.nodeIndex, if_pos ht, Option.getD_some]
    exact graphIxSet_eq (narrowIx_startBase sw mem inv ts) (htab.idxOf_lt ht)
  · have hone' : ¬ b.onePred = true := ne_true_of_eq_false hone
    refine Eq.trans (congrFun (if_neg hone') at') ?_
    exact place_ascending (g := fun r : ℕ × Triple => (⟨r.2.predicate, r.2.object⟩ : Edge))
      (s := (_, b.edges)) hlt (fun k hk => hoff k hk.le) hasc (hat at' t h)
  · have hcommon : (commonPred ts).1 = true := (Bool.and_eq_true_iff.1 hone).1
    have hthe : b.thePred = (commonPred ts).2 := if_pos hone
    intro t ht
    exact (commonPred_spec hcommon t ht).trans hthe.symm

/-- The triple of a slot, or a dummy beyond the last one. -/
def tripleAt (ts : List Triple) (at' : ℕ) : Triple := ts.getD at' ⟨0, 0, 0⟩

theorem getElem?_tripleAt (h : at' < ts.length) : ts[at']? = some (tripleAt ts at') := by
  rw [tripleAt, List.getD_eq_getElem _ _ h, List.getElem?_eq_getElem h]

theorem tripleAt_eq (h : ts[at']? = some t) : tripleAt ts at' = t := by
  rw [tripleAt, List.getD_eq_getElem?_getD, h, Option.getD_some]

/-- The first `n` values are found at their numbers as `uint32_t`. -/
def CastSafe {α : Type*} (f : ℕ → α) (n : ℕ) : Prop := ∀ x < n, f (x % 2 ^ 32) = f x

theorem castSafe_of_le {α : Type*} (f : ℕ → α) {n : ℕ} (h : n ≤ 2 ^ 32) : CastSafe f n :=
  fun x hx => by rw [Nat.mod_eq_of_lt (hx.trans_le h)]

/-- The objects of the triples in their slots. -/
def objectAt (ts : List Triple) (at' : ℕ) : NodeId := (tripleAt ts at').object

namespace Forward

variable {b : Base} {nodes : List NodeId} {ts : List Triple}

section

variable (h : Forward b nodes ts)
include h

theorem subject_mem (ht : t ∈ ts) : t.subject ∈ nodes :=
  (h.endpoints _).2 ⟨t, ht, .inl rfl⟩

theorem object_mem (ht : t ∈ ts) : t.object ∈ nodes :=
  (h.endpoints _).2 ⟨t, ht, .inr rfl⟩

theorem slotPred (ht : ts[at']? = some t) : graphBaseSlotPred b at' = t.predicate := by
  unfold graphBaseSlotPred
  split_ifs with hone
  · exact (h.pred hone t (List.mem_of_getElem? ht)).symm
  · rw [h.edge (by simpa using hone) at' t ht]

/-- A slot of a store without records is read at its number modulo `2 ^ 32`. -/
theorem slotObj_of_onePred (hone : b.onePred = true) (ht : ts[at' % 2 ^ 32]? = some t) :
    graphBaseSlotObj b at' = t.object := by
  rw [graphBaseSlotObj, if_pos hone, graphIxAt, h.target _ t ht,
    h.ids_idxOf (h.object_mem (List.mem_of_getElem? ht))]

theorem slotObj_of_records (hone : b.onePred = false) (ht : ts[at']? = some t) :
    graphBaseSlotObj b at' = t.object := by
  rw [graphBaseSlotObj, if_neg (ne_true_of_eq_false hone), h.edge hone at' t ht]

theorem slotObj (hread : b.onePred = true → CastSafe (objectAt ts) ts.length)
    (ht : ts[at']? = some t) : graphBaseSlotObj b at' = t.object := by
  have hlt : at' < ts.length := (List.getElem?_eq_some_iff.1 ht).1
  cases hone : b.onePred with
  | true =>
    have hmod := getElem?_tripleAt ((Nat.mod_le at' (2 ^ 32)).trans_lt hlt)
    rw [h.slotObj_of_onePred hone hmod, ← tripleAt_eq ht]
    exact hread hone at' hlt
  | false => exact h.slotObj_of_records hone ht

theorem slotObj_of_le (hlen : ts.length ≤ 2 ^ 32) (ht : ts[at']? = some t) :
    graphBaseSlotObj b at' = t.object := h.slotObj (fun _ => castSafe_of_le _ hlen) ht

/-- Row `i` consists of the slots of the triples whose subject is node `i`. -/
theorem mem_row_iff (hi : i < b.nodeCount) (ht : ts[at']? = some t) :
    b.edgeOffsets i ≤ at' ∧ at' < b.edgeOffsets (i + 1) ↔ t.subject = b.nodeIds i := by
  have hasc : ts.Pairwise fun t u => nodes.idxOf t.subject ≤ nodes.idxOf u.subject := by
    refine h.sorted.imp_of_mem fun {t u} ht hu hle => ?_
    rw [← not_lt, h.idxOf_lt_iff (h.subject_mem hu) (h.subject_mem ht), not_lt]
    exact Triple.subject_le_of_le hle
  rw [h.offsets i hi.le, h.offsets (i + 1) hi, mem_slots_iff hasc ht]
  have hs := h.subject_mem (List.mem_of_getElem? ht)
  constructor
  · rintro rfl
    exact (h.ids_idxOf hs).symm
  · intro heq
    rw [heq, h.idxOf_ids hi]

theorem offsets_mono (hij : i ≤ j) (hj : j ≤ b.nodeCount) : b.edgeOffsets i ≤ b.edgeOffsets j := by
  rw [h.offsets i (hij.trans hj), h.offsets j hj]
  exact bucketStart_mono _ _ hij

theorem offsets_zero : b.edgeOffsets 0 = 0 := by
  rw [h.offsets 0 (Nat.zero_le _), bucketStart_zero]

theorem offsets_last : b.edgeOffsets b.nodeCount = ts.length := by
  rw [h.offsets _ le_rfl]
  exact bucketStart_eq_length fun t ht => h.idxOf_lt (h.subject_mem ht)

end

end Forward

/-- The number of slots of row `i` that a lookup looks at. -/
def rowCount (b : Base) (i : ℕ) : ℕ := (b.edgeOffsets (i + 1) - b.edgeOffsets i) % 2 ^ 32

namespace Forward

variable {b : Base} {nodes : List NodeId} {ts : List Triple}

section

variable (h : Forward b nodes ts)
include h

/-- The slots that a lookup looks at are slots of the row. -/
theorem row_slot (hi : i < b.nodeCount) (hj : j < rowCount b i) :
    b.edgeOffsets i + j < ts.length ∧
      (tripleAt ts (b.edgeOffsets i + j)).subject = b.nodeIds i := by
  have hrow : j < b.edgeOffsets (i + 1) - b.edgeOffsets i := hj.trans_le (Nat.mod_le _ _)
  have hlen : b.edgeOffsets i + j < ts.length := by
    have : b.edgeOffsets (i + 1) ≤ b.edgeOffsets b.nodeCount := h.offsets_mono hi le_rfl
    rw [h.offsets_last] at this
    omega
  refine ⟨hlen, (h.mem_row_iff hi (getElem?_tripleAt hlen)).1 ⟨by omega, by omega⟩⟩

theorem tripleAt_le (hij : i ≤ j) (hj : j < ts.length) : tripleAt ts i ≤ tripleAt ts j := by
  rcases hij.lt_or_eq with hij | rfl
  · rw [tripleAt, tripleAt, List.getD_eq_getElem _ _ hj, List.getD_eq_getElem _ _ (hij.trans hj)]
    exact List.pairwise_iff_getElem.1 h.sorted i j _ _ hij
  · exact le_rfl

/-- The search in a row finds the triple exactly if one of the slots that it looks
at holds it, with and without edge records. -/
theorem rowFind_iff (hread : b.onePred = true → CastSafe (objectAt ts) ts.length)
    (hi : i < b.nodeCount)
    (hs : b.nodeIds i = t.subject) :
    (graphBaseRowFind b (b.edgeOffsets i) (rowCount b i) t.predicate t.object < rowCount b i ∧
      graphBaseSlotIs b
        (b.edgeOffsets i + graphBaseRowFind b (b.edgeOffsets i) (rowCount b i) t.predicate t.object)
        t.predicate t.object = true) ↔
      ∃ j < rowCount b i, tripleAt ts (b.edgeOffsets i + j) = t := by
  -- a slot of the row is the triple if its predicate and object are
  have hslot (j : ℕ) (hj : j < rowCount b i) :
      graphBaseSlotIs b (b.edgeOffsets i + j) t.predicate t.object = true ↔
        tripleAt ts (b.edgeOffsets i + j) = t := by
    obtain ⟨hlt, hsub⟩ := h.row_slot hi hj
    have hat := getElem?_tripleAt hlt
    rw [graphBaseSlotIs, h.slotPred hat, h.slotObj hread hat, Bool.and_eq_true,
      decide_eq_true_iff, decide_eq_true_iff]
    rcases ht : tripleAt ts (b.edgeOffsets i + j) with ⟨s, p, o⟩
    rw [ht, hs] at hsub
    rcases t with ⟨s', p', o'⟩
    simp only [Triple.mk.injEq] at hsub ⊢
    tauto
  have hmono (j k : ℕ) (hjk : j ≤ k) (hk : k < rowCount b i) :
      tripleAt ts (b.edgeOffsets i + j) ≤ tripleAt ts (b.edgeOffsets i + k) :=
    h.tripleAt_le (Nat.add_le_add_left hjk _) (h.row_slot hi hk).1
  -- either search finds the first slot that is not below the triple
  have hfind (below : ℕ → Bool)
      (hbelow : ∀ j < rowCount b i, below j = true ↔ tripleAt ts (b.edgeOffsets i + j) < t) :
      (lowerBound below (rowCount b i) < rowCount b i ∧
        graphBaseSlotIs b (b.edgeOffsets i + lowerBound below (rowCount b i)) t.predicate t.object =
          true) ↔ ∃ j < rowCount b i, tripleAt ts (b.edgeOffsets i + j) = t := by
    rw [← lowerBound_find hbelow hmono]
    exact and_congr_right fun hr => hslot _ hr
  unfold graphBaseRowFind
  cases hone : b.onePred with
  | false =>
    refine hfind _ fun j hj => ?_
    obtain ⟨hlt, hsub⟩ := h.row_slot hi hj
    dsimp only
    rw [decide_eq_true_iff, h.edge hone _ _ (getElem?_tripleAt hlt), Triple.lt_iff, hsub, hs]
    simp
  | true =>
    rw [if_neg (by simp)]
    have hpred (j : ℕ) (hj : j < rowCount b i) :
        (tripleAt ts (b.edgeOffsets i + j)).predicate = b.thePred :=
      h.pred hone _ (List.mem_of_getElem? (getElem?_tripleAt (h.row_slot hi hj).1))
    by_cases hp : t.predicate = b.thePred
    · rw [if_neg (by simpa using hp), h.nodeIndex]
      by_cases ho : t.object ∈ nodes
      · rw [if_pos ho]
        refine hfind _ fun j hj => ?_
        obtain ⟨hlt, hsub⟩ := h.row_slot hi hj
        have hat := getElem?_tripleAt hlt
        have hmod := getElem?_tripleAt ((Nat.mod_le _ (2 ^ 32)).trans_lt hlt)
        have hobj : (tripleAt ts ((b.edgeOffsets i + j) % 2 ^ 32)).object =
            (tripleAt ts (b.edgeOffsets i + j)).object := hread hone _ hlt
        rw [decide_eq_true_iff, graphIxAt, h.target _ _ hmod, hobj,
          h.idxOf_lt_iff (h.object_mem (List.mem_of_getElem? hat)) ho,
          Triple.lt_iff, hsub, hs, hpred j hj, hp]
        simp
      · rw [if_neg ho]
        refine iff_of_false (fun hc => lt_irrefl _ hc.1) ?_
        rintro ⟨j, hj, rfl⟩
        exact ho (h.object_mem (List.mem_of_getElem? (getElem?_tripleAt (h.row_slot hi hj).1)))
    · rw [if_pos hp]
      refine iff_of_false (fun hc => lt_irrefl _ hc.1) ?_
      rintro ⟨j, hj, rfl⟩
      exact hp (hpred j hj)

/-- A lookup in the base store finds the triples in the slots that it looks at. -/
theorem contains_iff (hread : b.onePred = true → CastSafe (objectAt ts) ts.length) (t : Triple) :
    graphBaseContains b t = true ↔
      t.subject ∈ nodes ∧ ∃ j < rowCount b (nodes.idxOf t.subject),
        tripleAt ts (b.edgeOffsets (nodes.idxOf t.subject) + j) = t := by
  unfold graphBaseContains
  by_cases hzero : b.nodeCount = 0
  · have hnil : nodes = [] := List.length_eq_zero_iff.1 (h.count ▸ hzero)
    simp [hzero, hnil]
  rw [if_neg hzero, h.nodeIndex]
  by_cases hs : t.subject ∈ nodes
  · have := h.rowFind_iff hread (h.idxOf_lt hs) (h.ids_idxOf hs)
    rw [if_pos hs]
    simp only [rowCount] at this ⊢
    rw [Bool.and_eq_true, decide_eq_true_iff, this]
    simp [hs]
  · simp [hs]

/-- A store of fewer than `2 ^ 32` triples contains its triples. -/
theorem contains_iff_mem (hlen : ts.length < 2 ^ 32) (t : Triple) :
    graphBaseContains b t = true ↔ t ∈ ts := by
  rw [h.contains_iff fun _ => castSafe_of_le _ hlen.le]
  constructor
  · rintro ⟨hs, j, hj, ht⟩
    rw [← ht]
    exact List.mem_of_getElem? (getElem?_tripleAt (h.row_slot (h.idxOf_lt hs) hj).1)
  · intro ht
    have hs := h.subject_mem ht
    obtain ⟨at', hat, rfl⟩ := List.getElem_of_mem ht
    have hi := h.idxOf_lt hs
    obtain ⟨h₁, h₂⟩ := (h.mem_row_iff hi (List.getElem?_eq_getElem hat)).2 (h.ids_idxOf hs).symm
    have hrow : rowCount b (nodes.idxOf ts[at'].subject) =
        b.edgeOffsets (nodes.idxOf ts[at'].subject + 1) -
          b.edgeOffsets (nodes.idxOf ts[at'].subject) := by
      have : b.edgeOffsets (nodes.idxOf ts[at'].subject + 1) ≤ b.edgeOffsets b.nodeCount :=
        h.offsets_mono hi le_rfl
      rw [h.offsets_last] at this
      exact Nat.mod_eq_of_lt (by omega)
    refine ⟨hs, at' - b.edgeOffsets (nodes.idxOf ts[at'].subject), by omega, ?_⟩
    rw [Nat.add_sub_cancel' h₁, tripleAt, List.getD_eq_getElem _ _ hat]

end

end Forward

/-! ## The inverse rows -/

/-- The triples as the inverse build reads them: the endpoint index of a slot is read at the
number of the slot as `uint32_t`. -/
def reread (ts : List Triple) : List Triple :=
  ts.zipIdx.map fun p => { p.1 with object := objectAt ts (p.2 % 2 ^ 32) }

theorem getElem?_of_mem_zipIdx {p : Triple × ℕ} (hp : p ∈ ts.zipIdx) : ts[p.2]? = some p.1 := by
  simpa using List.mem_zipIdx_iff_getElem?.1 hp

theorem length_reread (ts : List Triple) : (reread ts).length = ts.length := by simp [reread]

theorem reread_eq (h : CastSafe (objectAt ts) ts.length) : reread ts = ts := by
  conv_rhs => rw [← List.zipIdx_map_fst (l := ts) (i := 0)]
  refine List.map_congr_left fun p hp => ?_
  have hat := getElem?_of_mem_zipIdx hp
  rw [h p.2 (List.getElem?_eq_some_iff.1 hat).1, objectAt, tripleAt_eq hat]

theorem reread_of_le (h : ts.length ≤ 2 ^ 32) : reread ts = ts := reread_eq (castSafe_of_le _ h)

/-- A triple that is read has the subject and the predicate of one, and the object of another. -/
theorem of_mem_reread (h : t ∈ reread ts) :
    ∃ u ∈ ts, ∃ v ∈ ts, t = ⟨u.subject, u.predicate, v.object⟩ := by
  obtain ⟨p, hp, rfl⟩ := List.mem_map.1 h
  have hat := getElem?_of_mem_zipIdx hp
  have hmod : p.2 % 2 ^ 32 < ts.length :=
    (Nat.mod_le _ _).trans_lt (List.getElem?_eq_some_iff.1 hat).1
  exact ⟨p.1, List.mem_of_getElem? hat, _, List.mem_of_getElem? (getElem?_tripleAt hmod), rfl⟩

/-- The triples as read are in the order of their subjects and predicates. -/
theorem pairwise_reread (h : ts.Pairwise (· ≤ ·)) :
    (reread ts).Pairwise fun t u =>
      t.subject < u.subject ∨ t.subject = u.subject ∧ t.predicate ≤ u.predicate := by
  rw [reread, List.pairwise_map]
  have hfst : (ts.zipIdx.map Prod.fst).Pairwise (· ≤ ·) := by simpa using h
  refine (List.pairwise_map.1 hfst).imp fun {p q} hpq => ?_
  rcases hpq.lt_or_eq with hlt | heq
  · rcases Triple.lt_iff.1 hlt with hs | ⟨hs, hp | ⟨hp, -⟩⟩
    exacts [.inl hs, .inr ⟨hs, hp.le⟩, .inr ⟨hs, hp.le⟩]
  · have hs : p.1.subject = q.1.subject := congrArg Triple.subject heq
    have hp : p.1.predicate = q.1.predicate := congrArg Triple.predicate heq
    exact .inr ⟨hs, hp.le⟩

/-- The inverse arrays of `b` hold, for every object, its triples in their order. -/
structure Inverse (b : Base) (nodes : List NodeId) (ts : List Triple) : Prop
    extends NodeTable b nodes where
  /-- The triples are between nodes and carry the predicate of the store if it has one. -/
  ends : ∀ t ∈ ts, t.subject ∈ nodes ∧ t.object ∈ nodes ∧
    (b.onePred = true → t.predicate = b.thePred)
  offsets : ∀ i ≤ b.nodeCount, b.invOffsets i = bucketStart (fun t => nodes.idxOf t.object) ts i
  source : ∀ j < b.nodeCount, ∀ i t, (bucket (fun t => nodes.idxOf t.object) ts j)[i]? = some t →
    b.invSources (b.invOffsets j + i) = nodes.idxOf t.subject
  edge : b.onePred = false → ∀ j < b.nodeCount, ∀ i t,
    (bucket (fun t => nodes.idxOf t.object) ts j)[i]? = some t →
      b.invEdges (b.invOffsets j + i) = ⟨t.predicate, t.subject⟩

/-- The rows and slots that the inverse build walks are those of the triples, in order. -/
theorem forwardSlots_eq (h : Forward b nodes ts) :
    forwardSlots b = ts.zipIdx.map fun p => (nodes.idxOf p.1.subject, p.2) := by
  -- up to row `m` the walk has met the slots below the offset of row `m`
  have hwalk (m : ℕ) (hm : m ≤ b.nodeCount) :
      ((List.range m).flatMap fun i =>
        (List.range' (b.edgeOffsets i) (b.edgeOffsets (i + 1) - b.edgeOffsets i)).map
          fun at' => (i, at')) =
        (List.range (b.edgeOffsets m)).map
          fun at' => (nodes.idxOf (tripleAt ts at').subject, at') := by
    induction m with
    | zero => simp [h.offsets_zero]
    | succ m ih =>
      have hle : b.edgeOffsets m ≤ b.edgeOffsets (m + 1) := h.offsets_mono (Nat.le_succ m) hm
      have hlast : b.edgeOffsets (m + 1) ≤ ts.length := h.offsets_last ▸ h.offsets_mono hm le_rfl
      have hsplit : List.range (b.edgeOffsets (m + 1)) = List.range (b.edgeOffsets m) ++
          List.range' (b.edgeOffsets m) (b.edgeOffsets (m + 1) - b.edgeOffsets m) := by
        have := List.range'_append_1 (s := 0) (m := b.edgeOffsets m)
          (n := b.edgeOffsets (m + 1) - b.edgeOffsets m)
        rw [Nat.zero_add, Nat.add_sub_cancel' hle] at this
        rw [List.range_eq_range', List.range_eq_range', this]
      rw [List.range_succ, List.flatMap_append, ih (Nat.le_of_succ_le hm), hsplit, List.map_append,
        List.flatMap_singleton]
      congr 1
      refine List.map_congr_left fun at' hat => ?_
      rw [List.mem_range'_1] at hat
      have hat' : at' < ts.length := by omega
      have hrow := (h.mem_row_iff hm (getElem?_tripleAt hat')).1 ⟨hat.1, by omega⟩
      rw [hrow, h.idxOf_ids hm]
  rw [forwardSlots, hwalk _ le_rfl, h.offsets_last]
  refine List.ext_getElem (by simp) fun i h₁ h₂ => ?_
  have hi : i < ts.length := by simpa using h₁
  simp only [List.getElem_map, List.getElem_range, List.getElem_zipIdx, tripleAt,
    List.getD_eq_getElem _ _ hi, Nat.zero_add]

/-- The inverse build holds the triples as it reads them. -/
theorem inverse_buildInverse (h : Forward b nodes ts) (hinv : b.hasInverse = true)
    (hnarrow : b.narrowIx = true → b.nodeCount ≤ 2 ^ 32) :
    Inverse (buildInverse b) nodes (reread ts) := by
  set φ : Triple × ℕ → ℕ × ℕ := fun p => (nodes.idxOf p.1.subject, p.2) with hφ
  set ψ : Triple × ℕ → Triple := fun p => { p.1 with object := objectAt ts (p.2 % 2 ^ 32) } with hψ
  have hslots : forwardSlots b = ts.zipIdx.map φ := forwardSlots_eq h
  have hread : reread ts = ts.zipIdx.map ψ := rfl
  -- the endpoint index of a slot is the index of the object that is read
  have htar : ∀ p ∈ ts.zipIdx, slotTarget b (φ p) = nodes.idxOf (ψ p).object := by
    intro p hp
    have hlt := (List.getElem?_eq_some_iff.1 (getElem?_of_mem_zipIdx hp)).1
    have hat := h.target _ _ (getElem?_tripleAt ((Nat.mod_le p.2 (2 ^ 32)).trans_lt hlt))
    exact hat
  have hends (t : Triple) (ht : t ∈ reread ts) : t.subject ∈ nodes ∧ t.object ∈ nodes ∧
      (b.onePred = true → t.predicate = b.thePred) := by
    obtain ⟨u, hu, v, hv, rfl⟩ := of_mem_reread ht
    have hs := h.subject_mem hu
    have ho := h.object_mem hv
    exact ⟨hs, ho, fun hone => h.pred hone u hu⟩
  have hstart (i : ℕ) : bucketStart (slotTarget b) (forwardSlots b) i =
      bucketStart (fun t => nodes.idxOf t.object) (reread ts) i := by
    rw [hslots, hread, bucketStart_map, bucketStart_map]
    exact bucketStart_congr (f := slotTarget b ∘ φ) htar i
  have hoff (i : ℕ) (hi : i ≤ b.nodeCount) :
      inverseOffsets b i = bucketStart (slotTarget b) (forwardSlots b) i :=
    prefixSums_countInto (fun i hi => if_pos hi) hi
  have hbucket (j i : ℕ) (t : Triple)
      (ht : (bucket (fun t => nodes.idxOf t.object) (reread ts) j)[i]? = some t) :
      ∃ at' u, ts[at']? = some u ∧ u.subject = t.subject ∧ u.predicate = t.predicate ∧
        (bucket (slotTarget b) (forwardSlots b) j)[i]? = some (nodes.idxOf t.subject, at') := by
    rw [hread, bucket_map, List.getElem?_map, Option.map_eq_some_iff] at ht
    obtain ⟨p, hp, rfl⟩ := ht
    have hmem := List.mem_of_mem_filter (List.mem_of_getElem? hp)
    refine ⟨p.2, p.1, getElem?_of_mem_zipIdx hmem, rfl, rfl, ?_⟩
    have hcongr : bucket (slotTarget b ∘ φ) ts.zipIdx j =
        bucket ((fun t => nodes.idxOf t.object) ∘ ψ) ts.zipIdx j := bucket_congr htar j
    rw [hslots, bucket_map, List.getElem?_map, hcongr, hp]
    rfl
  have hlt : ∀ s ∈ forwardSlots b, slotTarget b s < b.nodeCount := by
    rw [hslots]
    intro s hs
    obtain ⟨p, hp, rfl⟩ := List.mem_map.1 hs
    rw [htar p hp]
    exact h.idxOf_lt (hends _ (hread ▸ List.mem_map_of_mem hp)).2.1
  rw [buildInverse, if_pos hinv]
  refine ⟨⟨h.ascending, h.count, h.ids, h.dense⟩, hends, fun i hi => (hoff i hi).trans (hstart i),
    fun j hj i t ht => ?_, fun hone j hj i t ht => ?_⟩
  · obtain ⟨at', u, hat, hsub, -, hs⟩ := hbucket j i t ht
    have hplaced := place_spec (g := fun s : ℕ × ℕ => graphIxSet b.narrowIx s.1)
      (s := (inverseOffsets b, b.invSources)) hlt (fun k hk => hoff k hk.le) hj hs
    dsimp only at hj ⊢
    rw [hoff j hj.le, hplaced]
    exact graphIxSet_eq hnarrow (h.idxOf_lt (hsub ▸ h.subject_mem (List.mem_of_getElem? hat)))
  · obtain ⟨at', u, hat, hsub, hpred, hs⟩ := hbucket j i t ht
    have hone' : ¬ b.onePred = true := ne_true_of_eq_false hone
    have hplaced := place_spec
      (g := fun s : ℕ × ℕ => (⟨(b.edges s.2).predicate, b.nodeIds s.1⟩ : InverseEdge))
      (s := (inverseOffsets b, b.invEdges)) hlt (fun k hk => hoff k hk.le) hj hs
    dsimp only at hj ⊢
    rw [if_neg hone', hoff j hj.le, hplaced, h.edge hone _ _ hat, hpred,
      h.ids_idxOf (hsub ▸ h.subject_mem (List.mem_of_getElem? hat))]

namespace Inverse

variable {b : Base} {nodes : List NodeId} {ts : List Triple}

section

variable (h : Inverse b nodes ts)
include h

theorem offsets_zero : b.invOffsets 0 = 0 := by
  rw [h.offsets 0 (Nat.zero_le _), bucketStart_zero]

theorem offsets_mono (hij : i ≤ j) (hj : j ≤ b.nodeCount) : b.invOffsets i ≤ b.invOffsets j := by
  rw [h.offsets i (hij.trans hj), h.offsets j hj]
  exact bucketStart_mono _ _ hij

theorem offsets_last : b.invOffsets b.nodeCount = ts.length := by
  rw [h.offsets _ le_rfl]
  exact bucketStart_eq_length fun t ht => h.idxOf_lt (h.ends t ht).2.1

theorem offsets_succ (hj : j < b.nodeCount) :
    b.invOffsets (j + 1) =
      b.invOffsets j + (bucket (fun t => nodes.idxOf t.object) ts j).length := by
  rw [h.offsets j hj.le, h.offsets (j + 1) hj, bucketStart_succ]

/-- Every slot is one of a row. -/
theorem exists_row {x : ℕ} (hx : x < ts.length) :
    ∃ j < b.nodeCount, ∃ i t, x = b.invOffsets j + i ∧
      (bucket (fun t => nodes.idxOf t.object) ts j)[i]? = some t := by
  rw [← h.offsets_last, h.offsets _ le_rfl] at hx
  obtain ⟨j, hj, i, hi, rfl⟩ := exists_bucket_of_lt hx
  exact ⟨j, hj, i, _, by rw [h.offsets j hj.le], List.getElem?_eq_getElem hi⟩

section Slot

variable (hj : j < b.nodeCount) (ht : (bucket (fun t => nodes.idxOf t.object) ts j)[i]? = some t)
include hj ht

theorem slot_lt : b.invOffsets j + i < ts.length := by
  have h₁ := (List.getElem?_eq_some_iff.1 ht).1
  have h₂ : b.invOffsets (j + 1) ≤ b.invOffsets b.nodeCount := h.offsets_mono hj le_rfl
  rw [h.offsets_last, h.offsets_succ hj] at h₂
  omega

theorem slotPred : graphBaseInvSlotPred b (b.invOffsets j + i) = t.predicate := by
  unfold graphBaseInvSlotPred
  split_ifs with hone
  · exact ((h.ends t (List.mem_of_mem_filter (List.mem_of_getElem? ht))).2.2 hone).symm
  · rw [h.edge (by simpa using hone) j hj i t ht]

theorem ids_source : b.nodeIds (b.invSources (b.invOffsets j + i)) = t.subject := by
  rw [h.source j hj i t ht]
  exact h.ids_idxOf (h.ends t (List.mem_of_mem_filter (List.mem_of_getElem? ht))).1

/-- A slot of a store without records is read at its number modulo `2 ^ 32`. -/
theorem slotSubj (hread : b.onePred = true → CastSafe b.invSources ts.length) :
    graphBaseInvSlotSubj b (b.invOffsets j + i) = t.subject := by
  unfold graphBaseInvSlotSubj
  split_ifs with hone
  · rw [graphIxAt, hread hone _ (h.slot_lt hj ht), h.ids_source hj ht]
  · rw [h.edge (by simpa using hone) j hj i t ht]

end Slot

/-- The members of an inverse row are triples whose object is node `j`. -/
theorem of_mem_bucket (ht : t ∈ bucket (fun t => nodes.idxOf t.object) ts j) :
    t ∈ ts ∧ t.object = b.nodeIds j := by
  obtain ⟨hmem, hj⟩ := List.mem_filter.1 ht
  refine ⟨hmem, ?_⟩
  rw [← of_decide_eq_true hj, h.ids_idxOf (h.ends t hmem).2.1]

/-- The triples of an inverse row are those whose object is node `j`. -/
theorem bucket_eq (hj : j < b.nodeCount) :
    bucket (fun t => nodes.idxOf t.object) ts j = ts.filter fun t => t.object = b.nodeIds j := by
  refine List.filter_congr fun t ht => decide_eq_decide.2 ?_
  constructor
  · rintro rfl
    exact (h.ids_idxOf (h.ends t ht).2.1).symm
  · intro heq
    exact (congrArg nodes.idxOf heq).trans (h.idxOf_ids hj)

end

end Inverse

/-! ## The empty store -/

theorem forward_graphBaseCreate (sw : Switches) (mem : Memory) (cap : ℕ) (inv one : Bool)
    (p : PredId) : Forward (graphBaseCreate sw mem cap inv one p) [] [] where
  ascending := List.Pairwise.nil
  count := rfl
  ids := by simp
  dense := by simp
  endpoints := by simp
  sorted := List.Pairwise.nil
  edgeCount := rfl
  offsets i hi := by
    obtain rfl : i = 0 := Nat.le_zero.1 hi
    rfl
  target := by simp
  edge := by simp
  pred := by simp

theorem inverse_graphBaseCreate (sw : Switches) (mem : Memory) (cap : ℕ) (inv one : Bool)
    (p : PredId) : Inverse (graphBaseCreate sw mem cap inv one p) [] [] where
  ascending := List.Pairwise.nil
  count := rfl
  ids := by simp
  dense := by simp
  ends := by simp
  offsets i hi := by
    obtain rfl : i = 0 := Nat.le_zero.1 hi
    rfl
  source := by simp [bucket]
  edge := by simp [bucket]

/-! ## The whole build -/

theorem Forward.buildInverse (h : Forward b nodes ts) : Forward (buildInverse b) nodes ts := by
  unfold Graph.buildInverse
  by_cases hinv : b.hasInverse = true
  · rw [if_pos hinv]
    exact ⟨⟨h.ascending, h.count, h.ids, h.dense⟩, h.endpoints, h.sorted, h.edgeCount, h.offsets,
      h.target, h.edge, h.pred⟩
  · rwa [if_neg hinv]

section

variable (sw : Switches) (mem : Memory)
include sw mem

theorem forward_buildBase (inv : Bool) (hts : ts.Pairwise (· ≤ ·)) :
    Forward (buildBase sw mem inv ts) (collectNodes ts) ts :=
  (forward_buildForward sw mem inv hts).buildInverse

theorem inverse_buildBase (hts : ts.Pairwise (· ≤ ·)) :
    Inverse (buildBase sw mem true ts) (collectNodes ts) (reread ts) :=
  inverse_buildInverse (forward_buildForward sw mem true hts) rfl
    (narrowIx_startBase sw mem true ts)

theorem hasInverse_buildBase (inv : Bool) (ts : List Triple) :
    (buildBase sw mem inv ts).hasInverse = inv := by
  have h : (buildForward (startBase sw mem inv ts) ts).hasInverse = inv := rfl
  unfold buildBase buildInverse
  split_ifs <;> exact h

theorem onePred_buildBase (inv : Bool) (ts : List Triple) :
    (buildBase sw mem inv ts).onePred = ((commonPred ts).1 && sw.onePredStore) := by
  unfold buildBase buildInverse
  split_ifs <;> rfl

end

end Virtuoso.Graph
