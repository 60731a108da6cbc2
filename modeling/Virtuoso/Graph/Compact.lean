import Mathlib.Tactic.NormNum
import Virtuoso.Graph.Csr
import Virtuoso.Graph.Store

/-!
# Compaction

`graph_compact` folds the delta chain into a new base store.  It collects the
triples of the old store and the additions of all deltas, except those that some
delta of the chain deletes, sorts them and builds the CSR pair from them.

A triple that is added again is collected again, and one that was deleted before it was
added is lost.  Slot numbers are cast to 32 bits where endpoint indices are read: in a store
of one predicate, which has no other record of the endpoints, and in the inverse build.
-/

namespace Virtuoso.Graph

open Lib

/-- `graph_is_triple_deleted`: some delta of the chain deletes the triple. -/
def graphIsTripleDeleted (deltaHead : List Delta) (t : Triple) : Bool :=
  deltaHead.any fun d => decide (t ∈ d.deletions)

/-- The triples in the forward slots of a store, in order. -/
def baseTriples (b : Base) : List Triple :=
  (forwardSlots b).map fun s => ⟨b.nodeIds s.1, graphBaseSlotPred b s.2, graphBaseSlotObj b s.2⟩

/-- The triples of the store and the additions of the chain, newest delta first. -/
def storedTriples (g : GraphState) : List Triple :=
  baseTriples g.base ++ g.deltaHead.flatMap Delta.additions

/-- The triples that compaction keeps. -/
def collectTriples (g : GraphState) : List Triple :=
  (storedTriples g).filter fun t => !graphIsTripleDeleted g.deltaHead t

/-- `graph_delta_chain_additions`. -/
def graphDeltaChainAdditions (deltaHead : List Delta) : ℕ :=
  (deltaHead.map fun d => d.additions.length).sum

/-- `graph_compact`. -/
def graphCompact (sw : Switches) (mem : Memory) (g : GraphState) : GraphError × GraphState :=
  if g.snapshotCount ≠ 0 then (.snapshotActive, g)
  else if g.deltaHead = [] then (.ok, g)
  else if graphDeltaChainAdditions g.deltaHead + g.base.edgeCount = 0 then (.ok, g)
  else
    let triples := qsortTriples (collectTriples g)
    let nb := buildBase sw mem g.buildInverseIndex triples
    (.ok,
      { g with
        base := nb
        deltaHead := []
        totalNodes := nb.nodeCount
        totalTriples := triples.length })

/-! ## Lookups and collected triples -/

/-- No present triple is deleted anywhere in the chain, and each is stored once. -/
def StoredOnce (g : GraphState) : Prop :=
  ∀ t, g.Committed t →
    graphIsTripleDeleted g.deltaHead t = false ∧ (storedTriples g).count t = 1

section Collected

variable {g : GraphState} {t : Triple}

theorem mem_collectTriples :
    t ∈ collectTriples g ↔ t ∈ storedTriples g ∧ graphIsTripleDeleted g.deltaHead t = false := by
  rw [collectTriples, List.mem_filter, Bool.not_eq_true']

theorem count_collectTriples (hd : graphIsTripleDeleted g.deltaHead t = false) :
    (collectTriples g).count t = (storedTriples g).count t := by
  rw [collectTriples, List.count_filter (by simp [hd])]

variable (hbase : ∀ t, graphBaseContains g.base t = true ↔ t ∈ baseTriples g.base)
include hbase

/-- Without a deletion in the chain, a lookup finds what is stored. -/
theorem committed_iff_of_not_deleted (hdel : graphIsTripleDeleted g.deltaHead t = false) :
    g.Committed t ↔ t ∈ storedTriples g := by
  rw [GraphState.Committed, storedTriples, List.mem_append, ← hbase]
  rw [graphIsTripleDeleted] at hdel
  generalize g.deltaHead = chain at hdel ⊢
  induction chain with
  | nil => by_cases hc : graphBaseContains g.base t = true <;> simp [graphLookupTriple, hc]
  | cons d ds ih =>
    rw [List.any_cons, Bool.or_eq_false_iff, decide_eq_false_iff_not] at hdel
    rw [graphLookupTriple, if_neg hdel.1, List.flatMap_cons, List.mem_append]
    by_cases ha : t ∈ d.additions
    · simp [ha]
    · rw [if_neg ha, ih hdel.2]
      simp [ha]

theorem committed_of_mem_collectTriples (ht : t ∈ collectTriples g) : g.Committed t := by
  obtain ⟨hs, hd⟩ := mem_collectTriples.1 ht
  exact (committed_iff_of_not_deleted hbase hd).2 hs

/-- The triples are stored once exactly if compaction keeps them, each once. -/
theorem storedOnce_iff :
    StoredOnce g ↔ (collectTriples g).Nodup ∧ ∀ t, t ∈ collectTriples g ↔ g.Committed t := by
  constructor
  · intro hsafe
    refine ⟨List.nodup_iff_count_le_one.2 fun t => ?_, fun t =>
      ⟨committed_of_mem_collectTriples hbase, fun ht => ?_⟩⟩
    · by_cases ht : t ∈ collectTriples g
      · obtain ⟨hd, hc⟩ := hsafe t (committed_of_mem_collectTriples hbase ht)
        rw [count_collectTriples hd, hc]
      · rw [List.count_eq_zero_of_not_mem ht]
        exact Nat.zero_le 1
    · obtain ⟨hd, hc⟩ := hsafe t ht
      exact mem_collectTriples.2 ⟨List.count_pos_iff.1 (hc ▸ Nat.one_pos), hd⟩
  · rintro ⟨hnodup, hmem⟩ t ht
    have ht := (hmem t).2 ht
    have hd := (mem_collectTriples.1 ht).2
    exact ⟨hd, by rw [← count_collectTriples hd, List.count_eq_one_of_mem hnodup ht]⟩

end Collected

/-! ## The pair of CSRs -/

/-- The slots of forward row `i`. -/
def rowSlots (b : Base) (i : ℕ) : List ℕ :=
  List.range' (b.edgeOffsets i) (b.edgeOffsets (i + 1) - b.edgeOffsets i)

/-- The slots of inverse row `j`. -/
def invRowSlots (b : Base) (j : ℕ) : List ℕ :=
  List.range' (b.invOffsets j) (b.invOffsets (j + 1) - b.invOffsets j)

/-- The forward arrays of `b` describe the triples of `ts`. -/
structure ForwardOf (b : Base) (ts : Finset Triple) : Prop where
  /-- The node ids ascend strictly. -/
  ascending : ∀ i j, i < j → j < b.nodeCount → b.nodeIds i < b.nodeIds j
  /-- They are the subjects and objects. -/
  nodes : ∀ id, (∃ i < b.nodeCount, b.nodeIds i = id) ↔ ∃ t ∈ ts, id = t.subject ∨ id = t.object
  first : b.edgeOffsets 0 = 0
  mono : ∀ i j, i ≤ j → j ≤ b.nodeCount → b.edgeOffsets i ≤ b.edgeOffsets j
  last : b.edgeOffsets b.nodeCount = ts.card
  /-- A row ascends by predicate and object. -/
  rowAscending : ∀ i < b.nodeCount, ((rowSlots b i).map fun at' =>
    toLex (graphBaseSlotPred b at', graphBaseSlotObj b at')).Pairwise (· < ·)
  /-- It lists the edges of its node. -/
  row : ∀ i < b.nodeCount, ∀ p o,
    (p, o) ∈ (rowSlots b i).map (fun at' => (graphBaseSlotPred b at', graphBaseSlotObj b at')) ↔
      ⟨b.nodeIds i, p, o⟩ ∈ ts
  /-- The endpoint index of a slot is the index of its object. -/
  targets : ∀ i < b.nodeCount, ∀ at' ∈ rowSlots b i,
    b.edgeTargets at' < b.nodeCount ∧ b.nodeIds (b.edgeTargets at') = graphBaseSlotObj b at'

/-- The inverse arrays of `b` describe the triples of `ts`. -/
structure InverseOf (b : Base) (ts : Finset Triple) : Prop where
  first : b.invOffsets 0 = 0
  mono : ∀ i j, i ≤ j → j ≤ b.nodeCount → b.invOffsets i ≤ b.invOffsets j
  last : b.invOffsets b.nodeCount = ts.card
  /-- An inverse row ascends by subject and predicate. -/
  rowAscending : ∀ j < b.nodeCount, ((invRowSlots b j).map fun at' =>
    toLex (graphBaseInvSlotSubj b at', graphBaseInvSlotPred b at')).Pairwise (· < ·)
  /-- It lists the edges into its node. -/
  row : ∀ j < b.nodeCount, ∀ s p,
    (s, p) ∈
      (invRowSlots b j).map (fun at' => (graphBaseInvSlotSubj b at', graphBaseInvSlotPred b at'))
      ↔ ⟨s, p, b.nodeIds j⟩ ∈ ts
  /-- The endpoint index of a slot is the index of its subject. -/
  sources : ∀ j < b.nodeCount, ∀ at' ∈ invRowSlots b j,
    b.invSources at' < b.nodeCount ∧ b.nodeIds (b.invSources at') = graphBaseInvSlotSubj b at'

/-- Two stores of `n` triples answer alike. -/
structure SameAnswers (n : ℕ) (b b' : Base) : Prop where
  nodeIndex : ∀ id, graphBaseNodeIndex b id = graphBaseNodeIndex b' id
  slotPred : ∀ at' < n, graphBaseSlotPred b at' = graphBaseSlotPred b' at'
  slotObj : ∀ at' < n, graphBaseSlotObj b at' = graphBaseSlotObj b' at'
  invSlotPred : b.hasInverse = true → b'.hasInverse = true →
    ∀ at' < n, graphBaseInvSlotPred b at' = graphBaseInvSlotPred b' at'
  invSlotSubj : b.hasInverse = true → b'.hasInverse = true →
    ∀ at' < n, graphBaseInvSlotSubj b at' = graphBaseInvSlotSubj b' at'
  contains : ∀ t, graphBaseContains b t = graphBaseContains b' t

section Described

variable {b b' : Base} {nodes : List NodeId} {ts : List Triple}

variable {i at' j : ℕ}

theorem mem_rowSlots :
    at' ∈ rowSlots b i ↔ b.edgeOffsets i ≤ at' ∧ at' < b.edgeOffsets (i + 1) := by
  rw [rowSlots, List.mem_range'_1]
  omega

/-- A slot of row `i` holds a triple whose subject is node `i`. -/
theorem Forward.of_mem_rowSlots (h : Forward b nodes ts) (hi : i < b.nodeCount)
    (hat : at' ∈ rowSlots b i) :
    ts[at']? = some (tripleAt ts at') ∧ (tripleAt ts at').subject = b.nodeIds i := by
  rw [mem_rowSlots] at hat
  have hle : b.edgeOffsets (i + 1) ≤ b.edgeOffsets b.nodeCount := h.offsets_mono hi le_rfl
  rw [h.offsets_last] at hle
  have hget := getElem?_tripleAt (hat.2.trans_le hle)
  exact ⟨hget, (h.mem_row_iff hi hget).1 hat⟩

/-- The slots of row `i` hold the triples with subject `i`, in order. -/
theorem Forward.map_rowSlots (h : Forward b nodes ts) (hi : i < b.nodeCount) :
    (rowSlots b i).map (tripleAt ts) = ts.filter fun t => t.subject = b.nodeIds i := by
  have hall : (List.range ts.length).map (tripleAt ts) = ts :=
    List.ext_getElem (by simp) fun j h₁ h₂ => by
      rw [List.getElem_map, List.getElem_range, tripleAt, List.getD_eq_getElem _ _ h₂]
  have hslots : rowSlots b i =
      (List.range ts.length).filter fun x => (tripleAt ts x).subject = b.nodeIds i := by
    refine List.Pairwise.eq_of_mem_iff List.pairwise_lt_range' (List.pairwise_lt_range.filter _)
      fun x => ?_
    rw [List.mem_filter, List.mem_range, decide_eq_true_eq]
    constructor
    · intro hx
      obtain ⟨hget, hsub⟩ := h.of_mem_rowSlots hi hx
      exact ⟨(List.getElem?_eq_some_iff.1 hget).1, hsub⟩
    · rintro ⟨hx, hsub⟩
      exact mem_rowSlots.2 ((h.mem_row_iff hi (getElem?_tripleAt hx)).2 hsub)
  conv_rhs => rw [← hall, List.filter_map]
  rw [hslots]
  rfl

theorem Forward.tripleAt_lt (h : Forward b nodes ts) (hnodup : ts.Nodup) (hij : i < j)
    (hj : j < ts.length) : tripleAt ts i < tripleAt ts j := by
  refine lt_of_le_of_ne (h.tripleAt_le hij.le hj) ?_
  rw [tripleAt, tripleAt, List.getD_eq_getElem _ _ hj, List.getD_eq_getElem _ _ (hij.trans hj)]
  exact List.pairwise_iff_getElem.1 hnodup i j _ _ hij

/-- The forward arrays that hold distinct triples slot by slot describe them. -/
theorem Forward.forwardOf (h : Forward b nodes ts) (hnodup : ts.Nodup)
    (hread : b.onePred = true → CastSafe (objectAt ts) ts.length) :
    ForwardOf b ts.toFinset where
  ascending _ _ hij hj := h.ids_lt hij hj
  nodes id := by
    simp only [List.mem_toFinset, ← h.endpoints]
    constructor
    · rintro ⟨i, hi, rfl⟩
      exact h.ids_mem hi
    · intro hid
      exact ⟨_, h.idxOf_lt hid, h.ids_idxOf hid⟩
  first := h.offsets_zero
  mono _ _ := h.offsets_mono
  last := by rw [h.offsets_last, List.toFinset_card_of_nodup hnodup]
  rowAscending i hi := by
    rw [List.pairwise_map]
    have hasc : (rowSlots b i).Pairwise (· < ·) := List.pairwise_lt_range'
    refine hasc.imp_of_mem fun {x y} hx hy hxy => ?_
    obtain ⟨hgx, hsx⟩ := h.of_mem_rowSlots hi hx
    obtain ⟨hgy, hsy⟩ := h.of_mem_rowSlots hi hy
    have hlt := h.tripleAt_lt hnodup hxy (List.getElem?_eq_some_iff.1 hgy).1
    rw [h.slotPred hgx, h.slotPred hgy, h.slotObj hread hgx, h.slotObj hread hgy,
      Prod.Lex.toLex_lt_toLex]
    simpa [Triple.lt_iff, hsx, hsy] using hlt
  row i hi p o := by
    rw [List.mem_map, List.mem_toFinset]
    constructor
    · rintro ⟨x, hx, heq⟩
      obtain ⟨hg, hs⟩ := h.of_mem_rowSlots hi hx
      rw [h.slotPred hg, h.slotObj hread hg, Prod.mk.injEq] at heq
      have : tripleAt ts x = ⟨b.nodeIds i, p, o⟩ := by
        rw [← hs, ← heq.1, ← heq.2]
      exact this ▸ List.mem_of_getElem? hg
    · intro ht
      obtain ⟨x, hx⟩ := List.getElem?_of_mem ht
      refine ⟨x, mem_rowSlots.2 ((h.mem_row_iff hi hx).2 rfl), ?_⟩
      rw [h.slotPred hx, h.slotObj hread hx]
  targets i hi x hx := by
    obtain ⟨hg, -⟩ := h.of_mem_rowSlots hi hx
    have ho := h.object_mem (List.mem_of_getElem? hg)
    rw [h.target x _ hg, h.slotObj hread hg]
    exact ⟨h.idxOf_lt ho, h.ids_idxOf ho⟩

/-- The slots of inverse row `j` are those of the triples with object `j`, in order. -/
theorem Inverse.of_mem_invRowSlots (h : Inverse b nodes ts) (hj : j < b.nodeCount)
    (hat : at' ∈ invRowSlots b j) :
    ∃ i t, at' = b.invOffsets j + i ∧
      (bucket (fun t => nodes.idxOf t.object) ts j)[i]? = some t := by
  rw [invRowSlots, List.mem_range'_1, h.offsets_succ hj] at hat
  have hlt : at' - b.invOffsets j < (bucket (fun t => nodes.idxOf t.object) ts j).length := by omega
  exact ⟨at' - b.invOffsets j, _, by omega, List.getElem?_eq_getElem hlt⟩

/-- What the slots of inverse row `j` hold: the triples with object `j`, in order. -/
theorem Inverse.map_invRowSlots {α : Type*} (h : Inverse b nodes ts) {f : ℕ → α} {g : Triple → α}
    (hj : j < b.nodeCount)
    (hfg : ∀ i t, (bucket (fun t => nodes.idxOf t.object) ts j)[i]? = some t →
      f (b.invOffsets j + i) = g t) :
    (invRowSlots b j).map f = (bucket (fun t => nodes.idxOf t.object) ts j).map g := by
  have hlength : b.invOffsets (j + 1) - b.invOffsets j =
      (bucket (fun t => nodes.idxOf t.object) ts j).length := by
    rw [h.offsets_succ hj]
    omega
  refine List.ext_getElem (by simp [invRowSlots, hlength]) fun i h₁ h₂ => ?_
  have hi : i < (bucket (fun t => nodes.idxOf t.object) ts j).length := by simpa using h₂
  simpa [invRowSlots] using hfg i _ (List.getElem?_eq_getElem hi)

theorem Inverse.invRow_eq (h : Inverse b nodes ts)
    (hread : b.onePred = true → CastSafe b.invSources ts.length) (hj : j < b.nodeCount) :
    (invRowSlots b j).map (fun at' => (graphBaseInvSlotSubj b at', graphBaseInvSlotPred b at')) =
      (bucket (fun t => nodes.idxOf t.object) ts j).map fun t => (t.subject, t.predicate) :=
  h.map_invRowSlots hj fun _ _ ht => by rw [h.slotSubj hj ht hread, h.slotPred hj ht]

/-- The members of an inverse row as pairs of a subject and a predicate. -/
theorem Inverse.mem_invRow_iff (h : Inverse b nodes ts)
    (hread : b.onePred = true → CastSafe b.invSources ts.length) (hj : j < b.nodeCount)
    {s : NodeId} {p : PredId} :
    (s, p) ∈ (invRowSlots b j).map
        (fun at' => (graphBaseInvSlotSubj b at', graphBaseInvSlotPred b at')) ↔
      ⟨s, p, b.nodeIds j⟩ ∈ ts := by
  rw [h.invRow_eq hread hj, List.mem_map]
  constructor
  · rintro ⟨⟨s', p', o'⟩, ht, heq⟩
    obtain ⟨hmem, ho⟩ := h.of_mem_bucket ht
    obtain ⟨rfl, rfl⟩ := Prod.mk.inj heq
    exact ho ▸ hmem
  · intro hmem
    refine ⟨_, List.mem_filter.2 ⟨hmem, ?_⟩, rfl⟩
    exact decide_eq_true (h.idxOf_ids hj)

theorem Inverse.inverseOf (h : Inverse b nodes ts) (hnodup : ts.Nodup)
    (hsorted : ts.Pairwise fun t u =>
      t.subject < u.subject ∨ t.subject = u.subject ∧ t.predicate ≤ u.predicate)
    (hread : b.onePred = true → CastSafe b.invSources ts.length) : InverseOf b ts.toFinset where
  first := h.offsets_zero
  mono _ _ := h.offsets_mono
  last := by rw [h.offsets_last, List.toFinset_card_of_nodup hnodup]
  rowAscending j hj := by
    have hrow := congrArg (List.map toLex) (h.invRow_eq hread hj)
    simp only [List.map_map] at hrow
    refine (congrArg (List.Pairwise (· < ·)) hrow).mpr ?_
    rw [List.pairwise_map]
    refine ((hsorted.and hnodup).filter _).imp_of_mem fun {t u} ht hu hlt => ?_
    have ho : t.object = u.object := (h.of_mem_bucket ht).2.trans (h.of_mem_bucket hu).2.symm
    rw [Function.comp_apply, Function.comp_apply, Prod.Lex.toLex_lt_toLex]
    refine hlt.1.imp_right fun hle => ⟨hle.1, lt_of_le_of_ne hle.2 fun hp => hlt.2 ?_⟩
    rcases t with ⟨s, p, o⟩
    rcases u with ⟨s', p', o'⟩
    simp only [Triple.mk.injEq]
    exact ⟨hle.1, hp, ho⟩
  row j hj s p := by rw [h.mem_invRow_iff hread hj, List.mem_toFinset]
  sources j hj x hx := by
    obtain ⟨i, t, rfl, ht⟩ := h.of_mem_invRowSlots hj hx
    have hs := (h.ends t (h.of_mem_bucket (List.mem_of_getElem? ht)).1).1
    rw [h.source j hj i t ht, h.slotSubj hj ht hread]
    exact ⟨h.idxOf_lt hs, h.ids_idxOf hs⟩

/-- Stores that hold the same triples answer alike. -/
theorem sameAnswers {us : List Triple} (hf : Forward b nodes ts) (hf' : Forward b' nodes ts)
    (hlen : us.length = ts.length)
    (hread : b.onePred = true → CastSafe (objectAt ts) ts.length)
    (hread' : b'.onePred = true → CastSafe (objectAt ts) ts.length)
    (hi : b.hasInverse = true →
      Inverse b nodes us ∧ (b.onePred = true → CastSafe b.invSources us.length))
    (hi' : b'.hasInverse = true →
      Inverse b' nodes us ∧ (b'.onePred = true → CastSafe b'.invSources us.length)) :
    SameAnswers ts.length b b' := by
  have hcount : b'.nodeCount = b.nodeCount := hf'.count.trans hf.count.symm
  have hinv (h : b.hasInverse = true) (h' : b'.hasInverse = true) (x : ℕ) (hx : x < ts.length) :
      graphBaseInvSlotPred b x = graphBaseInvSlotPred b' x ∧
        graphBaseInvSlotSubj b x = graphBaseInvSlotSubj b' x := by
    obtain ⟨hi, hsafe⟩ := hi h
    obtain ⟨hi', hsafe'⟩ := hi' h'
    obtain ⟨j, hj, i, t, rfl, ht⟩ := hi.exists_row (hlen ▸ hx)
    have hj' : j < b'.nodeCount := hcount ▸ hj
    have hoff : b.invOffsets j = b'.invOffsets j := by
      rw [hi.offsets j hj.le, hi'.offsets j hj'.le]
    rw [hi.slotPred hj ht, hi.slotSubj hj ht hsafe, hoff, hi'.slotPred hj' ht,
      hi'.slotSubj hj' ht hsafe']
    exact ⟨rfl, rfl⟩
  refine ⟨fun id => ?_, fun x hx => ?_, fun x hx => ?_, fun h h' x hx => (hinv h h' x hx).1,
    fun h h' x hx => (hinv h h' x hx).2, fun t => ?_⟩
  · rw [hf.nodeIndex, hf'.nodeIndex]
  · rw [hf.slotPred (getElem?_tripleAt hx), hf'.slotPred (getElem?_tripleAt hx)]
  · rw [hf.slotObj hread (getElem?_tripleAt hx), hf'.slotObj hread' (getElem?_tripleAt hx)]
  · rw [Bool.eq_iff_iff, hf.contains_iff hread, hf'.contains_iff hread']
    refine and_congr_right fun hs => ?_
    have hi := hf.idxOf_lt hs
    have hoff : b'.edgeOffsets (nodes.idxOf t.subject) = b.edgeOffsets (nodes.idxOf t.subject) := by
      rw [hf.offsets _ hi.le, hf'.offsets _ (hcount ▸ hi.le)]
    have hoff' : b'.edgeOffsets (nodes.idxOf t.subject + 1) =
        b.edgeOffsets (nodes.idxOf t.subject + 1) := by
      rw [hf.offsets _ hi, hf'.offsets _ (hcount ▸ hi)]
    rw [rowCount, rowCount, hoff, hoff']

/-- Records that describe a set hold its triples. -/
theorem Forward.mem_iff_of_forwardOf (h : Forward b nodes ts) (hone : b.onePred = false)
    {set : Finset Triple} (hof : ForwardOf b set) (t : Triple) : t ∈ ts ↔ t ∈ set := by
  have hrow (i : ℕ) (hi : i < b.nodeCount) (hs : b.nodeIds i = t.subject) : t ∈ ts ↔ t ∈ set := by
    have hset := hof.row i hi t.predicate t.object
    rw [hs] at hset
    rw [← hset, List.mem_map]
    constructor
    · intro ht
      obtain ⟨x, hx⟩ := List.getElem?_of_mem ht
      refine ⟨x, mem_rowSlots.2 ((h.mem_row_iff hi hx).2 hs.symm), ?_⟩
      rw [h.slotPred hx, h.slotObj_of_records hone hx]
    · rintro ⟨x, hx, heq⟩
      obtain ⟨hg, hsub⟩ := h.of_mem_rowSlots hi hx
      rw [h.slotPred hg, h.slotObj_of_records hone hg, Prod.mk.injEq] at heq
      have : tripleAt ts x = t := by
        rcases ht : tripleAt ts x with ⟨s', p', o'⟩
        rcases t with ⟨s, p, o⟩
        rw [ht] at hsub heq
        simp only [Triple.mk.injEq]
        exact ⟨hsub.trans hs, heq⟩
      exact this ▸ List.mem_of_getElem? hg
  constructor
  · intro ht
    have hs := h.subject_mem ht
    exact (hrow _ (h.idxOf_lt hs) (h.ids_idxOf hs)).1 ht
  · intro ht
    obtain ⟨i, hi, hs⟩ := (hof.nodes t.subject).2 ⟨t, ht, .inl rfl⟩
    exact (hrow i hi hs).2 ht

/-- Inverse records that describe a set hold its triples. -/
theorem Inverse.mem_iff_of_inverseOf (h : Inverse b nodes ts) (hone : b.onePred = false)
    {set : Finset Triple} (hof : ForwardOf b set) (hinv : InverseOf b set) (t : Triple) :
    t ∈ ts ↔ t ∈ set := by
  have hrow (j : ℕ) (hj : j < b.nodeCount) (ho : b.nodeIds j = t.object) : t ∈ ts ↔ t ∈ set := by
    have hset := hinv.row j hj t.subject t.predicate
    rw [h.mem_invRow_iff (by simp [hone]) hj, ho] at hset
    exact hset
  constructor
  · intro ht
    have ho := (h.ends t ht).2.1
    exact (hrow _ (h.idxOf_lt ho) (h.ids_idxOf ho)).1 ht
  · intro ht
    obtain ⟨j, hj, ho⟩ := (hof.nodes t.object).2 ⟨t, ht, .inr rfl⟩
    exact (hrow j hj ho).2 ht

/-! ## Inverse slots -/

/-- The triples by object, then in their order. -/
def byObject (ts : List Triple) : List Triple :=
  ((ts.map fun t => toLex (t.object, t)).insertionSort (· ≤ ·)).map fun p => (ofLex p).2

/-- The subjects of the triples in their inverse slots. -/
def subjectAt (ts : List Triple) (at' : ℕ) : NodeId := (tripleAt (byObject ts) at').subject

/-- The inverse rows one after the other. -/
theorem Inverse.byObject_eq (h : Inverse b nodes ts) (hsorted : ts.Pairwise (· ≤ ·)) :
    byObject ts = (List.range b.nodeCount).flatMap (bucket (fun t => nodes.idxOf t.object) ts) := by
  set rows := (List.range b.nodeCount).flatMap (bucket (fun t => nodes.idxOf t.object) ts)
  have hperm : rows.Perm ts := perm_flatMap_bucket fun t ht => h.idxOf_lt (h.ends t ht).2.1
  have hpair : (rows.map fun t => toLex (t.object, t)).Pairwise (· ≤ ·) := by
    rw [List.pairwise_map, List.pairwise_flatMap]
    constructor
    · intro j _
      refine (hsorted.filter _).imp_of_mem fun {t u} ht hu hle => ?_
      have ho : t.object = u.object := (h.of_mem_bucket ht).2.trans (h.of_mem_bucket hu).2.symm
      exact Prod.Lex.toLex_le_toLex.2 (.inr ⟨ho, hle⟩)
    · refine List.pairwise_lt_range.imp_of_mem fun {i j} _ hj hij t ht u hu => ?_
      rw [Prod.Lex.toLex_le_toLex, (h.of_mem_bucket ht).2, (h.of_mem_bucket hu).2]
      exact .inl (h.ids_lt hij (List.mem_range.1 hj))
  have hsort : (ts.map fun t => toLex (t.object, t)).insertionSort (· ≤ ·) =
      rows.map fun t => toLex (t.object, t) :=
    ((List.perm_insertionSort _ _).trans (hperm.map _).symm).eq_of_pairwise'
      (List.pairwise_insertionSort _ _) hpair
  rw [byObject, hsort, List.map_map]
  exact List.map_id rows

theorem Inverse.source_eq (h : Inverse b nodes ts) (hsorted : ts.Pairwise (· ≤ ·)) {x : ℕ}
    (hx : x < ts.length) :
    b.invSources x = nodes.idxOf (subjectAt ts x) ∧ subjectAt ts x ∈ nodes := by
  obtain ⟨j, hj, i, t, rfl, ht⟩ := h.exists_row hx
  have hat : tripleAt (byObject ts) (b.invOffsets j + i) = t := by
    refine tripleAt_eq ?_
    rw [h.byObject_eq hsorted, h.offsets j hj.le,
      getElem?_flatMap_bucket hj (List.getElem?_eq_some_iff.1 ht).1, ht]
  rw [subjectAt, hat, h.source j hj i t ht]
  exact ⟨rfl, (h.ends t (List.mem_of_mem_filter (List.mem_of_getElem? ht))).1⟩

/-- Endpoint indices survive the cast exactly if subjects do. -/
theorem Inverse.castSafe_iff (h : Inverse b nodes ts) (hsorted : ts.Pairwise (· ≤ ·)) :
    CastSafe b.invSources ts.length ↔ CastSafe (subjectAt ts) ts.length := by
  refine forall₂_congr fun x hx => ?_
  obtain ⟨hsrc, hmem⟩ := h.source_eq hsorted hx
  obtain ⟨hsrc', hmem'⟩ := h.source_eq hsorted ((Nat.mod_le x (2 ^ 32)).trans_lt hx)
  rw [hsrc, hsrc', List.idxOf_inj hmem']

end Described

/-! ## Compaction of an empty store -/

/-- The store that compaction makes of the sorted triples. -/
structure StoreOf (b : Base) (one inv : Bool) (ts : List Triple) : Prop where
  forward : Forward b (collectNodes ts) ts
  hasInverse : b.hasInverse = inv
  inverse : inv = true → Inverse b (collectNodes ts) (reread ts)
  onePred : b.onePred = ((commonPred ts).1 && one)

theorem storeOf_buildBase {ts : List Triple} (sw : Switches) (mem : Memory) (inv : Bool)
    (hsorted : ts.Pairwise (· ≤ ·)) : StoreOf (buildBase sw mem inv ts) sw.onePredStore inv ts where
  forward := forward_buildBase sw mem inv hsorted
  hasInverse := hasInverse_buildBase sw mem inv ts
  inverse := by
    rintro rfl
    exact inverse_buildBase sw mem hsorted
  onePred := onePred_buildBase sw mem inv ts

/-- The base store is empty as created, and the triples of `ts` are committed. -/
structure Pending (g : GraphState) (ts : Finset Triple) : Prop where
  base : ∃ sw mem cap, g.base = graphBaseCreate sw mem cap g.buildInverseIndex false 0
  snapshots : g.snapshotCount = 0
  committed : ∀ t, t ∈ ts ↔ g.Committed t

/-- Whatever the switches and the memory, compaction of the triples of `ts` into an
empty store gives a well-formed pair of CSRs, and all settings answer alike. -/
def CompactsWell (g : GraphState) (ts : Finset Triple) : Prop :=
  ∀ sw mem sw' mem',
    ForwardOf (graphCompact sw mem g).2.base ts ∧
      (g.buildInverseIndex = true → InverseOf (graphCompact sw mem g).2.base ts) ∧
      SameAnswers ts.card (graphCompact sw mem g).2.base (graphCompact sw' mem' g).2.base

/-- What the casts of slot numbers leave of the sorted triples of a store.  Only a store of one
predicate reads its endpoints off the indices. -/
structure SlotsFit (inv : Bool) (ts : List Triple) : Prop where
  objects : (commonPred ts).1 = true → CastSafe (objectAt ts) ts.length
  /-- The inverse build reads the triples, if in another order. -/
  inverse : inv = true → (reread ts).Perm ts
  subjects : inv = true → (commonPred ts).1 = true → CastSafe (subjectAt ts) ts.length

theorem slotsFit_of_le {ts : List Triple} (inv : Bool) (h : ts.length ≤ 2 ^ 32) :
    SlotsFit inv ts where
  objects _ := castSafe_of_le _ h
  inverse _ := by rw [reread_of_le h]
  subjects _ _ := castSafe_of_le _ h

theorem nodup_of_toFinset {ts : List Triple} {set : Finset Triple} (h : ∀ t, t ∈ ts ↔ t ∈ set)
    (hlen : ts.length = set.card) : ts.Nodup ∧ ts.toFinset = set := by
  have hset : ts.toFinset = set := by
    ext t
    rw [List.mem_toFinset, h]
  refine ⟨?_, hset⟩
  rw [← Multiset.coe_nodup, ← Multiset.toFinset_card_eq_card_iff_nodup, Multiset.coe_card, hlen,
    ← hset]
  rfl

section Stores

variable {b b' : Base} {inv : Bool} {ts : List Triple}

/-- All settings are right if the casts leave the triples. -/
theorem StoreOf.wellFormed {one one' : Bool} (h : StoreOf b one inv ts)
    (h' : StoreOf b' one' inv ts) (hnodup : ts.Nodup) (hfit : SlotsFit inv ts) :
    ForwardOf b ts.toFinset ∧ (inv = true → InverseOf b ts.toFinset) ∧
      SameAnswers ts.length b b' := by
  have hobj {b : Base} {one : Bool} (h : StoreOf b one inv ts) (hone : b.onePred = true) :
      CastSafe (objectAt ts) ts.length :=
    hfit.objects (Bool.and_eq_true_iff.1 (h.onePred ▸ hone)).1
  have hsub {b : Base} {one : Bool} (h : StoreOf b one inv ts) (hinv : inv = true)
      (hone : b.onePred = true) : CastSafe b.invSources (reread ts).length := by
    have hread := reread_eq (hobj h hone)
    have hi := h.inverse hinv
    rw [hread] at hi ⊢
    exact (hi.castSafe_iff h.forward.sorted).2
      (hfit.subjects hinv (Bool.and_eq_true_iff.1 (h.onePred ▸ hone)).1)
  refine ⟨h.forward.forwardOf hnodup (hobj h), fun hinv => ?_,
    sameAnswers h.forward h'.forward (length_reread ts) (hobj h) (hobj h')
      (fun hinv => ?_) fun hinv => ?_⟩
  · have hperm := hfit.inverse hinv
    rw [← List.toFinset_eq_of_perm _ _ hperm]
    exact (h.inverse hinv).inverseOf (hperm.nodup_iff.2 hnodup)
      (pairwise_reread h.forward.sorted) (hsub h hinv)
  · rw [h.hasInverse] at hinv
    exact ⟨h.inverse hinv, hsub h hinv⟩
  · rw [h'.hasInverse] at hinv
    exact ⟨h'.inverse hinv, hsub h' hinv⟩

/-- A well-formed store with records, and one without them that answers alike, show what the
casts leave. -/
theorem StoreOf.slotsFit {set : Finset Triple} (h : StoreOf b true inv ts)
    (h' : StoreOf b' false inv ts) (hset : ts.toFinset = set) (hnodup : ts.Nodup)
    (hf' : ForwardOf b' set) (hi' : inv = true → InverseOf b' set)
    (hsame : SameAnswers set.card b b') : SlotsFit inv ts := by
  have hcard : set.card = ts.length := hset ▸ List.toFinset_card_of_nodup hnodup
  have hrec : b'.onePred = false := by rw [h'.onePred, Bool.and_false]
  have hobj (hone : (commonPred ts).1 = true) : CastSafe (objectAt ts) ts.length := by
    have hone : b.onePred = true := by rw [h.onePred, hone]; rfl
    intro x hx
    have ht := getElem?_tripleAt hx
    have hmod := getElem?_tripleAt ((Nat.mod_le x (2 ^ 32)).trans_lt hx)
    have hslot := hsame.slotObj x (hcard ▸ hx)
    rw [h.forward.slotObj_of_onePred hone hmod, h'.forward.slotObj_of_records hrec ht] at hslot
    exact hslot
  refine ⟨hobj, fun hinv => ?_, fun hinv hone => ?_⟩
  · have hmem := (h'.inverse hinv).mem_iff_of_inverseOf hrec hf' (hi' hinv)
    obtain ⟨hnodup', -⟩ := nodup_of_toFinset hmem ((length_reread ts).trans hcard.symm)
    refine (List.perm_ext_iff_of_nodup hnodup' hnodup).2 fun t => ?_
    rw [hmem, ← hset, List.mem_toFinset]
  · have hread := reread_eq (hobj hone)
    have hi := h.inverse hinv
    have hi' := h'.inverse hinv
    rw [hread] at hi hi'
    have hone : b.onePred = true := by rw [h.onePred, hone]; rfl
    refine (hi.castSafe_iff h.forward.sorted).1 fun x hx => ?_
    have hslot := hsame.invSlotSubj (h.hasInverse.trans hinv) (h'.hasInverse.trans hinv) x
      (hcard ▸ hx)
    obtain ⟨j, hj, i, t, rfl, ht⟩ := hi'.exists_row hx
    have hj' : j < b.nodeCount := h.forward.count ▸ h'.forward.count ▸ hj
    have hoff : b'.invOffsets j = b.invOffsets j := by
      rw [hi.offsets j hj'.le, hi'.offsets j hj.le]
    rw [hi'.slotSubj hj ht (by simp [hrec]), graphBaseInvSlotSubj, if_pos hone, graphIxAt, hoff,
      ← hi.ids_source hj' ht] at hslot
    rw [hoff] at hx ⊢
    have hlt {x : ℕ} (hx : x < ts.length) : b.invSources x < b.nodeCount := by
      obtain ⟨hsrc, hmem⟩ := hi.source_eq h.forward.sorted hx
      exact hsrc ▸ hi.idxOf_lt hmem
    have hidx := congrArg (collectNodes ts).idxOf hslot
    rwa [hi.idxOf_ids (hlt ((Nat.mod_le _ _).trans_lt hx)), hi.idxOf_ids (hlt hx)] at hidx

end Stores

section Created

variable {g : GraphState}
  (hbase : ∃ sw mem cap, g.base = graphBaseCreate sw mem cap g.buildInverseIndex false 0)
include hbase

theorem baseTriples_created : baseTriples g.base = [] := by
  obtain ⟨sw, mem, cap, hb⟩ := hbase
  rw [hb]
  rfl

theorem contains_created (t : Triple) :
    graphBaseContains g.base t = true ↔ t ∈ baseTriples g.base := by
  rw [baseTriples_created hbase]
  obtain ⟨sw, mem, cap, hb⟩ := hbase
  simp [hb, graphBaseContains, graphBaseCreate]

end Created

/-- The sorted set is what compaction sorts. -/
theorem sort_eq_qsortTriples {ts : List Triple} {set : Finset Triple}
    (hnodup : (qsortTriples ts).Nodup) (hset : (qsortTriples ts).toFinset = set) :
    set.sort = qsortTriples ts := by
  rw [← hset]
  exact (List.toFinset_sort _ hnodup).2 (pairwise_qsortTriples _)

namespace Pending

variable {g : GraphState} {ts : Finset Triple} (h : Pending g ts)
include h

theorem contains_iff (t : Triple) :
    graphBaseContains g.base t = true ↔ t ∈ baseTriples g.base := contains_created h.base t

/-- Compaction makes the store of what it collects. -/
theorem storeOf (sw : Switches) (mem : Memory) :
    StoreOf (graphCompact sw mem g).2.base sw.onePredStore g.buildInverseIndex
      (qsortTriples (collectTriples g)) := by
  -- a compaction that does nothing has nothing to collect
  have hempty (hnone : g.deltaHead.flatMap Delta.additions = []) :
      StoreOf g.base sw.onePredStore g.buildInverseIndex (qsortTriples (collectTriples g)) := by
    have hnil : qsortTriples (collectTriples g) = [] := by
      rw [collectTriples, storedTriples, baseTriples_created h.base, hnone]
      exact (qsortTriples_perm _).eq_nil
    obtain ⟨sw₀, mem₀, cap, hb⟩ := h.base
    rw [hnil, hb]
    exact ⟨forward_graphBaseCreate sw₀ mem₀ cap _ _ _, rfl,
      fun _ => inverse_graphBaseCreate sw₀ mem₀ cap _ _ _, rfl⟩
  rw [graphCompact, if_neg (by simp [h.snapshots])]
  split_ifs with hchain hcap
  · exact hempty (by rw [hchain]; rfl)
  · refine hempty (List.length_eq_zero_iff.1 ?_)
    rw [List.length_flatMap]
    exact (Nat.add_eq_zero_iff.1 hcap).1
  · exact storeOf_buildBase sw mem _ (pairwise_qsortTriples _)

theorem fits_of_compactsWell (hwell : CompactsWell g ts) :
    StoredOnce g ∧ SlotsFit g.buildInverseIndex ts.sort := by
  have hperm := qsortTriples_perm (collectTriples g)
  have hs := h.storeOf ⟨true, true, true⟩ .cleared
  have hs' := h.storeOf ⟨true, true, false⟩ .cleared
  obtain ⟨-, -, hsame⟩ := hwell ⟨true, true, true⟩ .cleared ⟨true, true, false⟩ .cleared
  obtain ⟨hf', hi', -⟩ := hwell ⟨true, true, false⟩ .cleared ⟨true, true, false⟩ .cleared
  -- the records tell the set
  have hmem := hs'.forward.mem_iff_of_forwardOf (hs'.onePred.trans (Bool.and_false _)) hf'
  have hlen := hs'.forward.offsets_last.symm.trans hf'.last
  obtain ⟨hnodup, hset⟩ := nodup_of_toFinset hmem hlen
  refine ⟨(storedOnce_iff h.contains_iff).2 ⟨hperm.nodup_iff.1 hnodup, fun t => ?_⟩, ?_⟩
  · rw [← hperm.mem_iff, hmem, h.committed]
  · rw [sort_eq_qsortTriples hnodup hset]
    exact hs.slotsFit hs' hset hnodup hf' hi' hsame

theorem compactsWell_of_fits (honce : StoredOnce g)
    (hfit : SlotsFit g.buildInverseIndex ts.sort) : CompactsWell g ts := by
  intro sw mem sw' mem'
  have hperm := qsortTriples_perm (collectTriples g)
  obtain ⟨hnodup, hmem⟩ := (storedOnce_iff h.contains_iff).1 honce
  have hnodup := hperm.nodup_iff.2 hnodup
  have hset : (qsortTriples (collectTriples g)).toFinset = ts := by
    ext t
    rw [List.mem_toFinset, hperm.mem_iff, hmem, h.committed]
  rw [sort_eq_qsortTriples hnodup hset] at hfit
  have := (h.storeOf sw mem).wellFormed (h.storeOf sw' mem') hnodup hfit
  rwa [hset, ← List.toFinset_card_of_nodup hnodup, hset] at this

end Pending

/-- Compaction builds a well-formed pair of CSRs of the committed triples, and its representation
does not matter, exactly if each of them is stored once and the casts of slot numbers leave them. -/
theorem compactsWell_iff (g : GraphState) (ts : Finset Triple) (h : Pending g ts) :
    CompactsWell g ts ↔ StoredOnce g ∧ SlotsFit g.buildInverseIndex ts.sort :=
  ⟨h.fits_of_compactsWell, fun hfit => h.compactsWell_of_fits hfit.1 hfit.2⟩

/-- Without deletions everything that was added is committed. -/
theorem pending_of_additions {g : GraphState}
    (hbase : ∃ sw mem cap, g.base = graphBaseCreate sw mem cap g.buildInverseIndex false 0)
    (hsnap : g.snapshotCount = 0) (hdel : ∀ d ∈ g.deltaHead, d.deletions = []) :
    Pending g (g.deltaHead.flatMap Delta.additions).toFinset := by
  refine ⟨hbase, hsnap, fun t => ?_⟩
  have hd : graphIsTripleDeleted g.deltaHead t = false := by
    rw [graphIsTripleDeleted, List.any_eq_false]
    intro d hd
    simp [hdel d hd]
  rw [committed_iff_of_not_deleted (contains_created hbase) hd, storedTriples,
    baseTriples_created hbase, List.nil_append, List.mem_toFinset]

/-- Add triples to a new graph and commit each. -/
def committedOneByOne (ts : List Triple) : GraphState :=
  ts.foldl (fun g t => ((graphAddTriple g t).map fun r => graphCommit r.2).getD g)
    (graphCreate ⟨true, true, true⟩ .cleared 1024 true)

theorem compactsWell_of_three :
    ∃ ts : Finset Triple, ts = {⟨1, 2, 3⟩, ⟨1, 4, 2⟩, ⟨3, 2, 3⟩} ∧
      CompactsWell (committedOneByOne [⟨3, 2, 3⟩, ⟨1, 2, 3⟩, ⟨1, 4, 2⟩]) ts := by
  set g := committedOneByOne [⟨3, 2, 3⟩, ⟨1, 2, 3⟩, ⟨1, 4, 2⟩]
  have hp : Pending g _ := pending_of_additions ⟨_, _, _, rfl⟩ (by decide +kernel)
    (by decide +kernel)
  have hset : (g.deltaHead.flatMap Delta.additions).toFinset =
      {⟨1, 2, 3⟩, ⟨1, 4, 2⟩, ⟨3, 2, 3⟩} := by decide +kernel
  refine ⟨_, hset, (compactsWell_iff g _ hp).2 ⟨fun t ht => ?_, slotsFit_of_le _ ?_⟩⟩
  · rw [← hp.committed, hset] at ht
    simp only [Finset.mem_insert, Finset.mem_singleton] at ht
    rcases ht with rfl | rfl | rfl <;> exact ⟨by decide +kernel, by decide +kernel⟩
  · rw [Finset.length_sort, hset]
    decide

/-- A triple that was added and committed twice is in two slots. -/
theorem exists_not_compactsWell :
    ∃ g ts, g = committedOneByOne [⟨1, 2, 3⟩, ⟨1, 2, 3⟩] ∧ ts = {⟨1, 2, 3⟩} ∧ Pending g ts ∧
      ¬ CompactsWell g ts := by
  set g := committedOneByOne [⟨1, 2, 3⟩, ⟨1, 2, 3⟩]
  have hp : Pending g _ := pending_of_additions ⟨_, _, _, rfl⟩ (by decide +kernel)
    (by decide +kernel)
  refine ⟨g, _, rfl, by decide +kernel, hp, fun hwell => ?_⟩
  have honce := (hp.fits_of_compactsWell hwell).1 ⟨1, 2, 3⟩ ((hp.committed _).1 (by decide +kernel))
  exact absurd honce.2 (by decide +kernel)

end Virtuoso.Graph
