import Virtuoso.Graph.Adjacent
import Virtuoso.Lib.Buffer

/-!
# The directed local clustering coefficient

`lcc_directed_slice` gathers the distinct neighbours of a node over both directions with
a bitmap, and then counts the edges between them along their outgoing rows.  A row lists
an endpoint once for each edge to it, so two neighbours that are joined by several edges
count several times.
-/

namespace Virtuoso.Graph

open Lib Finset

/-- `nbset` and `nblist`. -/
structure Neighborhood where
  nbset : ℕ → Bool
  nblist : List ℕ

/-- The body of the walk at `u`.  A self-loop does not make a vertex its own neighbour. -/
def addNeighbor (u : ℕ) (nb : Neighborhood) (v : ℕ) : Neighborhood :=
  if v = u then nb
  else if nb.nbset v then nb
  else ⟨Function.update nb.nbset v true, nb.nblist ++ [v]⟩

section Source

variable (indexWalk : Bool) (s : Snapshot) (filter : Option PredFilter)

/-- The neighbourhood of `u` over both directions. -/
def neighborhood (u : ℕ) : Neighborhood :=
  (neighbors indexWalk s .both filter u).foldl (addNeighbor u) ⟨fun _ => false, []⟩

/-- The walk along the row of the neighbour `x`. -/
def countRow (nb : Neighborhood) (links x : ℕ) : ℕ :=
  (neighbors indexWalk s .outgoing filter x).foldl
    (fun links w => if w ≠ x ∧ nb.nbset w = true then links + 1 else links) links

/-- What is computed for one node; the quotient of two doubles is exact here. -/
structure LccNode where
  nbc : ℕ
  links : ℕ
  coef : ℚ

/-- The body of `lcc_directed_slice`. -/
def lccDirectedAt (u : ℕ) : LccNode :=
  let nb := neighborhood indexWalk s filter u
  let nbc := nb.nblist.length
  if nbc < 2 then ⟨nbc, 0, 0⟩
  else
    let links := nb.nblist.foldl (countRow indexWalk s filter nb) 0
    ⟨nbc, links, links / (nbc * (nbc - 1) % 2 ^ 64 : ℕ)⟩

/-- `lcc_directed_slice`: the coefficients after a worker has done its part. -/
def lccDirectedSlice (coef : ℕ → ℚ) (start stop : ℕ) : ℕ → ℚ :=
  writeAll ((List.range' start (stop - start)).map fun u =>
    (u, (lccDirectedAt indexWalk s filter u).coef)) coef

end Source

/-! ## What is to be computed -/

instance (ts : List Triple) (dir : Direction) (filter : Option PredFilter) (x y : NodeId) :
    Decidable (Adjacent ts dir filter x y) :=
  inferInstanceAs (Decidable (∃ t ∈ ts, _ ∧ (_ ∨ _)))

section Meaning

variable (ts : List Triple) (filter : Option PredFilter) (x : NodeId)

/-- The distinct neighbours of `x` other than `x`. -/
def distinctNeighbors : Finset NodeId :=
  (collectNodes ts).toFinset.filter fun y => y ≠ x ∧ Adjacent ts .both filter x y

/-- The ordered pairs of neighbours that an edge joins. -/
def linkedPairs : Finset (NodeId × NodeId) :=
  (distinctNeighbors ts filter x ×ˢ distinctNeighbors ts filter x).filter fun p =>
    p.1 ≠ p.2 ∧ Adjacent ts .outgoing filter p.1 p.2

/-- The edges between two neighbours. -/
def linkTriples : List Triple :=
  ts.filter fun t => predMatches filter t.predicate ∧ t.subject ≠ t.object ∧
    t.subject ∈ distinctNeighbors ts filter x ∧ t.object ∈ distinctNeighbors ts filter x

/-- No two edges go from one neighbour to the same other one. -/
def SingleLinks : Prop :=
  ((linkTriples ts filter x).map fun t => (t.subject, t.object)).Nodup

/-- The rows that are walked for `x` have less than `2 ^ 32` entries, the inverse row of `x` holds
the edges into `x`, and the number of pairs of neighbours fits in 64 bits. -/
structure RowsFit : Prop where
  out : (ts.filter fun t => t.subject = x).length < 2 ^ 32
  into : (ts.filter fun t => t.object = x).length < 2 ^ 32
  inverse : ((reread ts).filter fun t => t.object = x) = ts.filter fun t => t.object = x
  next : ∀ y ∈ distinctNeighbors ts filter x, (ts.filter fun t => t.subject = y).length < 2 ^ 32
  pairs : (distinctNeighbors ts filter x).card ≤ 2 ^ 32

variable {ts filter x}

theorem mem_distinctNeighbors {y : NodeId} :
    y ∈ distinctNeighbors ts filter x ↔ y ≠ x ∧ Adjacent ts .both filter x y := by
  simp only [distinctNeighbors, mem_filter, List.mem_toFinset, and_iff_right_iff_imp]
  exact fun h => h.2.mem_nodes.2

/-- The joined pairs are those of the edges. -/
theorem linkedPairs_eq :
    linkedPairs ts filter x =
      ((linkTriples ts filter x).map fun t => (t.subject, t.object)).toFinset := by
  ext ⟨y, z⟩
  rw [linkedPairs, mem_filter, mem_product, List.mem_toFinset, List.mem_map]
  simp only [linkTriples, List.mem_filter, decide_eq_true_eq, Prod.mk.injEq]
  constructor
  · rintro ⟨⟨hy, hz⟩, hne, t, ht, hp, ⟨-, rfl, rfl⟩ | ⟨hdir, -⟩⟩
    · exact ⟨t, ⟨ht, hp, hne, hy, hz⟩, rfl, rfl⟩
    · simp [Direction.Backwards] at hdir
  · rintro ⟨t, ⟨ht, hp, hne, hy, hz⟩, rfl, rfl⟩
    exact ⟨⟨hy, hz⟩, hne, t, ht, hp, .inl ⟨.inl rfl, rfl, rfl⟩⟩

/-- There are no more joined pairs than pairs. -/
theorem card_linkedPairs_le :
    (linkedPairs ts filter x).card ≤
      (distinctNeighbors ts filter x).card * ((distinctNeighbors ts filter x).card - 1) := by
  rw [Nat.mul_sub_one, ← offDiag_card]
  refine card_le_card fun p hp => ?_
  simp only [linkedPairs, mem_filter, mem_product] at hp
  exact mem_offDiag.2 ⟨hp.1.1, hp.1.2, hp.2.1⟩

/-- A node has no more distinct neighbours than there are edges. -/
theorem card_distinctNeighbors_le : (distinctNeighbors ts filter x).card ≤ ts.length := by
  have hsub : distinctNeighbors ts filter x ⊆
      (ts.map fun t => if t.subject = x then t.object else t.subject).toFinset := by
    intro y hy
    obtain ⟨hne, t, ht, -, ⟨-, hs, ho⟩ | ⟨-, ho, hs⟩⟩ := mem_distinctNeighbors.1 hy
    · exact List.mem_toFinset.2 (List.mem_map.2 ⟨t, ht, by rw [if_pos hs, ho]⟩)
    · exact List.mem_toFinset.2 (List.mem_map.2 ⟨t, ht, by rw [if_neg (hs ▸ hne), hs]⟩)
  calc (distinctNeighbors ts filter x).card
    _ ≤ _ := card_le_card hsub
    _ ≤ _ := List.toFinset_card_le _
    _ = ts.length := List.length_map _

/-- In a store of less than `2 ^ 32` triples everything fits. -/
theorem rowsFit_of_lt (hlen : ts.length < 2 ^ 32) : RowsFit ts filter x where
  out := (List.length_filter_le _ _).trans_lt hlen
  into := (List.length_filter_le _ _).trans_lt hlen
  inverse := by rw [reread_of_le hlen.le]
  next _ _ := (List.length_filter_le _ _).trans_lt hlen
  pairs := card_distinctNeighbors_le.trans hlen.le

/-- A walk from `x` comes to the other ends of its edges. -/
theorem RowsFit.seen_iff (h : RowsFit ts filter x) {y : NodeId} :
    Seen ts .both filter x y ↔ Adjacent ts .both filter x y := by
  have hin : walkedIn ts x = ts.filter fun t => t.object = x := by
    rw [walkedIn, h.inverse, walked_of_lt h.into]
  rw [Seen, walkedOut_of_lt h.out, hin]
  constructor
  · rintro (⟨hdir, t, ht, hp, rfl⟩ | ⟨hdir, t, ht, hp, rfl⟩)
    · obtain ⟨ht, hs⟩ := List.mem_filter.1 ht
      exact ⟨t, ht, hp, .inl ⟨hdir, of_decide_eq_true hs, rfl⟩⟩
    · obtain ⟨ht, ho⟩ := List.mem_filter.1 ht
      exact ⟨t, ht, hp, .inr ⟨hdir, of_decide_eq_true ho, rfl⟩⟩
  · rintro ⟨t, ht, hp, ⟨hdir, hs, rfl⟩ | ⟨hdir, ho, rfl⟩⟩
    · exact .inl ⟨hdir, t, List.mem_filter.2 ⟨ht, decide_eq_true hs⟩, hp, rfl⟩
    · exact .inr ⟨hdir, t, List.mem_filter.2 ⟨ht, decide_eq_true ho⟩, hp, rfl⟩

end Meaning

/-- The slice computes for `u` the distinct neighbours, the joined pairs of them and a
coefficient between zero and one. -/
structure LccExact (indexWalk : Bool) (s : Snapshot) (ts : List Triple)
    (filter : Option PredFilter) (u : ℕ) (x : NodeId) : Prop where
  nbc : (lccDirectedAt indexWalk s filter u).nbc = (distinctNeighbors ts filter x).card
  links : (lccDirectedAt indexWalk s filter u).links = (linkedPairs ts filter x).card
  links_le : (lccDirectedAt indexWalk s filter u).links ≤
    (lccDirectedAt indexWalk s filter u).nbc * ((lccDirectedAt indexWalk s filter u).nbc - 1)
  coef : ∀ (coef : ℕ → ℚ) (start stop : ℕ), start ≤ u → u < stop →
    0 ≤ lccDirectedSlice indexWalk s filter coef start stop u ∧
      lccDirectedSlice indexWalk s filter coef start stop u ≤ 1

/-! ## What the slice computes -/

/-- The set and the list hold the indices of `l` other than `u`, each once. -/
structure Gathered (u : ℕ) (l : List ℕ) (nb : Neighborhood) : Prop where
  nbset : ∀ v, nb.nbset v = true ↔ v ∈ nb.nblist
  nodup : nb.nblist.Nodup
  mem : ∀ v, v ∈ nb.nblist ↔ v ∈ l ∧ v ≠ u

theorem Gathered.addNeighbor {u v : ℕ} {l : List ℕ} {nb : Neighborhood} (h : Gathered u l nb) :
    Gathered u (l ++ [v]) (addNeighbor u nb v) := by
  have hmem := h.mem
  unfold Graph.addNeighbor
  split_ifs with hu hv
  · exact ⟨h.nbset, h.nodup, by grind⟩
  · rw [h.nbset] at hv
    exact ⟨h.nbset, h.nodup, by grind⟩
  · rw [h.nbset] at hv
    refine ⟨fun w => ?_, ?_, by grind⟩
    · by_cases hw : w = v <;> simp [hw, h.nbset]
    · exact List.nodup_append.2 ⟨h.nodup, by simp, by grind⟩

theorem gathered_foldl (u : ℕ) (l : List ℕ) :
    Gathered u l (l.foldl (addNeighbor u) ⟨fun _ => false, []⟩) := by
  induction l using List.reverseRecOn with
  | nil => exact ⟨by simp, List.nodup_nil, by simp⟩
  | append_singleton l v ih =>
    rw [List.foldl_append]
    exact ih.addNeighbor

theorem foldl_count {α : Type*} (p : α → Prop) [DecidablePred p] (l : List α) (k : ℕ) :
    l.foldl (fun k w => if p w then k + 1 else k) k = k + l.countP p := by
  induction l generalizing k with
  | nil => rfl
  | cons a l ih =>
    rw [List.foldl_cons, ih, List.countP_cons]
    by_cases hp : p a
    · simp only [hp, if_true, decide_true]
      omega
    · simp only [hp, if_false, decide_false, Nat.add_zero, Bool.false_eq_true]

/-- Counting by fibres. -/
theorem sum_countP {α : Type*} {f : α → ℕ} {p : α → Prop} [DecidablePred p] {l : List ℕ}
    (hl : l.Nodup) (ts : List α) :
    (l.map fun x => ts.countP fun t => f t = x ∧ p t).sum = ts.countP fun t => f t ∈ l ∧ p t := by
  induction l with
  | nil => simp
  | cons x l ih =>
    obtain ⟨hx, hl⟩ := List.nodup_cons.1 hl
    rw [List.map_cons, List.sum_cons, ih hl,
      List.countP_eq_countP_filter_add ts (fun t => f t ∈ x :: l ∧ p t) fun t => f t = x,
      List.countP_filter, List.countP_filter]
    congr 1
    · exact List.countP_congr fun t _ => by simp; tauto
    · exact List.countP_congr fun t _ => by grind

section Exact

variable {indexWalk : Bool} {s : Snapshot} {ts : List Triple} {filter : Option PredFilter} {u : ℕ}

theorem gathered_neighborhood : Gathered u (neighbors indexWalk s .both filter u)
    (neighborhood indexWalk s filter u) := gathered_foldl u _

theorem countRow_eq (nb : Neighborhood) (links x : ℕ) :
    countRow indexWalk s filter nb links x =
      links + (neighbors indexWalk s .outgoing filter x).countP fun w => w ≠ x ∧
        nb.nbset w = true :=
  foldl_count _ _ _

namespace CompactSnapshot

variable (h : CompactSnapshot s ts) (hu : u < s.graph.base.nodeCount)
  (hfit : RowsFit ts filter (s.graph.base.nodeIds u))
include h hu

theorem idxOf_eq_iff {y : NodeId} (hy : y ∈ collectNodes ts) :
    (collectNodes ts).idxOf y = u ↔ y = s.graph.base.nodeIds u := by
  constructor
  · rintro rfl
    exact (h.forward.ids_idxOf hy).symm
  · rintro rfl
    exact h.forward.idxOf_ids hu

include hfit

/-- The list holds the indices of the distinct neighbours. -/
theorem mem_nblist {y : NodeId} (hy : y ∈ collectNodes ts) :
    (collectNodes ts).idxOf y ∈ (neighborhood indexWalk s filter u).nblist ↔
      y ∈ distinctNeighbors ts filter (s.graph.base.nodeIds u) := by
  have hf := h.forward
  rw [gathered_neighborhood.mem, h.mem_neighbors_iff hu, ne_eq, h.idxOf_eq_iff hu hy,
    hf.ids_idxOf hy, hfit.seen_iff, mem_distinctNeighbors, and_iff_right (hf.idxOf_lt hy), and_comm]

theorem length_nblist :
    (neighborhood indexWalk s filter u).nblist.length =
      (distinctNeighbors ts filter (s.graph.base.nodeIds u)).card := by
  have hf := h.forward
  have hg := @gathered_neighborhood indexWalk s filter u
  have hlist : (neighborhood indexWalk s filter u).nblist.toFinset =
      (distinctNeighbors ts filter (s.graph.base.nodeIds u)).image (collectNodes ts).idxOf := by
    ext v
    rw [List.mem_toFinset, mem_image]
    constructor
    · intro hv
      have hlt := h.lt_of_mem_neighbors ((hg.mem v).1 hv).1
      refine ⟨s.graph.base.nodeIds v, ?_, hf.idxOf_ids hlt⟩
      rw [← @mem_nblist indexWalk s ts filter u h hu hfit _ (hf.ids_mem hlt), hf.idxOf_ids hlt]
      exact hv
    · rintro ⟨y, hy, rfl⟩
      exact (h.mem_nblist hu hfit (mem_distinctNeighbors.1 hy).2.mem_nodes.2).2 hy
  rw [← List.toFinset_card_of_nodup hg.nodup, hlist, card_image_of_injOn]
  intro y hy z hz heq
  exact (List.idxOf_inj (mem_distinctNeighbors.1 hy).2.mem_nodes.2).1 heq

/-- The walks along the rows count the edges between neighbours. -/
theorem foldl_countRow :
    (neighborhood indexWalk s filter u).nblist.foldl
        (countRow indexWalk s filter (neighborhood indexWalk s filter u)) 0 =
      (linkTriples ts filter (s.graph.base.nodeIds u)).length := by
  have hf := h.forward
  have hg := @gathered_neighborhood indexWalk s filter u
  set nb := neighborhood indexWalk s filter u
  have hrow (x : ℕ) (hx : x ∈ nb.nblist) :
      ((neighbors indexWalk s .outgoing filter x).countP fun w => w ≠ x ∧ nb.nbset w = true) =
        ts.countP fun t => (collectNodes ts).idxOf t.subject = x ∧
          predMatches filter t.predicate = true ∧ t.subject ≠ t.object ∧
            t.object ∈ distinctNeighbors ts filter (s.graph.base.nodeIds u) := by
    have hlt := h.lt_of_mem_neighbors ((hg.mem x).1 hx).1
    have hrow : walkedOut ts (s.graph.base.nodeIds x) =
        ts.filter fun t => t.subject = s.graph.base.nodeIds x := by
      refine walkedOut_of_lt (hfit.next _ ?_)
      rwa [← h.mem_nblist hu hfit (hf.ids_mem hlt), hf.idxOf_ids hlt]
    rw [h.neighbors_eq hlt, if_pos (.inl rfl), if_neg (by simp [Direction.Backwards]), hrow,
      List.append_nil, List.countP_map, List.countP_filter, List.countP_filter]
    refine List.countP_congr fun t ht => ?_
    have hs := hf.subject_mem ht
    have ho := hf.object_mem ht
    simp only [Function.comp_apply, Bool.and_eq_true, decide_eq_true_eq, hg.nbset,
      h.mem_nblist hu hfit ho, ← h.idxOf_eq_iff hlt hs, nb]
    constructor
    · rintro ⟨⟨⟨hne, hmem⟩, hp⟩, rfl⟩
      exact ⟨rfl, hp, fun heq => hne (by rw [heq]), hmem⟩
    · rintro ⟨rfl, hp, hne, hmem⟩
      exact ⟨⟨⟨fun heq => hne ((List.idxOf_inj ho).1 heq).symm, hmem⟩, hp⟩, rfl⟩
  calc nb.nblist.foldl (countRow indexWalk s filter nb) 0
    _ = (nb.nblist.map fun x => (neighbors indexWalk s .outgoing filter x).countP fun w =>
          w ≠ x ∧ nb.nbset w = true).sum := by
      rw [List.sum_eq_foldl, List.foldl_map, funext₂ (countRow_eq nb)]
    _ = _ := by
      rw [List.map_congr_left hrow, sum_countP hg.nodup, List.countP_eq_length_filter]
      refine congrArg List.length (List.filter_congr fun t ht => decide_eq_decide.2 ?_)
      rw [h.mem_nblist hu hfit (hf.subject_mem ht)]
      tauto

/-- What is computed for a node. -/
theorem lccDirectedAt_eq :
    lccDirectedAt indexWalk s filter u =
      let nbc := (distinctNeighbors ts filter (s.graph.base.nodeIds u)).card
      let links := (linkTriples ts filter (s.graph.base.nodeIds u)).length
      ⟨nbc, links, links / (nbc * (nbc - 1) : ℕ)⟩ := by
  have hle := hfit.pairs
  simp only [lccDirectedAt, h.length_nblist hu hfit, h.foldl_countRow hu hfit]
  split_ifs with hlt
  · have hnil : linkTriples ts filter (s.graph.base.nodeIds u) = [] := by
      rw [linkTriples, List.filter_eq_nil_iff]
      intro t _ ht
      obtain ⟨-, hne, hs, ho⟩ := of_decide_eq_true ht
      exact hne (card_le_one.1 (Nat.le_of_lt_succ hlt) _ hs _ ho)
    simp [hnil]
  · rw [Nat.mod_eq_of_lt]
    calc _ ≤ 2 ^ 32 * (2 ^ 32 - 1) := by gcongr
      _ < 2 ^ 64 := by norm_num

/-- The numerator is the number of joined pairs exactly if no pair is joined twice. -/
theorem lccExact_iff_singleLinks :
    LccExact indexWalk s ts filter u (s.graph.base.nodeIds u) ↔
      SingleLinks ts filter (s.graph.base.nodeIds u) := by
  have hat := @lccDirectedAt_eq indexWalk s ts filter u h hu hfit
  have hcard : (linkTriples ts filter (s.graph.base.nodeIds u)).length =
      (linkedPairs ts filter (s.graph.base.nodeIds u)).card ↔
        SingleLinks ts filter (s.graph.base.nodeIds u) := by
    rw [linkedPairs_eq, SingleLinks, ← Multiset.coe_nodup,
      ← Multiset.toFinset_card_eq_card_iff_nodup, Multiset.coe_card, List.length_map, eq_comm]
    rfl
  constructor
  · intro hexact
    have := hexact.links
    rw [hat] at this
    exact hcard.1 this
  · intro hsingle
    have hlinks := hcard.2 hsingle
    have hle := hlinks.trans_le card_linkedPairs_le
    refine ⟨by rw [hat], by rw [hat]; exact hlinks, by rw [hat]; exact hle, ?_⟩
    intro coef start stop h₁ h₂
    rw [lccDirectedSlice, writeAll_map (List.mem_range'_1.2 (by omega)), hat]
    exact ⟨div_nonneg (Nat.cast_nonneg _) (Nat.cast_nonneg _),
      div_le_one_of_le₀ (Nat.cast_le.2 hle) (Nat.cast_nonneg _)⟩

end CompactSnapshot

end Exact

/-- At a node whose rows fit the numerator counts the joined pairs of neighbours exactly if no
pair is joined twice. -/
theorem lccExact_iff (s : Snapshot) (ts : List Triple) (h : CompactSnapshot s ts) (indexWalk : Bool)
    (filter : Option PredFilter) (u : ℕ) (x : NodeId) (hx : s.nodeMap[u]? = some x)
    (hfit : RowsFit ts filter x) :
    LccExact indexWalk s ts filter u x ↔ SingleLinks ts filter x := by
  obtain ⟨hu, rfl⟩ := h.of_nodeMap_getElem? hx
  exact h.lccExact_iff_singleLinks hu hfit

/-- Node 1 next to 2 and 3, which edges join both ways. -/
def triangleList : List Triple := [⟨1, 1, 2⟩, ⟨2, 1, 3⟩, ⟨3, 1, 1⟩, ⟨3, 2, 2⟩]

theorem lccExact_triangle :
    ∃ s, CompactSnapshot s triangleList ∧ s.nodeMap[0]? = some 1 ∧
      LccExact true s triangleList none 0 1 ∧ (linkedPairs triangleList none 1).card = 2 := by
  obtain ⟨s, hs, -⟩ := @exists_compactSnapshot triangleList (by decide) (by decide)
  have hget : s.nodeMap[0]? = some 1 := by
    rw [hs.nodeMap_eq, show collectNodes triangleList = [1, 2, 3] by decide +kernel]
    rfl
  have hsingle : SingleLinks triangleList none 1 := by
    rw [SingleLinks]
    decide +kernel
  exact ⟨s, hs, hget, (lccExact_iff s _ hs true none 0 1 hget
    (rowsFit_of_lt (by decide))).2 hsingle, by decide +kernel⟩

/-- Two edges from 2 to 3 under different predicates, and node 1 next to both. -/
def parallelList : List Triple := [⟨1, 1, 2⟩, ⟨1, 1, 3⟩, ⟨2, 1, 3⟩, ⟨2, 2, 3⟩]

/-- Both edges count: the numerator at node 1 is two where one pair is joined. -/
theorem exists_not_lccExact :
    ∃ s, CompactSnapshot s parallelList ∧ s.nodeMap[0]? = some 1 ∧
      (lccDirectedAt true s none 0).links = 2 ∧ (linkedPairs parallelList none 1).card = 1 ∧
        ¬ LccExact true s parallelList none 0 1 := by
  obtain ⟨s, hs, -⟩ := @exists_compactSnapshot parallelList (by decide) (by decide)
  have hnodes : collectNodes parallelList = [1, 2, 3] := by decide +kernel
  have hget : s.nodeMap[0]? = some 1 := by
    rw [hs.nodeMap_eq, hnodes]
    rfl
  obtain ⟨hu, hid⟩ := hs.of_nodeMap_getElem? hget
  have hlinks : (lccDirectedAt true s none 0).links = 2 := by
    rw [hs.lccDirectedAt_eq hu (rowsFit_of_lt (by decide)), hid]
    decide +kernel
  have hcard : (linkedPairs parallelList none 1).card = 1 := by decide +kernel
  refine ⟨s, hs, hget, hlinks, hcard, fun hexact => ?_⟩
  have := hexact.links
  rw [hlinks, hcard] at this
  exact absurd this (by decide)

end Virtuoso.Graph
