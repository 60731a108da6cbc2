import Virtuoso.Graph.Adjacent

/-!
# The index-only walk and the general one

Over a compacted store without a delta chain the two walks of the iterator, the runs and
the jumps are ways to go through one sequence.  The general walk also reads the id of a
neighbour off its slot, in a store of one predicate at the number of the slot modulo
`2 ^ 32`, so `neighbor_id` is right exactly if the index there is that of the slot.
-/

namespace Virtuoso.Graph

open NeighborCtx

/-- `neighbor_remaining`: `none` for the caller that has to count itself. -/
def neighborRemaining (c : NeighborCtx) : Option ℕ :=
  if !c.fast then none else some (c.baseCount - c.baseIdx + (c.invCount - c.invIdx))

/-- `last_id` after the next call.  The index-only walk leaves it invalid. -/
def lastId (c : NeighborCtx) : NodeId :=
  if c.fast then idInvalid
  else
    match c.outLeft.find? c.keepsOut with
    | some at' => graphBaseSlotObj c.snapshot.graph.base (c.baseStart + at')
    | none =>
      match c.inLeft.find? c.keepsIn with
      | some at' => graphBaseInvSlotSubj c.snapshot.graph.base (c.invStart + at')
      | none =>
        match c.additions.find? c.keepsAddition with
        | some t => if t.subject = c.node then t.object else t.subject
        | none => idInvalid

/-- `neighbor_id` after the next call, which yields `ix`. -/
def neighborId (c : NeighborCtx) (ix : ℕ) : NodeId :=
  if lastId c ≠ idInvalid then lastId c else c.snapshot.graph.base.nodeIds ix

namespace NeighborCtx

/-- What the iterator yields to its end. -/
def yields (c : NeighborCtx) : List (Option ℕ) := neighborYields c.calls c

/-- The iterator at positions of the two rows. -/
def at' (c : NeighborCtx) (i j : ℕ) : NeighborCtx := { c with baseIdx := i, invIdx := j }

end NeighborCtx

/-- The walk with indices and the one without go through one sequence, the runs and jumps of the
first go along it, it knows what is left, and both know where they are. -/
structure WalksAlike (nodeMap : List NodeId) (on off : NeighborCtx) : Prop where
  next : off.yields = on.yields
  runs : ∀ fuel, 2 ≤ fuel → (neighborRuns fuel on).flatten.map some = on.yields
  skip : ∀ n, ∃ c, neighborSkip on n = some c ∧ c.yields = on.yields.drop n
  remaining : ∀ i ≤ on.baseCount, ∀ j ≤ on.invCount,
    neighborRemaining (on.at' i j) = some (on.at' i j).yields.length
  id : ∀ c ∈ [on, off], ∀ i j ix c', neighborNext (c.at' i j) = some (some ix, c') →
    nodeMap[ix]? = some (neighborId (c.at' i j) ix)

section Fast

variable {c : NeighborCtx} (hfast : c.fast = true)
include hfast

theorem rest_of_fast : c.rest = (c.outLeft.map c.targetAt ++ c.inLeft.map c.sourceAt).map some := by
  rw [rest, if_pos hfast, List.map_append, List.map_map, List.map_map]
  rfl

theorem length_rest_of_fast :
    c.rest.length = c.baseCount - c.baseIdx + (c.invCount - c.invIdx) := by
  simp [rest_of_fast hfast, outLeft, inLeft]

/-- There are two runs at most. -/
theorem flatten_neighborRuns {fuel : ℕ} (hfuel : 2 ≤ fuel) :
    (neighborRuns fuel c).flatten.map some = c.rest := by
  obtain ⟨fuel, rfl⟩ := Nat.exists_eq_add_of_le' hfuel
  rw [rest_of_fast hfast]
  congr 1
  by_cases h₁ : c.baseIdx < c.baseCount <;> by_cases h₂ : c.invIdx < c.invCount
  · cases fuel <;> simp [neighborRuns, neighborNextRun, hfast, h₁, h₂, inLeft,
      sourceAt]
  · simp [neighborRuns, neighborNextRun, hfast, h₁, h₂, inLeft_eq_nil (not_lt.1 h₂)]
  · cases fuel <;> simp [neighborRuns, neighborNextRun, hfast, h₁, h₂,
      outLeft_eq_nil (not_lt.1 h₁)]
  · simp [neighborRuns, neighborNextRun, hfast, h₁, h₂, outLeft_eq_nil (not_lt.1 h₁),
      inLeft_eq_nil (not_lt.1 h₂)]

end Fast

section Chainless

variable {s : Snapshot} {indexWalk : Bool} {dir : Direction} {v : ℕ}

/-- What the next call yields without a chain, and the id it leaves. -/
theorem of_neighborNext (hchain : s.deltaHead = []) {i j ix : ℕ} {c c' : NeighborCtx}
    (hc : (neighborInitAt indexWalk s v dir none).at' i j = c)
    (h : neighborNext c = some (some ix, c')) :
    (∃ x ∈ outSlots s.graph.base dir v, ix = s.graph.base.edgeTargets x ∧
      lastId c ∈ [idInvalid, graphBaseSlotObj s.graph.base x]) ∨
    ∃ x ∈ inSlots s.graph.base dir v, ix = s.graph.base.invSources x ∧
      lastId c ∈ [idInvalid, graphBaseInvSlotSubj s.graph.base x] := by
  have hout : outSlots s.graph.base dir v = (List.range c.baseCount).map (c.baseStart + ·) :=
    hc ▸ @outSlots_eq s indexWalk dir none v hchain
  have hin : inSlots s.graph.base dir v = (List.range c.invCount).map (c.invStart + ·) :=
    hc ▸ @inSlots_eq s indexWalk dir none v hchain
  have hs : s = c.snapshot := hc ▸ rfl
  have hcount : c.baseCount < 2 ^ 32 := hc ▸ @baseCount_neighborInitAt_lt s indexWalk dir none v
  have hinCount : c.invCount < 2 ^ 32 := hc ▸ @invCount_neighborInitAt_lt s indexWalk dir none v
  have htarget {k : ℕ} (hk : k < c.baseCount) :
      c.targetAt k = s.graph.base.edgeTargets (c.baseStart + k) :=
    hs ▸ graphIxAt_of_mem hcount (List.mem_range.2 hk)
  have hsource {k : ℕ} (hk : k < c.invCount) :
      c.sourceAt k = s.graph.base.invSources (c.invStart + k) :=
    hs ▸ graphIxAt_of_mem hinCount (List.mem_range.2 hk)
  have hix : c.useIx = true := hc ▸ decide_eq_true hchain
  have hadd : c.additions = [] := by
    rw [← hc]
    simp [at', neighborInitAt, hchain]
  simp only [hout, hin, List.mem_map, List.mem_range, exists_exists_and_eq_and]
  rw [lastId]
  rw [neighborNext] at h
  split_ifs at h ⊢ with hfast h₁ h₂
  · simp only [htarget h₁, Option.some.injEq, Prod.mk.injEq] at h
    exact .inl ⟨c.baseIdx, h₁, h.1.symm, by simp⟩
  · simp only [hsource h₂, Option.some.injEq, Prod.mk.injEq] at h
    exact .inr ⟨c.invIdx, h₂, h.1.symm, by simp⟩
  · rw [nextOutgoing] at h
    cases hfind : c.outLeft.find? c.keepsOut with
    | some k =>
      have hk := List.mem_range'_1.1 (List.mem_of_find?_eq_some hfind)
      have hlt : k < c.baseCount := by omega
      simp only [hfind, outIx, if_pos hix, htarget hlt, Option.some.injEq,
        Prod.mk.injEq] at h
      exact .inl ⟨k, hlt, h.1.symm, by simp [hs]⟩
    | none =>
      simp only [hfind, nextIncoming] at h
      change (match c.inLeft.find? c.keepsIn with | some k => _ | none => _) = _ at h
      cases hfind' : c.inLeft.find? c.keepsIn with
      | some k =>
        have hk := List.mem_range'_1.1 (List.mem_of_find?_eq_some hfind')
        have hlt : k < c.invCount := by omega
        simp only [hfind', inIx, if_pos hix, Option.some.injEq,
          Prod.mk.injEq] at h
        exact .inr ⟨k, hlt, h.1.symm.trans (hsource hlt), by simp [hs]⟩
      | none => simp [hfind', nextAddition, hadd] at h

/-- The general walk at position `k` of the forward row. -/
theorem neighborNext_out (hchain : s.deltaHead = []) {k : ℕ} {c : NeighborCtx}
    (hc : (neighborInitAt false s v dir none).at' k 0 = c) (hk : k < c.baseCount) :
    (∃ c', neighborNext c = some (some (s.graph.base.edgeTargets (c.baseStart + k)), c')) ∧
      lastId c = graphBaseSlotObj s.graph.base (c.baseStart + k) := by
  have hcount : c.baseCount < 2 ^ 32 := hc ▸ @baseCount_neighborInitAt_lt s false dir none v
  have hfast : ¬ c.fast = true := by simp [← hc, at', neighborInitAt]
  have hfind : c.outLeft.find? c.keepsOut = some k := by
    have hidx : c.baseIdx = k := hc ▸ rfl
    have hkeep : c.keepsOut k = true := by
      simp [keepsOut, ← hc, at', neighborInitAt, hchain, predMatches, graphChainHasDeletions]
    rw [outLeft_cons (hidx ▸ hk), hidx, List.find?_cons_of_pos hkeep]
  have hix : c.outIx k = some (s.graph.base.edgeTargets (c.baseStart + k)) := by
    have huse : c.useIx = true := hc ▸ decide_eq_true hchain
    rw [outIx, if_pos huse, targetAt, graphIxAt_of_mem hcount (List.mem_range.2 hk), ← hc]
    rfl
  refine ⟨⟨{ c with baseIdx := k + 1 }, ?_⟩, ?_⟩
  · rw [neighborNext, if_neg hfast, nextOutgoing, hfind, ← hix]
  · rw [lastId, if_neg hfast, hfind, ← hc]
    rfl

/-- The general walk at position `k` of the inverse row. -/
theorem neighborNext_in (hchain : s.deltaHead = []) {k : ℕ} {c : NeighborCtx}
    (hc : (neighborInitAt false s v dir none).at'
      (neighborInitAt false s v dir none).baseCount k = c) (hk : k < c.invCount) :
    (∃ c', neighborNext c = some (some (s.graph.base.invSources (c.invStart + k)), c')) ∧
      lastId c = graphBaseInvSlotSubj s.graph.base (c.invStart + k) := by
  have hcount : c.invCount < 2 ^ 32 := hc ▸ @invCount_neighborInitAt_lt s false dir none v
  have hfast : ¬ c.fast = true := by simp [← hc, at', neighborInitAt]
  have hout : c.outLeft.find? c.keepsOut = none := by
    rw [outLeft_eq_nil (hc ▸ le_rfl), List.find?_nil]
  have hfind : c.inLeft.find? c.keepsIn = some k := by
    have hidx : c.invIdx = k := hc ▸ rfl
    have hkeep : c.keepsIn k = true := by
      simp [keepsIn, ← hc, at', neighborInitAt, hchain, predMatches, graphChainHasDeletions]
    rw [inLeft_cons (hidx ▸ hk), hidx, List.find?_cons_of_pos hkeep]
  have hix : c.inIx k = some (s.graph.base.invSources (c.invStart + k)) := by
    have huse : c.useIx = true := hc ▸ decide_eq_true hchain
    rw [inIx, if_pos huse, sourceAt, graphIxAt_of_mem hcount (List.mem_range.2 hk), ← hc]
    rfl
  have hnext : neighborNext c = nextIncoming { c with baseIdx := c.baseCount } := by
    rw [neighborNext, if_neg hfast, nextOutgoing, hout]
  refine ⟨⟨{ c with baseIdx := c.baseCount, invIdx := k + 1 }, ?_⟩, ?_⟩
  · have hfind' : ({ c with baseIdx := c.baseCount } : NeighborCtx).inLeft.find?
        ({ c with baseIdx := c.baseCount } : NeighborCtx).keepsIn = some k := hfind
    rw [hnext, nextIncoming, hfind', ← hix]
    rfl
  · rw [lastId, if_neg hfast, hout, hfind, ← hc]
    rfl

theorem fast_neighborInitAt (hchain : s.deltaHead = []) :
    (neighborInitAt true s v dir none).fast = true := by
  simp [neighborInitAt, hchain, graphChainHasDeletions]

/-- All but the ids does not depend on what the store holds. -/
theorem walksAlike_of_id (hchain : s.deltaHead = [])
    (hid : ∀ indexWalk i j ix c', neighborNext ((neighborInitAt indexWalk s v dir none).at' i j) =
      some (some ix, c') →
        s.nodeMap[ix]? = some (neighborId ((neighborInitAt indexWalk s v dir none).at' i j) ix)) :
    WalksAlike s.nodeMap (neighborInitAt true s v dir none)
      (neighborInitAt false s v dir none) := by
  have hfast : (neighborInitAt true s v dir none).fast = true := fast_neighborInitAt hchain
  refine ⟨?_, fun fuel hfuel => ?_, fun n => ?_, fun i _ j _ => ?_, ?_⟩
  · rw [yields, yields, neighborYields_eq, neighborYields_eq,
      rest_neighborInitAt hchain, rest_neighborInitAt hchain]
  · rw [yields, neighborYields_eq, flatten_neighborRuns hfast hfuel]
  · obtain ⟨c, hc⟩ : ∃ c, neighborSkip (neighborInitAt true s v dir none) n = some c := by
      rw [neighborSkip, if_neg (by simp [hfast])]
      split_ifs <;> exact ⟨_, rfl⟩
    refine ⟨c, hc, ?_⟩
    rw [yields, yields, neighborYields_eq, neighborYields_eq,
      rest_neighborSkip rfl rfl hc]
  · have hfast' : ((neighborInitAt true s v dir none).at' i j).fast = true := hfast
    rw [yields, neighborYields_eq, length_rest_of_fast hfast', neighborRemaining,
      if_neg (by simp [hfast'])]
  · intro c hc
    rcases List.mem_pair.1 hc with rfl | rfl
    · exact hid true
    · exact hid false

end Chainless

/-- The endpoint indices of the slots that a walk visits are found at the numbers of the slots as
`uint32_t`, if the store has no other record of the endpoints. -/
def SlotsNamed (b : Base) (dir : Direction) (v : ℕ) : Prop :=
  b.onePred = true → (∀ x ∈ outSlots b dir v, b.edgeTargets (x % 2 ^ 32) = b.edgeTargets x) ∧
    ∀ x ∈ inSlots b dir v, b.invSources (x % 2 ^ 32) = b.invSources x

namespace StoreSnapshot

variable {s : Snapshot} {ts : List Triple} {dir : Direction} {v : ℕ} (h : StoreSnapshot s ts)
include h

/-- The index of a node of an edge has its id, which is valid. -/
theorem ids_of_lt {x : ℕ} (hx : x < s.graph.base.nodeCount) :
    s.nodeMap[x]? = some (s.graph.base.nodeIds x) ∧ s.graph.base.nodeIds x ≠ idInvalid := by
  have hf := h.forward
  refine ⟨?_, ?_⟩
  · rw [h.nodeMap_eq, ← hf.map_range, List.getElem?_map, List.getElem?_range hx]
    rfl
  · obtain ⟨t, ht, heq | heq⟩ := (hf.endpoints _).1 (hf.ids_mem hx)
    · exact heq ▸ (h.valid t ht).1
    · exact heq ▸ (h.valid t ht).2.2

/-- The endpoint index of a slot below the number of triples is that of a node. -/
theorem target_lt {x : ℕ} (hx : x < ts.length) :
    s.graph.base.edgeTargets x < s.graph.base.nodeCount := by
  have hf := h.forward
  have ht := getElem?_tripleAt hx
  exact hf.target x _ ht ▸ hf.idxOf_lt (hf.object_mem (List.mem_of_getElem? ht))

theorem source_lt (hinv : s.graph.base.hasInverse = true) {x : ℕ} (hx : x < ts.length) :
    s.graph.base.invSources x < s.graph.base.nodeCount := by
  have hi := h.inverse hinv
  obtain ⟨j, hj, i, t, rfl, ht⟩ := hi.exists_row ((length_reread ts).symm ▸ hx)
  exact hi.source j hj i t ht ▸
    hi.idxOf_lt (hi.ends t (List.mem_of_mem_filter (List.mem_of_getElem? ht))).1

/-- The slots that a walk visits are below the number of triples. -/
theorem lt_of_mem_outSlots {x : ℕ} (hx : x ∈ outSlots s.graph.base dir v) : x < ts.length := by
  obtain ⟨-, hv, hrow⟩ := of_mem_outSlots hx
  exact (List.getElem?_eq_some_iff.1 (h.forward.of_mem_rowSlots hv hrow).1).1

theorem lt_of_mem_inSlots {x : ℕ} (hx : x ∈ inSlots s.graph.base dir v) :
    s.graph.base.hasInverse = true ∧ x < ts.length := by
  obtain ⟨-, hinv, hv, hrow⟩ := of_mem_inSlots hx
  obtain ⟨k, t, rfl, ht⟩ := (h.inverse hinv).of_mem_invRowSlots hv hrow
  exact ⟨hinv, length_reread ts ▸ (h.inverse hinv).slot_lt hv ht⟩

theorem slotsNamed_of_le (hlen : ts.length ≤ 2 ^ 32) : SlotsNamed s.graph.base dir v := by
  refine fun _ => ⟨fun x hx => ?_, fun x hx => ?_⟩
  · rw [Nat.mod_eq_of_lt ((h.lt_of_mem_outSlots hx).trans_le hlen)]
  · rw [Nat.mod_eq_of_lt ((h.lt_of_mem_inSlots hx).2.trans_le hlen)]

/-- Ids that are read off the slots are those of the indices. -/
theorem slotObj_eq (hnamed : SlotsNamed s.graph.base dir v) {x : ℕ}
    (hx : x ∈ outSlots s.graph.base dir v) :
    graphBaseSlotObj s.graph.base x = s.graph.base.nodeIds (s.graph.base.edgeTargets x) := by
  have hf := h.forward
  have ht := getElem?_tripleAt (h.lt_of_mem_outSlots hx)
  cases hone : s.graph.base.onePred with
  | true => rw [graphBaseSlotObj, if_pos hone, graphIxAt, (hnamed hone).1 x hx]
  | false =>
    rw [hf.slotObj_of_records hone ht, hf.target x _ ht,
      hf.ids_idxOf (hf.object_mem (List.mem_of_getElem? ht))]

theorem invSlotSubj_eq (hnamed : SlotsNamed s.graph.base dir v) {x : ℕ}
    (hx : x ∈ inSlots s.graph.base dir v) :
    graphBaseInvSlotSubj s.graph.base x = s.graph.base.nodeIds (s.graph.base.invSources x) := by
  obtain ⟨-, hinv, hv, hrow⟩ := of_mem_inSlots hx
  have hi := h.inverse hinv
  cases hone : s.graph.base.onePred with
  | true => rw [graphBaseInvSlotSubj, if_pos hone, graphIxAt, (hnamed hone).2 x hx]
  | false =>
    obtain ⟨k, t, rfl, ht⟩ := hi.of_mem_invRowSlots hv hrow
    rw [hi.ids_source hv ht, hi.slotSubj hv ht (by simp [hone])]

theorem walksAlike_of_slotsNamed (hnamed : SlotsNamed s.graph.base dir v) :
    WalksAlike s.nodeMap (neighborInitAt true s v dir none)
      (neighborInitAt false s v dir none) := by
  refine walksAlike_of_id h.chain fun indexWalk i j ix c' hnext => ?_
  -- the index is that of the end of an edge, and the id that was left is its id
  obtain ⟨hix, hlast⟩ : ix < s.graph.base.nodeCount ∧
      lastId ((neighborInitAt indexWalk s v dir none).at' i j) ∈
        [idInvalid, s.graph.base.nodeIds ix] := by
    rcases of_neighborNext h.chain rfl hnext with ⟨x, hx, rfl, hlast⟩ | ⟨x, hx, rfl, hlast⟩
    · exact ⟨h.target_lt (h.lt_of_mem_outSlots hx), h.slotObj_eq hnamed hx ▸ hlast⟩
    · obtain ⟨hinv, hlt⟩ := h.lt_of_mem_inSlots hx
      exact ⟨h.source_lt hinv hlt, h.invSlotSubj_eq hnamed hx ▸ hlast⟩
  obtain ⟨hget, hvalid⟩ := h.ids_of_lt hix
  rw [hget, neighborId]
  rcases List.mem_pair.1 hlast with heq | heq
  · rw [heq, if_neg (not_not.2 rfl)]
    rfl
  · rw [heq, if_pos hvalid]

/-- The id of the node with index `i` names the node with index `j` only if they are the same. -/
theorem eq_of_named {i j : ℕ} {c : NeighborCtx} (hi : i < s.graph.base.nodeCount)
    (hj : j < s.graph.base.nodeCount) (hlast : lastId c = s.graph.base.nodeIds i)
    (hid : s.nodeMap[j]? = some (neighborId c j)) : i = j := by
  rw [neighborId, hlast, if_pos (h.ids_of_lt hi).2, (h.ids_of_lt hj).1] at hid
  rw [← h.forward.idxOf_ids hi, ← h.forward.idxOf_ids hj, Option.some.inj hid]

theorem slotsNamed_of_walksAlike
    (hwalks : WalksAlike s.nodeMap (neighborInitAt true s v dir none)
      (neighborInitAt false s v dir none)) : SlotsNamed s.graph.base dir v := by
  have hchain := h.chain
  have hmem : neighborInitAt false s v dir none ∈
      [neighborInitAt true s v dir none, neighborInitAt false s v dir none] := by simp
  refine fun hone => ⟨fun x hx => ?_, fun x hx => ?_⟩
  · have hlt := h.lt_of_mem_outSlots hx
    rw [@outSlots_eq s false dir none v hchain] at hx
    obtain ⟨k, hk, rfl⟩ := List.mem_map.1 hx
    obtain ⟨⟨c', hnext⟩, hlast⟩ := neighborNext_out hchain rfl (List.mem_range.1 hk)
    rw [graphBaseSlotObj, if_pos hone, graphIxAt] at hlast
    exact h.eq_of_named (h.target_lt ((Nat.mod_le _ _).trans_lt hlt)) (h.target_lt hlt) hlast
      (hwalks.id _ hmem _ _ _ _ hnext)
  · obtain ⟨hinv, hlt⟩ := h.lt_of_mem_inSlots hx
    rw [@inSlots_eq s false dir none v hchain] at hx
    obtain ⟨k, hk, rfl⟩ := List.mem_map.1 hx
    obtain ⟨⟨c', hnext⟩, hlast⟩ := neighborNext_in hchain rfl (List.mem_range.1 hk)
    rw [graphBaseInvSlotSubj, if_pos hone, graphIxAt] at hlast
    exact h.eq_of_named (h.source_lt hinv ((Nat.mod_le _ _).trans_lt hlt)) (h.source_lt hinv hlt)
      hlast (hwalks.id _ hmem _ _ _ _ hnext)

end StoreSnapshot

/-- Over a compacted store the walks from a node agree exactly if the slots that they visit have
their endpoint indices at their numbers as `uint32_t`, or the store keeps edge records. -/
theorem walksAlike_iff (s : Snapshot) (ts : List Triple) (h : StoreSnapshot s ts) (v : ℕ)
    (dir : Direction) :
    WalksAlike s.nodeMap (neighborInitAt true s v dir none) (neighborInitAt false s v dir none) ↔
      SlotsNamed s.graph.base dir v :=
  ⟨h.slotsNamed_of_walksAlike, h.walksAlike_of_slotsNamed⟩

theorem walksAlike_star_of_three :
    ∃ s, StoreSnapshot s (starList 3) ∧ ∀ v dir, WalksAlike s.nodeMap
      (neighborInitAt true s v dir none) (neighborInitAt false s v dir none) := by
  obtain ⟨s, hs⟩ := exists_starSnapshot (n := 3) (by decide)
  refine ⟨s, hs.store, fun v dir => (walksAlike_iff s _ hs.store v dir).2 ?_⟩
  exact hs.store.slotsNamed_of_le (by rw [starList, length_fan]; norm_num)

/-! ## A slot number that does not fit -/

/-- Nodes with an edge to themselves each. -/
def loops (n : ℕ) : List Triple := fan n fun v => ⟨v, 1, v⟩

theorem commonPred_eq_true {ts : List Triple} {p : PredId} (hne : ts ≠ [])
    (h : ∀ t ∈ ts, t.predicate = p) : (commonPred ts).1 = true := by
  cases ts with
  | nil => exact absurd rfl hne
  | cons t ts =>
    have ht := h t (by simp)
    simp only [commonPred, List.all_eq_true, decide_eq_true_eq]
    intro u hu
    rw [h u (by simp [hu]), ht]

section Loops

variable {n : ℕ} {s : Snapshot} (hn : n + 1 < 2 ^ 64)
include hn

theorem exists_loops_snapshot :
    ∃ s, CompactSnapshot s (loops (n + 1)) ∧ s.graph.base.onePred = true := by
  obtain ⟨s, hs, hone⟩ := exists_compactSnapshot
    (pairwise_fan hn fun _ _ h => Triple.lt_iff.2 (.inl h) : (loops (n + 1)).Pairwise (· ≤ ·))
    (valid_fan hn fun _ h => ⟨h, show (1 : PredId) ≠ idInvalid by decide, h⟩)
  refine ⟨s, hs, hone.trans (commonPred_eq_true (p := 1) (by simp [fan]) fun t ht => ?_)⟩
  obtain ⟨i, -, rfl⟩ := mem_fan.1 ht
  rfl

theorem loops_ne {i : ℕ} (hi : i < n) :
    Fin.ofNat (2 ^ 64) (i + 1) ≠ Fin.ofNat (2 ^ 64) (n + 1) := by
  rw [ne_eq, Fin.ext_iff, Fin.val_ofNat, Fin.val_ofNat, Nat.mod_eq_of_lt, Nat.mod_eq_of_lt hn] <;>
    omega

/-- The row of the last node is the last slot. -/
theorem row_loops (h : CompactSnapshot s (loops (n + 1))) (hpos : 0 < n) :
    graphBaseGetEdgesAt s.graph.base
      (some ((collectNodes (loops (n + 1))).idxOf (Fin.ofNat (2 ^ 64) (n + 1)))) = (n, 1) := by
  have hf := h.forward
  have hlast : (loops (n + 1))[n]? = some _ := getElem?_fan n.lt_succ_self
  have hmem : Fin.ofNat (2 ^ 64) (n + 1) ∈ _ := hf.object_mem (List.mem_of_getElem? hlast)
  have hv := hf.idxOf_lt hmem
  have hid := hf.ids_idxOf hmem
  have hin := (hf.mem_row_iff hv hlast).2 hid.symm
  have hprev : (loops (n + 1))[n - 1]? = some _ := getElem?_fan (by omega)
  have hout := mt (hf.mem_row_iff hv hprev).1 fun heq => loops_ne hn (by omega) (heq.trans hid)
  have hle := hf.offsets_mono hv le_rfl
  have hlen : (loops (n + 1)).length = n + 1 := length_fan _ _
  rw [hf.offsets_last, hlen, Nat.succ_eq_add_one] at hle
  rw [graphBaseGetEdgesAt, if_neg (not_le.2 hv), Prod.mk.injEq]
  omega

end Loops

/-- With `2 ^ 32 + 1` edges of one predicate the general walk names a wrong neighbour. -/
theorem exists_not_walksAlike :
    ∃ (s : Snapshot) (ts : List Triple) (v : ℕ), ts.length = 2 ^ 32 + 1 ∧ StoreSnapshot s ts ∧
      ¬ WalksAlike s.nodeMap (neighborInitAt true s v .outgoing none)
        (neighborInitAt false s v .outgoing none) := by
  obtain ⟨n, hn⟩ : ∃ n, n = 2 ^ 32 := ⟨_, rfl⟩
  have hlt : n + 1 < 2 ^ 64 := by omega
  obtain ⟨s, hs, hone⟩ := exists_loops_snapshot hlt
  have hf := hs.forward
  refine ⟨s, _, (collectNodes (loops (n + 1))).idxOf (Fin.ofNat (2 ^ 64) (n + 1)), ?_, hs.store,
    fun hwalks => ?_⟩
  · rw [loops, length_fan, hn]
  · have hslot : n ∈ outSlots s.graph.base .outgoing
        ((collectNodes (loops (n + 1))).idxOf (Fin.ofNat (2 ^ 64) (n + 1))) := by
      rw [outSlots, if_pos (.inl rfl), row_loops hlt hs (by omega)]
      simp
    -- slot `2 ^ 32` is read as slot 0, where the edge of node 1 is
    have heq := (hs.store.slotsNamed_of_walksAlike hwalks hone).1 n hslot
    have hfirst : (loops (n + 1))[0]? = some _ := getElem?_fan n.succ_pos
    have hlast : (loops (n + 1))[n]? = some _ := getElem?_fan n.lt_succ_self
    rw [show n % 2 ^ 32 = 0 by omega, hf.target 0 _ hfirst, hf.target n _ hlast,
      List.idxOf_inj (hf.object_mem (List.mem_of_getElem? hfirst))] at heq
    exact loops_ne hlt (by omega) heq

end Virtuoso.Graph
