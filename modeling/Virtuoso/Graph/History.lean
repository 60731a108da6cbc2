import Virtuoso.Graph.Compact
import Virtuoso.Graph.Versions

/-!
# Runs with compactions

A lookup stops at the newest delta that mentions a triple, whereas a compaction
drops what any delta of the chain deletes and keeps every stored copy of the
rest.  The two agree on a state exactly if no present triple is deleted anywhere
in the chain, and each is stored once (`CompactSafe`).  Lookups need a snapshot:
a compaction sets the number of nodes to those it kept, while the node index keeps
all, so that after one a node that comes back is not counted and the node map can
be too small.
-/

namespace Virtuoso.Graph

open Lib

variable {g : GraphState}

/-- The calls of a run with compactions, under any switches. -/
inductive Call
  | op (op : Op)
  | compact (sw : Switches) (mem : Memory)

/-- The runs from a new graph; no snapshot is open. -/
def history : Machine GraphState Call where
  Init g := ∃ sw mem cap inv, g = graphCreate sw mem cap inv
  Step g call g' :=
    match call with
    | .op op => perform g op = some g'
    | .compact sw mem => (graphCompact sw mem g).2 = g'

/-- Compactions collect fewer than `2 ^ 32` triples. -/
def Small (g : GraphState) : Call → Prop
  | .op _ => True
  | .compact _ _ => (collectTriples g).length < 2 ^ 32

/-- New snapshots of the two graphs find the same triples. -/
def SameFound (g g' : GraphState) : Prop :=
  ∃ snap snap', graphSnapshotCreate g = some snap ∧ graphSnapshotCreate g' = some snap' ∧
    ∀ t, snap'.lookupTriple t = .exists' ↔ snap.lookupTriple t = .exists'

/-- What compaction is to do: the lookups find the same triples, which now stand in
one forward slot each, and the counters count them. -/
structure Folded (g g' : GraphState) : Prop where
  same : SameFound g g'
  chain : g'.deltaHead = []
  once : ∀ t, g.Committed t → (baseTriples g'.base).count t = 1
  count : ∃ ts : Finset Triple, (∀ t, t ∈ ts ↔ g.Committed t) ∧ g'.totalTriples = ts.card ∧
    g'.base.edgeCount = ts.card

/-- Compaction succeeds and does what it is to do. -/
def FoldsWell (sw : Switches) (mem : Memory) (g : GraphState) : Prop :=
  (graphCompact sw mem g).1 = .ok ∧ Folded g (graphCompact sw mem g).2

/-- The stores and chains that compaction does not change. -/
def CompactSafe (g : GraphState) : Prop :=
  if g.deltaHead = [] then (baseTriples g.base).Nodup ∧ g.totalTriples = g.base.edgeCount
  else storedTriples g ≠ [] ∧ StoredOnce g

/-- A new snapshot looks up in the store and the chain of the graph. -/
theorem lookupTriple_of_create {snap : Snapshot} (h : graphSnapshotCreate g = some snap)
    (t : Triple) : snap.lookupTriple t = .exists' ↔ g.Committed t := by
  obtain ⟨m, -, hm⟩ := Option.bind_eq_some_iff.1 h
  cases hm
  rfl

theorem sameFound_iff {g' : GraphState} :
    SameFound g g' ↔ g.MapFits ∧ g'.MapFits ∧ ∀ t, g'.Committed t ↔ g.Committed t := by
  constructor
  · rintro ⟨snap, snap', hsnap, hsnap', hsame⟩
    refine ⟨graphSnapshotCreate_isSome_iff.1 (Option.isSome_of_mem hsnap),
      graphSnapshotCreate_isSome_iff.1 (Option.isSome_of_mem hsnap'), fun t => ?_⟩
    rw [← lookupTriple_of_create hsnap', hsame, lookupTriple_of_create hsnap]
  · rintro ⟨hfits, hfits', hsame⟩
    obtain ⟨snap, hsnap, -⟩ := graphSnapshotCreate_eq_some hfits
    obtain ⟨snap', hsnap', -⟩ := graphSnapshotCreate_eq_some hfits'
    refine ⟨snap, snap', hsnap, hsnap', fun t => ?_⟩
    rw [lookupTriple_of_create hsnap', hsame, lookupTriple_of_create hsnap]

/-! ## The base store of a run -/

theorem Forward.baseTriples_eq {b : Base} {nodes : List NodeId} {ts : List Triple}
    (h : Forward b nodes ts) (hlen : ts.length ≤ 2 ^ 32) : baseTriples b = ts := by
  rw [baseTriples, forwardSlots_eq h, List.map_map]
  conv_rhs => rw [← List.zipIdx_map_fst (l := ts) (i := 0)]
  refine List.map_congr_left fun p hp => ?_
  have hat : ts[p.2]? = some p.1 := by simpa using List.mem_zipIdx_iff_getElem?.1 hp
  simp only [Function.comp_apply]
  rw [h.ids_idxOf (h.subject_mem (List.mem_of_getElem? hat)), h.slotPred hat,
    h.slotObj_of_le hlen hat]

/-- The base store holds fewer than `2 ^ 32` triples, and no snapshot is open. -/
structure Compacted (g : GraphState) : Prop where
  snapshots : g.snapshotCount = 0
  base : ∃ nodes ts, Forward g.base nodes ts ∧ ts.length < 2 ^ 32

theorem Compacted.congr {g' : GraphState} (h : Compacted g) (hb : g'.base = g.base)
    (hs : g'.snapshotCount = g.snapshotCount) : Compacted g' :=
  ⟨hs.trans h.snapshots, hb ▸ h.base⟩

theorem perform_frame {g' : GraphState} {op : Op} (h : perform g op = some g') :
    g'.base = g.base ∧ g'.snapshotCount = g.snapshotCount := by
  cases op with
  | add t =>
    simp only [perform, graphAddTriple, Option.map_eq_some_iff] at h
    obtain ⟨r, hr, rfl⟩ := h
    split_ifs at hr with hv
    · obtain ⟨d, -, hd⟩ := Option.bind_eq_some_iff.1 hr
      cases hd
      exact ⟨rfl, rfl⟩
    · cases hr
      exact ⟨rfl, rfl⟩
  | remove t =>
    simp only [perform, graphRemoveTriple, Option.map_eq_some_iff, Option.bind_eq_bind,
      Option.bind_eq_some_iff, Option.some.injEq] at h
    obtain ⟨_, ⟨d, -, rfl⟩, rfl⟩ := h
    exact ⟨rfl, rfl⟩
  | commit =>
    cases h
    rcases graphCommit_cases g with ⟨-, -, hg⟩ | ⟨d, n, -, -, hg⟩
    · rw [hg]
      exact ⟨rfl, rfl⟩
    · rw [hg]
      exact ⟨rfl, rfl⟩

/-- A compaction does nothing, or builds a new store from what it collects. -/
theorem graphCompact_cases (sw : Switches) (mem : Memory) (hs : g.snapshotCount = 0) :
    (graphCompact sw mem g = (.ok, g) ∧
      (g.deltaHead = [] ∨ graphDeltaChainAdditions g.deltaHead + g.base.edgeCount = 0)) ∨
    (g.deltaHead ≠ [] ∧ graphDeltaChainAdditions g.deltaHead + g.base.edgeCount ≠ 0 ∧
      (graphCompact sw mem g).1 = .ok ∧ (graphCompact sw mem g).2.snapshotCount = 0 ∧
      (graphCompact sw mem g).2.deltaHead = [] ∧
      (graphCompact sw mem g).2.totalTriples = (collectTriples g).length ∧
      (graphCompact sw mem g).2.MapFits ∧
      (graphCompact sw mem g).2.base =
        buildBase sw mem g.buildInverseIndex (qsortTriples (collectTriples g))) := by
  unfold graphCompact
  rw [if_neg (by simp [hs])]
  by_cases h₁ : g.deltaHead = []
  · exact .inl ⟨if_pos h₁, .inl h₁⟩
  rw [if_neg h₁]
  by_cases h₂ : graphDeltaChainAdditions g.deltaHead + g.base.edgeCount = 0
  · exact .inl ⟨if_pos h₂, .inr h₂⟩
  rw [if_neg h₂]
  -- the new store is counted afresh
  have hfits : (nodeMapSources (buildBase sw mem g.buildInverseIndex
      (qsortTriples (collectTriples g))) []).toFinset.card ≤ _ := List.toFinset_card_le _
  refine .inr ⟨h₁, h₂, rfl, hs, rfl, (qsortTriples_perm _).length_eq, .inr ?_, rfl⟩
  simpa [nodeMapSources] using hfits

theorem Compacted.compact (h : Compacted g) (sw : Switches) (mem : Memory)
    (hlen : (collectTriples g).length < 2 ^ 32) : Compacted (graphCompact sw mem g).2 := by
  rcases graphCompact_cases sw mem h.snapshots with ⟨hg, -⟩ | ⟨-, -, -, hs, -, -, -, hb⟩
  · rw [hg]
    exact h
  · refine ⟨hs, _, _, hb ▸ forward_buildBase _ _ _ (pairwise_qsortTriples _), ?_⟩
    rwa [(qsortTriples_perm _).length_eq]

theorem compacted_of_reach (h : history.Reach Small g) : Compacted g := by
  apply Machine.Reach.invariant _ _ h
  · rintro _ ⟨sw, mem, cap, inv, rfl⟩
    exact ⟨rfl, [], [], forward_graphBaseCreate _ _ _ _ _ _, by norm_num⟩
  · rintro g (op | ⟨sw, mem⟩) g' hg hsmall hstep
    · obtain ⟨hb, hs⟩ := perform_frame hstep
      exact hg.congr hb hs
    · obtain rfl := hstep
      exact hg.compact sw mem hsmall

/-! ## Lookups and collected triples -/

variable {t : Triple}

theorem Compacted.contains_iff (hg : Compacted g) (t : Triple) :
    graphBaseContains g.base t = true ↔ t ∈ baseTriples g.base := by
  obtain ⟨nodes, ts, hf, hlen⟩ := hg.base
  rw [hf.baseTriples_eq hlen.le, hf.contains_iff_mem hlen]

/-- Without a chain, a lookup finds what the store holds. -/
theorem Compacted.committed_iff (hg : Compacted g) (hchain : g.deltaHead = []) :
    g.Committed t ↔ t ∈ baseTriples g.base := by
  rw [committed_iff_of_not_deleted hg.contains_iff (by simp [hchain, graphIsTripleDeleted]),
    storedTriples, hchain]
  simp

theorem storedTriples_eq_nil_iff (hg : Compacted g) :
    storedTriples g = [] ↔ graphDeltaChainAdditions g.deltaHead + g.base.edgeCount = 0 := by
  obtain ⟨nodes, ts, hf, hlen⟩ := hg.base
  have hlength : (storedTriples g).length =
      graphDeltaChainAdditions g.deltaHead + g.base.edgeCount := by
    rw [storedTriples, List.length_append, hf.baseTriples_eq hlen.le, hf.edgeCount,
      List.length_flatMap, Nat.add_comm]
    rfl
  rw [← hlength, List.length_eq_zero_iff]

/-- The members of a list are counted by a set that has each of them once. -/
theorem nodup_of_count {xs : List Triple} (h : ∀ t ∈ xs, xs.count t = 1) : xs.Nodup := by
  rw [List.nodup_iff_count_le_one]
  intro t
  by_cases ht : t ∈ xs
  · exact (h t ht).le
  · rw [List.count_eq_zero_of_not_mem ht]
    exact Nat.zero_le 1

/-- A state without a chain stays as it is. -/
theorem folded_self_iff (hg : Compacted g) (hchain : g.deltaHead = []) :
    Folded g g ↔ g.MapFits ∧ (baseTriples g.base).Nodup ∧ g.totalTriples = g.base.edgeCount := by
  obtain ⟨nodes, ts, hf, hlen⟩ := hg.base
  have hbase := hf.baseTriples_eq hlen.le
  have hcom (t : Triple) : g.Committed t ↔ t ∈ ts := by rw [hg.committed_iff hchain, hbase]
  rw [hbase]
  constructor
  · rintro ⟨hsame, -, honce, us, -, htotal, hedge⟩
    exact ⟨(sameFound_iff.1 hsame).1, nodup_of_count fun t ht => hbase ▸ honce t ((hcom t).2 ht),
      htotal.trans hedge.symm⟩
  · rintro ⟨hfits, hnodup, htotal⟩
    refine ⟨sameFound_iff.2 ⟨hfits, hfits, fun _ => Iff.rfl⟩, hchain, fun t ht => ?_, ts.toFinset,
      fun t => ?_, ?_, ?_⟩
    · rw [hbase]
      exact List.count_eq_one_of_mem hnodup ((hcom t).1 ht)
    · rw [hcom, List.mem_toFinset]
    · rw [htotal, hf.edgeCount, List.toFinset_card_of_nodup hnodup]
    · rw [hf.edgeCount, List.toFinset_card_of_nodup hnodup]

/-- In every run whose compactions stay below `2 ^ 32` triples: compacting leaves the
graph as it is exactly in the safe states of which a snapshot can be taken. -/
theorem foldsWell_iff_compactSafe (g : GraphState) (h : history.Reach Small g)
    (hlen : (collectTriples g).length < 2 ^ 32) (sw : Switches) (mem : Memory) :
    FoldsWell sw mem g ↔ g.MapFits ∧ CompactSafe g := by
  have hg := compacted_of_reach h
  have hnil := storedTriples_eq_nil_iff hg
  rcases graphCompact_cases sw mem hg.snapshots with
    ⟨he, hcase⟩ | ⟨hchain, hcap, hok, -, hnone, htot, hfits', hb⟩
  · rw [FoldsWell, he, CompactSafe]
    by_cases hchain : g.deltaHead = []
    · rw [if_pos hchain, folded_self_iff hg hchain]
      simp
    · rw [if_neg hchain]
      refine iff_of_false (fun hf => hchain hf.2.chain) ?_
      rintro ⟨-, hne, -⟩
      exact hne (hnil.2 (hcase.resolve_left hchain))
  · have hg' := hg.compact sw mem hlen
    rw [FoldsWell, CompactSafe, if_neg hchain, storedOnce_iff hg.contains_iff]
    set g' := (graphCompact sw mem g).2
    have hperm := qsortTriples_perm (collectTriples g)
    have hf : Forward g'.base _ _ :=
      hb ▸ forward_buildBase sw mem g.buildInverseIndex (pairwise_qsortTriples (collectTriples g))
    have hbase := hf.baseTriples_eq (hperm.length_eq.trans_lt hlen).le
    have hcom (t : Triple) : g'.Committed t ↔ t ∈ collectTriples g := by
      rw [hg'.committed_iff hnone, hbase, hperm.mem_iff]
    have hcount (t : Triple) : (baseTriples g'.base).count t = (collectTriples g).count t := by
      rw [hbase, hperm.count_eq]
    constructor
    · rintro ⟨-, hfold⟩
      obtain ⟨hfits, -, hsame⟩ := sameFound_iff.1 hfold.same
      have hmem (t : Triple) : t ∈ collectTriples g ↔ g.Committed t := by rw [← hcom, hsame]
      refine ⟨hfits, fun hn => hcap (hnil.1 hn), nodup_of_count fun t ht => ?_, hmem⟩
      rw [← hcount, hfold.once t ((hmem t).1 ht)]
    · rintro ⟨hfits, -, hnodup, hmem⟩
      have hcard := List.toFinset_card_of_nodup hnodup
      have hsame : SameFound g g' :=
        sameFound_iff.2 ⟨hfits, hfits', fun t => (hcom t).trans (hmem t)⟩
      refine ⟨hok, hsame, hnone, fun t ht => ?_, (collectTriples g).toFinset, fun t => ?_, ?_, ?_⟩
      · rw [hcount, List.count_eq_one_of_mem hnodup ((hmem t).2 ht)]
      · rw [List.mem_toFinset, hmem]
      · rw [htot, hcard]
      · rw [hf.edgeCount, hperm.length_eq, hcard]

/-- A chain without deletions that stores nothing twice is safe. -/
theorem compactSafe_of_nodup (hg : Compacted g) (hchain : g.deltaHead ≠ [])
    (hdel : ∀ d ∈ g.deltaHead, d.deletions = []) (hne : storedTriples g ≠ [])
    (hnodup : (storedTriples g).Nodup) : CompactSafe g := by
  rw [CompactSafe, if_neg hchain]
  refine ⟨hne, fun t ht => ?_⟩
  have hd : graphIsTripleDeleted g.deltaHead t = false := by
    rw [graphIsTripleDeleted, List.any_eq_false]
    intro d hd
    simp [hdel d hd]
  exact ⟨hd,
    List.count_eq_one_of_mem hnodup ((committed_iff_of_not_deleted hg.contains_iff hd).1 ht)⟩

instance (g : GraphState) : DecidablePred (Small g)
  | .op _ => inferInstanceAs (Decidable True)
  | .compact _ _ => inferInstanceAs (Decidable (_ < _))

/-- Carry out the calls as long as the compactions are small. -/
def replay (g : GraphState) : List Call → GraphState
  | [] => g
  | .op op :: calls =>
    match perform g op with
    | some g' => replay g' calls
    | none => g
  | .compact sw mem :: calls =>
    if Small g (.compact sw mem) then replay (graphCompact sw mem g).2 calls else g

theorem reach_replay (hg : history.Reach Small g) (calls : List Call) :
    history.Reach Small (replay g calls) := by
  induction calls generalizing g with
  | nil => exact hg
  | cons call calls ih =>
    cases call with
    | op op =>
      rw [replay]
      split
      next g' h => exact ih (hg.step (a := .op op) trivial h)
      next => exact hg
    | compact sw mem =>
      rw [replay]
      split_ifs with h
      · exact ih (hg.step (a := .compact sw mem) h rfl)
      · exact hg

theorem reach_new : history.Reach Small newGraph := .init ⟨_, _, _, _, rfl⟩

theorem foldsWell_after_two_commits :
    ∃ g, history.Reach Small g ∧ (collectTriples g).length = 3 ∧
      FoldsWell ⟨true, true, true⟩ .cleared g := by
  let calls : List Call :=
    [.op (.add ⟨1, 2, 3⟩), .op (.add ⟨3, 2, 1⟩), .op .commit, .op (.add ⟨3, 4, 1⟩), .op .commit]
  have h := reach_replay reach_new calls
  have hlen : (collectTriples (replay newGraph calls)).length = 3 := by decide +kernel
  have hsafe : CompactSafe (replay newGraph calls) :=
    compactSafe_of_nodup (compacted_of_reach h) (by decide +kernel) (by decide +kernel)
      (by decide +kernel) (by decide +kernel)
  have hfits : (replay newGraph calls).MapFits := by decide +kernel
  exact ⟨_, h, hlen, (foldsWell_iff_compactSafe _ h (by rw [hlen]; norm_num) _ _).2 ⟨hfits, hsafe⟩⟩

/-- A triple that was deleted and added again is lost by compaction. -/
theorem readded_triple_is_lost :
    ∃ g, history.Reach Small g ∧ (collectTriples g).length < 2 ^ 32 ∧
      ¬ FoldsWell ⟨true, true, true⟩ .cleared g := by
  let calls : List Call :=
    [.op (.add ⟨1, 2, 3⟩), .op .commit, .op (.remove ⟨1, 2, 3⟩), .op .commit,
      .op (.add ⟨1, 2, 3⟩), .op .commit]
  have h := reach_replay reach_new calls
  refine ⟨_, h, by decide +kernel, fun hfold => ?_⟩
  have hbefore : (replay newGraph calls).Committed ⟨1, 2, 3⟩ := by decide +kernel
  have hafter := ((sameFound_iff.1 hfold.2.same).2.2 ⟨1, 2, 3⟩).2 hbefore
  exact absurd hafter (by decide +kernel)

end Virtuoso.Graph
