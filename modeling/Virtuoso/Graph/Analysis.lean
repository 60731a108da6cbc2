import Virtuoso.Graph.BfsExact
import Virtuoso.Graph.History
import Virtuoso.Graph.SccExact

/-!
# The algorithms on the graph of a run

Calls, a commit, a compaction, a snapshot and a search over it, one after the other: the
results are about the triples that the calls describe.
-/

namespace Virtuoso.Graph

open Lib

variable {s : Tracked} {g : GraphState}

/-- Runs of calls are runs without compactions, and describe valid triples. -/
theorem history_of_versions {ok : Tracked → Op → Prop} (h : versions.Reach ok s) :
    history.Reach Small s.graph ∧ ∀ t ∈ s.triples, t.Valid := by
  induction h with
  | init hinit =>
    obtain ⟨sw, mem, cap, inv, rfl⟩ := hinit
    exact ⟨.init ⟨sw, mem, cap, inv, rfl⟩, by simp⟩
  | @step s s' op _ _ hstep ih =>
    obtain ⟨hvalid, hstep⟩ := hstep
    obtain ⟨g, hg, rfl⟩ := Option.map_eq_some_iff.1 hstep
    refine ⟨ih.1.step (a := .op op) trivial hg, ?_⟩
    cases op with
    | add t => exact (Finset.forall_mem_insert _ _ _).2 ⟨hvalid, ih.2⟩
    | remove t => exact fun u hu => ih.2 u (Finset.mem_of_mem_erase hu)
    | commit => exact ih.2

/-- The snapshot after a compaction. -/
theorem snapshot_of_compact (hg : Compacted g) (hinv : g.buildInverseIndex = true)
    (hchain : g.deltaHead ≠ []) (hne : storedTriples g ≠ [])
    (hvalid : ∀ t ∈ collectTriples g, t.Valid) (sw : Switches) (mem : Memory) :
    ∃ snap, graphSnapshotCreate (graphCompact sw mem g).2 = some snap ∧
      CompactSnapshot snap (qsortTriples (collectTriples g)) := by
  have hsorted := pairwise_qsortTriples (collectTriples g)
  obtain ⟨g', hg', hnone, hb, htotal⟩ : ∃ g', (graphCompact sw mem g).2 = g' ∧ g'.deltaHead = [] ∧
      g'.base = buildBase sw mem true (qsortTriples (collectTriples g)) ∧
      g'.base.nodeCount ≤ g'.totalNodes := by
    unfold graphCompact
    rw [if_neg (by simp [hg.snapshots]), if_neg hchain,
      if_neg (mt (storedTriples_eq_nil_iff hg).2 hne), hinv]
    exact ⟨_, rfl, rfl, rfl, le_rfl⟩
  have hf : Forward g'.base _ _ := hb ▸ forward_buildBase sw mem true hsorted
  obtain ⟨snap, hs⟩ : ∃ snap, graphSnapshotCreate g' = some snap := by
    rw [graphSnapshotCreate, hnone, graphSnapshotBuildNodeMap_eq hf.toNodeTable htotal]
    exact ⟨_, rfl⟩
  refine ⟨snap, hg' ▸ hs, hsorted, fun t ht => ?_, g', sw, mem, hnone, hb, htotal, hs⟩
  exact hvalid t ((qsortTriples_perm _).mem_iff.1 ht)

/-- **From calls to results.**  After a careful run and a commit, a safe state can be compacted,
and on a snapshot of it searches and components are exact for the set that the calls describe. -/
theorem analysis_of_careful (h : versions.Reach Careful s) (hcommit : g = graphCommit s.graph)
    (hinv : g.buildInverseIndex = true) (hchain : g.deltaHead ≠ []) (hsafe : CompactSafe g)
    (hlen : (collectTriples g).length < 2 ^ 32) (sw : Switches) (mem : Memory) :
    ∃ snap ts, graphSnapshotCreate (graphCompact sw mem g).2 = some snap ∧
      (∀ t, t ∈ ts ↔ t ∈ s.triples) ∧ BfsWell snap ts ∧ SccWell snap ts := by
  obtain ⟨hreach, hvalid⟩ := history_of_versions h
  have hg : Compacted g := compacted_of_reach
    (hreach.step (a := .op .commit) trivial (hcommit ▸ rfl))
  have hperm := qsortTriples_perm (collectTriples g)
  rw [CompactSafe, if_neg hchain] at hsafe
  have hmem (t : Triple) : t ∈ collectTriples g ↔ t ∈ s.triples := by
    rw [← (sound_of_reach h).agrees.committed_iff, ← hcommit]
    exact ((storedOnce_iff hg.contains_iff).1 hsafe.2).2 t
  obtain ⟨snap, hs, hsnap⟩ := snapshot_of_compact hg hinv hchain hsafe.1
    (fun t ht => hvalid t ((hmem t).1 ht)) sw mem
  have hlt := hperm.length_eq.trans_lt hlen
  exact ⟨snap, _, hs, fun t => hperm.mem_iff.trans (hmem t), bfsWell_of_lt hsnap hlt,
    sccWell_of_lt hsnap hlt⟩

theorem analysis_of_three :
    ∃ (snap : Snapshot) (ts : List Triple),
      (∀ t, t ∈ ts ↔ t ∈ [⟨1, 2, 3⟩, ⟨3, 2, 1⟩, ⟨3, 4, 5⟩]) ∧ BfsWell snap ts ∧
      SccWell snap ts := by
  let ops : List Op := [.add ⟨1, 2, 3⟩, .add ⟨3, 2, 1⟩, .commit, .add ⟨3, 4, 5⟩]
  have h := reach_runFrom (reach_newGraph Careful) ops
  have hg := compacted_of_reach ((history_of_versions h).1.step (a := .op .commit) trivial rfl)
  have hsafe := compactSafe_of_nodup hg (by decide +kernel) (by decide +kernel) (by decide +kernel)
    (by decide +kernel)
  obtain ⟨snap, ts, -, hts, hwell⟩ := analysis_of_careful h rfl (by decide +kernel)
    (by decide +kernel) hsafe (by decide +kernel) ⟨true, true, true⟩ .cleared
  refine ⟨snap, ts, fun t => (hts t).trans ?_, hwell⟩
  rw [show Tracked.triples _ = {⟨1, 2, 3⟩, ⟨3, 2, 1⟩, ⟨3, 4, 5⟩} by decide +kernel]
  simp

/-- **Two algorithms, one graph.**  Two nodes are in one component exactly if a search from each
of them reaches the other. -/
theorem componentIds_eq_iff_bfs {c : BfsCall} {ts : List Triple} (h : CompactSnapshot c.snapshot ts)
    (hlen : ts.length < 2 ^ 32) (hdir : c.direction = .outgoing) {i j : ℕ} {y : NodeId}
    (hi : c.snapshot.nodeMap[i]? = some c.source) (hj : c.snapshot.nodeMap[j]? = some y)
    (bfs : BfsResult) (scc : SccResult) :
    ∃ r b b', graphAlgoScc c.indexWalk c.snapshot c.predFilter scc = some (.ok, r) ∧
      graphAlgoBfs c bfs = some (.ok, b) ∧
      graphAlgoBfs { c with source := y } bfs = some (.ok, b') ∧
      (r.componentIds i = r.componentIds j ↔ (b.distances j).isSome ∧ (b'.distances i).isSome) := by
  obtain ⟨r, hr, hscc⟩ := sccWell_of_lt h hlen c.indexWalk c.predFilter scc
  obtain ⟨b, hb, hbfs, -⟩ := bfsWell_of_lt h hlen c bfs rfl (List.mem_of_getElem? hi)
  obtain ⟨b', hb', hbfs', -⟩ :=
    bfsWell_of_lt h hlen { c with source := y } bfs rfl (List.mem_of_getElem? hj)
  rw [hdir] at hbfs hbfs'
  refine ⟨r, b, b', hr, hb, hb', ?_⟩
  simp only [Option.isSome_iff_exists, hbfs.distance j y hj, hbfs'.distance i _ hi,
    exists_isDist_iff]
  exact hscc.same i j _ _ hi hj

theorem componentIds_star :
    ∃ (c : BfsCall) (scc r : SccResult) (bfs b b' : BfsResult),
      graphAlgoScc true c.snapshot none scc = some (.ok, r) ∧ graphAlgoBfs c bfs = some (.ok, b) ∧
      graphAlgoBfs { c with source := 2 } bfs = some (.ok, b') ∧
      (r.componentIds 0 = r.componentIds 1 ↔ (b.distances 1).isSome ∧ (b'.distances 0).isSome) := by
  obtain ⟨s, hs⟩ := exists_starSnapshot (n := 3) (by decide)
  have hmap : s.nodeMap = [1, 2, 3] := hs.nodeMap_eq.trans (by decide)
  obtain ⟨r, b, b', h⟩ := componentIds_eq_iff_bfs
    (c := ⟨s, 1, .outgoing, none, true, false, none, fun _ => none⟩) hs (by decide) rfl (i := 0)
    (j := 1) (by rw [hmap]; rfl) (by rw [hmap]; rfl) ⟨fun _ => none, fun _ => 0, 0, 0, 0⟩
    ⟨fun _ => none, 0, 0, 0⟩
  exact ⟨_, _, r, _, b, b', h⟩

end Virtuoso.Graph
