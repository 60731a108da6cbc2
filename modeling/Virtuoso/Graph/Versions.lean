import Virtuoso.Graph.Store

/-!
# Runs of the versioned store

A run adds, removes and commits.  Beside the graph it carries the set of triples
that the calls describe when each is taken at its word (`Op.apply`).  The graph
agrees with that set in every run that is `Careful`: a triple is added only while
it is absent, or again while its addition is pending in the working delta, and
removed only while it is present and pending at most once.
-/

namespace Virtuoso.Graph

open Lib Finset

variable {s : Tracked} {t : Triple}

/-- The calls of a run. -/
inductive Op
  | add (t : Triple)
  | remove (t : Triple)
  | commit

namespace Op

def Valid : Op → Prop
  | add t | remove t => t.Valid
  | commit => True

instance : DecidablePred Valid
  | add t | remove t => inferInstanceAs (Decidable t.Valid)
  | commit => inferInstanceAs (Decidable True)

/-- What a call means for the set of triples. -/
def apply : Op → Finset Triple → Finset Triple
  | add t, ts => insert t ts
  | remove t, ts => ts.erase t
  | commit, ts => ts

end Op

def perform (g : GraphState) : Op → Option GraphState
  | .add t => (graphAddTriple g t).map Prod.snd
  | .remove t => (graphRemoveTriple g t).map Prod.snd
  | .commit => some (graphCommit g)

/-- A graph together with the set that the calls so far describe. -/
structure Tracked where
  graph : GraphState
  triples : Finset Triple

def Tracked.after (s : Tracked) (op : Op) : Option Tracked :=
  (perform s.graph op).map fun graph => { graph, triples := op.apply s.triples }

/-- The runs of calls with valid ids, from a new graph. -/
def versions : Machine Tracked Op where
  Init s := ∃ sw mem cap inv, s = ⟨graphCreate sw mem cap inv, ∅⟩
  Step s op s' := op.Valid ∧ s.after op = some s'

/-- A new snapshot finds exactly the triples of `ts`, and counts them. -/
def AnswersAs (g : GraphState) (ts : Finset Triple) : Prop :=
  ∃ snap, graphSnapshotCreate g = some snap ∧
    (∀ t, snap.lookupTriple t = .exists' ↔ t ∈ ts) ∧ graphSnapshotTripleCount snap = ts.card

/-- The calls that keep the graph in agreement with the set. -/
def Careful (s : Tracked) : Op → Prop
  | .add t =>
    (t ∉ s.triples ∨ t ∈ s.graph.workingDelta.additions) ∧
      s.graph.workingDelta.additions.length < 2 ^ 31
  | .remove t =>
    t ∈ s.triples ∧ s.graph.workingDelta.additions.count t ≤ 1 ∧
      s.graph.workingDelta.deletions.length < 2 ^ 31
  | .commit => True

instance (s : Tracked) : DecidablePred (Careful s)
  | .add _ => inferInstanceAs (Decidable (_ ∧ _))
  | .remove _ => inferInstanceAs (Decidable (_ ∧ _ ∧ _))
  | .commit => inferInstanceAs (Decidable True)

/-! ## The invariant -/

/-- The entries of an array beyond the first of each triple. -/
def repeats (ts : List Triple) : ℕ := ts.length - ts.dedup.length

/-- The working delta holds changes that the committed triples do not have yet, and
the counter counts the described set and the repeated additions. -/
structure Agrees (s : Tracked) : Prop where
  mem_iff : ∀ t, t ∈ s.triples ↔ t ∈ s.graph.workingDelta.additions ∨
    s.graph.Committed t ∧ t ∉ s.graph.workingDelta.deletions
  added : ∀ t ∈ s.graph.workingDelta.additions, ¬ s.graph.Committed t
  deleted : ∀ t ∈ s.graph.workingDelta.deletions, s.graph.Committed t
  nodup : s.graph.workingDelta.deletions.Nodup
  count : s.graph.totalTriples = s.triples.card + repeats s.graph.workingDelta.additions

/-- The node index holds the nodes of the store and the endpoints of all additions, and is
counted. -/
structure Indexed (g : GraphState) : Prop where
  nodup : g.nodeIndex.Nodup
  total : g.totalNodes = g.nodeIndex.length
  mem : ∀ d ∈ g.workingDelta :: g.deltaHead, ∀ t ∈ d.additions,
    t.subject ∈ g.nodeIndex ∧ t.object ∈ g.nodeIndex
  base : ∀ i < g.base.nodeCount, g.base.nodeIds i ∈ g.nodeIndex

/-! ## What a call does to the graph -/

section Calls

variable {g g' : GraphState} {t : Triple}

theorem perform_add (ht : t.Valid) (h : perform g (.add t) = some g') :
    ∃ d, g.workingDelta.addTriple t = some d ∧ g'.workingDelta = d ∧ g'.base = g.base ∧
      g'.deltaHead = g.deltaHead ∧ g'.totalTriples = g.totalTriples + 1 ∧
      g'.nodeIndex = graphNodeIndexInsert (graphNodeIndexInsert g.nodeIndex t.subject) t.object ∧
      g'.totalNodes = g.totalNodes + (g'.nodeIndex.length - g.nodeIndex.length) := by
  simp only [perform, graphAddTriple, ht, not_true_eq_false, if_false, Option.map_eq_some_iff,
    Option.bind_eq_bind, Option.bind_eq_some_iff, Option.some.injEq] at h
  obtain ⟨_, ⟨d, hd, rfl⟩, rfl⟩ := h
  exact ⟨d, hd, rfl, rfl, rfl, rfl, rfl, rfl⟩

theorem perform_remove (h : perform g (.remove t) = some g') :
    ∃ d, g.workingDelta.removeTriple t = some d ∧ g'.workingDelta = d ∧ g'.base = g.base ∧
      g'.deltaHead = g.deltaHead ∧ g'.totalTriples = g.totalTriples - 1 ∧
      g'.nodeIndex = g.nodeIndex ∧ g'.totalNodes = g.totalNodes := by
  simp only [perform, graphRemoveTriple, Option.map_eq_some_iff, Option.bind_eq_bind,
    Option.bind_eq_some_iff, Option.some.injEq] at h
  obtain ⟨_, ⟨d, hd, rfl⟩, rfl⟩ := h
  refine ⟨d, hd, rfl, rfl, rfl, ?_, rfl, rfl⟩
  dsimp only
  split_ifs <;> omega

theorem committed_congr (hb : g'.base = g.base) (hd : g'.deltaHead = g.deltaHead) :
    g'.Committed t ↔ g.Committed t := by
  rw [GraphState.Committed, GraphState.Committed, hb, hd]

/-- A commit does nothing, or moves the working delta to the chain. -/
theorem graphCommit_cases (g : GraphState) :
    (g.workingDelta.additions = [] ∧ g.workingDelta.deletions = [] ∧ graphCommit g = g) ∨
    ∃ d n, d.additions = canonicalAdditions g.workingDelta.additions ∧
      d.deletions = g.workingDelta.deletions ∧
      graphCommit g = { g with
        totalTriples := n, deltaHead := d :: g.deltaHead, workingDelta := Delta.create } := by
  by_cases h : g.workingDelta.additions.length = 0 ∧ g.workingDelta.deletions.length = 0
  · exact .inl ⟨List.length_eq_zero_iff.1 h.1, List.length_eq_zero_iff.1 h.2, if_pos h⟩
  · refine .inr ⟨{ g.workingDelta with
        additions := canonicalAdditions g.workingDelta.additions }, _, rfl, rfl, if_neg h⟩

/-- A committed delta decides about the triples that it mentions. -/
theorem committed_commit :
    (graphCommit g).Committed t ↔ t ∉ g.workingDelta.deletions ∧
      (t ∈ g.workingDelta.additions ∨ g.Committed t) := by
  rcases graphCommit_cases g with ⟨hadd, hdel, hg⟩ | ⟨d, n, hadd, hdel, hg⟩
  · simp [hg, hadd, hdel]
  · simp only [hg, GraphState.Committed, graphLookupTriple, hadd, hdel, mem_canonicalAdditions]
    by_cases hd : t ∈ g.workingDelta.deletions
    · simp [hd]
    · by_cases ha : t ∈ g.workingDelta.additions <;> simp [hd, ha]

/-- After a commit nothing is pending. -/
theorem workingDelta_commit : (graphCommit g).workingDelta.additions = [] ∧
    (graphCommit g).workingDelta.deletions = [] := by
  rcases graphCommit_cases g with ⟨hadd, hdel, hg⟩ | ⟨d, n, hadd, hdel, hg⟩
  · rw [hg]
    exact ⟨hadd, hdel⟩
  · rw [hg]
    exact ⟨rfl, rfl⟩

/-- A commit counts the repeated additions down again. -/
theorem totalTriples_commit (h : repeats g.workingDelta.additions ≤ g.totalTriples) :
    (graphCommit g).totalTriples = g.totalTriples - repeats g.workingDelta.additions := by
  simp only [repeats] at h ⊢
  simp only [graphCommit, length_canonicalAdditions]
  split_ifs with h₁ h₂
  · simp [List.length_eq_zero_iff.1 h₁.1]
  · rfl
  · dsimp only
    omega

end Calls

/-! ## The described set -/

variable {ts : List Triple} {g' g : GraphState} {op : Op}

theorem repeats_append_of_notMem (h : t ∉ ts) : repeats (ts ++ [t]) = repeats ts := by
  have hperm : (ts ++ [t]).Perm (t :: ts) := List.perm_append_singleton t ts
  rw [repeats, repeats, hperm.dedup.length_eq, List.dedup_cons_of_notMem h]
  simp

theorem repeats_append_of_mem (h : t ∈ ts) : repeats (ts ++ [t]) = repeats ts + 1 := by
  have hperm : (ts ++ [t]).Perm (t :: ts) := List.perm_append_singleton t ts
  have hle := (List.dedup_sublist ts).length_le
  rw [repeats, repeats, hperm.dedup.length_eq, List.dedup_cons_of_mem h]
  simp only [List.length_append, List.length_singleton]
  omega

/-- Taking out the only occurrence of a triple leaves the repetitions. -/
theorem repeats_erase {rest : List Triple} (ht : t ∈ ts) (hcount : ts.count t ≤ 1)
    (h : rest.Perm (ts.erase t)) : repeats rest = repeats ts ∧ t ∉ rest := by
  have hnot : t ∉ rest := by
    rw [h.mem_iff, ← List.count_eq_zero, List.count_erase_self]
    omega
  have hperm : ts.Perm (t :: rest) := (List.perm_cons_erase ht).trans (h.symm.cons t)
  refine ⟨?_, hnot⟩
  rw [repeats, repeats, hperm.length_eq, hperm.dedup.length_eq, List.dedup_cons_of_notMem hnot]
  simp

theorem agrees_init (sw : Switches) (mem : Memory) (cap : ℕ) (inv : Bool) :
    Agrees ⟨graphCreate sw mem cap inv, ∅⟩ := by
  have hcommitted (t : Triple) : ¬ (graphCreate sw mem cap inv).Committed t := by
    simp [GraphState.Committed, graphCreate, graphLookupTriple, graphBaseContains, graphBaseCreate]
  refine ⟨fun t => ?_, fun t ht => hcommitted t, ?_, List.nodup_nil, rfl⟩
  · rw [show (t ∈ (∅ : Finset Triple)) = False by simp, false_iff]
    rintro (h | ⟨h, -⟩)
    · exact List.not_mem_nil h
    · exact hcommitted t h
  · simp [graphCreate, Delta.create]

theorem Agrees.add (hs : Agrees s) (ht : t.Valid)
    (hok : t ∉ s.triples ∨ t ∈ s.graph.workingDelta.additions)
    (h : perform s.graph (.add t) = some g') : Agrees ⟨g', insert t s.triples⟩ := by
  obtain ⟨d, hd, rfl, hbase, hchain, htotal, -, -⟩ := perform_add ht h
  have hcom (u : Triple) : g'.Committed u ↔ s.graph.Committed u := committed_congr hbase hchain
  rcases Delta.addTriple_cases hd with ⟨htd, hperm, hadd⟩ | ⟨htd, hdel, hadd⟩
  · -- the pending deletion is of a committed triple, which comes back
    have hc : s.graph.Committed t := hs.deleted t htd
    have hta : t ∉ s.graph.workingDelta.additions := fun hta => hs.added t hta hc
    have htS : t ∉ s.triples := hok.resolve_right hta
    have hmem (u : Triple) :
        u ∈ g'.workingDelta.deletions ↔ u ≠ t ∧ u ∈ s.graph.workingDelta.deletions := by
      rw [hperm.mem_iff, hs.nodup.mem_erase_iff]
    refine ⟨fun u => ?_, fun u hu => ?_, fun u hu => ?_, ?_, ?_⟩
    · rw [mem_insert, hs.mem_iff, hadd, hcom, hmem]
      by_cases hut : u = t
      · subst hut
        simp [hc]
      · simp [hut]
    · rw [hcom]
      exact hs.added u (hadd ▸ hu)
    · rw [hcom]
      exact hs.deleted u ((hmem u).1 hu).2
    · exact hperm.nodup_iff.2 (hs.nodup.erase t)
    · rw [htotal, hs.count, hadd, card_insert_of_notMem htS]
      omega
  · have hnc : ¬ s.graph.Committed t := by
      rcases hok with htS | hta
      · intro hc
        exact htS ((hs.mem_iff t).2 (.inr ⟨hc, htd⟩))
      · exact hs.added t hta
    refine ⟨fun u => ?_, fun u hu => ?_, fun u hu => ?_, hdel ▸ hs.nodup, ?_⟩
    · rw [mem_insert, hs.mem_iff, hadd, hcom, hdel, List.mem_append, List.mem_singleton]
      tauto
    · rw [hcom]
      rcases List.mem_append.1 (hadd ▸ hu) with hu | hu
      · exact hs.added u hu
      · exact List.mem_singleton.1 hu ▸ hnc
    · rw [hcom]
      exact hs.deleted u (hdel ▸ hu)
    · dsimp only
      rw [htotal, hs.count, hadd]
      by_cases hta : t ∈ s.graph.workingDelta.additions
      · rw [repeats_append_of_mem hta, insert_eq_of_mem ((hs.mem_iff t).2 (.inl hta))]
        omega
      · rw [repeats_append_of_notMem hta, card_insert_of_notMem (hok.resolve_right hta)]
        omega

theorem Agrees.remove (hs : Agrees s) (htS : t ∈ s.triples)
    (hcount : s.graph.workingDelta.additions.count t ≤ 1)
    (h : perform s.graph (.remove t) = some g') : Agrees ⟨g', s.triples.erase t⟩ := by
  obtain ⟨d, hd, rfl, hbase, hchain, htotal, -, -⟩ := perform_remove h
  have hcom (u : Triple) : g'.Committed u ↔ s.graph.Committed u := committed_congr hbase hchain
  have hcard : 0 < s.triples.card := card_pos.2 ⟨t, htS⟩
  rcases Delta.removeTriple_cases hd with ⟨hta, hperm, hdel⟩ | ⟨hta, htd, -⟩ |
    ⟨hta, htd, hadd, hdel⟩
  · obtain ⟨hrep, hnot⟩ := repeats_erase hta hcount hperm
    have hnc : ¬ s.graph.Committed t := hs.added t hta
    have hmem (u : Triple) (hut : u ≠ t) :
        u ∈ g'.workingDelta.additions ↔ u ∈ s.graph.workingDelta.additions := by
      rw [hperm.mem_iff, List.mem_erase_of_ne hut]
    refine ⟨fun u => ?_, fun u hu => ?_, fun u hu => ?_, hdel ▸ hs.nodup, ?_⟩
    · rw [mem_erase, hs.mem_iff, hcom, hdel]
      by_cases hut : u = t
      · subst hut
        simp [hnot, hnc]
      · simp [hut, hmem u hut]
    · rw [hcom]
      exact hs.added u (List.mem_of_mem_erase (hperm.mem_iff.1 hu))
    · rw [hcom]
      exact hs.deleted u (hdel ▸ hu)
    · rw [htotal, hs.count, hrep, card_erase_of_mem htS]
      omega
  · exact absurd ((hs.mem_iff t).1 htS) (by simp [hta, htd])
  · have hc : s.graph.Committed t := (((hs.mem_iff t).1 htS).resolve_left hta).1
    refine ⟨fun u => ?_, fun u hu => ?_, fun u hu => ?_, ?_, ?_⟩
    · rw [mem_erase, hs.mem_iff, hcom, hadd, hdel, List.mem_append, List.mem_singleton]
      by_cases hut : u = t
      · subst hut
        simp [hta]
      · simp [hut]
    · rw [hcom]
      exact hs.added u (hadd ▸ hu)
    · rw [hcom]
      rcases List.mem_append.1 (hdel ▸ hu) with hu | hu
      · exact hs.deleted u hu
      · exact List.mem_singleton.1 hu ▸ hc
    · rw [hdel]
      exact (List.perm_append_singleton t _).nodup_iff.2 (List.nodup_cons.2 ⟨htd, hs.nodup⟩)
    · rw [htotal, hs.count, hadd, card_erase_of_mem htS]
      omega

/-- After a commit the committed triples are those of the described set. -/
theorem Agrees.committed_iff (hs : Agrees s) (t : Triple) :
    (graphCommit s.graph).Committed t ↔ t ∈ s.triples := by
  rw [committed_commit, hs.mem_iff]
  constructor
  · rintro ⟨htd, hta | hc⟩
    · exact .inl hta
    · exact .inr ⟨hc, htd⟩
  · rintro (hta | ⟨hc, htd⟩)
    · exact ⟨fun htd => hs.added t hta (hs.deleted t htd), .inl hta⟩
    · exact ⟨htd, .inr hc⟩

theorem Agrees.totalTriples_eq (hs : Agrees s) :
    (graphCommit s.graph).totalTriples = s.triples.card := by
  rw [totalTriples_commit (by rw [hs.count]; omega), hs.count]
  omega

theorem Agrees.commit (hs : Agrees s) : Agrees ⟨graphCommit s.graph, s.triples⟩ := by
  obtain ⟨hadd, hdel⟩ := workingDelta_commit (g := s.graph)
  refine ⟨fun t => ?_, ?_, ?_, ?_, ?_⟩
  · rw [hs.committed_iff, hadd, hdel]
    simp
  · simp [hadd]
  · simp [hdel]
  · simp [hdel]
  · rw [hs.totalTriples_eq, hadd]
    rfl

/-! ## The node index -/

theorem mem_graphNodeIndexInsert {idx : List NodeId} {id x : NodeId} :
    x ∈ graphNodeIndexInsert idx id ↔ x = id ∨ x ∈ idx := by
  unfold graphNodeIndexInsert
  split_ifs with h
  · constructor
    · exact .inr
    · rintro (rfl | hx)
      · exact h
      · exact hx
  · exact List.mem_cons

theorem nodup_graphNodeIndexInsert {idx : List NodeId} (h : idx.Nodup) (id : NodeId) :
    (graphNodeIndexInsert idx id).Nodup := by
  unfold graphNodeIndexInsert
  split_ifs with hid
  · exact h
  · exact List.nodup_cons.2 ⟨hid, h⟩

theorem length_le_graphNodeIndexInsert (idx : List NodeId) (id : NodeId) :
    idx.length ≤ (graphNodeIndexInsert idx id).length := by
  unfold graphNodeIndexInsert
  split_ifs <;> simp

theorem indexed_init (sw : Switches) (mem : Memory) (cap : ℕ) (inv : Bool) :
    Indexed (graphCreate sw mem cap inv) :=
  ⟨List.nodup_nil, rfl, by simp [graphCreate, Delta.create],
    fun _ hi => absurd hi (Nat.not_lt_zero _)⟩

theorem Indexed.add (hg : Indexed g) (ht : t.Valid) (h : perform g (.add t) = some g') :
    Indexed g' := by
  obtain ⟨d, hd, rfl, hbase, hchain, -, hidx, htotal⟩ := perform_add ht h
  have hold (x : NodeId) (hx : x ∈ g.nodeIndex) : x ∈ g'.nodeIndex := by
    simp [hidx, mem_graphNodeIndexInsert, hx]
  have hnew : t.subject ∈ g'.nodeIndex ∧ t.object ∈ g'.nodeIndex := by
    simp [hidx, mem_graphNodeIndexInsert]
  have hlen : g.nodeIndex.length ≤ g'.nodeIndex.length :=
    hidx ▸ (length_le_graphNodeIndexInsert _ _).trans (length_le_graphNodeIndexInsert _ _)
  have hadds (u : Triple) (hu : u ∈ g'.workingDelta.additions) :
      u = t ∨ u ∈ g.workingDelta.additions := by
    rcases Delta.addTriple_cases hd with ⟨-, -, hadd⟩ | ⟨-, -, hadd⟩
    · exact .inr (hadd ▸ hu)
    · rw [hadd, List.mem_append, List.mem_singleton] at hu
      exact hu.symm
  refine ⟨?_, ?_, ?_, fun i hi => hold _ (hbase ▸ hg.base i (hbase ▸ hi))⟩
  · exact hidx ▸ nodup_graphNodeIndexInsert (nodup_graphNodeIndexInsert hg.nodup _) _
  · have := hg.total
    omega
  · intro e he u hu
    rcases List.mem_cons.1 he with rfl | he
    · rcases hadds u hu with rfl | hu
      · exact hnew
      · exact (hg.mem _ (by simp) u hu).imp (hold _) (hold _)
    · exact (hg.mem e (by simp [hchain ▸ he]) u hu).imp (hold _) (hold _)

theorem Indexed.remove (hg : Indexed g) (h : perform g (.remove t) = some g') : Indexed g' := by
  obtain ⟨d, hd, rfl, hbase, hchain, -, hidx, htotal⟩ := perform_remove h
  have hadds (u : Triple) (hu : u ∈ g'.workingDelta.additions) : u ∈ g.workingDelta.additions := by
    rcases Delta.removeTriple_cases hd with ⟨-, hperm, -⟩ | ⟨-, -, hsame⟩ | ⟨-, -, hadd, -⟩
    · exact List.mem_of_mem_erase (hperm.mem_iff.1 hu)
    · exact hsame ▸ hu
    · exact hadd ▸ hu
  refine ⟨hidx ▸ hg.nodup, by rw [htotal, hidx, hg.total], ?_, hbase ▸ hidx ▸ hg.base⟩
  intro e he u hu
  rw [hidx]
  rcases List.mem_cons.1 he with rfl | he
  · exact hg.mem _ (by simp) u (hadds u hu)
  · exact hg.mem e (by simp [hchain ▸ he]) u hu

theorem Indexed.commit (hg : Indexed g) : Indexed (graphCommit g) := by
  rcases graphCommit_cases g with ⟨-, -, he⟩ | ⟨d, n, hadd, -, he⟩
  · exact he.symm ▸ hg
  · rw [he]
    refine ⟨hg.nodup, hg.total, ?_, hg.base⟩
    intro e hmem u hu
    simp only [List.mem_cons] at hmem
    rcases hmem with rfl | rfl | hmem
    · simp [Delta.create] at hu
    · rw [hadd, mem_canonicalAdditions] at hu
      exact hg.mem _ (by simp) u hu
    · exact hg.mem e (by simp [hmem]) u hu

/-- The endpoints that a snapshot maps are in the node index. -/
theorem Indexed.mem_of_source (hg : Indexed g) {id : NodeId}
    (h : id ∈ nodeMapSources g.base g.deltaHead) : id ∈ g.nodeIndex := by
  simp only [nodeMapSources, List.mem_append, List.mem_map, List.mem_range, List.mem_flatMap,
    List.mem_cons, List.not_mem_nil, or_false] at h
  obtain ⟨i, hi, rfl⟩ | ⟨d, hd, t, ht, rfl | rfl⟩ := h
  · exact hg.base i hi
  · exact (hg.mem d (by simp [hd]) t ht).1
  · exact (hg.mem d (by simp [hd]) t ht).2

theorem Indexed.mapFits (hg : Indexed g) : g.MapFits :=
  mapFits_of_index hg.total.ge fun _ hid => hg.mem_of_source hid

/-! ## Runs -/

/-- What every careful run keeps. -/
structure Sound (s : Tracked) : Prop where
  agrees : Agrees s
  indexed : Indexed s.graph
  roomy : s.graph.workingDelta.Roomy

theorem after_eq_some {s' : Tracked} (h : s.after op = some s') :
    perform s.graph op = some s'.graph ∧ s' = ⟨s'.graph, op.apply s.triples⟩ := by
  obtain ⟨g, hg, rfl⟩ := Option.map_eq_some_iff.1 h
  exact ⟨hg, rfl⟩

theorem Sound.step {s' : Tracked} (hs : Sound s) (hok : Careful s op) (h : versions.Step s op s') :
    Sound s' := by
  obtain ⟨hvalid, hafter⟩ := h
  obtain ⟨hg, he⟩ := after_eq_some hafter
  rw [he]
  cases op with
  | add t =>
    obtain ⟨d, hd, rfl, -⟩ := perform_add hvalid hg
    exact ⟨hs.agrees.add hvalid hok.1 hg, hs.indexed.add hvalid hg, hs.roomy.addTriple hd⟩
  | remove t =>
    obtain ⟨d, hd, rfl, -⟩ := perform_remove hg
    exact ⟨hs.agrees.remove hok.1 hok.2.1 hg, hs.indexed.remove hg, hs.roomy.removeTriple hd⟩
  | commit =>
    have hg : graphCommit s.graph = s'.graph := Option.some.inj hg
    rw [← hg]
    refine ⟨hs.agrees.commit, hs.indexed.commit, ?_⟩
    rcases graphCommit_cases s.graph with ⟨-, -, hc⟩ | ⟨d, n, -, -, hc⟩
    · exact hc.symm ▸ hs.roomy
    · exact hc.symm ▸ Delta.roomy_create

theorem sound_of_reach (h : versions.Reach Careful s) : Sound s := by
  apply Machine.Reach.invariant _ _ h
  · rintro _ ⟨sw, mem, cap, inv, rfl⟩
    exact ⟨agrees_init sw mem cap inv, indexed_init sw mem cap inv, Delta.roomy_create⟩
  · intro s op s' hs hok hstep
    exact hs.step hok hstep

/-- A careful call with valid ids is carried out. -/
theorem Sound.exists_step (hs : Sound s) (hvalid : op.Valid) (hok : Careful s op) :
    ∃ s', versions.Step s op s' := by
  have hperform : (perform s.graph op).isSome := by
    cases op with
    | add t =>
      obtain ⟨d, hd⟩ := Option.isSome_iff_exists.1 (Delta.addTriple_isSome hs.roomy hok.2 t)
      have hv : t.Valid := hvalid
      simp [perform, graphAddTriple, hv, hd]
    | remove t =>
      obtain ⟨d, hd⟩ := Option.isSome_iff_exists.1 (Delta.removeTriple_isSome hs.roomy hok.2.2 t)
      simp [perform, graphRemoveTriple, hd]
    | commit => rfl
  obtain ⟨g, hg⟩ := Option.isSome_iff_exists.1 hperform
  exact ⟨⟨g, op.apply s.triples⟩, hvalid, by simp [Tracked.after, hg]⟩

/-- In every careful run a snapshot taken after a commit finds and counts exactly
the triples that the calls describe, and every careful call is carried out. -/
theorem answersAs_of_careful (s : Tracked) (h : versions.Reach Careful s) :
    AnswersAs (graphCommit s.graph) s.triples ∧
      ∀ op : Op, op.Valid → Careful s op → ∃ s', versions.Step s op s' := by
  have hs := sound_of_reach h
  refine ⟨?_, fun op hvalid hok => hs.exists_step hvalid hok⟩
  obtain ⟨snap, hsnap, hbase, hchain, hcount⟩ :=
    graphSnapshotCreate_eq_some hs.indexed.commit.mapFits
  refine ⟨snap, hsnap, fun t => ?_, ?_⟩
  · rw [Snapshot.lookupTriple, hbase, hchain]
    exact hs.agrees.committed_iff t
  · rw [graphSnapshotTripleCount, hcount, hs.agrees.totalTriples_eq]

def newGraph : GraphState :=
  graphCreate ⟨true, true, true⟩ .cleared 1024 true

/-- Carry out the calls as long as they meet `ok`. -/
def runFrom (ok : Tracked → Op → Prop) [∀ s op, Decidable (ok s op)] (s : Tracked) :
    List Op → Tracked
  | [] => s
  | op :: ops =>
    match s.after op with
    | some s' => if op.Valid ∧ ok s op then runFrom ok s' ops else s
    | none => s

theorem reach_runFrom {ok : Tracked → Op → Prop} [∀ s op, Decidable (ok s op)]
    (hs : versions.Reach ok s) (ops : List Op) : versions.Reach ok (runFrom ok s ops) := by
  induction ops generalizing s with
  | nil => exact hs
  | cons op ops ih =>
    rw [runFrom]
    split
    next s' h =>
      split_ifs with hok
      · exact ih (hs.step hok.2 ⟨hok.1, h⟩)
      · exact hs
    next => exact hs

theorem reach_newGraph (ok : Tracked → Op → Prop) : versions.Reach ok ⟨newGraph, ∅⟩ :=
  .init ⟨_, _, _, _, rfl⟩

theorem answersAs_add_commit_remove :
    ∃ s, versions.Reach Careful s ∧ s.triples = {⟨4, 2, 1⟩} ∧
      AnswersAs (graphCommit s.graph) s.triples := by
  let ops : List Op :=
    [.add ⟨1, 2, 3⟩, .add ⟨1, 2, 3⟩, .add ⟨4, 2, 1⟩, .commit, .remove ⟨1, 2, 3⟩]
  have h := reach_runFrom (reach_newGraph Careful) ops
  exact ⟨_, h, by decide +kernel, (answersAs_of_careful _ h).1⟩

/-- A triple that is added twice and removed once stays. -/
theorem added_twice_removed_once_stays :
    ∃ s, versions.Reachable s ∧ s.triples = ∅ ∧ ¬ AnswersAs (graphCommit s.graph) s.triples := by
  let ops : List Op := [.add ⟨1, 2, 3⟩, .add ⟨1, 2, 3⟩, .remove ⟨1, 2, 3⟩]
  have h : versions.Reachable _ := reach_runFrom (reach_newGraph fun _ _ => True) ops
  refine ⟨_, h, by decide +kernel, ?_⟩
  rintro ⟨snap, hsnap, hlookup, -⟩
  cases hsnap
  have := (hlookup ⟨1, 2, 3⟩).1 (by decide +kernel)
  exact absurd this (by decide +kernel)

end Virtuoso.Graph
