import Virtuoso.Graph.History
import Virtuoso.Lib.Stream

/-!
# Saving and loading the delta chain

`graph_delta_save` writes the deltas from the newest to the oldest, and `graph_delta_load`
replays them in the order of the file: each delta's additions and deletions go through the
working delta, which is committed at the end of each.  A delta of a run comes back as it was
(`loadDeltas_cons`), but the newest is committed first, so the loaded chain is the saved
one the other way round.  A lookup stops at the newest mention of a triple; the loaded graph
finds the same triples exactly if a snapshot can be taken of the saved one and for every
triple the newest and the oldest mention agree.
-/

namespace Virtuoso.Graph

open Lib Delta

variable {g g₀ : GraphState} {chain : List Delta}

/-- `DELTA_FILE_MAGIC`. -/
def deltaFileMagic : ℕ := 0x44454C5446494C45

/-- The count that ends the file. -/
def endMarker : ℕ := 0xFFFFFFFF

def Triple.bytes (t : Triple) : List UInt8 :=
  bytesLe 8 t.subject ++ bytesLe 8 t.predicate ++ bytesLe 8 t.object

/-- What `graph_delta_save` writes for one delta; the counts are `uint32_t`. -/
def Delta.bytes (d : Delta) : List UInt8 :=
  bytesLe 4 d.additions.length ++ bytesLe 4 d.deletions.length ++
    d.additions.flatMap Triple.bytes ++ d.deletions.flatMap Triple.bytes

/-- `graph_delta_save`: the bytes of the file. -/
def graphDeltaSave (g : GraphState) : List UInt8 :=
  bytesLe 8 deltaFileMagic ++ (g.deltaHead.flatMap Delta.bytes ++ bytesLe 4 endMarker)

/-- `fread` of one `graph_triple_t`. -/
def readTriple (bs : List UInt8) : Option (Triple × List UInt8) := do
  let (subject, bs) ← readWord 8 bs
  let (predicate, bs) ← readWord 8 bs
  let (object, bs) ← readWord 8 bs
  some (⟨Fin.ofNat _ subject, Fin.ofNat _ predicate, Fin.ofNat _ object⟩, bs)

/-- The codes that the functions on files return. -/
inductive FileError
  | ok
  | ioError
  | versionMismatch
  | corrupted
  | notImplemented
deriving DecidableEq

/-- The loop that reads `n` triples and hands each to `call`, whose code is not looked at.
There is no rest of the file when it ends early. -/
def loadTriples (call : GraphState → Triple → Option (GraphError × GraphState)) :
    ℕ → GraphState → List UInt8 → Option (GraphState × Option (List UInt8))
  | 0, g, bs => some (g, some bs)
  | n + 1, g, bs =>
    match readTriple bs with
    | none => some (g, none)
    | some (t, bs) => do
        let (_, g) ← call g t
        loadTriples call n g bs

/-- The loop of `graph_delta_load` over the deltas of the file. -/
def loadDeltas : ℕ → GraphState → List UInt8 → Option (FileError × GraphState)
  | 0, _, _ => none
  | fuel + 1, g, bs =>
    match readWord 4 bs with
    | none => some (.ok, g)
    | some (addCount, bs) =>
      if addCount = endMarker then some (.ok, g)
      else
        match readWord 4 bs with
        | none => some (.ok, g)
        | some (delCount, bs) =>
          match loadTriples graphAddTriple addCount g bs with
          | none => none
          | some (g, none) => some (.ioError, g)
          | some (g, some bs) =>
            match loadTriples graphRemoveTriple delCount g bs with
            | none => none
            | some (g, none) => some (.ioError, g)
            | some (g, some bs) => loadDeltas fuel (graphCommit g) bs

/-- `graph_delta_load`; a round of the loop takes at least eight bytes. -/
def graphDeltaLoad (g : GraphState) (file : List UInt8) : Option (FileError × GraphState) :=
  match readWord 8 file with
  | none => some (.versionMismatch, g)
  | some (magic, bs) =>
    if magic ≠ deltaFileMagic then some (.versionMismatch, g)
    else loadDeltas (bs.length + 1) g bs

/-! ## The deltas of a run -/

/-- What holds of a delta that calls are collected in. -/
structure Delta.Collecting (d : Delta) : Prop where
  valid : ∀ t ∈ d.additions, t.Valid
  disjoint : ∀ t ∈ d.additions, t ∉ d.deletions
  nodup : d.deletions.Nodup
  roomy : d.Roomy

/-- What holds of a delta of the chain. -/
structure Delta.Settled (d : Delta) : Prop where
  valid : ∀ t ∈ d.additions, t.Valid
  disjoint : ∀ t ∈ d.additions, t ∉ d.deletions
  nodup : d.deletions.Nodup
  /-- The additions ascend strictly. -/
  ascending : d.additions.Pairwise (· < ·)
  nonempty : d.additions ≠ [] ∨ d.deletions ≠ []
  additions_le : d.additions.length ≤ 2 ^ 31
  deletions_le : d.deletions.length ≤ 2 ^ 31

namespace Delta

variable {d d' : Delta} {t : Triple}

theorem collecting_create : create.Collecting :=
  ⟨by simp [create], by simp [create], List.nodup_nil, roomy_create⟩

theorem Collecting.addTriple (hd : d.Collecting) (ht : t.Valid) (h : d.addTriple t = some d') :
    d'.Collecting := by
  rcases addTriple_cases h with ⟨htd, hperm, hadd⟩ | ⟨htd, hdel, hadd⟩
  · refine ⟨hadd ▸ hd.valid, ?_, hperm.nodup_iff.2 (hd.nodup.erase t), hd.roomy.addTriple h⟩
    intro u hu hu'
    exact hd.disjoint u (hadd ▸ hu) (List.mem_of_mem_erase (hperm.mem_iff.1 hu'))
  · refine ⟨?_, ?_, hdel ▸ hd.nodup, hd.roomy.addTriple h⟩
    · intro u hu
      rcases List.mem_append.1 (hadd ▸ hu) with hu | hu
      · exact hd.valid u hu
      · exact List.mem_singleton.1 hu ▸ ht
    · intro u hu
      rw [hdel]
      rcases List.mem_append.1 (hadd ▸ hu) with hu | hu
      · exact hd.disjoint u hu
      · exact List.mem_singleton.1 hu ▸ htd

theorem Collecting.removeTriple (hd : d.Collecting) (h : d.removeTriple t = some d') :
    d'.Collecting := by
  rcases removeTriple_cases h with ⟨-, hperm, hdel⟩ | ⟨-, -, rfl⟩ | ⟨hta, htd, hadd, hdel⟩
  · have hmem (u : Triple) (hu : u ∈ d'.additions) : u ∈ d.additions :=
      List.mem_of_mem_erase (hperm.mem_iff.1 hu)
    refine ⟨fun u hu => hd.valid u (hmem u hu), fun u hu => ?_, hdel ▸ hd.nodup,
      hd.roomy.removeTriple h⟩
    rw [hdel]
    exact hd.disjoint u (hmem u hu)
  · exact hd
  · refine ⟨hadd ▸ hd.valid, fun u hu hu' => ?_, ?_, hd.roomy.removeTriple h⟩
    · rw [hadd] at hu
      rcases List.mem_append.1 (hdel ▸ hu') with hu' | hu'
      · exact hd.disjoint u hu hu'
      · exact hta (List.mem_singleton.1 hu' ▸ hu)
    · rw [hdel]
      exact (List.perm_append_singleton t _).nodup_iff.2 (List.nodup_cons.2 ⟨htd, hd.nodup⟩)

/-- A capacity is at most `2 ^ 31`. -/
theorem length_le_of_capacity {n capacity : ℕ} (h : n ≤ capacity)
    (hc : ∃ k, 0 < k ∧ k < 32 ∧ capacity = 2 ^ k) : n ≤ 2 ^ 31 := by
  obtain ⟨k, -, hk, rfl⟩ := hc
  exact h.trans (Nat.pow_le_pow_right (by decide) (by omega))

/-- A delta that is committed settles. -/
theorem Collecting.settled (hd : d.Collecting) (hne : d.additions ≠ [] ∨ d.deletions ≠ [])
    (hadd : d'.additions = canonicalAdditions d.additions) (hdel : d'.deletions = d.deletions) :
    d'.Settled := by
  have hmem (u : Triple) (hu : u ∈ d'.additions) : u ∈ d.additions :=
    mem_canonicalAdditions.1 (hadd ▸ hu)
  refine ⟨fun u hu => hd.valid u (hmem u hu), fun u hu => ?_, hdel ▸ hd.nodup, ?_, ?_, ?_, ?_⟩
  · rw [hdel]
    exact hd.disjoint u (hmem u hu)
  · rw [hadd, canonicalAdditions_eq]
    have hle : (qsortTriples d.additions).dedup.Pairwise (· ≤ ·) :=
      (pairwise_qsortTriples d.additions).sublist (List.dedup_sublist _)
    exact hle.imp₂ (fun _ _ hle hne => lt_of_le_of_ne hle hne) (List.nodup_dedup _)
  · rcases hne with hne | hne
    · obtain ⟨u, hu⟩ := List.exists_mem_of_ne_nil _ hne
      exact .inl (List.ne_nil_of_mem (hadd ▸ mem_canonicalAdditions.2 hu))
    · exact .inr (hdel ▸ hne)
  · rw [hadd, length_canonicalAdditions]
    exact (List.dedup_sublist _).length_le.trans
      (length_le_of_capacity hd.roomy.additions hd.roomy.additionCapacity)
  · rw [hdel]
    exact length_le_of_capacity hd.roomy.deletions hd.roomy.deletionCapacity

/-- The additions of a settled delta are in canonical form. -/
theorem Settled.canonicalAdditions_eq_self (hd : d.Settled) :
    canonicalAdditions d.additions = d.additions := by
  have hsorted : qsortTriples d.additions = d.additions := by
    rw [qsortTriples_eq]
    exact List.Pairwise.insertionSort_eq (hd.ascending.imp le_of_lt)
  rw [canonicalAdditions_eq, hsorted]
  exact List.dedup_eq_self.2 (hd.ascending.imp ne_of_lt)

end Delta

/-- The working delta collects, and the deltas of the chain have settled. -/
structure Chained (g : GraphState) : Prop where
  working : g.workingDelta.Collecting
  chain : ∀ d ∈ g.deltaHead, d.Settled

theorem chained_graphCreate (sw : Switches) (mem : Memory) (cap : ℕ) (inv : Bool) :
    Chained (graphCreate sw mem cap inv) :=
  ⟨collecting_create, by simp [graphCreate]⟩

theorem Chained.commit (hg : Chained g) : Chained (graphCommit g) := by
  rcases graphCommit_cases g with ⟨-, -, he⟩ | ⟨d, n, hadd, hdel, he⟩
  · rw [he]
    exact hg
  · by_cases hne : g.workingDelta.additions ≠ [] ∨ g.workingDelta.deletions ≠ []
    · rw [he]
      refine ⟨collecting_create, ?_⟩
      intro e hmem
      rcases List.mem_cons.1 hmem with rfl | hmem
      · exact hg.working.settled hne hadd hdel
      · exact hg.chain e hmem
    · -- the empty working delta is kept back
      have hempty : graphCommit g = g := by
        exact if_pos (by simpa using hne)
      rw [hempty]
      exact hg

theorem Chained.perform {g' : GraphState} (hg : Chained g) {op : Op} (h : perform g op = some g') :
    Chained g' := by
  cases op with
  | add t =>
    by_cases ht : t.Valid
    · obtain ⟨d, hd, rfl, -, hchain, -⟩ := perform_add ht h
      exact ⟨hg.working.addTriple ht hd, hchain ▸ hg.chain⟩
    · have hsame : g = g' := by simpa [Graph.perform, graphAddTriple, ht] using h
      exact hsame ▸ hg
  | remove t =>
    obtain ⟨d, hd, rfl, -, hchain, -⟩ := perform_remove h
    exact ⟨hg.working.removeTriple hd, hchain ▸ hg.chain⟩
  | commit =>
    have hg' : graphCommit g = g' := Option.some.inj h
    exact hg' ▸ hg.commit

theorem Chained.compact (hg : Chained g) (sw : Switches) (mem : Memory) :
    Chained (graphCompact sw mem g).2 := by
  unfold graphCompact
  split_ifs with h₁ h₂ h₃
  · exact hg
  · exact hg
  · exact hg
  · exact ⟨hg.working, by simp⟩

theorem chained_of_reachable (h : history.Reachable g) : Chained g := by
  apply Machine.Reach.invariant _ _ h
  · rintro _ ⟨sw, mem, cap, inv, rfl⟩
    exact chained_graphCreate sw mem cap inv
  · rintro g (op | ⟨sw, mem⟩) g' hg - hstep
    · exact hg.perform hstep
    · obtain rfl := hstep
      exact hg.compact sw mem

/-! ## Reading back -/

theorem readTriple_bytes (t : Triple) (rest : List UInt8) :
    readTriple (t.bytes ++ rest) = some (t, rest) := by
  have hread (n : Fin (2 ^ 64)) (rest : List UInt8) :
      readWord 8 (bytesLe 8 n ++ rest) = some (n.val, rest) :=
    readWord_bytesLe (n.isLt.trans_eq (by norm_num)) rest
  simp [readTriple, Triple.bytes, hread]

/-- `g` is `g₀` with the given entries in its working delta. -/
structure Collects (g₀ g : GraphState) (additions deletions : List Triple) : Prop where
  base : g.base = g₀.base
  chain : g.deltaHead = g₀.deltaHead
  additions : g.workingDelta.additions = additions
  deletions : g.workingDelta.deletions = deletions
  roomy : g.workingDelta.Roomy
  indexed : Indexed g

variable {t : Triple} {as : List Triple} {d : Delta}

theorem Collects.add (hg : Collects g₀ g as []) (ht : t.Valid) (hlen : as.length < 2 ^ 31) :
    ∃ g', graphAddTriple g t = some (.ok, g') ∧ Collects g₀ g' (as ++ [t]) [] := by
  obtain ⟨d, hd⟩ := Option.isSome_iff_exists.1
    (addTriple_isSome hg.roomy (hg.additions ▸ hlen) t)
  obtain ⟨g', hg'⟩ : ∃ g', graphAddTriple g t = some (.ok, g') := by
    simp [graphAddTriple, ht, hd]
  refine ⟨g', hg', ?_⟩
  have hperform : perform g (.add t) = some g' := by simp [perform, hg']
  obtain ⟨d', hd', rfl, hbase, hchain, -⟩ := perform_add ht hperform
  rcases addTriple_cases hd' with ⟨htd, -, -⟩ | ⟨-, hdel, hadd⟩
  · simp [hg.deletions] at htd
  · exact ⟨hbase.trans hg.base, hchain.trans hg.chain, hadd.trans (by rw [hg.additions]),
      hdel.trans hg.deletions, hg.roomy.addTriple hd', hg.indexed.add ht hperform⟩

theorem Collects.remove {ds : List Triple} (hg : Collects g₀ g as ds) (hta : t ∉ as) (htd : t ∉ ds)
    (hlen : ds.length < 2 ^ 31) :
    ∃ g', graphRemoveTriple g t = some (.ok, g') ∧ Collects g₀ g' as (ds ++ [t]) := by
  obtain ⟨d, hd⟩ := Option.isSome_iff_exists.1
    (removeTriple_isSome hg.roomy (hg.deletions ▸ hlen) t)
  obtain ⟨g', hg'⟩ : ∃ g', graphRemoveTriple g t = some (.ok, g') := by
    simp [graphRemoveTriple, hd]
  refine ⟨g', hg', ?_⟩
  have hperform : perform g (.remove t) = some g' := by simp [perform, hg']
  obtain ⟨d', hd', rfl, hbase, hchain, -⟩ := perform_remove hperform
  rcases removeTriple_cases hd' with ⟨h, -, -⟩ | ⟨-, h, -⟩ | ⟨-, -, hadd, hdel⟩
  · exact absurd (hg.additions ▸ h) hta
  · exact absurd (hg.deletions ▸ h) htd
  · exact ⟨hbase.trans hg.base, hchain.trans hg.chain, hadd.trans hg.additions,
      hdel.trans (by rw [hg.deletions]), hg.roomy.removeTriple hd', hg.indexed.remove hperform⟩

/-- Replayed into an empty working delta, valid additions are collected in their order. -/
theorem loadTriples_additions {ts : List Triple} (hg : Collects g₀ g as [])
    (hvalid : ∀ t ∈ ts, t.Valid) (hlen : as.length + ts.length ≤ 2 ^ 31) (rest : List UInt8) :
    ∃ g', loadTriples graphAddTriple ts.length g (ts.flatMap Triple.bytes ++ rest) =
      some (g', some rest) ∧ Collects g₀ g' (as ++ ts) [] := by
  induction ts generalizing g as with
  | nil => exact ⟨g, rfl, by simpa using hg⟩
  | cons t ts ih =>
    rw [List.length_cons] at hlen
    obtain ⟨g₁, hadd, hg₁⟩ := hg.add (hvalid t (by simp)) (by omega)
    obtain ⟨g', hrest, hg'⟩ := ih hg₁ (fun u hu => hvalid u (by simp [hu])) (by simp; omega)
    refine ⟨g', ?_, by simpa using hg'⟩
    simp [loadTriples, readTriple_bytes, hadd, hrest]

/-- Deletions of distinct triples that are not added are collected in their order. -/
theorem loadTriples_deletions {ds ts : List Triple} (hg : Collects g₀ g as ds)
    (hnodup : (ds ++ ts).Nodup) (hdisj : ∀ t ∈ as, t ∉ ts) (hlen : ds.length + ts.length ≤ 2 ^ 31)
    (rest : List UInt8) :
    ∃ g', loadTriples graphRemoveTriple ts.length g (ts.flatMap Triple.bytes ++ rest) =
      some (g', some rest) ∧ Collects g₀ g' as (ds ++ ts) := by
  induction ts generalizing g ds with
  | nil => exact ⟨g, rfl, by simpa using hg⟩
  | cons t ts ih =>
    rw [List.length_cons] at hlen
    have htd : t ∉ ds := fun h => (List.nodup_append.1 hnodup).2.2 t h t (by simp) rfl
    obtain ⟨g₁, hdel, hg₁⟩ := hg.remove (fun h => hdisj t h (by simp)) htd (by omega)
    obtain ⟨g', hrest, hg'⟩ := ih hg₁ (by simpa using hnodup)
      (fun u hu hmem => hdisj u hu (by simp [hmem])) (by simp; omega)
    refine ⟨g', ?_, by simpa using hg'⟩
    simp [loadTriples, readTriple_bytes, hdel, hrest]

def Delta.entries (d : Delta) : List Triple × List Triple := (d.additions, d.deletions)

def GraphState.Idle (g : GraphState) : Prop := Collects g g [] []

/-- One round of the loop commits the next delta of the file. -/
theorem loadDeltas_cons (hg : g.Idle) (hd : d.Settled) (fuel : ℕ) (rest : List UInt8) :
    ∃ g' d', loadDeltas (fuel + 1) g (d.bytes ++ rest) = loadDeltas fuel g' rest ∧ g'.Idle ∧
      g'.base = g.base ∧ g'.deltaHead = d' :: g.deltaHead ∧ d'.entries = d.entries := by
  have hadds := hd.additions_le
  have hdels := hd.deletions_le
  obtain ⟨g₁, hadd, hg₁⟩ := loadTriples_additions hg hd.valid (by simpa using hd.additions_le)
    (d.deletions.flatMap Triple.bytes ++ rest)
  obtain ⟨g₂, hdel, hg₂⟩ := loadTriples_deletions hg₁ (by simpa using hd.nodup)
    (by simpa using hd.disjoint) (by simpa using hd.deletions_le) rest
  have hread₁ := readWord_bytesLe (w := 4) (n := d.additions.length)
    (by omega) (bytesLe 4 d.deletions.length ++
      (d.additions.flatMap Triple.bytes ++ (d.deletions.flatMap Triple.bytes ++ rest)))
  have hread₂ := readWord_bytesLe (w := 4) (n := d.deletions.length)
    (by omega) (d.additions.flatMap Triple.bytes ++ (d.deletions.flatMap Triple.bytes ++ rest))
  have hmarker : d.additions.length ≠ endMarker := by
    unfold endMarker
    omega
  have hload : loadDeltas (fuel + 1) g (d.bytes ++ rest) =
      loadDeltas fuel (graphCommit g₂) rest := by
    simp only [loadDeltas, bytes, List.append_assoc, hread₁, hmarker, if_false, hread₂, hadd,
      hdel]
  simp only [List.nil_append] at hg₂
  rcases graphCommit_cases g₂ with ⟨ha, hd₀, -⟩ | ⟨d', n, ha, hd₀, he⟩
  · -- a settled delta is not empty
    rw [hg₂.additions] at ha
    rw [hg₂.deletions] at hd₀
    exact absurd hd.nonempty (by simp [ha, hd₀])
  · refine ⟨graphCommit g₂, d', hload, ?_, ?_, ?_, ?_⟩
    · have hidx := hg₂.indexed.commit
      rw [he] at hidx ⊢
      exact ⟨rfl, rfl, rfl, rfl, roomy_create, hidx⟩
    · rw [he]
      exact hg₂.base
    · rw [he]
      exact congrArg (d' :: ·) hg₂.chain
    · rw [entries, ha, hd₀, hg₂.additions, hg₂.deletions, hd.canonicalAdditions_eq_self]
      rfl

/-- The loop commits the deltas in the order of the file. -/
theorem loadDeltas_spec {ds : List Delta} (hds : ∀ d ∈ ds, d.Settled) (hg : g.Idle) {fuel : ℕ}
    (hfuel : ds.length < fuel) :
    ∃ g', loadDeltas fuel g (ds.flatMap bytes ++ bytesLe 4 endMarker) = some (.ok, g') ∧
      Indexed g' ∧ g'.base = g.base ∧
      g'.deltaHead.map entries =
        (ds.map entries).reverse ++ g.deltaHead.map entries := by
  induction ds generalizing g fuel with
  | nil =>
    obtain ⟨fuel, rfl⟩ : ∃ n, fuel = n + 1 := ⟨fuel - 1, by omega⟩
    have hread := readWord_bytesLe (w := 4) (n := endMarker) (by decide) []
    simp only [List.append_nil] at hread
    exact ⟨g, by simp [loadDeltas, hread], hg.indexed, rfl, by simp⟩
  | cons d ds ih =>
    obtain ⟨fuel, rfl⟩ : ∃ n, fuel = n + 1 := ⟨fuel - 1, by omega⟩
    obtain ⟨g₁, d', hload, hg₁, hbase, hchain, hent⟩ := loadDeltas_cons hg (hds d (by simp)) fuel
      (ds.flatMap bytes ++ bytesLe 4 endMarker)
    obtain ⟨g', hrest, hidx, hbase', hchain'⟩ := ih (fun e he => hds e (by simp [he])) hg₁
      (by simpa using hfuel)
    refine ⟨g', ?_, hidx, hbase'.trans hbase, ?_⟩
    · rw [List.flatMap_cons, List.append_assoc, hload, hrest]
    · rw [hchain', hchain]
      simp [hent]

theorem length_le_flatMap_bytes (ds : List Delta) :
    ds.length ≤ (ds.flatMap bytes).length := by
  induction ds with
  | nil => simp
  | cons d ds ih =>
    simp only [List.length_cons, List.flatMap_cons, List.length_append, bytes,
      length_bytesLe] at ih ⊢
    omega

/-- A saved chain of settled deltas loads into a graph with nothing pending: its deltas come
on top of the graph's own, the newest at the bottom. -/
theorem graphDeltaLoad_save (hg : ∀ d ∈ g.deltaHead, d.Settled) (hg₀ : g₀.Idle) :
    ∃ g', graphDeltaLoad g₀ (graphDeltaSave g) = some (.ok, g') ∧ Indexed g' ∧
      g'.base = g₀.base ∧
      g'.deltaHead.map entries =
        (g.deltaHead.map entries).reverse ++ g₀.deltaHead.map entries := by
  have hlen := length_le_flatMap_bytes g.deltaHead
  have hfuel : g.deltaHead.length <
      (g.deltaHead.flatMap bytes ++ bytesLe 4 endMarker).length + 1 := by
    rw [List.length_append]
    omega
  obtain ⟨g', hload, hrest⟩ := loadDeltas_spec hg hg₀ hfuel
  refine ⟨g', ?_, hrest⟩
  have hmagic := readWord_bytesLe (w := 8) (n := deltaFileMagic) (by decide)
    (g.deltaHead.flatMap bytes ++ bytesLe 4 endMarker)
  simp only [graphDeltaLoad, graphDeltaSave, hmagic, ne_eq, not_true_eq_false, if_false]
  exact hload

/-! ## What lookups find -/

def Delta.Mentions (d : Delta) (t : Triple) : Prop := t ∈ d.additions ∨ t ∈ d.deletions

instance (d : Delta) (t : Triple) : Decidable (d.Mentions t) :=
  inferInstanceAs (Decidable (_ ∨ _))

def newestMention (chain : List Delta) (t : Triple) : Option Delta := chain.find? (·.Mentions t)

def oldestMention (chain : List Delta) (t : Triple) : Option Delta :=
  chain.reverse.find? (·.Mentions t)

/-- The newest and the oldest delta that mention a triple both add it or both delete it. -/
def MentionsAgree (chain : List Delta) : Prop :=
  ∀ t, ∀ d ∈ newestMention chain t, ∀ e ∈ oldestMention chain t,
    (t ∈ d.additions ↔ t ∈ e.additions)

/-- Over an empty store a lookup finds what the newest mention adds. -/
theorem lookup_eq_exists_iff {base : Base} (hbase : base.nodeCount = 0)
    (hchain : ∀ d ∈ chain, ∀ t ∈ d.additions, t ∉ d.deletions) (t : Triple) :
    graphLookupTriple base chain t = .exists' ↔ ∃ d ∈ newestMention chain t, t ∈ d.additions := by
  induction chain with
  | nil => simp [graphLookupTriple, newestMention, graphBaseContains, hbase]
  | cons d chain ih =>
    have hrest := ih fun e he => hchain e (by simp [he])
    by_cases hdel : t ∈ d.deletions
    · have hadd : t ∉ d.additions := fun h => hchain d (by simp) t h hdel
      simp [graphLookupTriple, newestMention, Delta.Mentions, hdel, hadd]
    · by_cases hadd : t ∈ d.additions
      · simp [graphLookupTriple, newestMention, Delta.Mentions, hdel, hadd]
      · have hskip : newestMention (d :: chain) t = newestMention chain t := by
          simp [newestMention, Delta.Mentions, hdel, hadd]
        rw [hskip, ← hrest]
        simp [graphLookupTriple, hdel, hadd]

/-- A lookup looks at the entries of the deltas only. -/
theorem lookup_congr {base base' : Base} (hb : base.nodeCount = 0) (hb' : base'.nodeCount = 0)
    {chain' : List Delta} (h : chain'.map entries = chain.map entries) (t : Triple) :
    graphLookupTriple base' chain' t = graphLookupTriple base chain t := by
  induction chain generalizing chain' with
  | nil =>
    obtain rfl : chain' = [] := by simpa using h
    simp [graphLookupTriple, graphBaseContains, hb, hb']
  | cons d chain ih =>
    obtain ⟨d', rest, rfl, hd, hrest⟩ := List.map_eq_cons_iff.1 h
    simp only [entries, Prod.mk.injEq] at hd
    simp only [graphLookupTriple, hd.1, hd.2, ih hrest]

theorem mentions_of_newest (h : d ∈ newestMention chain t) : d ∈ chain ∧ d.Mentions t :=
  ⟨List.mem_of_find?_eq_some h, by simpa using List.find?_some h⟩

theorem mentions_of_oldest {e : Delta} (h : e ∈ oldestMention chain t) : e ∈ chain ∧ e.Mentions t :=
  ⟨List.mem_reverse.1 (List.mem_of_find?_eq_some h), by simpa using List.find?_some h⟩

/-- A chain and its reverse mention the same triples. -/
theorem exists_oldest_of_newest (h : d ∈ newestMention chain t) :
    ∃ e, e ∈ oldestMention chain t := by
  obtain ⟨hmem, hd⟩ := mentions_of_newest h
  exact Option.isSome_iff_exists.1
    (List.find?_isSome.2 ⟨d, List.mem_reverse.2 hmem, decide_eq_true hd⟩)

theorem exists_newest_of_oldest {e : Delta} (h : e ∈ oldestMention chain t) :
    ∃ d, d ∈ newestMention chain t := by
  obtain ⟨hmem, he⟩ := mentions_of_oldest h
  exact Option.isSome_iff_exists.1 (List.find?_isSome.2 ⟨e, hmem, decide_eq_true he⟩)

/-- Reversing a chain keeps what is found exactly if the ends agree. -/
theorem newest_iff_oldest :
    (∀ t, (∃ e ∈ oldestMention chain t, t ∈ e.additions) ↔
      ∃ d ∈ newestMention chain t, t ∈ d.additions) ↔ MentionsAgree chain := by
  constructor
  · intro h t d hd e he
    constructor
    · intro hadd
      obtain ⟨e', he', hadd'⟩ := (h t).2 ⟨d, hd, hadd⟩
      exact Option.mem_unique he he' ▸ hadd'
    · intro hadd
      obtain ⟨d', hd', hadd'⟩ := (h t).1 ⟨e, he, hadd⟩
      exact Option.mem_unique hd hd' ▸ hadd'
  · intro h t
    constructor
    · rintro ⟨e, he, hadd⟩
      obtain ⟨d, hd⟩ := exists_newest_of_oldest he
      exact ⟨d, hd, (h t d hd e he).2 hadd⟩
    · rintro ⟨d, hd, hadd⟩
      obtain ⟨e, he⟩ := exists_oldest_of_newest hd
      exact ⟨e, he, (h t d hd e he).1 hadd⟩

/-- A graph of any run whose store is empty loads from its file into a new graph, and the
loaded graph finds the same triples exactly if the node map of the saved one has room and the
newest and the oldest mention of every triple agree. -/
theorem graphDeltaLoad_sameFound_iff (g : GraphState) (hg : history.Reachable g)
    (hbase : g.base.nodeCount = 0) (sw : Switches) (mem : Memory) (cap : ℕ) (inv : Bool) :
    ∃ g', graphDeltaLoad (graphCreate sw mem cap inv) (graphDeltaSave g) = some (.ok, g') ∧
      (SameFound g g' ↔ g.MapFits ∧ MentionsAgree g.deltaHead) := by
  have hchained := chained_of_reachable hg
  have hidle : (graphCreate sw mem cap inv).Idle :=
    ⟨rfl, rfl, rfl, rfl, Delta.roomy_create, indexed_init sw mem cap inv⟩
  obtain ⟨g', hload, hidx, hb, hchain⟩ := graphDeltaLoad_save hchained.chain hidle
  refine ⟨g', hload, ?_⟩
  have hbase' : g'.base.nodeCount = 0 := by rw [hb]; rfl
  have hrev : g'.deltaHead.map Delta.entries = g.deltaHead.reverse.map Delta.entries := by
    rw [hchain]
    simp [graphCreate]
  have hdisj : ∀ d ∈ g.deltaHead, ∀ t ∈ d.additions, t ∉ d.deletions :=
    fun d hd => (hchained.chain d hd).disjoint
  have hloaded (t : Triple) :
      g'.Committed t ↔ ∃ e ∈ oldestMention g.deltaHead t, t ∈ e.additions := by
    rw [GraphState.Committed, lookup_congr hbase hbase' hrev,
      lookup_eq_exists_iff hbase (fun d hd => hdisj d (List.mem_reverse.1 hd))]
    rfl
  have hsaved (t : Triple) : g.Committed t ↔ ∃ d ∈ newestMention g.deltaHead t, t ∈ d.additions :=
    lookup_eq_exists_iff hbase hdisj t
  rw [← newest_iff_oldest, sameFound_iff, and_iff_right hidx.mapFits]
  exact and_congr_right' (forall_congr' fun t => by rw [hloaded, hsaved])

/-- A chain without deletions is found again. -/
theorem mentionsAgree_of_no_deletions (h : ∀ d ∈ chain, d.deletions = []) :
    MentionsAgree chain := by
  intro t d hd e he
  obtain ⟨hd, hdt⟩ := mentions_of_newest hd
  obtain ⟨he, het⟩ := mentions_of_oldest he
  simp only [Delta.Mentions, h d hd, h e he, List.not_mem_nil, or_false] at hdt het
  exact iff_of_true hdt het

def performAll (g : GraphState) (ops : List Op) : Option GraphState := ops.foldlM perform g

theorem reachable_performAll {ops : List Op} {g' : GraphState} (hg : history.Reachable g)
    (h : performAll g ops = some g') : history.Reachable g' ∧ g'.base = g.base := by
  induction ops generalizing g with
  | nil =>
    cases h
    exact ⟨hg, rfl⟩
  | cons op ops ih =>
    obtain ⟨g₁, hstep, hrest⟩ := Option.bind_eq_some_iff.1 h
    obtain ⟨hreach, hbase⟩ := ih (.step (a := .op op) hg trivial hstep) hrest
    exact ⟨hreach, hbase.trans (perform_frame hstep).1⟩

theorem reachable_newGraph : history.Reachable newGraph := .init ⟨_, _, _, _, rfl⟩

/-- Two commits that add a triple each. -/
theorem graphDeltaLoad_sameFound_two :
    ∃ g g', performAll newGraph [.add ⟨1, 2, 3⟩, .commit, .add ⟨4, 2, 1⟩, .commit] = some g ∧
      graphDeltaLoad newGraph (graphDeltaSave g) = some (.ok, g') ∧ SameFound g g' := by
  obtain ⟨g, hg, hfits, hnone⟩ : ∃ g, performAll newGraph
      [.add ⟨1, 2, 3⟩, .commit, .add ⟨4, 2, 1⟩, .commit] = some g ∧ g.MapFits ∧
      ∀ d ∈ g.deltaHead, d.deletions = [] := ⟨_, rfl, by decide +kernel, by decide +kernel⟩
  obtain ⟨hreach, hbase⟩ := reachable_performAll reachable_newGraph hg
  obtain ⟨g', hload, hiff⟩ := graphDeltaLoad_sameFound_iff g hreach (by rw [hbase]; rfl)
    ⟨true, true, true⟩ .cleared 1024 true
  exact ⟨g, g', hg, hload, hiff.2 ⟨hfits, mentionsAgree_of_no_deletions hnone⟩⟩

/-- A triple that is added, committed, removed and committed again is back after loading. -/
theorem graphDeltaLoad_brings_back :
    ∃ g g', history.Reachable g ∧ g.base.nodeCount = 0 ∧
      graphDeltaLoad newGraph (graphDeltaSave g) = some (.ok, g') ∧
      g.MapFits ∧ ¬ SameFound g g' := by
  obtain ⟨g, g', hg, hload, hfits, hbefore, hafter⟩ : ∃ g g', performAll newGraph
      [.add ⟨1, 2, 3⟩, .commit, .remove ⟨1, 2, 3⟩, .commit] = some g ∧
      graphDeltaLoad newGraph (graphDeltaSave g) = some (.ok, g') ∧
      g.MapFits ∧ ¬ g.Committed ⟨1, 2, 3⟩ ∧ g'.Committed ⟨1, 2, 3⟩ :=
    ⟨_, _, rfl, rfl, by decide +kernel, by decide +kernel, by decide +kernel⟩
  obtain ⟨hreach, hbase⟩ := reachable_performAll reachable_newGraph hg
  refine ⟨g, g', hreach, by rw [hbase]; rfl, hload, hfits, fun hsame => ?_⟩
  exact hbefore (((sameFound_iff.1 hsame).2.2 _).1 hafter)

end Virtuoso.Graph
