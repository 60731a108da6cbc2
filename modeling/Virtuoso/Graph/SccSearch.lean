import Virtuoso.Graph.Scc

/-!
# The passes are depth-first searches

A round of a pass is a step of the abstract search: the stack is its stack, and the
visited bits together with the top of the stack are what it has met.  The neighbours
that a node's `edge_index` says were looked at were met.
-/

namespace Virtuoso.Graph

open Lib Relation Function

def EdgeIn (adj : ℕ → List ℕ) (v w : ℕ) : Prop := w ∈ adj v

/-- The iterators of a pass yield the lists `adj`, and the nodes below `n` have their
neighbours there. -/
structure Walks (ctx : ℕ → NeighborCtx) (adj : ℕ → List ℕ) (n : ℕ) : Prop where
  rest : ∀ v, (ctx v).rest = (adj v).map some
  baseIdx : ∀ v, (ctx v).baseIdx = 0
  invIdx : ∀ v, (ctx v).invIdx = 0
  length_lt : ∀ v, (adj v).length < 2 ^ 32
  lt : ∀ v < n, ∀ w ∈ adj v, w < n

/-- A state of a pass as a state of the abstract search.  The nodes `marks` were marked
since the nodes of `base` were. -/
structure Sim {σ : Type} (adj : ℕ → List ℕ) (base : List ℕ) (st : DfsState σ) (d : Dfs ℕ)
    (marks : List ℕ) : Prop where
  stack : st.stack = d.stack
  met : ∀ v, d.Met v ↔ st.visited v = true ∨ st.stack.head? = some v
  marked : ∀ v, st.visited v = true ↔ v ∈ base ∨ v ∈ marks
  nodup : marks.Nodup
  fresh : ∀ v ∈ marks, v ∉ base
  index_le : ∀ v, st.edgeIndex v ≤ (adj v).length
  resume : ∀ v i w, i < st.edgeIndex v → (adj v)[i]? = some w → d.Met w

/-- A record that follows the marks and the finished nodes. -/
structure Records {σ : Type} (p : DfsPass σ) (R : List ℕ → List ℕ → σ → Prop) : Prop where
  mark : ∀ marks fin e v, R marks fin e → R (marks ++ [v]) fin (p.onMark e v)
  finish : ∀ marks fin e v, R marks fin e → R marks (fin ++ [v]) (p.onFinish e v)

section Rounds

variable {σ : Type} {p : DfsPass σ} {R : List ℕ → List ℕ → σ → Prop} {adj : ℕ → List ℕ}
  {base : List ℕ} {n slots : ℕ} {st : DfsState σ} {d : Dfs ℕ} {marks : List ℕ}

/-- After the mark the visited bits are what the search has met. -/
theorem Sim.mark (h : Sim adj base st d marks) (hR : Records p R)
    (hrec : R marks d.finished st.extra) {current : ℕ} {rest : List ℕ}
    (hstack : st.stack = current :: rest) :
    ∃ marks', Sim adj base (p.mark current st) d marks' ∧
      R marks' d.finished (p.mark current st).extra ∧
      ∀ v, d.Met v ↔ (p.mark current st).visited v = true := by
  by_cases hvis : st.visited current = true
  · have hmark : p.mark current st = st := if_pos hvis
    rw [hmark]
    refine ⟨marks, h, hrec, fun v => ?_⟩
    rw [h.met, hstack, List.head?_cons]
    constructor
    · rintro (hv | hv)
      · exact hv
      · rwa [← Option.some.inj hv]
    · exact .inl
  · have hmark : p.mark current st =
        { st with
          visited := update st.visited current true
          extra := p.onMark st.extra current } := if_neg hvis
    have hupd (v : ℕ) : update st.visited current true v = true ↔
        st.visited v = true ∨ v = current := by
      by_cases hv : v = current
      · simp [hv]
      · simp [hv]
    have hmet (v : ℕ) : d.Met v ↔ update st.visited current true v = true := by
      rw [h.met, hstack, List.head?_cons, hupd, Option.some.injEq, eq_comm (a := current)]
    rw [hmark]
    refine ⟨marks ++ [current], ⟨h.stack, fun v => ?_, fun v => ?_, ?_, ?_, h.index_le, h.resume⟩,
      hR.mark _ _ _ _ hrec, hmet⟩
    · refine (hmet v).trans (iff_self_or.2 fun hv => ?_)
      rw [hstack, List.head?_cons, Option.some.injEq] at hv
      exact (hupd v).2 (.inr hv.symm)
    · rw [List.mem_append, List.mem_singleton, ← or_assoc, ← h.marked]
      exact hupd v
    · refine List.nodup_append.2 ⟨h.nodup, List.nodup_singleton _, ?_⟩
      rintro v hv w hw rfl
      rw [List.mem_singleton.1 hw] at hv
      exact hvis ((h.marked _).2 (.inr hv))
    · intro v hv
      rcases List.mem_append.1 hv with hv | hv
      · exact h.fresh v hv
      · rw [List.mem_singleton.1 hv]
        exact fun hb => hvis ((h.marked _).2 (.inl hb))

/-- The nodes that were met fit below `n`. -/
theorem length_le_of_good {r : ℕ → ℕ → Prop} {d : Dfs ℕ} (hgood : Dfs.Good r d)
    (hlt : ∀ v, d.Met v → v < n) : d.stack.length + d.finished.length ≤ n := by
  have hsub : d.stack ++ d.finished ⊆ List.range n := by
    intro v hv
    exact List.mem_range.2 (hlt v (List.mem_append.1 hv))
  simpa using (hgood.nodup.subperm hsub).length_le

/-- One round is one step, and the stack has room for it. -/
theorem Sim.round (hw : Walks p.ctx adj n) (hR : Records p R) (hn : n ≤ slots)
    (h : Sim adj base st d marks) (hgood : Dfs.Good (EdgeIn adj) d) (hlt : ∀ v, d.Met v → v < n)
    (hrec : R marks d.finished st.extra) {current : ℕ} {rest : List ℕ}
    (hstack : st.stack = current :: rest) :
    ∃ st' d' marks', p.round slots current rest st = some st' ∧ Dfs.Step (EdgeIn adj) d d' ∧
      Sim adj base st' d' marks' ∧ R marks' d'.finished st'.extra := by
  obtain ⟨stack, fin⟩ := d
  obtain ⟨marks', hm, hrec', hmet⟩ := h.mark hR hrec hstack
  obtain rfl : stack = current :: rest := h.stack.symm.trans hstack
  set st₁ := p.mark current st with hst₁
  have hscan : Scanned st₁.visited (st₁.edgeIndex current) (adj current)
      (sccResume (p.ctx current) st₁.visited (st₁.edgeIndex current)) :=
    sccResume_spec (hw.rest current) (hw.baseIdx current) (hw.invIdx current)
      (hw.length_lt current) (hm.index_le current)
  have hcurrent : current < n := hlt current (.inl (by simp))
  have hindex (v : ℕ) :
      update st₁.edgeIndex current
        (sccResume (p.ctx current) st₁.visited (st₁.edgeIndex current)).1 v ≤ (adj v).length := by
    by_cases hv : v = current
    · subst hv
      simpa using hscan.le
    · simpa [hv] using hm.index_le v
  -- what was passed was met, before or now
  have hresume (v i w : ℕ)
      (hi : i < update st₁.edgeIndex current
        (sccResume (p.ctx current) st₁.visited (st₁.edgeIndex current)).1 v)
      (hget : (adj v)[i]? = some w) :
      Dfs.Met ⟨current :: rest, fin⟩ w ∨
        (sccResume (p.ctx current) st₁.visited (st₁.edgeIndex current)).2 = some w := by
    by_cases hv : v = current
    · subst hv
      rw [update_self] at hi
      rcases Nat.lt_or_ge i (st₁.edgeIndex v) with hlt | hge
      · exact .inl (hm.resume v i w hlt hget)
      · exact (hscan.passed i hge hi w hget).imp_left (hmet w).2
    · rw [update_of_ne hv] at hi
      exact .inl (hm.resume v i w hi hget)
  simp only [DfsPass.round, ← hst₁]
  cases hr : (sccResume (p.ctx current) st₁.visited (st₁.edgeIndex current)).2 with
  | some w =>
    obtain ⟨hnew, hadj⟩ := hscan.found w hr
    have hnot : ¬ Dfs.Met ⟨current :: rest, fin⟩ w := by
      rw [hmet, hnew]
      exact Bool.false_ne_true
    have hstep : Dfs.Step (EdgeIn adj) ⟨current :: rest, fin⟩ ⟨w :: current :: rest, fin⟩ :=
      .push hadj hnot
    have hmet' (v : ℕ) : Dfs.Met ⟨w :: current :: rest, fin⟩ v ↔
        v = w ∨ Dfs.Met ⟨current :: rest, fin⟩ v := by
      simp only [Dfs.Met, List.mem_cons, or_assoc]
    have hroom : st₁.stack.length < slots := by
      have := length_le_of_good (hgood.step hstep) fun v hv => by
        rcases (hmet' v).1 hv with rfl | hv
        · exact hw.lt current hcurrent v hadj
        · exact hlt v hv
      rw [hm.stack]
      simp only [List.length_cons] at this ⊢
      omega
    simp only [if_pos hroom]
    refine ⟨_, _, marks', rfl, hstep, ⟨rfl, fun v => ?_, hm.marked, hm.nodup, hm.fresh, hindex,
      fun v i w' hi hget => ?_⟩, hrec'⟩
    · rw [hmet', hmet, List.head?_cons, Option.some.injEq, or_comm, eq_comm (a := w)]
    · rw [hmet']
      rcases hresume v i w' hi hget with hv | hv
      · exact .inr hv
      · exact .inl (Option.some.inj (hv.symm.trans hr))
  | none =>
    have hall := hscan.all hr
    have hnbrs (w : ℕ) (hadj : w ∈ adj current) : Dfs.Met ⟨current :: rest, fin⟩ w := by
      obtain ⟨i, hi⟩ := List.getElem?_of_mem hadj
      have hlt' : i < update st₁.edgeIndex current
          (sccResume (p.ctx current) st₁.visited (st₁.edgeIndex current)).1 current := by
        rw [update_self, hall]
        exact (List.getElem?_eq_some_iff.1 hi).1
      rcases hresume current i w hlt' hi with hv | hv
      · exact hv
      · exact absurd (hr.symm.trans hv) (by simp)
    have hmet' (v : ℕ) : Dfs.Met ⟨rest, fin ++ [current]⟩ v ↔
        Dfs.Met ⟨current :: rest, fin⟩ v := by
      simp only [Dfs.Met, List.mem_cons, List.mem_append]
      tauto
    refine ⟨_, _, marks', rfl, .pop hnbrs, ⟨rfl, fun v => ?_, hm.marked, hm.nodup, hm.fresh,
      hindex, fun v i w' hi hget => ?_⟩, hR.finish _ _ _ _ hrec'⟩
    · rw [hmet', hmet]
      refine iff_self_or.2 fun hv => (hmet v).1 (.inl ?_)
      exact List.mem_cons_of_mem _ (List.mem_of_mem_head? hv)
    · rw [hmet']
      rcases hresume v i w' hi hget with hv | hv
      · exact hv
      · exact absurd (hr.symm.trans hv) (by simp)

/-- A step meets nothing outside. -/
theorem met_lt_of_step (hw : Walks p.ctx adj n) {d' : Dfs ℕ} (hlt : ∀ v, d.Met v → v < n)
    (hs : Dfs.Step (EdgeIn adj) d d') : ∀ v, d'.Met v → v < n := by
  intro v hv
  cases hs with
  | @push t w rest fin htw hnot =>
    rcases hv with hv | hv
    · rcases List.mem_cons.1 hv with rfl | hv
      · exact hw.lt t (hlt t (.inl (by simp))) v htw
      · exact hlt v (.inl hv)
    · exact hlt v (.inr hv)
  | @pop t rest fin ht =>
    rcases hv with hv | hv
    · exact hlt v (.inl (List.mem_cons_of_mem _ hv))
    · rcases List.mem_append.1 hv with hv | hv
      · exact hlt v (.inr hv)
      · rw [List.mem_singleton.1 hv]
        exact hlt t (.inl (by simp))

/-- The rounds until the stack is empty, with enough fuel for two a node. -/
theorem Sim.loop (hw : Walks p.ctx adj n) (hR : Records p R) (hn : n ≤ slots) {x fuel : ℕ}
    (h : Sim adj base st d marks) (hgood : Dfs.Good (EdgeIn adj) d)
    (hfrom : Dfs.From (EdgeIn adj) x base d) (hlt : ∀ v, d.Met v → v < n)
    (hrec : R marks d.finished st.extra)
    (hfuel : 2 * n ≤ fuel + (2 * d.finished.length + d.stack.length)) :
    ∃ st' fin marks', p.loop slots fuel st = some st' ∧
      Dfs.Good (EdgeIn adj) ⟨[], fin⟩ ∧ Dfs.From (EdgeIn adj) x base ⟨[], fin⟩ ∧
      (∀ v ∈ fin, v < n) ∧ Sim adj base st' ⟨[], fin⟩ marks' ∧ R marks' fin st'.extra := by
  induction fuel generalizing st d marks with
  | zero =>
    have hlen := length_le_of_good hgood hlt
    obtain ⟨stack, fin⟩ := d
    obtain rfl : stack = [] := List.length_eq_zero_iff.1 (by simp only at hfuel hlen; omega)
    refine ⟨st, fin, marks, ?_, hgood, hfrom, fun v hv => hlt v (.inr hv), h, hrec⟩
    rw [DfsPass.loop, h.stack]
  | succ fuel ih =>
    obtain ⟨stack, fin⟩ := d
    cases stack with
    | nil =>
      refine ⟨st, fin, marks, ?_, hgood, hfrom, fun v hv => hlt v (.inr hv), h, hrec⟩
      rw [DfsPass.loop, h.stack]
    | cons current rest =>
      obtain ⟨st', d', marks', hround, hstep, hsim, hrec'⟩ :=
        h.round hw hR hn hgood hlt hrec h.stack
      have hmeasure : 2 * n ≤ fuel + (2 * d'.finished.length + d'.stack.length) := by
        cases hstep with
        | push => simp only [List.length_cons] at hfuel ⊢; omega
        | pop =>
          simp only [List.length_cons, List.length_append, List.length_nil] at hfuel ⊢
          omega
      have hloop : p.loop slots (fuel + 1) st = p.loop slots fuel st' := by
        rw [DfsPass.loop, h.stack]
        change (p.round slots current rest st).bind (p.loop slots fuel) = _
        rw [hround]
        rfl
      rw [hloop]
      exact ih hsim (hgood.step hstep) (hfrom.step hstep) (met_lt_of_step hw hlt hstep) hrec'
        hmeasure

end Rounds

/-- A pass between two searches: what is finished is what is visited. -/
structure Idle (adj : ℕ → List ℕ) (n : ℕ) (visited : ℕ → Bool) (edgeIndex : ℕ → ℕ)
    (fin : List ℕ) : Prop where
  good : Dfs.Good (EdgeIn adj) ⟨[], fin⟩
  lt : ∀ v ∈ fin, v < n
  visited : ∀ v, visited v = true ↔ v ∈ fin
  index_le : ∀ v, edgeIndex v ≤ (adj v).length
  resume : ∀ v i w, i < edgeIndex v → (adj v)[i]? = some w → w ∈ fin

theorem idle_start (adj : ℕ → List ℕ) (n : ℕ) : Idle adj n (fun _ => false) (fun _ => 0) [] where
  good := .nil _
  lt := by simp
  visited := by simp
  index_le _ := Nat.zero_le _
  resume _ _ _ hi := absurd hi (Nat.not_lt_zero _)

/-- A search finishes what the start reaches, the start last. -/
theorem Idle.search {σ : Type} {p : DfsPass σ} {R : List ℕ → List ℕ → σ → Prop}
    {adj : ℕ → List ℕ} {n slots x : ℕ} (st : DfsState σ) {fin : List ℕ} (hw : Walks p.ctx adj n)
    (hR : Records p R) (hn : n ≤ slots) (h : Idle adj n st.visited st.edgeIndex fin) (hx : x < n)
    (hnew : st.visited x = false) (hrec : R [] fin st.extra) :
    ∃ st' fin' marks, p.search slots x st = some st' ∧
      Idle adj n st'.visited st'.edgeIndex fin' ∧
      (∀ v, v ∈ fin' ↔ v ∈ fin ∨ ReflTransGen (EdgeIn adj) x v) ∧ fin'.getLast? = some x ∧
      marks.Nodup ∧ (∀ v, v ∈ marks ↔ v ∈ fin' ∧ v ∉ fin) ∧ R marks fin' st'.extra := by
  have hxfin : x ∉ fin := by
    rw [← h.visited, hnew]
    exact Bool.false_ne_true
  have hsim : Sim adj fin { st with stack := [x] } ⟨[x], fin⟩ [] := by
    refine ⟨rfl, fun v => ?_, fun v => ?_, List.nodup_nil, by simp, h.index_le,
      fun v i w hi hget => ?_⟩
    · rw [h.visited]
      simp only [Dfs.Met, List.mem_singleton, List.head?_cons, Option.some.injEq]
      rw [or_comm, eq_comm]
    · rw [h.visited]
      simp
    · exact .inr (h.resume v i w hi hget)
  obtain ⟨st', fin', marks, hloop, hgood, hfrom, hlt, hsim', hrec'⟩ :=
    hsim.loop hw hR hn (h.good.start hxfin) (Dfs.from_start _ x _)
      (fun v hv => by
        rcases hv with hv | hv
        · rw [List.mem_singleton.1 hv]
          exact hx
        · exact h.lt v hv)
      hrec (show 2 * n ≤ 2 * slots + (2 * fin.length + 1) by omega)
  have hvis (v : ℕ) : st'.visited v = true ↔ v ∈ fin' := by
    have := hsim'.met v
    rw [hsim'.stack] at this
    simpa [Dfs.Met] using this.symm
  have hlast : fin'.getLast? = some x := by
    rcases hfrom.last with hl | ⟨-, hl⟩
    · cases hl
    · exact hl
  refine ⟨st', fin', marks, hloop, ⟨hgood, hlt, hvis, hsim'.index_le, fun v i w hi hget => ?_⟩,
    fun v => hfrom.mem_iff hgood, hlast, hsim'.nodup, fun v => ?_, hrec'⟩
  · exact (hsim'.resume v i w hi hget).resolve_left (by simp)
  · rw [← hvis, hsim'.marked]
    constructor
    · intro hv
      exact ⟨.inr hv, hsim'.fresh v hv⟩
    · rintro ⟨hv | hv, hnot⟩
      · exact absurd hv hnot
      · exact hv

/-! ## The first pass -/

theorem records_firstPass (ctx : ℕ → NeighborCtx) :
    Records (sccFirstPass ctx) fun _ fin finishOrder => finishOrder = fin where
  mark _ _ _ _ h := h
  finish _ _ _ v h := congrArg (· ++ [v]) h

/-- The first pass finishes everything that the starts reach. -/
theorem sccFinishOrder_spec {ctx : ℕ → NeighborCtx} {adj : ℕ → List ℕ} {n slots : ℕ}
    (hw : Walks ctx adj n) (hn : n ≤ slots) (starts : List ℕ) (hstarts : ∀ x ∈ starts, x < n)
    (st : DfsState (List ℕ)) (h : Idle adj n st.visited st.edgeIndex st.extra) :
    ∃ st', sccFinishOrder ctx slots starts st = some st' ∧
      Idle adj n st'.visited st'.edgeIndex st'.extra ∧
      ∀ v, v ∈ st'.extra ↔ v ∈ st.extra ∨ ∃ x ∈ starts, ReflTransGen (EdgeIn adj) x v := by
  induction starts generalizing st with
  | nil => exact ⟨st, rfl, h, by simp⟩
  | cons x starts ih =>
    have hx := hstarts x (by simp)
    have hrest : ∀ y ∈ starts, y < n := fun y hy => hstarts y (by simp [hy])
    have hfold (st' : DfsState (List ℕ))
        (hs : (if st.visited x then some st else (sccFirstPass ctx).search slots x st) =
          some st') :
        sccFinishOrder ctx slots (x :: starts) st = sccFinishOrder ctx slots starts st' := by
      rw [sccFinishOrder, List.foldlM_cons, hs]
      rfl
    by_cases hvis : st.visited x = true
    · obtain ⟨st', hst', hidle, hmem⟩ := ih hrest st h
      refine ⟨st', (hfold st (if_pos hvis)).trans hst', hidle, fun v => ?_⟩
      rw [hmem]
      have hclosed : ReflTransGen (EdgeIn adj) x v → v ∈ st.extra := fun hxv =>
        reflTransGen_mem (S := (· ∈ st.extra)) (fun a b ha hab => h.good.closed ha hab) hxv
          ((h.visited x).1 hvis)
      simp only [List.mem_cons, exists_eq_or_imp]
      tauto
    · obtain ⟨st₁, fin', marks, hsearch, hidle₁, hmem₁, -, -, -, hrec⟩ :=
        h.search (p := sccFirstPass ctx) st hw (records_firstPass ctx) hn hx
          (by simpa using hvis) rfl
      have hfin : st₁.extra = fin' := hrec
      subst hfin
      obtain ⟨st', hst', hidle, hmem⟩ := ih hrest st₁ hidle₁
      refine ⟨st', (hfold st₁ ((if_neg hvis).trans hsearch)).trans hst', hidle, fun v => ?_⟩
      rw [hmem, hmem₁]
      simp only [List.mem_cons, exists_eq_or_imp]
      tauto

end Virtuoso.Graph
