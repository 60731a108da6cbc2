import Virtuoso.Lock.Safety
import Virtuoso.Lock.Waits

/-!
# What the deadlock check computes

`lock_check_deadlock_1` walks over the owners and the queue with the three
indices `first_pred`, `last_pred` and `last_excl`.  `WaitScan.Tracks` says what
they mean, and `lockCheckDeadlock1_spec` that the check visits exactly `preds` of
the line formed by the queue and the owners.
-/

universe u

namespace Virtuoso.Lock

open Relation Virtuoso.Lib Waits

variable {Trx : Type u}

/-- The far end of the line of a lock: its owners, with the mode they hold. -/
def GenLock.ownerLine (pl : GenLock Trx) : List (Trx × Mode) :=
  pl.owners.reverse.map fun o => (o, if pl.type = .exclusive then .exclusive else .shared)

/-- The requests of a queue. -/
def queueLine (q : List (Cursor Trx)) : List (Trx × Mode) := q.map fun it => (it.ltrx, it.lockMode)

@[simp] theorem ownerLine_fst (pl : GenLock Trx) :
    pl.ownerLine.map Prod.fst = pl.owners.reverse := by
  simp [GenLock.ownerLine, Function.comp_def]

@[simp] theorem queueLine_fst (q : List (Cursor Trx)) :
    (queueLine q).map Prod.fst = q.map Cursor.ltrx := by
  simp [queueLine, Function.comp_def]

/-! ## The three indices -/

variable {closing : Trx → Bool} {w : Waits Trx}

namespace WaitScan

/-- The indices describe the scanned requests `c`: `last_pred` is the last one,
`first_pred` starts the group that an exclusive request waits for, and
`last_excl` is the last exclusive one. -/
structure Tracks (s : WaitScan Trx) (c : List (Trx × Mode)) : Prop where
  waits : s.waits = c
  last : s.lastPred = (c.length : ℤ) - 1
  first : (c = [] ∧ (s.firstPred = -1 ∨ s.firstPred = 0)) ∨
    ∃ a g, c = a ++ g ∧ g ≠ [] ∧ s.firstPred = a.length ∧ ((∃ t, g = [(t, .exclusive)]) ∨
      ((∀ p ∈ g, p.2 = .shared) ∧ (a = [] ∨ ∃ a' t, a = a' ++ [(t, .exclusive)])))
  excl : (s.lastExcl = -1 ∧ ∀ p ∈ c, p.2 = .shared) ∨
    ∃ a t b, c = a ++ (t, .exclusive) :: b ∧ (∀ p ∈ b, p.2 = .shared) ∧ s.lastExcl = a.length

theorem start_tracks : (start : WaitScan Trx).Tracks [] :=
  ⟨rfl, rfl, .inl ⟨rfl, .inl rfl⟩, .inl ⟨rfl, fun _ h => absurd h List.not_mem_nil⟩⟩

variable {c : List (Trx × Mode)} {s : WaitScan Trx}

/-- A shared request at the end of shared ones. -/
theorem shared_concat (h : ∀ p ∈ c, p.2 = .shared) (t : Trx) :
    ∀ p ∈ c ++ [(t, Mode.shared)], p.2 = .shared := by
  intro p hp
  rcases List.mem_append.1 hp with hp | hp
  · exact h p hp
  · rw [List.mem_singleton.1 hp]

/-- One more request. -/
theorem Tracks.addWaiting {s' : WaitScan Trx} {it : Cursor Trx} (h : s.Tracks c)
    (hc : closing it.ltrx = false) (hs : addWaiting closing s it = some s') :
    s'.Tracks (c ++ [(it.ltrx, it.lockMode)]) := by
  have hlast : ((c ++ [(it.ltrx, it.lockMode)]).length : ℤ) - 1 = s.waits.length := by
    simp [h.waits]
  simp only [WaitScan.addWaiting, hc, Bool.false_eq_true, if_false, ckMaxFill] at hs
  cases hm : it.lockMode with
  | exclusive =>
    simp only [hm] at hs hlast
    split at hs
    · cases hs
    · cases hs
      exact ⟨by rw [h.waits], hlast.symm, .inr ⟨c, _, rfl, by simp, by rw [h.waits],
        .inl ⟨_, rfl⟩⟩, .inr ⟨c, _, [], rfl, fun _ h => absurd h List.not_mem_nil,
          by rw [h.waits]⟩⟩
  | shared =>
    simp only [hm] at hs hlast
    split at hs
    · cases hs
    · cases hs
      refine ⟨by rw [h.waits], hlast.symm, .inr ?_, ?_⟩
      · rcases h.first with ⟨rfl, -⟩ | ⟨a, g, rfl, hg, hfirst, hkind⟩
        · have : s.lastPred = -1 := by simpa using h.last
          exact ⟨[], _, rfl, by simp, by simp [this, h.waits], .inr ⟨by simp, .inl rfl⟩⟩
        · have hne : s.lastPred ≠ -1 := by
            have := List.length_pos_of_ne_nil hg
            have hl := h.last
            rw [List.length_append] at hl
            omega
          have hget : (s.waits[s.lastPred.toNat]?).map Prod.snd =
              g.getLast?.map Prod.snd := by
            have hidx : s.lastPred.toNat = (a ++ g).length - 1 := by
              have hl := h.last
              omega
            rw [hidx, h.waits, ← List.getLast?_eq_getElem?, List.getLast?_append_of_ne_nil _ hg]
          rcases hkind with ⟨t, rfl⟩ | ⟨hsh, ha⟩
          · refine ⟨a ++ [(t, .exclusive)], _, rfl, by simp, ?_, .inr ⟨by simp,
              .inr ⟨a, t, rfl⟩⟩⟩
            rw [if_pos (.inr (by rw [hget]; rfl)), h.waits]
          · refine ⟨a, g ++ [(it.ltrx, .shared)], by simp, by simp, ?_, .inr ⟨?_, ha⟩⟩
            · obtain ⟨g', p, rfl⟩ := List.eq_nil_or_concat g |>.resolve_left hg
              have hp : p.2 = .shared := hsh p (by simp)
              simp [hne, hget, hp, hfirst]
            · exact shared_concat hsh _
      · rcases h.excl with ⟨he, hsh⟩ | ⟨a, t, b, rfl, hsh, he⟩
        · exact .inl ⟨he, shared_concat hsh _⟩
        · exact .inr ⟨a, t, _, by rw [List.append_assoc, List.cons_append],
            shared_concat hsh _, he⟩

/-- The visited transactions are those the request waits for. -/
theorem Tracks.mem_preds (h : s.Tracks c) (m : Mode) (y : Trx) :
    y ∈ s.preds m ↔ y ∈ Lock.preds c.reverse m := by
  cases m with
  | shared =>
    rcases h.excl with ⟨he, hsh⟩ | ⟨a, t, b, rfl, hsh, he⟩
    · have := (preds_of_shared (r := c.reverse) fun p hp => hsh p (List.mem_reverse.1 hp)).2
      simp [WaitScan.preds, he, this]
    · have hl := lastExcl_append (fun p (hp : p ∈ b.reverse) => hsh p (List.mem_reverse.1 hp))
        ((t, .exclusive) :: a.reverse)
      have hne : (a.length : ℤ) ≠ -1 := by omega
      simp [WaitScan.preds, he, hne, h.waits, Lock.preds, hl, Lock.lastExcl]
  | exclusive =>
    rcases h.first with ⟨rfl, hf⟩ | ⟨a, g, rfl, hg, hf, hkind⟩
    · have hl : s.lastPred = -1 := by simpa using h.last
      rcases hf with hf | hf <;> simp [WaitScan.preds, hf, hl, h.waits, Lock.preds, sharedRun]
    · have hne : (a.length : ℤ) ≠ -1 := by omega
      have hn : (s.lastPred - s.firstPred + 1).toNat = g.length := by
        have hl := h.last
        rw [List.length_append] at hl
        omega
      have hpreds : s.preds .exclusive = g.map Prod.fst := by
        simp only [WaitScan.preds, reduceCtorEq, if_false, hn]
        simp [hf, hne, h.waits]
      rw [hpreds]
      rcases hkind with ⟨t, rfl⟩ | ⟨hsh, ha⟩
      · simp
      · have hsh' : ∀ p ∈ g.reverse, p.2 = .shared := fun p hp => hsh p (List.mem_reverse.1 hp)
        have hrun := sharedRun_append hsh' a.reverse
        have hstop : sharedRun a.reverse = [] := by
          rcases ha with rfl | ⟨a', t, rfl⟩
          · rfl
          · simp [sharedRun]
        have hp : Lock.preds (g.reverse ++ a.reverse) .exclusive =
            sharedRun (g.reverse ++ a.reverse) := by
          cases hgr : g.reverse with
          | nil =>
            simp at hgr
            exact absurd hgr hg
          | cons p r =>
            rcases p with ⟨t, _ | _⟩
            · simp [hgr] at hsh'
            · rfl
        rw [List.reverse_append, hp, hrun, hstop]
        simp

/-- The loop over an owner list, which starts with `first_pred` at zero. -/
theorem addOwner_tracks (os : List Trx) {s₀ : WaitScan Trx} (hcl : ∀ o ∈ os, closing o = false)
    (hsh : ∀ p ∈ c, p.2 = .shared) (ht : s₀.Tracks c) (hfirst : s₀.firstPred = 0)
    (hexcl : s₀.lastExcl = -1) (hs : os.foldlM (addOwner closing) s₀ = some s) :
    s.Tracks (c ++ os.map fun o => (o, .shared)) := by
  induction os generalizing c s₀ with
  | nil =>
    cases hs
    simpa using ht
  | cons o os ih =>
    rw [List.foldlM_cons, Option.bind_eq_bind, Option.bind_eq_some_iff] at hs
    obtain ⟨s₁, hs₁, hs⟩ := hs
    rw [addOwner, hcl o List.mem_cons_self] at hs₁
    simp only [Bool.false_eq_true, if_false, ckMaxFill] at hs₁
    split at hs₁
    · cases hs₁
    · cases hs₁
      have hsh' := shared_concat hsh o
      have ht' : Tracks ⟨s₀.waits ++ [(o, .shared)], s₀.firstPred, s₀.waits.length, s₀.lastExcl⟩
          (c ++ [(o, .shared)]) :=
        ⟨by rw [ht.waits], by simp [ht.waits],
          .inr ⟨[], _, rfl, by simp, hfirst, .inr ⟨hsh', .inl rfl⟩⟩, .inl ⟨hexcl, hsh'⟩⟩
      have := ih (fun o' ho' => hcl o' (List.mem_cons_of_mem _ ho')) hsh' ht' hfirst hexcl hs
      simpa using this

/-- The owners of a lock whose owner field agrees with its type. -/
theorem owners_tracks {pl : GenLock Trx} (h : pl.OwnerInv) (hc : ∀ o ∈ pl.owners, closing o = false)
    (hs : WaitScan.owners closing pl = some s) : s.Tracks pl.ownerLine.reverse := by
  have hline : pl.ownerLine.reverse = pl.owners.map fun o =>
      (o, if pl.type = .exclusive then .exclusive else .shared) := by
    simp [GenLock.ownerLine]
  rw [hline]
  cases ho : pl.owner with
  | one o =>
    match o with
    | none =>
      simp only [WaitScan.owners, ho, Option.some.injEq] at hs
      subst hs
      simpa [GenLock.owners, ho] using start_tracks
    | some o =>
      have hco := hc o (by simp [GenLock.owners, ho])
      simp only [WaitScan.owners, ho, hco, Bool.false_eq_true, if_false] at hs
      by_cases ht : pl.type = .exclusive
      · rw [if_pos ht] at hs
        cases hs
        simp only [GenLock.owners, ho, Owner.toList, List.map_cons, List.map_nil, ht, if_true]
        exact ⟨rfl, rfl, .inr ⟨[], _, rfl, by simp, rfl, .inl ⟨o, rfl⟩⟩,
          .inr ⟨[], o, [], rfl, by simp, rfl⟩⟩
      · rw [if_neg ht] at hs
        cases hs
        simp only [GenLock.owners, ho, Owner.toList, List.map_cons, List.map_nil, ht, if_false]
        exact ⟨rfl, rfl, .inr ⟨[], _, rfl, by simp, rfl, .inr ⟨by simp, .inl rfl⟩⟩,
          .inl ⟨rfl, by simp⟩⟩
  | list os =>
    have ht : pl.type ≠ .exclusive := fun ht => by
      obtain ⟨o, ho'⟩ := h.exclusive ht
      simp [ho] at ho'
    have hc' : ∀ o ∈ os, closing o = false := by simpa [GenLock.owners, ho] using hc
    simp only [WaitScan.owners, ho] at hs
    simp only [GenLock.owners, ho, Owner.toList, ht, if_false]
    exact addOwner_tracks os hc' (fun _ hp => absurd hp List.not_mem_nil)
      ⟨rfl, rfl, .inl ⟨rfl, .inr rfl⟩, .inl ⟨rfl, fun _ hp => absurd hp List.not_mem_nil⟩⟩
      rfl rfl hs

/-- The owners and the whole queue. -/
theorem queue_tracks {q : List (Cursor Trx)} {s' : WaitScan Trx} (h : s.Tracks c)
    (hc : ∀ it ∈ q, closing it.ltrx = false)
    (hs : q.foldlM (WaitScan.addWaiting closing) s = some s') : s'.Tracks (c ++ queueLine q) := by
  induction q generalizing s c with
  | nil =>
    cases hs
    simpa [queueLine] using h
  | cons it q ih =>
    rw [List.foldlM_cons, Option.bind_eq_bind, Option.bind_eq_some_iff] at hs
    obtain ⟨s₁, hs₁, hs⟩ := hs
    have := ih (h.addWaiting (hc it List.mem_cons_self) hs₁)
      (fun it' h' => hc it' (List.mem_cons_of_mem _ h')) hs
    simpa [queueLine] using this

end WaitScan

/-! ## The check -/

variable [DecidableEq Trx]

/-- The paths from any of the given transactions to `after` have less than 2³¹ transactions on
them, so that an `int` counts them. -/
def FewPaths (w : Waits Trx) (after : Trx) (P : Trx → Prop) : Prop :=
  ∀ p, P p → ∀ n, pathTotal 0 (waitPaths w after n p) < 2 ^ 31

/-- Nobody has a path to a transaction that nobody waits for. -/
theorem FewPaths.of_no_edge {after : Trx} (h : ∀ p, ¬ w.Edge p after) (P : Trx → Prop) :
    FewPaths w after P := by
  have hother : ∀ n p, p ≠ after → waitPaths w after n p = [] := by
    intro n
    induction n with
    | zero => exact fun p hp => if_neg hp
    | succ n ih =>
      intro p hp
      rw [waitPaths, if_neg hp, List.flatMap_eq_nil_iff]
      intro q hq
      rw [ih q (fun heq => h p (heq ▸ hq)), List.map_nil]
  intro p _ n
  by_cases hp : p = after
  · subst hp
    simp [waitPaths_self, pathTotal]
  · rw [hother n p hp]
    exact Nat.two_pow_pos 31

/-- The loop over the predecessors returns with something counted, or none of them has
a path to `after`. -/
theorem checkPreds_spec {after : Trx} {fuel : ℕ} {r : Bool × ℕ} (ps : List Trx)
    (hfew : FewPaths w after (· ∈ ps)) (h : checkPreds w after fuel ps (0, none) = some r) :
    (r.1 = true ∧ r.2 ≠ 0) ∨
      (r = (false, 0) ∧ ∀ p ∈ ps, ¬ ReflTransGen w.Edge p after) := by
  induction ps with
  | nil =>
    cases h
    exact .inr ⟨rfl, fun p hp => absurd hp List.not_mem_nil⟩
  | cons p ps ih =>
    rw [checkPreds, Option.bind_eq_some_iff] at h
    obtain ⟨r₁, hr, h⟩ := h
    obtain ⟨m, hs⟩ := ltIsDeadlock1_spec (m := 0) rfl (fun hc => absurd rfl hc) hr
    by_cases hp : ReflTransGen w.Edge p after
    · -- what is counted fits an `int`, so it is not counted as nothing
      have hm := hs.found ⟨p, rfl, hp⟩
      have hbound := hs.bound
      have hlt := hfew p List.mem_cons_self fuel
      have hcount := hs.count
      have hne : r₁.2.1 ≠ 0 := by omega
      have hret : r₁.1 ≠ 0 := by
        rcases hs.ret with hret | hret <;> omega
      rw [if_pos hret] at h
      cases h
      exact .inl ⟨rfl, hne⟩
    · obtain ⟨-, rfl⟩ := hs.quiet fun q hq => hq ▸ hp
      rw [if_neg (by simp)] at h
      rcases ih (fun q hq => hfew q (List.mem_cons_of_mem _ hq)) h with hfound | ⟨heq, hno⟩
      · exact .inl hfound
      · refine .inr ⟨heq, fun q hq => ?_⟩
        rcases List.mem_cons.1 hq with rfl | hq
        · exact hp
        · exact hno q hq

/-- With acyclic edges the loop over the predecessors comes to an end. -/
theorem checkPreds_terminates [Finite Trx] (h : Acyclic w.Edge) (after : Trx) (ps : List Trx) :
    ∃ n, ∀ fuel, n ≤ fuel → ∀ st, checkPreds w after fuel ps st ≠ none := by
  induction ps with
  | nil => exact ⟨0, fun _ _ _ => Option.some_ne_none _⟩
  | cons p ps ih =>
    obtain ⟨n₁, h₁⟩ := ltIsDeadlock1_terminates h after p
    obtain ⟨n₂, h₂⟩ := ih
    refine ⟨max n₁ n₂, fun fuel hf st => ?_⟩
    obtain ⟨r, hr⟩ := Option.ne_none_iff_exists'.1
      (h₁ fuel ((le_max_left _ _).trans hf) 0 st)
    rw [checkPreds, hr, Option.bind_some]
    split
    · exact Option.some_ne_none _
    · exact h₂ fuel ((le_max_right _ _).trans hf) _

/-- What `lock_check_deadlock_1` answers: either it reports a deadlock and leaves
the edges alone, or none of those the request waits for has a path to it and
the edges to them are added. -/
theorem lockCheckDeadlock1_spec {fuel n : ℕ} {w' : Waits Trx} {pl : GenLock Trx} {it : Cursor Trx}
    (hw : w.Consistent) (h : pl.OwnerInv) (hco : ∀ o ∈ pl.owners, closing o = false)
    (hcw : ∀ x ∈ pl.waiters, closing x = false)
    (hfew : FewPaths w it.ltrx fun p => p ∈ pl.owners ∨ p ∈ pl.waiters)
    (hr : lockCheckDeadlock1 fuel closing w pl it = some (n, w')) :
    (n ≠ 0 ∧ w' = w) ∨ (n = 0 ∧
      (∀ y ∈ preds ((queueLine pl.waiting).reverse ++ pl.ownerLine) it.lockMode,
        ¬ ReflTransGen w.Edge y it.ltrx) ∧
      w.Adds w' fun x y => x = it.ltrx ∧
        y ∈ preds ((queueLine pl.waiting).reverse ++ pl.ownerLine) it.lockMode) := by
  rw [lockCheckDeadlock1] at hr
  split at hr
  · cases hr
    exact .inl ⟨Nat.one_ne_zero, rfl⟩
  · rename_i s hs
    rw [Option.bind_eq_some_iff] at hs
    obtain ⟨s₀, hs₀, hs⟩ := hs
    have htr := WaitScan.queue_tracks (WaitScan.owners_tracks h hco hs₀)
      (fun it' hit => hcw _ (List.mem_map_of_mem hit)) hs
    have hmem := htr.mem_preds it.lockMode
    rw [List.reverse_append, List.reverse_reverse] at hmem
    have hline : ∀ p ∈ s.preds it.lockMode, p ∈ pl.owners ∨ p ∈ pl.waiters := by
      intro p hp
      have hmem' := preds_subset _ _ ((hmem p).1 hp)
      rw [List.map_append, ownerLine_fst, List.map_reverse, queueLine_fst] at hmem'
      simpa [GenLock.waiters, or_comm] using hmem'
    obtain ⟨⟨b, nDead⟩, hn, hr⟩ := Option.map_eq_some_iff.1 hr
    rcases checkPreds_spec _ (fun p hp => hfew p (hline p hp)) hn with ⟨hb, hne⟩ | ⟨heq, hno⟩
    · dsimp only at hb hne hr
      rw [if_pos hb] at hr
      cases hr
      exact .inl ⟨hne, rfl⟩
    · cases heq
      dsimp only at hr
      rw [if_neg Bool.false_ne_true] at hr
      cases hr
      refine .inr ⟨rfl, fun y hy => hno y ((hmem y).2 hy), ?_⟩
      have hadd := foldl_ltWaitsFor_adds hw.toSimple
        ((s.preds it.lockMode).map fun p => (p, it.ltrx)) (fun p _ => hw.inverse _ _)
      rw [List.foldl_map] at hadd
      have hS : ∀ x y, (y, x) ∈ (s.preds it.lockMode).map (fun p => (p, it.ltrx)) ↔
          x = it.ltrx ∧ y ∈ preds ((queueLine pl.waiting).reverse ++ pl.ownerLine) it.lockMode :=
        fun x y => by
          rw [← hmem]
          simp [eq_comm, and_comm]
      exact ⟨hadd.simple, fun x y => by rw [hadd.waitsFor, hS],
        fun x y => by rw [hadd.waitingForThis, hS]⟩

/-- With acyclic edges the check comes to an end. -/
theorem lockCheckDeadlock1_terminates [Finite Trx] (h : Acyclic w.Edge) (closing : Trx → Bool)
    (pl : GenLock Trx) (it : Cursor Trx) :
    ∃ fuel n w', lockCheckDeadlock1 fuel closing w pl it = some (n, w') := by
  simp only [lockCheckDeadlock1]
  split
  · exact ⟨0, _, _, rfl⟩
  · rename_i s _
    obtain ⟨fuel, hf⟩ := checkPreds_terminates h it.ltrx (s.preds it.lockMode)
    obtain ⟨n, hn⟩ := Option.ne_none_iff_exists'.1 (hf fuel (le_refl _) (0, none))
    exact ⟨fuel, _, _, by rw [hn]; rfl⟩

end Virtuoso.Lock
