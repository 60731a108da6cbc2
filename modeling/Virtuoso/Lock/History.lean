import Virtuoso.Lock.Safety
import Mathlib.Data.List.Perm.Basic
import Mathlib.Data.List.Nodup

/-!
# One lock over all histories

The lock of `Virtuoso.Lock.Basic` under every sequence of requests, kills and
ends of single-threaded transactions, each call being one step.

Besides the lock and the status of each transaction a state carries history
variables, which no transition reads: how often each transaction was put to
wait and how often a wait of it was signalled, and the lists of the waits queued
and of the waits granted so far.  The `n`-th wait of `lt` is the pair `(lt, n)`.
-/

universe u

namespace Virtuoso.Lock

open Virtuoso.Lib GenLock

/-- The lock, its transactions, and the history variables. -/
structure Sys (Trx : Type u) where
  lock : GenLock Trx
  status : Trx → Status
  waits : Trx → ℕ
  signals : Trx → ℕ
  queued : List (Trx × ℕ)
  grants : List (Trx × ℕ)

/-- The steps of a history. -/
inductive Act (Trx : Type u) where
  /-- `lock_enter`; `deadlock` is the answer of `lock_check_deadlock_1`. -/
  | enter (it : Cursor Trx) (deadlock : Bool)
  /-- The row under a waiting cursor goes away, `itc_is_on_row = 0`. -/
  | leaveRow (lt : Trx)
  /-- A waiting transaction is killed. -/
  | kill (lt : Trx)
  /-- A transaction ends and calls `lock_release`. -/
  | release (lt : Trx)
  /-- The transaction object is used again. -/
  | restart (lt : Trx)

variable {Trx : Type u} [DecidableEq Trx]

namespace Sys

def init : Sys Trx := ⟨.init, fun _ => .pending, fun _ => 0, fun _ => 0, [], []⟩

/-- The wait a queued cursor is in. -/
def waitOf (s : Sys Trx) (it : Cursor Trx) : Trx × ℕ := (it.ltrx, s.signals it.ltrx)

/-- The cursors of `lt` in the queue lose their row. -/
def offRow (pl : GenLock Trx) (lt : Trx) : GenLock Trx :=
  { pl with waiting := pl.waiting.map fun it =>
      if it.ltrx = lt then { it with isOnRow := false } else it }

/-- The state after `lock_enter` of `it` ended in `out` with the lock `pl`. -/
def afterEnter (s : Sys Trx) (it : Cursor Trx) (pl : GenLock Trx) : Entry → Sys Trx
  | .granted => { s with lock := pl }
  | .busted => { s with lock := pl, status := Function.update s.status it.ltrx .blownOff }
  | .waits =>
    { s with
      lock := pl
      waits := Function.update s.waits it.ltrx (s.waits it.ltrx + 1)
      queued := s.queued ++ [(it.ltrx, s.waits it.ltrx)] }

/-- The state after `lock_release` left the lock `pl` and did `ev`. -/
def afterRelease (s : Sys Trx) (pl : GenLock Trx) (ev : List (Event Trx)) : Sys Trx :=
  { s with
    lock := pl
    signals := fun t => s.signals t + (ev.map fun e => e.cursor.ltrx).count t
    grants := s.grants ++ (ev.filterMap Event.granted?).map s.waitOf }

/-- `lt_status == LT_PENDING`. -/
def isPending (s : Sys Trx) (lt : Trx) : Bool := s.status lt = .pending

/-- One step.  A transaction has one thread, so it makes no request while it
waits; a request that has to wait is refused when its transaction is no longer
pending. -/
def next (s : Sys Trx) : Act Trx → Except Fatal (Sys Trx)
  | .enter it deadlock => do
      let (pl, out) ← lockEnter s.lock it (!s.isPending it.ltrx || deadlock)
      return s.afterEnter it pl out
  | .leaveRow lt => return { s with lock := offRow s.lock lt }
  | .kill lt => return { s with status := Function.update s.status lt .blownOff }
  | .release lt => do
      let s₁ := { s with status := Function.update s.status lt .closing }
      let (pl, ev) ← lockRelease s₁.isPending s.lock lt
      return s₁.afterRelease pl ev
  | .restart lt => return { s with status := Function.update s.status lt .pending }

/-- When an action may happen.  Ends are not restricted: a waiting transaction
is ended by whoever killed it. -/
def Enabled (s : Sys Trx) : Act Trx → Prop
  | .enter it _ => it.ltrx ∉ s.lock.waiters
  | .leaveRow _ => True
  | .kill lt => lt ∈ s.lock.waiters
  | .release _ => True
  | .restart lt => s.status lt = .closing

instance (s : Sys Trx) : (a : Act Trx) → Decidable (s.Enabled a)
  | .enter it _ => inferInstanceAs (Decidable (it.ltrx ∉ s.lock.waiters))
  | .leaveRow _ => inferInstanceAs (Decidable True)
  | .kill lt => inferInstanceAs (Decidable (lt ∈ s.lock.waiters))
  | .release _ => inferInstanceAs (Decidable True)
  | .restart lt => inferInstanceAs (Decidable (s.status lt = .closing))

end Sys

namespace Sys

/-- The invariant of every history: that of the lock, one signal for each wait
that is over, and waits granted and pending in the order they were queued. -/
structure Good (s : Sys Trx) : Prop where
  lock : s.lock.Inv
  waits : ∀ lt, s.waits lt = s.signals lt + s.lock.waiters.count lt
  fifo : (s.grants ++ s.lock.waiting.map s.waitOf).Sublist s.queued
  nodup : s.queued.Nodup
  bound : ∀ w ∈ s.queued, w.2 < s.waits w.1

theorem init_good : (init : Sys Trx).Good where
  lock := init_inv
  waits := fun _ => by simp [init, GenLock.init, waiters]
  fifo := List.Sublist.slnil
  nodup := List.nodup_nil
  bound := fun _ h => absurd h List.not_mem_nil

variable {s : Sys Trx}

omit [DecidableEq Trx] in
/-- The invariant does not look at the status of transactions. -/
theorem Good.with_status [DecidableEq Trx] (h : s.Good) (st : Trx → Status) :
    ({ s with status := st } : Sys Trx).Good := ⟨h.lock, h.waits, h.fifo, h.nodup, h.bound⟩

@[simp] theorem offRow_waiters (pl : GenLock Trx) (lt : Trx) :
    (offRow pl lt).waiters = pl.waiters := by
  simp only [waiters, offRow, List.map_map]
  exact List.map_congr_left fun it _ => by simp only [Function.comp_apply]; split <;> rfl

/-- Losing a row changes neither the mode of a cursor nor the owners. -/
theorem offRow_inv {pl : GenLock Trx} (h : pl.Inv) (lt : Trx) : (offRow pl lt).Inv where
  free := h.free
  exclusive := h.exclusive
  shared := h.shared
  nodup := by rw [offRow_waiters]; exact h.nodup
  disjoint := by rw [offRow_waiters]; exact h.disjoint
  blocked := by
    intro v hv
    simp only [offRow, List.head?_map, Option.mem_def, Option.map_eq_some_iff] at hv
    obtain ⟨w, hw, rfl⟩ := hv
    have hb := h.blocked w hw
    split
    · exact hb
    · exact hb

theorem Good.leaveRow (h : s.Good) (lt : Trx) :
    ({ s with lock := offRow s.lock lt } : Sys Trx).Good where
  lock := offRow_inv h.lock lt
  waits := by simpa only [offRow_waiters] using h.waits
  fifo := by
    have hmap : (offRow s.lock lt).waiting.map s.waitOf = s.lock.waiting.map s.waitOf := by
      simp only [offRow, List.map_map]
      exact List.map_congr_left fun it _ => by
        simp only [Function.comp_apply, waitOf]; split <;> rfl
    exact hmap ▸ h.fifo
  nodup := h.nodup
  bound := h.bound

/-- A request keeps the invariant; it is admitted past a queue only when it
comes from an owner. -/
theorem Good.enter (h : s.Good) (it : Cursor Trx) (bust : Bool) (hw : it.ltrx ∉ s.lock.waiters) :
    ∃ pl out, lockEnter s.lock it bust = .ok (pl, out) ∧ (s.afterEnter it pl out).Good ∧
      (out = .granted → it.ltrx ∈ s.lock.owners ∨ s.lock.waiting = []) := by
  rcases lockEnter_spec h.lock it bust hw with
    ⟨pl, he, hinv, hq, hown⟩ | he | ⟨_, he, hinv⟩
  · refine ⟨pl, .granted, he, ⟨hinv, fun lt => ?_, ?_, h.nodup, h.bound⟩, fun _ => hown⟩
    · show s.waits lt = s.signals lt + pl.waiters.count lt
      rw [waiters, hq]
      exact h.waits lt
    · show (s.grants ++ pl.waiting.map s.waitOf).Sublist s.queued
      rw [hq]
      exact h.fifo
  · exact ⟨_, _, he, ⟨h.lock, h.waits, h.fifo, h.nodup, h.bound⟩, fun hc => by cases hc⟩
  · -- the new wait is the next one of its transaction, and the last in the queue
    have hid : s.waits it.ltrx = s.signals it.ltrx := by
      rw [h.waits, List.count_eq_zero_of_not_mem hw, Nat.add_zero]
    refine ⟨_, _, he, ⟨hinv, fun lt => ?_, ?_, ?_, ?_⟩, fun hc => by cases hc⟩
    · have hwaits := h.waits lt
      simp only [waiters] at hwaits
      by_cases hl : lt = it.ltrx
      · subst hl
        simp [afterEnter, waiters, hwaits, Nat.add_assoc]
      · simp [afterEnter, waiters, hl, hwaits, Ne.symm hl]
    · show (s.grants ++ (s.lock.waiting ++ [it]).map s.waitOf).Sublist _
      rw [List.map_append, ← List.append_assoc, List.map_singleton, waitOf, ← hid]
      exact h.fifo.append_right _
    · refine List.nodup_append.2 ⟨h.nodup, List.nodup_singleton _, fun w hw v hv => ?_⟩
      rintro rfl
      rw [List.mem_singleton] at hv
      subst hv
      exact Nat.lt_irrefl _ (h.bound _ hw)
    · intro w hw
      simp only [afterEnter, Function.update_apply]
      rcases List.mem_append.1 hw with hw | hw
      · have := h.bound w hw
        split
        · rename_i hl
          rw [← hl]
          omega
        · exact this
      · rw [List.mem_singleton] at hw
        subst hw
        simp

/-- A release keeps the invariant. -/
theorem Good.release (h : s.Good) (lt : Trx) :
    ∃ pl ev, lockRelease s.isPending s.lock lt = .ok (pl, ev) ∧ (s.afterRelease pl ev).Good := by
  obtain ⟨pl₁, served, pl, ev, he, hr⟩ := lockRelease_spec s.isPending h.lock lt
  have hw := hr.woken
  generalize hall : (s.lock.waiting.filter (isDead s.isPending lt)).map Event.dropped ++ ev = all
    at he
  -- the signalled transactions and those still waiting are the old queue
  have hsig : ((all.map fun e => e.cursor.ltrx) ++ pl.waiters).Perm s.lock.waiters := by
    have hperm := List.filter_append_perm (isDead s.isPending lt) s.lock.waiting
    rw [hw.queue] at hperm
    have hev : ev.map (fun e => e.cursor.ltrx) = served.map Cursor.ltrx := by
      rw [← hw.signalled, List.map_map]; rfl
    have hmap := hperm.map Cursor.ltrx
    rw [List.map_append, List.map_append, ← hev, ← List.append_assoc] at hmap
    rw [← hall, List.map_append, List.map_map]
    exact hmap
  refine ⟨pl, _, he, hr.lock_inv h.lock, fun t => ?_, ?_, h.nodup, h.bound⟩
  · have hcount := hsig.count_eq t
    rw [List.count_append] at hcount
    have hwaits := h.waits t
    show s.waits t = s.signals t + _ + pl.waiters.count t
    omega
  · have hrest : pl.waiting.map (s.afterRelease pl all).waitOf = pl.waiting.map s.waitOf := by
      refine List.map_congr_left fun it hit => ?_
      have hdisj := (List.nodup_append.1 (hsig.nodup_iff.2 h.lock.nodup)).2.2
      simp only [waitOf, afterRelease, Prod.mk.injEq, true_and, Nat.add_eq_left]
      exact List.count_eq_zero_of_not_mem fun hc =>
        hdisj _ hc _ (List.mem_map_of_mem hit) rfl
    have hgrants : all.filterMap Event.granted? = served.filter Cursor.acquires := by
      rw [← hall, List.filterMap_append, hw.granted, List.filterMap_map]
      simp [Function.comp_def, Event.granted?]
    have hlive : (served ++ pl.waiting).Sublist s.lock.waiting :=
      hw.queue ▸ List.filter_sublist
    show ((s.grants ++ _) ++ pl.waiting.map (s.afterRelease pl all).waitOf).Sublist s.queued
    rw [hrest, hgrants, List.append_assoc, ← List.map_append]
    refine List.Sublist.trans ?_ h.fifo
    exact (((List.filter_sublist.append_right _).trans hlive).map _).append_left _

/-- No enabled step fails, and every step keeps the invariant. -/
theorem Good.next (h : s.Good) {a : Act Trx} (he : s.Enabled a) :
    ∃ s', s.next a = .ok s' ∧ s'.Good := by
  cases a with
  | enter it deadlock =>
    obtain ⟨pl, out, hok, hgood, _⟩ := h.enter it (!s.isPending it.ltrx || deadlock) he
    exact ⟨_, by simp only [Sys.next, hok]; rfl, hgood⟩
  | leaveRow lt => exact ⟨_, rfl, h.leaveRow lt⟩
  | kill lt => exact ⟨_, rfl, h.with_status _⟩
  | release lt =>
    obtain ⟨pl, ev, hok, hgood⟩ := (h.with_status (Function.update s.status lt .closing)).release lt
    refine ⟨_, ?_, hgood⟩
    simp only [Sys.next]
    rw [hok]
    rfl
  | restart lt => exact ⟨_, rfl, h.with_status _⟩

end Sys

/-! ## The guarantee -/

end Virtuoso.Lock
