import Virtuoso.Lock.Record
import Mathlib.Data.Fintype.EquivFin
import Mathlib.Order.WellFounded

/-!
# Deadlock detection over all histories

Any number of locks and single-threaded transactions.  A step is a `lock_enter`
with its deadlock check, or the end of a transaction: `lt_clear_waits`, the
status `LT_CLOSING`, and `lock_release` of each of its locks, as `lt_transact`
orders them.

The invariant is that wait edges record what each queued cursor waits for
(`Recorded`).  An ending transaction passes its own waits on to those behind it,
which keeps the record direct, except where an exclusive cursor between two
shared requests ends: then two runs of shared requests merge, and the wait of
those behind it for the owners is left to a path through a cursor that may be
let through, whose edges `lt_clear_non_acq_release_wait` drops.
-/

universe u

namespace Virtuoso.Lock

open Relation Virtuoso.Lib Waits Function

/-- All locks, all wait edges, and the status of each transaction. -/
structure Locks (Lock : Type u) (Trx : Type u) where
  locks : Lock → GenLock Trx
  waits : Waits Trx
  status : Trx → Status

/-- The steps of a history. -/
inductive TrxAct (Lock : Type u) (Trx : Type u) where
  /-- `lock_enter` of the cursor on the lock. -/
  | enter (l : Lock) (it : Cursor Trx)
  /-- The transaction ends and releases the locks listed, in this order. -/
  | transact (lt : Trx) (ls : List Lock)
  /-- The transaction object is used again. -/
  | restart (lt : Trx)

namespace Locks

variable {Lock : Type u} {Trx : Type u} [DecidableEq Lock] [DecidableEq Trx]

def init : Locks Lock Trx := ⟨fun _ => .init, .init, fun _ => .pending⟩

/-- `lt_status == LT_PENDING`. -/
def isPending (s : Locks Lock Trx) (lt : Trx) : Bool := s.status lt = .pending

/-- `lt_status == LT_CLOSING`. -/
def isClosing (s : Locks Lock Trx) (lt : Trx) : Bool := s.status lt = .closing

/-- `itc_bust_this_trx`. -/
def bust (s : Locks Lock Trx) (lt : Trx) : Locks Lock Trx :=
  { s with status := Function.update s.status lt .blownOff }

/-- `lock_enter`.  Whether a refused cursor waits or its transaction is rolled
back is decided by `lock_check_deadlock_1`, on the lock before the cursor
joins its queue. -/
def enter (fuel : ℕ) (s : Locks Lock Trx) (l : Lock) (it : Cursor Trx) :
    Option (Except Fatal (Locks Lock Trx)) :=
  match lockEnter (s.locks l) it (!s.isPending it.ltrx) with
  | .error e => some (.error e)
  | .ok (pl, .granted) => some (.ok { s with locks := Function.update s.locks l pl })
  | .ok (_, .busted) => some (.ok (s.bust it.ltrx))
  | .ok (pl, .waits) =>
    (lockCheckDeadlock1 fuel s.isClosing s.waits (s.locks l) it).map fun r =>
      if r.1 ≠ 0 then .ok ({ s with waits := r.2 }.bust it.ltrx)
      else .ok { s with locks := Function.update s.locks l pl, waits := r.2 }

/-- `lock_release` of one lock by the closing transaction. -/
def release (lt : Trx) (s : Locks Lock Trx) (l : Lock) : Except Fatal (Locks Lock Trx) := do
  let (pl, ev) ← lockRelease s.isPending (s.locks l) lt
  return { s with locks := Function.update s.locks l pl, waits := ev.foldl clearOnPass s.waits }

/-- The end of a transaction, as far as `lt_transact` touches locks and waits. -/
def transact (s : Locks Lock Trx) (lt : Trx) (ls : List Lock) :
    Except Fatal (Locks Lock Trx) := do
  let w ← ltClearWaits s.waits lt
  let s₁ := { s with waits := w, status := Function.update s.status lt .closing }
  let s₂ ← ls.foldlM (release lt) s₁
  if s₂.waits.waitingForThis lt ≠ [] then throw .waitEdgesOnClosingTxn
  let w' ← ltClearWaits s₂.waits lt
  return { s₂ with waits := w' }

/-- One step; `none` when the fuel of the deadlock check runs out. -/
def next (fuel : ℕ) (s : Locks Lock Trx) : TrxAct Lock Trx → Option (Except Fatal (Locks Lock Trx))
  | .enter l it => s.enter fuel l it
  | .transact lt ls => some (s.transact lt ls)
  | .restart lt => some (.ok { s with status := Function.update s.status lt .pending })

/-- When a step may happen: a transaction makes no request while it waits or
after its end, and it ends once, releasing at least the locks it owns or waits
on. -/
def Enabled (s : Locks Lock Trx) : TrxAct Lock Trx → Prop
  | .enter _ it => s.status it.ltrx ≠ .closing ∧ ∀ l, it.ltrx ∉ (s.locks l).waiters
  | .transact lt ls => s.status lt ≠ .closing ∧
      ∀ l, lt ∈ (s.locks l).owners ∨ lt ∈ (s.locks l).waiters → l ∈ ls
  | .restart lt => s.status lt = .closing

instance [Fintype Lock] (s : Locks Lock Trx) : (a : TrxAct Lock Trx) → Decidable (s.Enabled a)
  | .enter _ it => inferInstanceAs
      (Decidable (s.status it.ltrx ≠ .closing ∧ ∀ l, it.ltrx ∉ (s.locks l).waiters))
  | .transact lt ls => inferInstanceAs (Decidable (s.status lt ≠ .closing ∧
      ∀ l, lt ∈ (s.locks l).owners ∨ lt ∈ (s.locks l).waiters → l ∈ ls))
  | .restart lt => inferInstanceAs (Decidable (s.status lt = .closing))

end Locks

/-- The machine whose runs are the histories of the locks. -/
def locksMachine (Lock : Type u) (Trx : Type u) [DecidableEq Lock] [DecidableEq Trx] :
    Machine (Locks Lock Trx) (TrxAct Lock Trx) where
  Init := fun s => s = Locks.init
  Step := fun s a s' => s.Enabled a ∧ ∃ fuel, s.next fuel a = some (.ok s')

/-- An exclusive cursor of `lt` waits right behind a shared request or owner and
right in front of a shared request. -/
def GenLock.BetweenShared {Trx : Type u} (pl : GenLock Trx) (lt : Trx) : Prop :=
  ∃ q₁ it q₂, pl.waiting = q₁ ++ it :: q₂ ∧ it.ltrx = lt ∧ it.lockMode = .exclusive ∧
    ((∃ prev ∈ q₁.getLast?, prev.lockMode = .shared) ∨ (q₁ = [] ∧ pl.type = .shared)) ∧
    ∃ next ∈ q₂.head?, next.lockMode = .shared

theorem GenLock.BetweenShared.exists_shared {Trx : Type u} {pl : GenLock Trx} {lt : Trx}
    (h : pl.BetweenShared lt) : ∃ it ∈ pl.waiting, it.lockMode = .shared := by
  obtain ⟨q₁, it, q₂, hq, -, -, -, next, hnext, hm⟩ := h
  refine ⟨next, ?_, hm⟩
  rw [hq]
  exact List.mem_append_right _ (List.mem_cons_of_mem _ (List.mem_of_mem_head? hnext))

/-- The requests whose search for a cycle does not overflow, and the ends of transactions that
merge no two runs of shared requests. -/
def KeepsTrack {Lock : Type u} {Trx : Type u} [DecidableEq Trx] (s : Locks Lock Trx) :
    TrxAct Lock Trx → Prop
  | .enter l it =>
    FewPaths s.waits it.ltrx fun p => p ∈ (s.locks l).owners ∨ p ∈ (s.locks l).waiters
  | .transact lt _ => ∀ l, ¬ (s.locks l).BetweenShared lt
  | .restart _ => True

variable {Lock : Type u} {Trx : Type u} [DecidableEq Lock] [DecidableEq Trx]

/-! ## The invariant -/

variable {s : Locks Lock Trx} {l : Lock} {r : Except Fatal (Locks Lock Trx)}

namespace Locks

/-- The invariant between two steps. -/
structure Good (s : Locks Lock Trx) : Prop where
  locks : ∀ l, (s.locks l).Inv
  single : ∀ l l' lt, lt ∈ (s.locks l).waiters → lt ∈ (s.locks l').waiters → l = l'
  pending : ∀ l, ∀ lt ∈ (s.locks l).waiters, s.status lt = .pending
  owners : ∀ l, ∀ o ∈ (s.locks l).owners, s.status o ≠ .closing
  consistent : s.waits.Consistent
  acyclic : Acyclic s.waits.Edge
  recorded : ∀ l, Recorded s.waits.Edge (s.locks l).ownerLine (queueLine (s.locks l).waiting)

omit [DecidableEq Lock] [DecidableEq Trx] in
theorem init_good : (init : Locks Lock Trx).Good where
  locks := fun _ => GenLock.init_inv
  single := fun _ _ _ h => absurd h List.not_mem_nil
  pending := fun _ _ h => absurd h List.not_mem_nil
  owners := fun _ _ h => absurd h List.not_mem_nil
  consistent := init_consistent
  acyclic := fun x hx => by
    obtain ⟨y, hy, -⟩ := TransGen.head'_iff.1 hx
    exact absurd hy List.not_mem_nil
  recorded := fun _ => trivial

/-! ## Requests -/

omit [DecidableEq Trx] in
/-- Replacing one lock by another with the same queue and status of owners. -/
theorem Good.update_lock (h : s.Good) {pl : GenLock Trx} (hinv : pl.Inv)
    (hq : pl.waiting = (s.locks l).waiting) (ho : ∀ o ∈ pl.owners, s.status o ≠ .closing)
    (hR : Recorded s.waits.Edge pl.ownerLine (queueLine pl.waiting)) :
    ({ s with locks := update s.locks l pl } : Locks Lock Trx).Good := by
  have hwait : ∀ l', (update s.locks l pl l').waiters = (s.locks l').waiters := by
    intro l'
    by_cases hl : l' = l
    · subst hl
      rw [update_self, GenLock.waiters, hq]
      rfl
    · rw [update_of_ne hl]
  refine ⟨fun l' => ?_, fun l₁ l₂ lt h₁ h₂ => ?_, fun l' lt hlt => ?_, fun l' => ?_, h.consistent,
    h.acyclic, fun l' => ?_⟩
  · by_cases hl : l' = l
    · subst hl; simpa using hinv
    · simpa [hl] using h.locks l'
  · rw [hwait] at h₁ h₂
    exact h.single l₁ l₂ lt h₁ h₂
  · rw [hwait] at hlt
    exact h.pending l' lt hlt
  · by_cases hl : l' = l
    · subst hl; simpa using ho
    · simpa [hl] using h.owners l'
  · by_cases hl : l' = l
    · subst hl; simpa using hR
    · simpa [hl] using h.recorded l'

omit [DecidableEq Lock] in
/-- Rolling back a transaction that does not wait. -/
theorem Good.bust (h : s.Good) {lt : Trx} (hw : ∀ l, lt ∉ (s.locks l).waiters) :
    (s.bust lt).Good := by
  refine ⟨h.locks, h.single, fun l t ht => ?_, fun l o ho => ?_, h.consistent, h.acyclic,
    h.recorded⟩
  · have hne : t ≠ lt := by rintro rfl; exact hw l ht
    simpa [Locks.bust, hne] using h.pending l t ht
  · by_cases hne : o = lt
    · simp [Locks.bust, hne]
    · simpa [Locks.bust, hne] using h.owners l o ho

omit [DecidableEq Trx] in
/-- A cursor joins a queue and its waits are recorded. -/
theorem Good.wait (h : s.Good) {it : Cursor Trx} {w : Waits Trx} {pl : GenLock Trx}
    (hp : s.status it.ltrx = .pending) (hw : ∀ l, it.ltrx ∉ (s.locks l).waiters) (hinv : pl.Inv)
    (hq : pl.waiting = (s.locks l).waiting ++ [it]) (hown : pl.owners = (s.locks l).owners)
    (hline : pl.ownerLine = (s.locks l).ownerLine)
    (hno : ∀ y ∈ preds ((queueLine (s.locks l).waiting).reverse ++ (s.locks l).ownerLine)
      it.lockMode, ¬ ReflTransGen s.waits.Edge y it.ltrx)
    (hadd : s.waits.Adds w fun x y => x = it.ltrx ∧
      y ∈ preds ((queueLine (s.locks l).waiting).reverse ++ (s.locks l).ownerLine) it.lockMode) :
    (⟨update s.locks l pl, w, s.status⟩ : Locks Lock Trx).Good := by
  have hsub : ∀ x y, s.waits.Edge x y → w.Edge x y :=
    fun x y hxy => (hadd.waitsFor x y).2 (.inl hxy)
  have hwait : ∀ l' lt, lt ∈ (update s.locks l pl l').waiters →
      lt ∈ (s.locks l').waiters ∨ (lt = it.ltrx ∧ l' = l) := by
    intro l' lt hlt
    by_cases hl : l' = l
    · subst hl
      simpa [GenLock.waiters, hq] using hlt
    · rw [update_of_ne hl] at hlt
      exact .inl hlt
  refine ⟨fun l' => ?_, fun l₁ l₂ lt h₁ h₂ => ?_, fun l' lt hlt => ?_, fun l' o ho => ?_,
    hadd.consistent h.consistent, ?_, fun l' => ?_⟩
  · by_cases hl : l' = l
    · subst hl; simpa using hinv
    · simpa [hl] using h.locks l'
  · rcases hwait l₁ lt h₁ with h₁ | ⟨rfl, e₁⟩ <;> rcases hwait l₂ _ h₂ with h₂ | ⟨e, e₂⟩
    · exact h.single l₁ l₂ lt h₁ h₂
    · exact absurd (e ▸ h₁) (hw l₁)
    · exact absurd h₂ (hw l₂)
    · rw [e₁, e₂]
  · rcases hwait l' lt hlt with hlt | ⟨rfl, -⟩
    · exact h.pending l' lt hlt
    · exact hp
  · refine h.owners l' o ?_
    by_cases hl : l' = l
    · subst hl; simpa [hown] using ho
    · simpa [hl] using ho
  · exact (h.acyclic.add hno).of_paths fun x y hxy => .single ((hadd.waitsFor x y).1 hxy)
  · have hold := (h.recorded l').imp fun x _ y _ hxy => hsub x y hxy
    show Recorded w.Edge (update s.locks l pl l').ownerLine
      (queueLine (update s.locks l pl l').waiting)
    by_cases hl : l' = l
    · subst hl
      rw [update_self, hline, hq, queueLine, List.map_append]
      refine Recorded.append_iff.2 ⟨hold, fun y hy => ?_, trivial⟩
      exact (hadd.waitsFor _ _).2 (.inr ⟨rfl, hy⟩)
    · rw [update_of_ne hl]
      exact hold

/-- A request that comes to an end keeps the invariant. -/
theorem Good.enter (h : s.Good) {it : Cursor Trx} (he : s.Enabled (.enter l it))
    (hok : KeepsTrack s (.enter l it)) {fuel : ℕ} (hr : s.enter fuel l it = some r) :
    ∃ s', r = .ok s' ∧ s'.Good := by
  have hbust := h.bust he.2
  rcases lockEnter_spec (h.locks l) it (!s.isPending it.ltrx) (he.2 l) with
    ⟨pl, hent, hinv, hq, -⟩ | hent | ⟨hp, hent, hinv⟩
  · simp only [Locks.enter, hent] at hr
    cases hr
    have hadm := (lockAddOwner_admits (h.locks l).toOwnerInv (lockAddOwner_of_granted hent)).1
    refine ⟨_, rfl, h.update_lock hinv hq (fun o ho => ?_)
      (lockEnter_granted_recorded (h.locks l) hent (h.recorded l))⟩
    rcases (hadm.owners o).1 ho with rfl | ho
    · exact he.1
    · exact h.owners l o ho
  · simp only [Locks.enter, hent] at hr
    cases hr
    exact ⟨_, rfl, hbust⟩
  · simp only [Locks.enter, hent] at hr
    obtain ⟨⟨n, w⟩, hn, rfl⟩ := Option.map_eq_some_iff.1 hr
    have hclosing : ∀ t, s.status t ≠ .closing → s.isClosing t = false := fun t ht => by
      simp [isClosing, ht]
    rcases lockCheckDeadlock1_spec h.consistent (h.locks l).toOwnerInv
      (fun o ho => hclosing o (h.owners l o ho))
      (fun t ht => hclosing t (by simp [h.pending l t ht])) hok hn with
        ⟨hne, rfl⟩ | ⟨rfl, hno, hadd⟩
    · exact ⟨_, if_pos hne, hbust⟩
    · refine ⟨_, rfl, h.wait ?_ he.2 hinv rfl rfl rfl hno hadd⟩
      simpa [isPending] using hp

/-- The deadlock check of a request comes to an end. -/
theorem Good.enter_terminates [Finite Trx] (h : s.Good) (l : Lock) (it : Cursor Trx) :
    ∃ fuel r, s.enter fuel l it = some r := by
  obtain ⟨fuel, n, w, hn⟩ := lockCheckDeadlock1_terminates h.acyclic s.isClosing (s.locks l) it
  refine ⟨fuel, ?_⟩
  rw [Locks.enter]
  split
  · exact ⟨_, rfl⟩
  · exact ⟨_, rfl⟩
  · exact ⟨_, rfl⟩
  · rw [hn]
    exact ⟨_, rfl⟩

/-! ## Ends -/

end Locks

def without (lt : Trx) (r : List (Trx × Mode)) : List (Trx × Mode) := r.filter (·.1 ≠ lt)

theorem without_eq_self {lt : Trx} {r : List (Trx × Mode)} (h : lt ∉ r.map Prod.fst) :
    without lt r = r := by
  refine List.filter_eq_self.2 fun p hp => ?_
  simp only [ne_eq, decide_eq_true_eq]
  rintro rfl
  exact h (List.mem_map_of_mem hp)

/-- The owners a release starts from. -/
theorem Released.ownerLine {pending : Trx → Bool} {pl pl₁ pl' : GenLock Trx} {lt : Trx}
    {served : List (Cursor Trx)} {ev : List (Event Trx)}
    (hr : Released pending pl lt pl₁ served pl' ev) : pl₁.ownerLine = without lt pl.ownerLine := by
  have hout : without lt pl.ownerLine = (pl.owners.filter (· ≠ lt)).reverse.map fun o =>
      (o, if pl.type = .exclusive then .exclusive else .shared) := by
    simp [without, GenLock.ownerLine, List.filter_map, List.filter_reverse, comp_def]
  rw [hout, ← hr.owners]
  by_cases hne : pl₁.owners = []
  · simp [GenLock.ownerLine, hne]
  · simp only [GenLock.ownerLine, hr.type hne]

/-- The queue a release starts from, when all others that wait are pending. -/
theorem queueLine_live {pending : Trx → Bool} {pl : GenLock Trx} {lt : Trx}
    (hp : ∀ t ∈ pl.waiters, t ≠ lt → pending t = true) :
    queueLine (pl.waiting.filter fun it => !isDead pending lt it) =
      without lt (queueLine pl.waiting) := by
  rw [without, queueLine, queueLine, List.filter_map]
  congr 1
  refine List.filter_congr fun it hit => ?_
  by_cases hlt : it.ltrx = lt
  · simp [isDead, hlt]
  · simp [isDead, hlt, hp _ (List.mem_map_of_mem hit) hlt]

/-- Taking the one request of `lt` out of a line. -/
theorem without_append_cons {lt : Trx} {m : Mode} {r₁ r₂ : List (Trx × Mode)}
    (h : ((r₁ ++ (lt, m) :: r₂).map Prod.fst).Nodup) :
    without lt (r₁ ++ (lt, m) :: r₂) = r₁ ++ r₂ ∧ lt ∉ (r₁ ++ r₂).map Prod.fst := by
  rw [List.map_append, List.map_cons, List.nodup_middle, List.nodup_cons] at h
  have hnot : lt ∉ (r₁ ++ r₂).map Prod.fst := by rw [List.map_append]; exact h.1
  refine ⟨?_, hnot⟩
  have := without_eq_self hnot
  simpa [without] using this

omit [DecidableEq Trx] in
/-- A run of shared requests right before a queued cursor starts with the cursor
before it or with an owner. -/
theorem shared_before {pl : GenLock Trx} (h : pl.OwnerInv) {q₁ : List (Cursor Trx)}
    (hrun : sharedRun ((queueLine q₁).reverse ++ pl.ownerLine) ≠ []) :
    (∃ prev ∈ q₁.getLast?, prev.lockMode = .shared) ∨ (q₁ = [] ∧ pl.type = .shared) := by
  rcases List.eq_nil_or_concat q₁ with rfl | ⟨q, prev, rfl⟩
  · refine .inr ⟨rfl, ?_⟩
    cases ht : pl.type with
    | free => simp [queueLine, GenLock.ownerLine, GenLock.owners, h.free ht,
        sharedRun] at hrun
    | exclusive =>
      obtain ⟨o, ho⟩ := h.exclusive ht
      simp [queueLine, GenLock.ownerLine, GenLock.owners, ho, ht, sharedRun] at hrun
    | shared => rfl
  · refine .inl ⟨prev, by simp, ?_⟩
    cases hm : prev.lockMode with
    | shared => rfl
    | exclusive => simp [queueLine, hm, sharedRun] at hrun

/-- When `lt` ends, the waits of those behind it are recorded without it. -/
theorem Recorded.end_trx {E : Trx → Trx → Prop} {pl : GenLock Trx} (h : pl.Inv) {lt : Trx}
    (hm : ¬ pl.BetweenShared lt) (hR : Recorded E pl.ownerLine (queueLine pl.waiting)) :
    Recorded (contract E lt) (without lt pl.ownerLine) (without lt (queueLine pl.waiting)) := by
  have hE : ∀ x y, x ≠ lt → y ≠ lt → E x y → contract E lt x y :=
    fun x y hx hy hxy => ⟨hx, hy, .inl hxy⟩
  have hk : ∀ x y, x ≠ lt → y ≠ lt → E x lt → E lt y → contract E lt x y :=
    fun x y hx hy hxk hky => ⟨hx, hy, .inr ⟨hxk, hky⟩⟩
  by_cases hw : lt ∈ pl.waiters
  · -- `lt` waits: it is no owner, and it is in the queue once
    obtain ⟨it, hit, rfl⟩ := List.mem_map.1 hw
    obtain ⟨q₁, q₂, hq⟩ := List.append_of_mem hit
    have hnodup := h.nodup
    have hno := h.disjoint _ hw
    rw [without_eq_self (by simpa using hno)]
    have hline : queueLine pl.waiting =
        queueLine q₁ ++ (it.ltrx, it.lockMode) :: queueLine q₂ := by
      simp [queueLine, hq]
    rw [GenLock.waiters, ← queueLine_fst, hline] at hnodup
    obtain ⟨hwithout, hnot⟩ := without_append_cons hnodup
    rw [hline] at hR ⊢
    rw [hwithout]
    refine hR.erase hE hk ?_ fun hx hs => ?_
    · rw [List.map_append, List.mem_append, ownerLine_fst, List.mem_reverse]
      exact fun hc => hc.elim hnot hno
    · by_contra hrun
      refine hm ⟨q₁, it, q₂, hq, rfl, hx, shared_before h.toOwnerInv hrun, ?_⟩
      cases q₂ with
      | nil => cases hs
      | cons next q₂ => exact ⟨next, rfl, by simpa [queueLine] using hs⟩
  have hq : without lt (queueLine pl.waiting) = queueLine pl.waiting :=
    without_eq_self (by rw [queueLine_fst]; exact hw)
  rw [hq]
  by_cases ho : lt ∈ pl.owners
  · -- `lt` owns: nobody owns before it in a way it would have waited for
    obtain ⟨r₁, r₂, hline⟩ := List.append_of_mem (List.mem_map_of_mem (f := fun o =>
      (o, if pl.type = .exclusive then Mode.exclusive else .shared)) (List.mem_reverse.2 ho))
    change pl.ownerLine = _ at hline
    have hnodup : (pl.ownerLine.map Prod.fst).Nodup := by
      rw [ownerLine_fst]
      exact List.nodup_reverse.2 h.owners_nodup
    rw [hline] at hnodup hR ⊢
    obtain ⟨hwithout, hnot⟩ := without_append_cons hnodup
    rw [hwithout]
    have hr₂ : pl.type = .exclusive → r₂ = [] := fun ht => by
      obtain ⟨o, hone⟩ := h.exclusive ht
      have hlen := congrArg List.length hline
      simp only [GenLock.ownerLine, GenLock.owners, hone, Owner.toList, List.length_append,
        List.length_cons, List.length_map, List.length_reverse, List.length_nil] at hlen
      exact List.eq_nil_of_length_eq_zero (by omega)
    refine Recorded.erase_line hE hk r₁ hR (fun y hy => ?_) ?_ fun hx _ => ?_
    · by_cases ht : pl.type = .exclusive
      · rw [hr₂ ht] at hy
        simp [ht, preds, sharedRun] at hy
      · have hsh : ∀ p ∈ r₂, p.2 = .shared := fun p hp =>
          GenLock.ownerLine_shared ht p (by rw [hline]; simp [hp])
        rw [if_neg ht, (preds_of_shared hsh).2] at hy
        cases hy
    · rw [List.map_append, List.mem_append, queueLine_fst]
      exact fun hc => hc.elim hw hnot
    · rw [hr₂ (by by_contra ht; simp [ht] at hx)]
      rfl
  · rw [without_eq_self (by simpa using ho)]
    refine hR.imp fun x hx y hy hxy => hE x y ?_ ?_ hxy
    · rintro rfl
      rw [queueLine_fst] at hx
      exact hw hx
    · rintro rfl
      rw [List.map_append, queueLine_fst, ownerLine_fst, List.mem_append, List.mem_reverse] at hy
      exact hy.elim hw ho

namespace Locks

/-- The invariant while `lt` ends and has the locks `ls` still to release. -/
structure Ending (lt : Trx) (ls : List Lock) (s : Locks Lock Trx) : Prop where
  locks : ∀ l, (s.locks l).Inv
  single : ∀ l l' t, t ∈ (s.locks l).waiters → t ∈ (s.locks l').waiters → l = l'
  pending : ∀ l, ∀ t ∈ (s.locks l).waiters, t ≠ lt → s.status t = .pending
  owners : ∀ l, ∀ o ∈ (s.locks l).owners, o ≠ lt → s.status o ≠ .closing
  consistent : s.waits.Consistent
  acyclic : Acyclic s.waits.Edge
  isolated : ∀ x, ¬ s.waits.Edge x lt ∧ ¬ s.waits.Edge lt x
  recorded : ∀ l, Recorded s.waits.Edge (without lt (s.locks l).ownerLine)
    (without lt (queueLine (s.locks l).waiting))
  gone : ∀ l, l ∈ ls ∨ (lt ∉ (s.locks l).owners ∧ lt ∉ (s.locks l).waiters)

variable {ls : List Lock}

/-- After `lt_clear_waits` the waits are recorded without the ending
transaction. -/
theorem Good.ending (h : s.Good) {lt : Trx} (he : s.Enabled (.transact lt ls))
    (hok : KeepsTrack s (.transact lt ls)) {w : Waits Trx} (hc : w.Consistent)
    (hw : ∀ x y, w.Edge x y ↔ contract s.waits.Edge lt x y) :
    Ending lt ls { s with waits := w, status := update s.status lt .closing } where
  locks := h.locks
  single := h.single
  pending := fun l t ht hne => by simpa [hne] using h.pending l t ht
  owners := fun l o ho hne => by simpa [hne] using h.owners l o ho
  consistent := hc
  acyclic := (h.acyclic.contract lt).of_paths fun x y hxy => .single ((hw x y).1 hxy)
  isolated := fun x => ⟨fun hx => ((hw x lt).1 hx).2.1 rfl, fun hx => ((hw lt x).1 hx).1 rfl⟩
  recorded := fun l => ((h.recorded l).end_trx (h.locks l) (hok l)).imp
    fun x _ y _ hxy => (hw x y).2 hxy
  gone := fun l => by
    by_cases hl : l ∈ ls
    · exact .inl hl
    · exact .inr ⟨fun hc => hl (he.2 l (.inl hc)), fun hc => hl (he.2 l (.inr hc))⟩

/-- Thrown-out cursors drop no edge. -/
theorem foldl_clearOnPass_dropped (w : Waits Trx) (dead : List (Cursor Trx))
    (ev : List (Event Trx)) :
    (dead.map Event.dropped ++ ev).foldl clearOnPass w = ev.foldl clearOnPass w := by
  induction dead with
  | nil => rfl
  | cons it dead ih => exact ih

/-- Releasing one lock. -/
theorem Ending.release {lt : Trx} (h : Ending lt (l :: ls) s) :
    ∃ s', s.release lt l = .ok s' ∧ Ending lt ls s' := by
  obtain ⟨pl₁, served, pl', ev, hrel, hr⟩ := lockRelease_spec s.isPending (h.locks l) lt
  have hlive : queueLine ((s.locks l).waiting.filter fun it => !isDead s.isPending lt it) =
      without lt (queueLine (s.locks l).waiting) :=
    queueLine_live fun t ht hne => by simp [isPending, h.pending l t ht hne]
  have hsub : ((s.locks l).waiting.filter fun it => !isDead s.isPending lt it).Sublist
      (s.locks l).waiting := List.filter_sublist
  -- the queue loop and the edges it drops
  have hpass : Passed s.waits (ev.foldl clearOnPass s.waits)
      ((s.locks l).waiting.filter fun it => !isDead s.isPending lt it) pl' := by
    refine wakeWaiting_passed hr.inv h.consistent ((h.locks l).nodup.sublist (hsub.map _))
      (fun t ht hc => ?_) ?_ hr.wake
    · rw [hr.owners] at hc
      exact (h.locks l).disjoint t ((hsub.map _).subset ht) (List.mem_of_mem_filter hc)
    · rw [hr.ownerLine, hlive]
      exact h.recorded l
  have hwait : ∀ t, t ∈ pl'.waiters → t ∈ (s.locks l).waiters := fun t ht => by
    have hmem : t ∈ (served ++ pl'.waiting).map Cursor.ltrx := by
      rw [List.map_append]
      exact List.mem_append_right _ ht
    rw [← hr.woken.queue] at hmem
    exact (hsub.map _).subset hmem
  have hwait' : ∀ l' t, t ∈ (update s.locks l pl' l').waiters →
      t ∈ (s.locks l').waiters := fun l' t ht => by
    by_cases hl : l' = l
    · subst hl; exact hwait t (by simpa using ht)
    · simpa [hl] using ht
  refine ⟨⟨update s.locks l pl', ev.foldl clearOnPass s.waits, s.status⟩, ?_, ?_⟩
  · simp only [Locks.release, hrel, bind, Except.bind, foldl_clearOnPass_dropped]
    rfl
  refine ⟨fun l' => ?_, fun l₁ l₂ t h₁ h₂ => ?_, fun l' t ht hne => ?_, fun l' o ho hne => ?_,
    hpass.consistent, ?_, fun x => ?_, fun l' => ?_, fun l' => ?_⟩
  · by_cases hl : l' = l
    · subst hl; simpa using hr.lock_inv (h.locks l')
    · simpa [hl] using h.locks l'
  · exact h.single l₁ l₂ t (hwait' l₁ t h₁) (hwait' l₂ t h₂)
  · exact h.pending l' t (hwait' l' t ht) hne
  · by_cases hl : l' = l
    · subst hl
      simp only [update_self] at ho
      rcases (hr.woken.owners o).1 ho with ho | ho
      · rw [hr.owners] at ho
        exact h.owners l' o (List.mem_of_mem_filter ho) hne
      · obtain ⟨it, hit, rfl⟩ := List.mem_map.1 ho
        have hmem : it ∈ served ++ pl'.waiting :=
          List.mem_append_left _ (List.mem_of_mem_filter hit)
        rw [← hr.woken.queue] at hmem
        rw [show s.status it.ltrx = .pending from
          h.pending l' _ (List.mem_map_of_mem (hsub.subset hmem)) hne]
        simp
    · exact h.owners l' o (by simpa [hl] using ho) hne
  · exact h.acyclic.of_paths fun x y hxy => .single (hpass.sub x y hxy)
  · exact ⟨fun hx => (h.isolated x).1 (hpass.sub _ _ hx),
      fun hx => (h.isolated x).2 (hpass.sub _ _ hx)⟩
  · show Recorded (ev.foldl clearOnPass s.waits).Edge
      (without lt (update s.locks l pl' l').ownerLine)
      (without lt (queueLine (update s.locks l pl' l').waiting))
    by_cases hl : l' = l
    · subst hl
      rw [update_self, without_eq_self (by simpa using hr.gone.1),
        without_eq_self (by rw [queueLine_fst]; exact hr.gone.2)]
      exact hpass.recorded
    · rw [update_of_ne hl]
      refine (h.recorded l').imp fun x hx y _ hxy => hpass.keep x y hxy fun hc => ?_
      -- a transaction waits on one lock only
      have hx' : x ∈ (s.locks l').waiters := by
        have : x ∈ (queueLine (s.locks l').waiting).map Prod.fst :=
          (List.filter_sublist.map _).subset hx
        rwa [queueLine_fst] at this
      exact hl (h.single l' l x hx' ((hsub.map _).subset hc))
  · by_cases hl : l' = l
    · subst hl; simpa using .inr hr.gone
    · simpa [hl] using h.gone l'

omit [DecidableEq Lock] in
/-- A transaction that has released everything is out of the way. -/
theorem Ending.good {lt : Trx} (h : Ending lt [] s) : s.Good := by
  have hgone : ∀ l, lt ∉ (s.locks l).owners ∧ lt ∉ (s.locks l).waiters := fun l =>
    (h.gone l).resolve_left List.not_mem_nil
  refine ⟨h.locks, h.single, fun l t ht => h.pending l t ht ?_,
    fun l o ho => h.owners l o ho ?_, h.consistent, h.acyclic, fun l => ?_⟩
  · rintro rfl; exact (hgone l).2 ht
  · rintro rfl; exact (hgone l).1 ho
  · have := h.recorded l
    rwa [without_eq_self (by simpa using (hgone l).1),
      without_eq_self (by rw [queueLine_fst]; exact (hgone l).2)] at this

/-- The end of a transaction that merges no runs never fails and keeps the
invariant. -/
theorem Good.transact (h : s.Good) {lt : Trx} (he : s.Enabled (.transact lt ls))
    (hok : KeepsTrack s (.transact lt ls)) : ∃ s', s.transact lt ls = .ok s' ∧ s'.Good := by
  obtain ⟨w, hw, hc, hE⟩ := ltClearWaits_spec h.consistent fun hx => h.acyclic lt (.single hx)
  obtain ⟨s₂, hs₂, h₂⟩ := foldlM_ok (fun _ _ _ => Ending.release) (h.ending he hok hc hE)
  obtain ⟨w', hw', hc', hE'⟩ := ltClearWaits_spec h₂.consistent (h₂.isolated lt).1
  have hnone : s₂.waits.waitingForThis lt = [] := by
    refine List.eq_nil_iff_forall_not_mem.2 fun x hx => ?_
    exact (h₂.isolated x).1 (h₂.consistent.edge_iff.2 hx)
  have hsame : ∀ x y, w'.Edge x y ↔ s₂.waits.Edge x y := fun x y => by
    rw [hE']
    refine ⟨fun hxy => hxy.2.2.resolve_right fun hc => (h₂.isolated x).1 hc.1, fun hxy => ?_⟩
    refine ⟨?_, ?_, .inl hxy⟩
    · rintro rfl; exact (h₂.isolated y).2 hxy
    · rintro rfl; exact (h₂.isolated x).1 hxy
  have hgood := h₂.good
  refine ⟨{ s₂ with waits := w' }, ?_, hgood.locks, hgood.single, hgood.pending, hgood.owners, hc',
    hgood.acyclic.of_paths fun x y hxy => .single ((hsame x y).1 hxy),
    fun l => (hgood.recorded l).imp fun x _ y _ hxy => (hsame x y).2 hxy⟩
  simp only [Locks.transact, hw, bind, Except.bind, hs₂, hnone, hw']
  rfl

/-- A step that keeps track, and has enough fuel, never fails and keeps the
invariant. -/
theorem Good.next (h : s.Good) {a : TrxAct Lock Trx} (he : s.Enabled a) (hok : KeepsTrack s a)
    {fuel : ℕ} (hr : s.next fuel a = some r) : ∃ s', r = .ok s' ∧ s'.Good := by
  cases a with
  | enter l it => exact h.enter he hok hr
  | transact lt ls =>
    obtain ⟨s', hs', hgood⟩ := h.transact he hok
    cases hr
    exact ⟨s', hs', hgood⟩
  | restart lt =>
    cases hr
    refine ⟨_, rfl, h.locks, h.single, fun l t ht => ?_, fun l o ho => ?_, h.consistent,
      h.acyclic, h.recorded⟩
    · by_cases hne : t = lt
      · simp [hne]
      · simpa [hne] using h.pending l t ht
    · by_cases hne : o = lt
      · simp [hne]
      · simpa [hne] using h.owners l o ho

/-- The invariant holds in every state of a history whose steps keep track. -/
theorem good_of_reach (h : (locksMachine Lock Trx).Reach KeepsTrack s) : s.Good := by
  refine Machine.Reach.invariant (fun s hs => hs ▸ init_good) (fun s a s' hgood hok hs => ?_) h
  obtain ⟨fuel, hr⟩ := hs.2
  obtain ⟨s'', heq, hgood'⟩ := hgood.next hs.1 hok hr
  cases heq
  exact hgood'

/-! ## No deadlock is missed -/

/-- A cursor of `x` waits on a lock that the pending transaction `o` owns in a
mode that conflicts with it. -/
def BlockedBy (s : Locks Lock Trx) (x o : Trx) : Prop :=
  ∃ l, ∃ it ∈ (s.locks l).waiting, it.ltrx = x ∧ o ∈ (s.locks l).owners ∧
    s.status o = .pending ∧ ((s.locks l).type = .exclusive ∨ it.lockMode = .exclusive)

omit [DecidableEq Lock] [DecidableEq Trx] in
/-- A blocked transaction reaches the one that blocks it along wait edges. -/
theorem Good.path (h : s.Good) {x o : Trx} (hb : s.BlockedBy x o) : TransGen s.waits.Edge x o := by
  obtain ⟨l, it, hit, rfl, ho, -, hconf⟩ := hb
  have hmem : (it.ltrx, it.lockMode) ∈ queueLine (s.locks l).waiting := List.mem_map_of_mem hit
  by_cases ht : (s.locks l).type = .exclusive
  · obtain ⟨o', hone⟩ := (h.locks l).exclusive ht
    have hline : (s.locks l).ownerLine = [(o', .exclusive)] := by
      simp [GenLock.ownerLine, GenLock.owners, hone, ht]
    have hoo : o = o' := by simpa [GenLock.owners, hone] using ho
    subst hoo
    refine (h.recorded l).path ⟨o, by simp [hline], .refl⟩ (fun y hy => ?_) hmem
      (.inr (by simp [hline, lastExcl]))
    rw [hline] at hy
    cases hy
    exact .refl
  · have hsh := GenLock.ownerLine_shared ht
    have hexcl := lastExcl_append hsh []
    rw [List.append_nil] at hexcl
    refine (h.recorded l).path ⟨o, ?_, .refl⟩ (fun y hy => ?_) hmem (.inl (hconf.resolve_left ht))
    · rw [(preds_of_shared hsh).1, ownerLine_fst]
      exact List.mem_reverse.2 ho
    · rw [hexcl] at hy
      cases hy

/-- A cursor of `x` stands in a queue behind one of `o`, and one of the two is exclusive. -/
def StandsBehind (s : Locks Lock Trx) (x o : Trx) : Prop :=
  ∃ l q₁ it' q₂, (s.locks l).waiting = q₁ ++ it' :: q₂ ∧ it'.ltrx = o ∧
    ∃ it ∈ q₂, it.ltrx = x ∧ (it.lockMode = .exclusive ∨ it'.lockMode = .exclusive)

omit [DecidableEq Lock] [DecidableEq Trx] in
/-- A transaction reaches those in front of it along wait edges. -/
theorem Good.path_front (h : s.Good) {x o : Trx} (hb : s.StandsBehind x o) :
    TransGen s.waits.Edge x o := by
  obtain ⟨l, q₁, it', q₂, hq, rfl, it, hit, rfl, hm⟩ := hb
  have hR := h.recorded l
  rw [hq, queueLine, List.map_append, List.map_cons] at hR
  exact hR.path_front (List.mem_map_of_mem hit) hm

/-- What deadlock detection promises in a state. -/
structure Detection (s : Locks Lock Trx) : Prop where
  /-- Every conflict with an owner is covered by a path of wait edges. -/
  covered : ∀ x o, s.BlockedBy x o → TransGen s.waits.Edge x o
  /-- So is every conflict with a cursor in front. -/
  behind : ∀ x o, s.StandsBehind x o → TransGen s.waits.Edge x o
  /-- The two edge lists are inverse relations. -/
  inverse : ∀ x y, y ∈ s.waits.waitsFor x ↔ x ∈ s.waits.waitingForThis y
  /-- No transaction waits for itself. -/
  acyclic : Acyclic s.waits.Edge
  /-- No set of transactions waits for each other. -/
  noDeadlock : ∀ D : Set Trx, D.Nonempty →
    ∃ x ∈ D, ∀ o ∈ D, ¬ s.BlockedBy x o ∧ ¬ s.StandsBehind x o
  /-- The search for a deadlock comes to an end. -/
  terminates : ∀ before after, ∃ fuel r,
    ltIsDeadlock1 s.waits after fuel before 0 (0, none) = some r
  /-- Every request comes to an end, and no step that keeps track fails. -/
  total : ∀ a, s.Enabled a → KeepsTrack s a → ∃ fuel s', s.next fuel a = some (.ok s')

end Locks

/-- Deadlock detection misses no deadlock in a history in which no exclusive
cursor between two shared requests ends while it waits, and no request has so many wait paths to
itself that their count overflows. -/
theorem detection_of_reach [Finite Trx] {s : Locks Lock Trx}
    (h : (locksMachine Lock Trx).Reach KeepsTrack s) : s.Detection := by
  have hgood := Locks.good_of_reach h
  refine ⟨fun x o hb => hgood.path hb, fun x o hb => hgood.path_front hb,
    hgood.consistent.inverse, hgood.acyclic, fun D hD => ?_, fun before after => ?_,
    fun a ha hok => ?_⟩
  · obtain ⟨m, hm, hmin⟩ := hgood.acyclic.wellFounded.has_min D hD
    exact ⟨m, hm, fun o ho => ⟨fun hb => hmin o ho (hgood.path hb),
      fun hb => hmin o ho (hgood.path_front hb)⟩⟩
  · obtain ⟨n, hn⟩ := ltIsDeadlock1_terminates hgood.acyclic after before
    obtain ⟨r, hr⟩ := Option.ne_none_iff_exists'.1 (hn n (le_refl n) 0 (0, none))
    exact ⟨n, r, hr⟩
  · obtain ⟨fuel, r, hr⟩ : ∃ fuel r, s.next fuel a = some r := by
      cases a with
      | enter l it => exact hgood.enter_terminates l it
      | transact lt ls => exact ⟨0, _, rfl⟩
      | restart lt => exact ⟨0, _, rfl⟩
    obtain ⟨s', rfl, -⟩ := hgood.next ha hok hr
    exact ⟨fuel, s', hr⟩

/-- An exclusive cursor behind a shared owner ends while another waits behind
it: the second inherits its wait, and detection covers it. -/
theorem detection_after_kill : ∃ s : Locks (Fin 1) (Fin 3),
    (locksMachine (Fin 1) (Fin 3)).Reach KeepsTrack s ∧ s.BlockedBy 2 0 ∧
      s.waits.waitsFor 2 = [0] ∧ s.Detection := by
  have step {s s' : Locks (Fin 1) (Fin 3)} (a : TrxAct (Fin 1) (Fin 3))
      (h : (locksMachine (Fin 1) (Fin 3)).Reach KeepsTrack s) (hok : KeepsTrack s a)
      (he : s.Enabled a) (hn : s.next 3 a = some (.ok s')) :
      (locksMachine (Fin 1) (Fin 3)).Reach KeepsTrack s' := .step h hok ⟨he, 3, hn⟩
  have h₁ := step (.enter 0 ⟨0, .shared, true, true⟩) (.init rfl) (.of_no_edge (by decide) _)
    (by decide) rfl
  have h₂ := step (.enter 0 ⟨1, .exclusive, true, true⟩) h₁ (.of_no_edge (by decide) _) (by decide)
    rfl
  have h₃ := step (.enter 0 ⟨2, .exclusive, true, true⟩) h₂ (.of_no_edge (by decide) _) (by decide)
    rfl
  have h₄ := step (.transact 1 [0]) h₃
    (fun l hb => absurd hb.exists_shared (by clear hb; revert l; decide)) (by decide) rfl
  exact ⟨_, h₄, ⟨0, _, List.mem_cons_self, rfl, List.mem_cons_self, rfl, .inr rfl⟩, rfl,
    detection_of_reach h₄⟩

/-- The end of an exclusive cursor between two shared requests, in front of a
cursor that is then let through: transactions `0` and `3` wait for each other,
and neither was rolled back. -/
theorem deadlock_missed : ∃ s : Locks (Fin 2) (Fin 4),
    (locksMachine (Fin 2) (Fin 4)).Reachable s ∧ s.BlockedBy 3 0 ∧ s.BlockedBy 0 3 ∧
      ¬ TransGen s.waits.Edge 3 0 := by
  have step {s s' : Locks (Fin 2) (Fin 4)} (a : TrxAct (Fin 2) (Fin 4))
      (h : (locksMachine (Fin 2) (Fin 4)).Reachable s) (he : s.Enabled a)
      (hn : s.next 4 a = some (.ok s')) : (locksMachine (Fin 2) (Fin 4)).Reachable s' :=
    .step h trivial ⟨he, 4, hn⟩
  have h₁ := step (.enter 1 ⟨3, .exclusive, true, true⟩) (.init rfl) (by decide) rfl
  have h₂ := step (.enter 0 ⟨0, .shared, true, true⟩) h₁ (by decide) rfl
  have h₃ := step (.enter 0 ⟨1, .exclusive, true, true⟩) h₂ (by decide) rfl
  have h₄ := step (.enter 0 ⟨2, .shared, false, true⟩) h₃ (by decide) rfl
  have h₅ := step (.enter 0 ⟨3, .exclusive, true, true⟩) h₄ (by decide) rfl
  have h₆ := step (.transact 1 [0]) h₅ (by decide) rfl
  have h₇ := step (.enter 1 ⟨0, .exclusive, true, true⟩) h₆ (by decide) rfl
  refine ⟨_, h₇, ⟨0, _, List.mem_cons_self, rfl, List.mem_cons_self, rfl, .inr rfl⟩,
    ⟨1, _, List.mem_cons_self, rfl, List.mem_cons_self, rfl, .inl rfl⟩, fun hp => ?_⟩
  obtain ⟨y, hy, -⟩ := TransGen.head'_iff.1 hp
  exact absurd hy List.not_mem_nil

end Virtuoso.Lock
