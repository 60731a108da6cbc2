import Virtuoso.Lib.Digraph
import Virtuoso.Lib.Fold
import Virtuoso.Lock.Queue
import Mathlib.Algebra.Order.Ring.Nat

/-!
# Wait edges and the deadlock check

The two edge lists of a transaction, `lt_waits_for` and `lt_waiting_for_this`,
the functions of `lock.c` that change them, and `lock_check_deadlock_1`.

`lt_is_deadlock_1` follows edges without marking what it has seen, so its model
takes fuel and answers `none` when it runs out; `ltIsDeadlock1_spec` and
`ltIsDeadlock1_terminates` say that it counts something exactly if there is a
path, and that enough fuel exists when the edges are acyclic.  The count is an
`int`: it adds up the lengths of the paths, whose number can be exponential in
the number of transactions, and wraps.
-/

universe u

namespace Virtuoso.Lock

open Relation Virtuoso.Lib Function

/-- `lt_waits_for` and `lt_waiting_for_this` of every transaction. -/
structure Waits (Trx : Type u) where
  waitsFor : Trx → List Trx
  waitingForThis : Trx → List Trx

variable {Trx : Type u}

def Waits.init : Waits Trx := ⟨fun _ => [], fun _ => []⟩

/-- `x` has a wait edge to `y`. -/
def Waits.Edge (w : Waits Trx) (x y : Trx) : Prop := y ∈ w.waitsFor x

variable [DecidableEq Trx]

instance (w : Waits Trx) (x y : Trx) : Decidable (w.Edge x y) :=
  inferInstanceAs (Decidable (y ∈ w.waitsFor x))

/-- `lt_waits_for (before, after)`. -/
def ltWaitsFor (w : Waits Trx) (before after : Trx) : Waits Trx :=
  if after ∈ w.waitingForThis before then w
  else
    { waitsFor := Function.update w.waitsFor after (before :: w.waitsFor after)
      waitingForThis :=
        Function.update w.waitingForThis before (after :: w.waitingForThis before) }

/-- The first loop of `lt_clear_waits (lt)`, for one `waiting`. -/
def unwait (lt : Trx) (w : Waits Trx) (waiting : Trx) : Except Fatal (Waits Trx) :=
  if lt ∈ w.waitsFor waiting then
    .ok { w with
      waitsFor := Function.update w.waitsFor waiting ((w.waitsFor waiting).erase lt) }
  else .error .unmatchedWaits

/-- The second loop of `lt_clear_waits (lt)`, for one `pred`: each that used to
wait for the deceased now waits for its predecessors. -/
def inherit (lt : Trx) (w : Waits Trx) (pred : Trx) : Except Fatal (Waits Trx) :=
  if lt ∈ w.waitingForThis pred then
    let w' := { w with
      waitingForThis := Function.update w.waitingForThis pred ((w.waitingForThis pred).erase lt) }
    .ok ((w'.waitingForThis lt).foldl (fun w succ => ltWaitsFor w pred succ) w')
  else .error .unmatchedWaits

/-- `lt_clear_waits`. -/
def ltClearWaits (w : Waits Trx) (lt : Trx) : Except Fatal (Waits Trx) := do
  let w₁ ← (w.waitingForThis lt).foldlM (unwait lt) w
  let w₂ ← (w₁.waitsFor lt).foldlM (inherit lt) w₁
  return { waitsFor := Function.update w₂.waitsFor lt []
           waitingForThis := Function.update w₂.waitingForThis lt [] }

/-- `lt_drop_wait`. -/
def ltDropWait (w : Waits Trx) (before after : Trx) : Waits Trx where
  waitsFor := Function.update w.waitsFor after ((w.waitsFor after).erase before)
  waitingForThis := Function.update w.waitingForThis before
    ((w.waitingForThis before).erase after)

/-- `lt_clear_non_acq_release_wait` of the cursor `it`, which stands right in
front of the queue `rest`. -/
def ltClearNonAcqReleaseWait (w : Waits Trx) (it : Cursor Trx) (rest : List (Cursor Trx)) :
    Waits Trx :=
  match rest with
  | [] => w
  | next :: _ =>
    if it.lockMode = .exclusive then
      if next.lockMode = .exclusive then ltDropWait w it.ltrx next.ltrx
      else (rest.takeWhile (·.lockMode = .shared)).foldl
        (fun w next => ltDropWait w it.ltrx next.ltrx) w
    else
      match rest.dropWhile (·.lockMode = .shared) with
      | [] => w
      | next :: _ => ltDropWait w it.ltrx next.ltrx

/-! ## The search for a cycle -/

/-- `*n_deadlocks += depth + 1`, in 32 bits. -/
def addDeadlocks (n depth : ℕ) : ℕ := (n + depth + 1) % 2 ^ 32

/-- The loop of `lt_is_deadlock_1` over the predecessors of `before`.  The state
is the pair of `*n_deadlocks` and `*deadlocked`; the result has the return value
in front. -/
def scanPreds (visit : Trx → ℕ × Option Trx → Option (ℕ × ℕ × Option Trx))
    (before after : Trx) (depth : ℕ) :
    List Trx → ℕ × Option Trx → Option (ℕ × ℕ × Option Trx)
  | [], st => some (st.1, st)
  | pred :: ps, st =>
    if after = pred then
      some (1, if st.2 ≠ some before then (addDeadlocks st.1 depth, some before) else st)
    else (visit pred st).bind fun r => scanPreds visit before after depth ps r.2

/-- `lt_is_deadlock_1`, with `none` when the fuel runs out. -/
def ltIsDeadlock1 (w : Waits Trx) (after : Trx) :
    ℕ → Trx → ℕ → ℕ × Option Trx → Option (ℕ × ℕ × Option Trx)
  | 0, _, _, _ => none
  | fuel + 1, before, depth, st =>
    if before = after then some (1, addDeadlocks st.1 depth, none)
    else scanPreds (fun pred st => ltIsDeadlock1 w after fuel pred (depth + 1) st)
      before after depth (w.waitsFor before) st

/-! ## The predecessors of a request -/

/-- `LOCK_MAX_WAITS`. -/
def lockMaxWaits : ℕ := 1024

/-- The local variables of `lock_check_deadlock_1`; `fill` is the length of
`waits`. -/
structure WaitScan (Trx : Type u) where
  waits : List (Trx × Mode)
  firstPred : ℤ
  lastPred : ℤ
  lastExcl : ℤ

namespace WaitScan

omit [DecidableEq Trx]

def start : WaitScan Trx := ⟨[], -1, -1, -1⟩

/-- `CK_MAX_FILL`: `none` is the early return that counts as a deadlock. -/
def ckMaxFill (s : WaitScan Trx) : Option (WaitScan Trx) :=
  if lockMaxWaits ≤ s.waits.length then none else some s

def addOwner (closing : Trx → Bool) (s : WaitScan Trx) (owner : Trx) : Option (WaitScan Trx) :=
  if closing owner then some s
  else ckMaxFill { s with waits := s.waits ++ [(owner, .shared)], lastPred := s.waits.length }

/-- The owners of the lock, first part of `lock_check_deadlock_1`.  The null
pointer is not met there: a free lock refuses nobody. -/
def owners (closing : Trx → Bool) (pl : GenLock Trx) : Option (WaitScan Trx) :=
  match pl.owner with
  | .list os => os.foldlM (addOwner closing) { start with firstPred := 0 }
  | .one none => some start
  | .one (some o) =>
    if closing o then some start
    else if pl.type = .exclusive then some ⟨[(o, .exclusive)], 0, 0, 0⟩
    else some ⟨[(o, .shared)], 0, 0, -1⟩

def addWaiting (closing : Trx → Bool) (s : WaitScan Trx) (waiting : Cursor Trx) :
    Option (WaitScan Trx) :=
  let fill : ℤ := s.waits.length
  let waits := s.waits ++ [(waiting.ltrx, waiting.lockMode)]
  if closing waiting.ltrx then ckMaxFill s
  else
    match waiting.lockMode with
    | .shared =>
      let afterExcl := s.lastPred = -1 ∨
        (s.waits[s.lastPred.toNat]?).map Prod.snd = some .exclusive
      ckMaxFill ⟨waits, if afterExcl then fill else s.firstPred, fill, s.lastExcl⟩
    | .exclusive => ckMaxFill ⟨waits, fill, fill, fill⟩

/-- The transactions the last two loops of `lock_check_deadlock_1` visit. -/
def preds (s : WaitScan Trx) (m : Mode) : List Trx :=
  let firstPred := if m = .shared then s.lastExcl else s.firstPred
  let lastPred := if m = .shared then s.lastExcl else s.lastPred
  if firstPred = -1 then []
  else ((s.waits.drop firstPred.toNat).take (lastPred - firstPred + 1).toNat).map Prod.fst

end WaitScan

/-- The loop of `lock_check_deadlock_1` over the predecessors: whether it returns
from the function, and the value of `*n_dead`. -/
def checkPreds (w : Waits Trx) (after : Trx) (fuel : ℕ) :
    List Trx → ℕ × Option Trx → Option (Bool × ℕ)
  | [], st => some (false, st.1)
  | pred :: ps, st =>
    (ltIsDeadlock1 w after fuel pred 0 st).bind fun r =>
      if r.1 ≠ 0 then some (true, r.2.1) else checkPreds w after fuel ps r.2

/-- `lock_check_deadlock_1`: `*n_dead` and the edges after the call. -/
def lockCheckDeadlock1 (fuel : ℕ) (closing : Trx → Bool) (w : Waits Trx) (pl : GenLock Trx)
    (it : Cursor Trx) : Option (ℕ × Waits Trx) :=
  match (WaitScan.owners closing pl).bind (pl.waiting.foldlM (WaitScan.addWaiting closing)) with
  | none => some (1, w)
  | some s =>
    let ps := s.preds it.lockMode
    (checkPreds w it.ltrx fuel ps (0, none)).map fun r =>
      (r.2, if r.1 then w else ps.foldl (fun w before => ltWaitsFor w before it.ltrx) w)

/-! ## What the edge functions do -/

variable {w w' : Waits Trx} {before after lt : Trx} {r : ℕ × ℕ × Option Trx}

namespace Waits

/-- No edge is listed twice. -/
structure Simple (w : Waits Trx) : Prop where
  waitsFor : ∀ x, (w.waitsFor x).Nodup
  waitingForThis : ∀ x, (w.waitingForThis x).Nodup

/-- The two lists agree on the edge from `x` to `y`. -/
def Agree (w : Waits Trx) (x y : Trx) : Prop := y ∈ w.waitsFor x ↔ x ∈ w.waitingForThis y

/-- The two lists are inverse relations, and no edge is listed twice. -/
structure Consistent (w : Waits Trx) : Prop extends Simple w where
  inverse : ∀ x y, w.Agree x y

omit [DecidableEq Trx] in
theorem Consistent.edge_iff (h : w.Consistent) {x y : Trx} :
    w.Edge x y ↔ x ∈ w.waitingForThis y := h.inverse x y

omit [DecidableEq Trx] in
theorem init_consistent : (init : Waits Trx).Consistent where
  waitsFor := fun _ => List.nodup_nil
  waitingForThis := fun _ => List.nodup_nil
  inverse := fun _ _ => by simp [Agree, init]

/-- The edges of `w'` are those of `w` and the pairs in `S`, in both lists. -/
structure Adds (w w' : Waits Trx) (S : Trx → Trx → Prop) : Prop where
  simple : w'.Simple
  waitsFor : ∀ x y, y ∈ w'.waitsFor x ↔ y ∈ w.waitsFor x ∨ S x y
  waitingForThis : ∀ x y, x ∈ w'.waitingForThis y ↔ x ∈ w.waitingForThis y ∨ S x y

end Waits

open Waits

section Lists

variable {f : Trx → List Trx} {a b x y : Trx}

theorem mem_update_cons : y ∈ update f a (b :: f a) x ↔ y ∈ f x ∨ x = a ∧ y = b := by
  by_cases hx : x = a
  · subst hx; simp [or_comm]
  · simp [hx]

variable (h : ∀ x, (f x).Nodup)
include h

theorem mem_update_erase :
    y ∈ update f a ((f a).erase b) x ↔ y ∈ f x ∧ ¬ (x = a ∧ y = b) := by
  by_cases hx : x = a
  · subst hx; simp [(h x).mem_erase_iff, and_comm]
  · simp [hx]

theorem nodup_update {l : List Trx} (hl : l.Nodup) (x : Trx) : (update f a l x).Nodup := by
  by_cases hx : x = a
  · subst hx; simpa using hl
  · simpa [hx] using h x

end Lists

theorem ltWaitsFor_adds (h : w.Simple) (ha : w.Agree after before) :
    w.Adds (ltWaitsFor w before after) fun x y => x = after ∧ y = before := by
  by_cases hmem : after ∈ w.waitingForThis before
  · rw [ltWaitsFor, if_pos hmem]
    refine ⟨h, fun x y => ⟨.inl, ?_⟩, fun x y => ⟨.inl, ?_⟩⟩
    · rintro (hy | ⟨rfl, rfl⟩)
      · exact hy
      · exact ha.2 hmem
    · rintro (hx | ⟨rfl, rfl⟩)
      · exact hx
      · exact hmem
  · have hmem' : before ∉ w.waitsFor after := fun hc => hmem (ha.1 hc)
    rw [ltWaitsFor, if_neg hmem]
    refine ⟨⟨nodup_update h.waitsFor ?_, nodup_update h.waitingForThis ?_⟩,
      fun x y => mem_update_cons, fun x y => ?_⟩
    · exact List.nodup_cons.2 ⟨hmem', h.waitsFor _⟩
    · exact List.nodup_cons.2 ⟨hmem, h.waitingForThis _⟩
    · rw [mem_update_cons, and_comm]

/-- Adding a list of edges one after the other. -/
theorem foldl_ltWaitsFor_adds (h : w.Simple) (L : List (Trx × Trx))
    (ha : ∀ p ∈ L, w.Agree p.2 p.1) :
    w.Adds (L.foldl (fun w p => ltWaitsFor w p.1 p.2) w) fun x y => (y, x) ∈ L := by
  induction L generalizing w with
  | nil => exact ⟨h, by simp, by simp⟩
  | cons p L ih =>
    have hadd := ltWaitsFor_adds h (ha p List.mem_cons_self)
    have ih' := ih hadd.simple fun q hq => by
      rw [Agree, hadd.waitsFor, hadd.waitingForThis]
      exact or_congr_left (ha q (List.mem_cons_of_mem _ hq))
    refine ⟨ih'.simple, fun x y => ?_, fun x y => ?_⟩
    · rw [List.foldl_cons, ih'.waitsFor, hadd.waitsFor, List.mem_cons, or_assoc, Prod.ext_iff,
        and_comm (a := x = p.2)]
    · rw [List.foldl_cons, ih'.waitingForThis, hadd.waitingForThis, List.mem_cons, or_assoc,
        Prod.ext_iff, and_comm (a := x = p.2)]

omit [DecidableEq Trx] in
/-- Adding the same pairs to both lists keeps them inverse. -/
theorem Waits.Adds.consistent {S : Trx → Trx → Prop} (hadd : w.Adds w' S) (h : w.Consistent) :
    w'.Consistent where
  toSimple := hadd.simple
  inverse := fun x y => by
    rw [Agree, hadd.waitsFor, hadd.waitingForThis]
    exact or_congr_left (h.inverse x y)

/-- `lt_drop_wait` removes one edge. -/
theorem ltDropWait_spec (h : w.Consistent) (before after : Trx) :
    (ltDropWait w before after).Consistent ∧
      ∀ x y, (ltDropWait w before after).Edge x y ↔ w.Edge x y ∧ ¬ (x = after ∧ y = before) := by
  have hfor : ∀ x y, y ∈ (ltDropWait w before after).waitsFor x ↔
      y ∈ w.waitsFor x ∧ ¬ (x = after ∧ y = before) := fun x y => mem_update_erase h.waitsFor
  refine ⟨⟨⟨nodup_update h.waitsFor ((h.waitsFor _).erase _),
    nodup_update h.waitingForThis ((h.waitingForThis _).erase _)⟩, fun x y => ?_⟩, hfor⟩
  rw [Agree, hfor, ltDropWait, mem_update_erase h.waitingForThis, and_comm (a := y = _)]
  exact and_congr_left fun _ => h.inverse x y

/-- The edges of `w'` are those of `w` without some that lead from `froms` to
`lt`. -/
structure Waits.Drops (w : Waits Trx) (froms : List Trx) (lt : Trx) (w' : Waits Trx) : Prop where
  consistent : w'.Consistent
  sub : ∀ x y, w'.Edge x y → w.Edge x y
  keep : ∀ x y, w.Edge x y → ¬ (x ∈ froms ∧ y = lt) → w'.Edge x y

omit [DecidableEq Trx] in
theorem Waits.Drops.refl (h : w.Consistent) (froms : List Trx) (lt : Trx) :
    w.Drops froms lt w := ⟨h, fun _ _ h => h, fun _ _ h _ => h⟩

theorem Waits.Drops.ltDropWait {froms : List Trx} (h : w.Drops froms before w')
    (ha : after ∈ froms) :
    w.Drops froms before (ltDropWait w' before after) := by
  obtain ⟨hc, he⟩ := ltDropWait_spec h.consistent before after
  refine ⟨hc, fun x y hxy => h.sub x y ((he x y).1 hxy).1, fun x y hxy hno =>
    (he x y).2 ⟨h.keep x y hxy hno, ?_⟩⟩
  rintro ⟨rfl, rfl⟩
  exact hno ⟨ha, rfl⟩

/-- Letting a cursor through drops edges that lead from the queue behind it to
its transaction, and no others. -/
theorem ltClearNonAcqReleaseWait_drops (h : w.Consistent) (it : Cursor Trx)
    (rest : List (Cursor Trx)) :
    w.Drops (rest.map Cursor.ltrx) it.ltrx (ltClearNonAcqReleaseWait w it rest) := by
  have hrefl := Waits.Drops.refl h (rest.map Cursor.ltrx) it.ltrx
  match rest with
  | [] => exact hrefl
  | next :: q =>
    simp only [ltClearNonAcqReleaseWait]
    split
    · split
      · exact hrefl.ltDropWait List.mem_cons_self
      · refine (foldl_inv (I := fun l w' => (∀ n ∈ l, n ∈ next :: q) ∧
          w.Drops ((next :: q).map Cursor.ltrx) it.ltrx w') ?_
          ⟨fun n hn => (List.takeWhile_sublist _).subset hn, hrefl⟩).2
        rintro n l w' ⟨hl, hd⟩
        exact ⟨fun n hn => hl n (List.mem_cons_of_mem _ hn),
          hd.ltDropWait (List.mem_map_of_mem (hl n List.mem_cons_self))⟩
    · split
      · exact hrefl
      · rename_i n l hd
        exact hrefl.ltDropWait (List.mem_map_of_mem
          ((List.dropWhile_sublist _).subset (hd ▸ List.mem_cons_self)))

/-! ## What `lt_clear_waits` does -/

/-- The state of the first loop: `l` is still to come. -/
structure Unwaiting (w : Waits Trx) (lt : Trx) (l : List Trx) (w' : Waits Trx) : Prop where
  nodup : l.Nodup
  simple : w'.Simple
  waitingForThis : w'.waitingForThis = w.waitingForThis
  waitsFor : ∀ x y, y ∈ w'.waitsFor x ↔ w.Edge x y ∧ (y = lt → x ∈ l)
  edges : ∀ x ∈ l, w.Edge x lt

theorem Unwaiting.step {a : Trx} {l : List Trx} (h : Unwaiting w lt (a :: l) w') :
    ∃ w'', unwait lt w' a = .ok w'' ∧ Unwaiting w lt l w'' := by
  obtain ⟨hal, hl⟩ := List.nodup_cons.1 h.nodup
  have ha : lt ∈ w'.waitsFor a :=
    (h.waitsFor a lt).2 ⟨h.edges a List.mem_cons_self, fun _ => List.mem_cons_self⟩
  refine ⟨_, if_pos ha, hl, ⟨nodup_update h.simple.waitsFor ((h.simple.waitsFor a).erase lt),
    h.simple.waitingForThis⟩, h.waitingForThis, fun x y => ?_,
    fun x hx => h.edges x (List.mem_cons_of_mem _ hx)⟩
  rw [mem_update_erase h.simple.waitsFor, h.waitsFor, List.mem_cons]
  by_cases hx : x = a
  · subst hx
    simp only [hal, true_or, true_and, implies_true, and_true]
  · simp [hx]

/-- The state of the second loop: `l` is still to come.  The edges of `lt`
itself are listed until the end. -/
structure Inheriting (w : Waits Trx) (lt : Trx) (l : List Trx) (w' : Waits Trx) : Prop where
  nodup : l.Nodup
  simple : w'.Simple
  waitsFor : ∀ x y, y ∈ w'.waitsFor x ↔
    (w.Edge x y ∧ y ≠ lt) ∨ (w.Edge x lt ∧ w.Edge lt y ∧ y ∉ l)
  waitingForThis : ∀ x y, x ∈ w'.waitingForThis y ↔
    (w.Edge x y ∧ (x = lt → y ∉ l → y = lt)) ∨ (w.Edge x lt ∧ w.Edge lt y ∧ y ∉ l)
  edges : ∀ y ∈ l, w.Edge lt y

theorem Inheriting.step {a : Trx} {l : List Trx} (hirr : ¬ w.Edge lt lt)
    (h : Inheriting w lt (a :: l) w') :
    ∃ w'', inherit lt w' a = .ok w'' ∧ Inheriting w lt l w'' := by
  obtain ⟨hal, hl⟩ := List.nodup_cons.1 h.nodup
  have hedge := h.edges a List.mem_cons_self
  have hne : a ≠ lt := by rintro rfl; exact hirr hedge
  have ha : lt ∈ w'.waitingForThis a :=
    (h.waitingForThis lt a).2 (.inl ⟨hedge, fun _ hc => absurd List.mem_cons_self hc⟩)
  -- the successors of `lt`, and the edges once `lt` is out of the list of `a`
  have hsucc : ∀ x, x ∈ w'.waitingForThis lt ↔ w.Edge x lt := fun x => by
    rw [h.waitingForThis]
    exact ⟨fun hx => hx.elim And.left And.left, fun hx => .inl ⟨hx, fun _ _ => rfl⟩⟩
  let w₁ : Waits Trx := { w' with
    waitingForThis := update w'.waitingForThis a ((w'.waitingForThis a).erase lt) }
  have hthis : ∀ x y, x ∈ w₁.waitingForThis y ↔ x ∈ w'.waitingForThis y ∧ ¬ (x = lt ∧ y = a) :=
    fun x y => by rw [mem_update_erase h.simple.waitingForThis, and_comm (a := y = a)]
  have hsimple : w₁.Simple := ⟨h.simple.waitsFor,
    nodup_update h.simple.waitingForThis ((h.simple.waitingForThis a).erase lt)⟩
  have hlt : w₁.waitingForThis lt = w'.waitingForThis lt := by simp [w₁, Ne.symm hne]
  have hadd := foldl_ltWaitsFor_adds hsimple ((w₁.waitingForThis lt).map fun s => (a, s)) (by
    rintro _ hp
    obtain ⟨s, hs, rfl⟩ := List.mem_map.1 hp
    rw [hlt, hsucc] at hs
    have hslt : s ≠ lt := by rintro rfl; exact hirr hs
    rw [Agree, hthis, h.waitingForThis, h.waitsFor]
    simp [hslt, hne])
  rw [List.foldl_map] at hadd
  refine ⟨_, if_pos ha, hl, hadd.simple, fun x y => ?_, fun x y => ?_,
    fun y hy => h.edges y (List.mem_cons_of_mem _ hy)⟩
  · rw [hadd.waitsFor, h.waitsFor, hlt]
    simp only [List.mem_map, hsucc, Prod.mk.injEq, List.mem_cons]
    by_cases hy : y = a
    · subst hy
      simp only [hedge, hal]
      simp
    · simp [hy, Ne.symm hy]
  · rw [hadd.waitingForThis, hthis, h.waitingForThis, hlt]
    simp only [List.mem_map, hsucc, Prod.mk.injEq, List.mem_cons]
    by_cases hy : y = a
    · subst hy
      by_cases hx : x = lt
      · subst hx; simp [hirr, hne, hal]
      · simp [hx, hedge, hal]
    · simp [hy, Ne.symm hy]

/-- `lt_clear_waits` never fails on consistent edges and contracts `lt`. -/
theorem ltClearWaits_spec (h : w.Consistent) (hirr : ¬ w.Edge lt lt) :
    ∃ w', ltClearWaits w lt = .ok w' ∧ w'.Consistent ∧
      ∀ x y, w'.Edge x y ↔ contract w.Edge lt x y := by
  obtain ⟨w₁, hok₁, h₁⟩ := foldlM_ok (fun _ _ _ => Unwaiting.step)
    (show Unwaiting w lt (w.waitingForThis lt) w from
      ⟨h.waitingForThis lt, h.toSimple, rfl,
        fun x y => ⟨fun hxy => ⟨hxy, fun hy => (h.inverse x lt).1 (hy ▸ hxy)⟩, And.left⟩,
        fun x hx => (h.inverse x lt).2 hx⟩)
  have hlt : ∀ y, y ∈ w₁.waitsFor lt ↔ w.Edge lt y := fun y => by
    rw [h₁.waitsFor]
    refine and_iff_left_of_imp fun hy hc => ?_
    exact absurd (hc ▸ hy) hirr
  have hstart : Inheriting w lt (w₁.waitsFor lt) w₁ := by
    refine ⟨h₁.simple.waitsFor lt, h₁.simple, fun x y => ?_, fun x y => ?_,
      fun y hy => (hlt y).1 hy⟩
    · rw [h₁.waitsFor, hlt]
      simp
    · rw [h₁.waitingForThis, ← h.edge_iff, hlt]
      refine ⟨fun hxy => .inl ⟨hxy, fun hx hy => absurd (hx ▸ hxy) hy⟩, ?_⟩
      rintro (hxy | ⟨_, hy, hc⟩)
      · exact hxy.1
      · exact absurd hy hc
  obtain ⟨w₂, hok₂, h₂⟩ := foldlM_ok (fun _ _ _ => Inheriting.step hirr) hstart
  let w' : Waits Trx := ⟨update w₂.waitsFor lt [], update w₂.waitingForThis lt []⟩
  have hfor : ∀ x y, y ∈ w'.waitsFor x ↔ contract w.Edge lt x y := fun x y => by
    by_cases hx : x = lt
    · subst hx; simp [w', contract]
    · have hy : w.Edge lt y → y ≠ lt := fun hy hc => hirr (hc ▸ hy)
      simp only [w', update_of_ne hx, h₂.waitsFor, contract, List.not_mem_nil]
      tauto
  have hthis : ∀ x y, x ∈ w'.waitingForThis y ↔ contract w.Edge lt x y := fun x y => by
    by_cases hy : y = lt
    · subst hy; simp [w', contract]
    · have hx : w.Edge x lt → x ≠ lt := fun hx hc => hirr (hc ▸ hx)
      simp only [w', update_of_ne hy, h₂.waitingForThis, contract, List.not_mem_nil]
      tauto
  refine ⟨w', ?_, ⟨⟨nodup_update h₂.simple.waitsFor .nil,
    nodup_update h₂.simple.waitingForThis .nil⟩, fun x y => (hfor x y).trans (hthis x y).symm⟩,
      hfor⟩
  simp only [ltClearWaits, hok₁, bind, Except.bind, hok₂]
  rfl

/-! ## What the search finds -/

/-- The paths of at most `n` edges from `p` to `after`. -/
def waitPaths (w : Waits Trx) (after : Trx) : ℕ → Trx → List (List Trx)
  | 0, p => if p = after then [[after]] else []
  | n + 1, p =>
    if p = after then [[after]]
    else (w.waitsFor p).flatMap fun q => (waitPaths w after n q).map (p :: ·)

theorem waitPaths_self (w : Waits Trx) (after : Trx) (n : ℕ) :
    waitPaths w after n after = [[after]] := by
  cases n <;> simp [waitPaths]

/-- The number of transactions on the paths, each counted on every path it is on, if `depth` more
stand in front of each path. -/
def pathTotal (depth : ℕ) (paths : List (List Trx)) : ℕ := (paths.map (depth + ·.length)).sum

omit [DecidableEq Trx] in
/-- The paths that start with `p` and go on from one of the list. -/
theorem pathTotal_flatMap (depth : ℕ) (p : Trx) (f : Trx → List (List Trx)) (ps : List Trx) :
    pathTotal depth (ps.flatMap fun q => (f q).map (p :: ·)) =
      (ps.map fun q => pathTotal (depth + 1) (f q)).sum := by
  induction ps with
  | nil => rfl
  | cons q ps ih =>
    have hfirst : ((f q).map (p :: ·)).map (depth + ·.length) =
      (f q).map (depth + 1 + ·.length) := by
      rw [List.map_map]
      refine List.map_congr_left fun path _ => ?_
      simp only [Function.comp_apply, List.length_cons]
      omega
    rw [List.flatMap_cons, pathTotal, List.map_append, List.sum_append, hfirst, List.map_cons,
      List.sum_cons, ← ih]
    rfl

/-- What a search that starts from the points `P` may answer, if `m` has been counted before it and
`m'` after it, of which the state has the last 32 bits: something has been counted if one of the
points has a path to `after`, and otherwise nothing has changed.  At most `total` is added. -/
structure Searched (w : Waits Trx) (after : Trx) (P : Trx → Prop) (total : ℕ) (st : ℕ × Option Trx)
    (m : ℕ) (r : ℕ × ℕ × Option Trx) (m' : ℕ) : Prop where
  count : r.2.1 = m' % 2 ^ 32
  ret : r.1 = 1 ∨ r.1 = r.2.1
  grows : m ≤ m'
  bound : m' ≤ m + total
  told : r.2.2 ≠ none → m' ≠ 0
  found : (∃ p, P p ∧ ReflTransGen w.Edge p after) → m' ≠ 0
  quiet : (∀ p, P p → ¬ ReflTransGen w.Edge p after) → m' = m ∧ r = (st.1, st)

section Search

variable {st : ℕ × Option Trx} {m depth : ℕ}

omit [DecidableEq Trx] in
/-- The answer where `after` itself is met. -/
theorem Searched.hit {P : Trx → Prop} {p : Trx} {total : ℕ} (hp : P p)
    (hpath : ReflTransGen w.Edge p after) (hst : st.1 = m % 2 ^ 32) (told : Option Trx)
    (htotal : depth + 1 ≤ total) :
    Searched w after P total st m (1, addDeadlocks st.1 depth, told) (m + depth + 1) where
  count := by
    show (st.1 + depth + 1) % 2 ^ 32 = _
    omega
  ret := .inl rfl
  grows := by omega
  bound := by omega
  told _ := by omega
  found _ := by omega
  quiet hno := absurd hpath (hno p hp)

/-- The loop over the predecessors, given what the visits do. -/
theorem scanPreds_spec {visit : Trx → ℕ × Option Trx → Option (ℕ × ℕ × Option Trx)}
    (total : Trx → ℕ) (hafter : depth + 1 ≤ total after)
    (hvisit : ∀ p st m r, st.1 = m % 2 ^ 32 → (st.2 ≠ none → m ≠ 0) → visit p st = some r →
      ∃ m', Searched w after (· = p) (total p) st m r m')
    (ps : List Trx) (hst : st.1 = m % 2 ^ 32) (htold : st.2 ≠ none → m ≠ 0)
    (h : scanPreds visit before after depth ps st = some r) :
    ∃ m', Searched w after (· ∈ ps) (ps.map total).sum st m r m' := by
  induction ps generalizing st m with
  | nil =>
    cases h
    exact ⟨m, hst, .inr rfl, le_rfl, Nat.le_add_right _ _, htold,
      fun ⟨p, hp, _⟩ => absurd hp List.not_mem_nil, fun _ => ⟨rfl, rfl⟩⟩
  | cons p ps ih =>
    by_cases hp : after = p
    · subst hp
      rw [scanPreds, if_pos rfl] at h
      cases h
      split
      · exact ⟨_, .hit List.mem_cons_self .refl hst _ (by rw [List.map_cons, List.sum_cons]; omega)⟩
      · -- told of `before` already: something has been counted
        rename_i hc
        have hm : m ≠ 0 := htold (by rw [not_not.1 hc]; simp)
        exact ⟨m, hst, .inl rfl, le_rfl, Nat.le_add_right _ _, fun _ => hm, fun _ => hm,
          fun hno => absurd .refl (hno after List.mem_cons_self)⟩
    · rw [scanPreds, if_neg hp, Option.bind_eq_some_iff] at h
      obtain ⟨r₁, hr₁, h⟩ := h
      obtain ⟨m₁, hv⟩ := hvisit p st m r₁ hst htold hr₁
      obtain ⟨m', hrest⟩ := ih hv.count hv.told h
      have hgrows := hv.grows
      have hgrows' := hrest.grows
      refine ⟨m', hrest.count, hrest.ret, hgrows.trans hgrows', ?_, hrest.told, ?_, fun hno => ?_⟩
      · have hb := hv.bound
        have hb' := hrest.bound
        rw [List.map_cons, List.sum_cons]
        omega
      · rintro ⟨q, hq, hpath⟩
        rcases List.mem_cons.1 hq with rfl | hq
        · have := hv.found ⟨q, rfl, hpath⟩
          omega
        · exact hrest.found ⟨q, hq, hpath⟩
      · obtain ⟨rfl, hq⟩ := hv.quiet fun q hq => hq ▸ hno p List.mem_cons_self
        obtain ⟨rfl, hq'⟩ := hrest.quiet fun q hq => hno q (List.mem_cons_of_mem _ hq)
        exact ⟨rfl, by rw [hq', hq]⟩

/-- `lt_is_deadlock_1` counts something exactly when `before` has a path to
`after`, and at most the transactions on all such paths. -/
theorem ltIsDeadlock1_spec {fuel : ℕ} (hst : st.1 = m % 2 ^ 32) (htold : st.2 ≠ none → m ≠ 0)
    (h : ltIsDeadlock1 w after fuel before depth st = some r) :
    ∃ m', Searched w after (· = before) (pathTotal depth (waitPaths w after fuel before)) st m r
      m' := by
  induction fuel generalizing before depth st m r with
  | zero => cases h
  | succ fuel ih =>
    rw [ltIsDeadlock1] at h
    rw [waitPaths]
    split at h
    · rename_i heq
      cases h
      rw [if_pos heq]
      have hpath : ReflTransGen w.Edge before after := heq ▸ ReflTransGen.refl
      refine ⟨_, .hit (P := (· = before)) rfl hpath hst _ ?_⟩
      simp [pathTotal]
    · rename_i hne
      rw [if_neg hne, pathTotal_flatMap]
      have hafter : depth + 1 ≤ pathTotal (depth + 1) (waitPaths w after fuel after) := by
        simp [waitPaths_self, pathTotal]
      obtain ⟨m', hs⟩ := scanPreds_spec (fun q => pathTotal (depth + 1) (waitPaths w after fuel q))
        hafter (fun p st m r hst htold hr => ih hst htold hr) _ hst htold h
      have hpath : ReflTransGen w.Edge before after ↔
          ∃ q, q ∈ w.waitsFor before ∧ ReflTransGen w.Edge q after := by
        rw [ReflTransGen.cases_head_iff, or_iff_right hne]
        rfl
      refine ⟨m', hs.count, hs.ret, hs.grows, hs.bound, hs.told, ?_,
        fun hno => hs.quiet fun q hq hq' => hno before rfl (hpath.2 ⟨q, hq, hq'⟩)⟩
      rintro ⟨_, rfl, hpa⟩
      exact hs.found (hpath.1 hpa)

end Search

/-- With acyclic edges some fuel is enough for every search from `before`. -/
theorem ltIsDeadlock1_terminates [Finite Trx] (h : Acyclic w.Edge) (after before : Trx) :
    ∃ n, ∀ fuel, n ≤ fuel → ∀ depth st, ltIsDeadlock1 w after fuel before depth st ≠ none := by
  -- induction along the edges; the fuel for `before` is one more than for any predecessor
  induction before using h.wellFounded.induction with
  | _ before ih =>
    have hlist : ∀ ps : List Trx, (∀ p ∈ ps, w.Edge before p) → ∃ n, ∀ p ∈ ps, ∀ fuel, n ≤ fuel →
        ∀ depth st, ltIsDeadlock1 w after fuel p depth st ≠ none := by
      intro ps hps
      induction ps with
      | nil => exact ⟨0, fun p hp => absurd hp List.not_mem_nil⟩
      | cons p ps ihps =>
        obtain ⟨n₁, h₁⟩ := ih p (.single (hps p List.mem_cons_self))
        obtain ⟨n₂, h₂⟩ := ihps fun q hq => hps q (List.mem_cons_of_mem _ hq)
        refine ⟨max n₁ n₂, fun q hq fuel hf => ?_⟩
        rcases List.mem_cons.1 hq with rfl | hq
        · exact h₁ fuel ((le_max_left _ _).trans hf)
        · exact h₂ q hq fuel ((le_max_right _ _).trans hf)
    obtain ⟨n, hn⟩ := hlist (w.waitsFor before) fun _ hp => hp
    refine ⟨n + 1, fun fuel hf depth st => ?_⟩
    obtain ⟨fuel, rfl⟩ : ∃ k, fuel = k + 1 := ⟨fuel - 1, by omega⟩
    have hscan : ∀ ps : List Trx, (∀ p ∈ ps, p ∈ w.waitsFor before) → ∀ st, scanPreds
        (fun pred st => ltIsDeadlock1 w after fuel pred (depth + 1) st) before after depth ps st
          ≠ none := by
      intro ps hps
      induction ps with
      | nil => intro st hc; cases hc
      | cons p ps ihps =>
        intro st
        rw [scanPreds]
        split
        · exact Option.some_ne_none _
        · have hp := hn p (hps p List.mem_cons_self) fuel (by omega) (depth + 1) st
          obtain ⟨r, hr⟩ := Option.ne_none_iff_exists'.1 hp
          rw [hr]
          exact ihps (fun q hq => hps q (List.mem_cons_of_mem _ hq)) _
    rw [ltIsDeadlock1]
    split
    · exact Option.some_ne_none _
    · exact hscan _ (fun _ hp => hp) st

end Virtuoso.Lock
