import Virtuoso.Lock.Basic
import Mathlib.Data.List.Basic

/-!
# What the lock functions preserve

`GenLock.Inv` is the invariant of a lock between two calls: the owner field
matches the type, no transaction occurs twice in the queue or both in the queue
and among the owners, and the head of the queue is blocked by the owners.  The
last clause is what makes a free lock have no waiter, and so what keeps the
fatal branches out of reach.

There is one specification for each function: `lockAddOwner_spec`,
`lockEnter_spec`, `dropOwner_spec`, `wakeWaiting_spec` and `lockRelease_spec`.
-/

universe u

namespace Virtuoso.Lock

variable {Trx : Type u}

variable {pl pl₁ pl' : GenLock Trx} {lt : Trx}

attribute [simp] Owner.toList

namespace GenLock

/-- The owners of `pl` conflict with the mode of `it`. -/
def Blocks (pl : GenLock Trx) (it : Cursor Trx) : Prop :=
  pl.type = .exclusive ∨ (pl.type = .shared ∧ it.lockMode = .exclusive)

/-- The owner field agrees with the type of the lock.  A list of owners has at
least two elements: it is made by the second owner and unmade by the last but
one. -/
structure OwnerInv (pl : GenLock Trx) : Prop where
  free : pl.type = .free → pl.owner = .one none
  exclusive : pl.type = .exclusive → ∃ o, pl.owner = .one (some o)
  shared : pl.type = .shared → (∃ o, pl.owner = .one (some o)) ∨
    ∃ os, pl.owner = .list os ∧ os.Nodup ∧ 2 ≤ os.length

/-- The invariant of a lock between two calls. -/
structure Inv (pl : GenLock Trx) : Prop extends OwnerInv pl where
  nodup : pl.waiters.Nodup
  disjoint : ∀ lt ∈ pl.waiters, lt ∉ pl.owners
  blocked : ∀ it ∈ pl.waiting.head?, pl.Blocks it

theorem init_inv : (init : GenLock Trx).Inv where
  free := fun _ => rfl
  exclusive := fun h => by cases h
  shared := fun h => by cases h
  nodup := List.nodup_nil
  disjoint := fun _ h => absurd h List.not_mem_nil
  blocked := fun _ h => by cases h

/-- Being blocked does not depend on the queue. -/
@[simp] theorem blocks_with_waiting {q : List (Cursor Trx)} {it : Cursor Trx} :
    ({ pl with waiting := q } : GenLock Trx).Blocks it ↔ pl.Blocks it :=
  Iff.rfl

/-- The owner invariant does not depend on the queue. -/
theorem OwnerInv.with_waiting (h : pl.OwnerInv) (q : List (Cursor Trx)) :
    ({ pl with waiting := q } : GenLock Trx).OwnerInv := ⟨h.free, h.exclusive, h.shared⟩

theorem OwnerInv.owners_nodup (h : pl.OwnerInv) : pl.owners.Nodup := by
  cases ht : pl.type with
  | free => simp [owners, h.free ht]
  | exclusive =>
    obtain ⟨o, ho⟩ := h.exclusive ht
    simp [owners, ho]
  | shared =>
    rcases h.shared ht with ⟨o, ho⟩ | ⟨os, ho, hn, _⟩
    · simp [owners, ho]
    · simpa [owners, ho] using hn

/-- A lock without owners is free. -/
theorem OwnerInv.free_of_owners (h : pl.OwnerInv) (ho : pl.owners = []) : pl.type = .free := by
  cases ht : pl.type with
  | free => rfl
  | exclusive =>
    obtain ⟨o, he⟩ := h.exclusive ht
    simp [owners, he] at ho
  | shared =>
    rcases h.shared ht with ⟨o, he⟩ | ⟨os, he, _, hl⟩
    · simp [owners, he] at ho
    · simp only [owners, he, Owner.toList] at ho
      simp [ho] at hl

/-- A free lock blocks nobody, so its queue is empty. -/
theorem Inv.waiting_of_free (h : pl.Inv) (hf : pl.type = .free) : pl.waiting = [] := by
  cases hq : pl.waiting with
  | nil => rfl
  | cons it q =>
    have hb := h.blocked it (by rw [hq]; rfl)
    simp [Blocks, hf] at hb

theorem OwnerInv.of_free (it : Cursor Trx) :
    ({ pl with type := it.lockMode.toType, owner := .one (some it.ltrx) } :
      GenLock Trx).OwnerInv := by
  refine ⟨fun h => ?_, fun _ => ⟨_, rfl⟩, fun _ => .inl ⟨_, rfl⟩⟩
  cases hm : it.lockMode <;> simp [hm, Mode.toType] at h

theorem OwnerInv.upgrade (h : pl.OwnerInv) (ho : pl.owner = .one (some lt)) (m : Mode) :
    (if m = .exclusive then { pl with type := .exclusive } else pl : GenLock Trx).OwnerInv := by
  split
  · exact ⟨fun hc => (by cases hc), fun _ => ⟨lt, ho⟩, fun hc => (by cases hc)⟩
  · exact h

theorem OwnerInv.join (h : pl.OwnerInv) (hs : pl.type = .shared) (hmem : lt ∉ pl.owners)
    (hne : pl.owners ≠ []) :
    ({ pl with owner := .list (lt :: pl.owners) } : GenLock Trx).OwnerInv := by
  refine ⟨fun hc => by simp [hs] at hc, fun hc => by simp [hs] at hc, fun _ => .inr ?_⟩
  refine ⟨_, rfl, List.nodup_cons.2 ⟨hmem, h.owners_nodup⟩, ?_⟩
  have := List.length_pos_of_ne_nil hne
  simp only [List.length_cons]
  omega

end GenLock

open GenLock

/-- What the queue loop of a release does to a queue `q`: it serves a first part
`served` of it, in order, and stops at a cursor the owners block. -/
structure Woken (pl : GenLock Trx) (q served : List (Cursor Trx)) (pl' : GenLock Trx)
    (ev : List (Event Trx)) : Prop where
  inv : pl'.OwnerInv
  queue : q = served ++ pl'.waiting
  signalled : ev.map Event.cursor = served
  granted : ev.filterMap Event.granted? = served.filter Cursor.acquires
  owners : ∀ lt, lt ∈ pl'.owners ↔
    lt ∈ pl.owners ∨ lt ∈ (served.filter Cursor.acquires).map Cursor.ltrx
  blocked : ∀ it ∈ pl'.waiting.head?, pl'.Blocks it

namespace Woken

variable {pl pl' : GenLock Trx} {it : Cursor Trx} {q served : List (Cursor Trx)}
  {ev : List (Event Trx)}

/-- Stopping before what is left of the queue. -/
theorem stop (h : pl.OwnerInv) (hb : ∀ it ∈ q.head?, pl.Blocks it) :
    Woken pl q [] { pl with waiting := q } [] where
  inv := h.with_waiting _
  queue := rfl
  signalled := rfl
  granted := rfl
  owners := fun lt => by simp [GenLock.owners]
  blocked := hb

/-- Letting the non-acquiring cursor `it` through and going on. -/
theorem pass (h : Woken pl q served pl' ev) (ha : it.acquires = false) :
    Woken pl (it :: q) (it :: served) pl' (.passed it q :: ev) where
  inv := h.inv
  queue := by rw [h.queue]; rfl
  signalled := by rw [List.map_cons, h.signalled]; rfl
  granted := by rw [List.filterMap_cons_none rfl, h.granted, List.filter_cons_of_neg (by simp [ha])]
  owners := fun lt => by simpa [ha] using h.owners lt
  blocked := h.blocked

/-- Admitting the acquiring cursor `it` and going on. -/
theorem grant (h₁ : ∀ lt, lt ∈ pl₁.owners ↔ lt = it.ltrx ∨ lt ∈ pl.owners)
    (h : Woken pl₁ q served pl' ev) (ha : it.acquires = true) :
    Woken pl (it :: q) (it :: served) pl' (.granted it :: ev) where
  inv := h.inv
  queue := by rw [h.queue]; rfl
  signalled := by rw [List.map_cons, h.signalled]; rfl
  granted := by rw [List.filterMap_cons_some (f := Event.granted?) rfl, h.granted,
    List.filter_cons_of_pos ha]
  owners := fun lt => by
    rw [h.owners, h₁, List.filter_cons_of_pos ha, List.map_cons, List.mem_cons]
    tauto
  blocked := h.blocked

/-- What is left after a release satisfies the invariant again. -/
theorem lock_inv {pl₀ : GenLock Trx} (hw : Woken pl q served pl' ev) (h : pl₀.Inv)
    (hq : q.Sublist pl₀.waiting) (hown : ∀ t ∈ pl.owners, t ∈ pl₀.owners) : pl'.Inv := by
  have hsub : (served.map Cursor.ltrx ++ pl'.waiters).Sublist pl₀.waiters := by
    rw [waiters, ← List.map_append, ← hw.queue]
    exact hq.map _
  have hnodup := List.nodup_append.1 (h.nodup.sublist hsub)
  refine ⟨hw.inv, hnodup.2.1, fun t ht ho => ?_, hw.blocked⟩
  rcases (hw.owners t).1 ho with ho | ho
  · exact h.disjoint t (hsub.subset (List.mem_append_right _ ht)) (hown t ho)
  · obtain ⟨v, hv, rfl⟩ := List.mem_map.1 ho
    exact hnodup.2.2 _ (List.mem_map_of_mem (List.mem_of_mem_filter hv)) _ ht rfl

end Woken

variable [DecidableEq Trx]

/-! ## What `lock_add_owner` can do -/

/-- A shared request on a shared lock, whichever way the owners are kept. -/
theorem lockAddOwner_shared (h : pl.OwnerInv) {it : Cursor Trx} (w : Bool)
    (hs : pl.type = .shared) (hm : it.lockMode = .shared) (ho : pl.owner ≠ .one (some it.ltrx)) :
    pl.owners ≠ [] ∧ lockAddOwner pl it w =
      if it.ltrx ∈ pl.owners then .ok (pl, true)
      else if !pl.waiting.isEmpty && !w then .ok (pl, false)
      else .ok ({ pl with owner := .list (it.ltrx :: pl.owners) }, true) := by
  rcases h.shared hs with ⟨o, hown⟩ | ⟨_ | ⟨o, os⟩, hown, _, hlen⟩
  · have hne : it.ltrx ≠ o := fun hc => ho (by rw [hown, hc])
    simp [lockAddOwner, joinOwners, owners, hs, hm, hown, hne, hne.symm]
    split <;> rfl
  · simp at hlen
  · simp only [lockAddOwner, joinOwners, owners, Owner.toList, hs, hm, hown]
    grind

/-- Everything `lock_add_owner` can do on a lock whose owner field agrees with
its type: take a free lock, upgrade or re-enter as the only owner, refuse,
re-enter as one of several owners, or join them. -/
theorem lockAddOwner_cases (h : pl.OwnerInv) (it : Cursor Trx) (w : Bool) :
    (pl.type = .free ∧ lockAddOwner pl it w =
      .ok ({ pl with type := it.lockMode.toType, owner := .one (some it.ltrx) }, true)) ∨
    (pl.type ≠ .free ∧ pl.owner = .one (some it.ltrx) ∧ lockAddOwner pl it w =
      .ok (if it.lockMode = .exclusive then { pl with type := .exclusive } else pl, true)) ∨
    (lockAddOwner pl it w = .ok (pl, false) ∧ pl.type ≠ .free ∧
      pl.owner ≠ .one (some it.ltrx) ∧
      (pl.Blocks it ∨ (pl.waiting ≠ [] ∧ w = false ∧ it.ltrx ∉ pl.owners))) ∨
    (pl.type = .shared ∧ it.lockMode = .shared ∧ it.ltrx ∈ pl.owners ∧
      lockAddOwner pl it w = .ok (pl, true)) ∨
    (pl.type = .shared ∧ it.lockMode = .shared ∧ it.ltrx ∉ pl.owners ∧ pl.owners ≠ [] ∧
      (pl.waiting = [] ∨ w = true) ∧ lockAddOwner pl it w =
      .ok ({ pl with owner := .list (it.ltrx :: pl.owners) }, true)) := by
  by_cases hf : pl.type = .free
  · exact .inl ⟨hf, by simp [lockAddOwner, hf]⟩
  by_cases ho : pl.owner = .one (some it.ltrx)
  · exact .inr (.inl ⟨hf, ho, by simp [lockAddOwner, hf, ho]⟩)
  by_cases he : pl.type = .exclusive
  · exact .inr (.inr (.inl ⟨by simp [lockAddOwner, ho, he], hf, ho, .inl (.inl he)⟩))
  have hs : pl.type = .shared := by
    cases ht : pl.type with
    | free => exact absurd ht hf
    | exclusive => exact absurd ht he
    | shared => rfl
  by_cases hm : it.lockMode = .exclusive
  · exact .inr (.inr (.inl ⟨by simp [lockAddOwner, ho, hs, hm], hf, ho, .inl (.inr ⟨hs, hm⟩)⟩))
  have hm' : it.lockMode = .shared := by
    cases h' : it.lockMode with
    | exclusive => exact absurd h' hm
    | shared => rfl
  -- from here on both sides are shared and only the queue can stand in the way
  obtain ⟨hne, hadd⟩ := lockAddOwner_shared h w hs hm' ho
  by_cases hmem : it.ltrx ∈ pl.owners
  · exact .inr (.inr (.inr (.inl ⟨hs, hm', hmem, by rw [hadd, if_pos hmem]⟩)))
  rw [if_neg hmem] at hadd
  by_cases hq : pl.waiting ≠ [] ∧ w = false
  · exact .inr (.inr (.inl ⟨by simpa [hq.1, hq.2] using hadd, hf, ho, .inr ⟨hq.1, hq.2, hmem⟩⟩))
  · have hq' : pl.waiting = [] ∨ w = true := by simpa [or_iff_not_imp_left] using hq
    refine .inr (.inr (.inr (.inr ⟨hs, hm', hmem, hne, hq', hadd.trans (if_neg ?_)⟩)))
    rcases hq' with hq' | hq' <;> simp [hq']

/-- What the callers of `lock_add_owner` rely on when the cursor gets in. -/
structure Admitted (pl pl' : GenLock Trx) (it : Cursor Trx) : Prop where
  inv : pl'.OwnerInv
  waiting : pl'.waiting = pl.waiting
  owners : ∀ lt, lt ∈ pl'.owners ↔ lt = it.ltrx ∨ lt ∈ pl.owners
  exclusive : it.lockMode = .exclusive → pl'.type = .exclusive
  blocks : ∀ w, pl.Blocks w → pl'.Blocks w

/-- `lock_add_owner` either admits the cursor or leaves the lock alone, and it
refuses only a cursor that conflicts with the owners or that would overtake the
queue. -/
theorem lockAddOwner_spec (h : pl.OwnerInv) (it : Cursor Trx) (w : Bool) :
    (∃ pl', lockAddOwner pl it w = .ok (pl', true) ∧ Admitted pl pl' it ∧
      (it.ltrx ∈ pl.owners ∨ pl.waiting = [] ∨ pl.type = .free ∨ w = true)) ∨
    (lockAddOwner pl it w = .ok (pl, false) ∧ pl.owner ≠ .one (some it.ltrx) ∧
      (pl.Blocks it ∨ (pl.waiting ≠ [] ∧ w = false))) := by
  rcases lockAddOwner_cases h it w with ⟨hf, he⟩ | ⟨hf, ho, he⟩ | ⟨he, _, ho, hb⟩ |
    ⟨_, hm, hmem, he⟩ | ⟨hs, hm, hmem, hne, hq, he⟩
  · refine .inl ⟨_, he, ⟨.of_free it, rfl, fun lt => ?_, fun hm => by simp [hm, Mode.toType],
      fun v hb => ?_⟩, .inr (.inr (.inl hf))⟩
    · simp [owners, h.free hf]
    · simp [Blocks, hf] at hb
  · have hmem : it.ltrx ∈ pl.owners := by simp [owners, ho]
    refine .inl ⟨_, he, ⟨h.upgrade ho _, by split <;> rfl, fun lt => ?_, fun hm => by simp [hm],
      fun v hb => ?_⟩, .inl hmem⟩
    · split <;> simp [owners, ho]
    · split
      · exact .inl rfl
      · exact hb
  · exact .inr ⟨he, ho, hb.imp_right fun hb => ⟨hb.1, hb.2.1⟩⟩
  · refine .inl ⟨_, he, ⟨h, rfl, fun lt => ⟨.inr, ?_⟩, fun hc => by simp [hm] at hc,
      fun _ hb => hb⟩, .inl hmem⟩
    rintro (rfl | hl)
    · exact hmem
    · exact hl
  · refine .inl ⟨_, he, ⟨h.join hs hmem hne, rfl, fun lt => ?_, fun hc => by simp [hm] at hc,
      fun v hb => hb⟩, hq.elim (fun hq => .inr (.inl hq)) fun hq => .inr (.inr (.inr hq))⟩
    simp [owners]

/-- A successful `lock_add_owner` admits the cursor. -/
theorem lockAddOwner_admits (h : pl.OwnerInv) {it : Cursor Trx} {w : Bool}
    (he : lockAddOwner pl it w = .ok (pl', true)) : Admitted pl pl' it ∧
      (it.ltrx ∈ pl.owners ∨ pl.waiting = [] ∨ pl.type = .free ∨ w = true) := by
  rcases lockAddOwner_spec h it w with ⟨pl'', he', hadm⟩ | ⟨he', -⟩
  · rw [he] at he'
    cases he'
    exact hadm
  · rw [he] at he'
    cases he'

/-! ## What a release does -/

/-- The ending transaction is taken out of the owners, and the lock becomes free
if it was the last. -/
theorem dropOwner_spec (h : pl.OwnerInv) (lt : Trx) :
    ∃ pl', dropOwner pl lt = .ok pl' ∧ pl'.OwnerInv ∧ pl'.waiting = pl.waiting ∧
      pl'.owners = pl.owners.filter (· ≠ lt) ∧ (pl'.owners ≠ [] → pl'.type = pl.type) := by
  cases hown : pl.owner with
  | one o =>
    by_cases ho : o = some lt
    · refine ⟨{ pl with type := .free, owner := .one none }, by simp [dropOwner, hown, ho],
        ⟨fun _ => rfl, fun hc => (nomatch hc), fun hc => (nomatch hc)⟩, rfl, ?_,
        fun hc => absurd rfl hc⟩
      simp [owners, hown, ho]
    · refine ⟨pl, by simp [dropOwner, hown, ho], h, rfl, ?_, fun _ => rfl⟩
      cases o with
      | none => simp [owners, hown]
      | some o' =>
        have hne : o' ≠ lt := fun hc => ho (by rw [hc])
        simp [owners, hown, hne]
  | list os =>
    have hs : pl.type = .shared := by
      cases ht : pl.type with
      | free => exact absurd (h.free ht) (by simp [hown])
      | exclusive => obtain ⟨o, ho⟩ := h.exclusive ht; simp [hown] at ho
      | shared => rfl
    have hos : os.Nodup ∧ 2 ≤ os.length := by
      rcases h.shared hs with ⟨o, ho⟩ | ⟨os', ho, hn, hl⟩
      · simp [hown] at ho
      · rw [hown] at ho
        cases ho
        exact ⟨hn, hl⟩
    have hpl : pl.owners = os := by simp [owners, hown]
    by_cases hmem : lt ∈ os
    · have hgone : lt ∉ os.erase lt := hos.1.not_mem_erase
      have hlen := List.length_erase_of_mem hmem
      have hfilter : os.filter (· ≠ lt) = os.erase lt := by
        rw [hos.1.erase_eq_filter]
        exact List.filter_congr fun t _ => by by_cases ht : t = lt <;> simp [ht]
      rw [hpl, hfilter]
      match he : os.erase lt with
      | [] => rw [he] at hlen; simp at hlen; omega
      | [o] =>
        refine ⟨{ pl with owner := .one (some o) }, ?_, ⟨fun hc => by simp [hs] at hc,
          fun hc => by simp [hs] at hc, fun _ => .inl ⟨o, rfl⟩⟩, rfl, rfl, fun _ => rfl⟩
        simp only [dropOwner, hown, if_pos hmem, he, if_neg (he ▸ hgone)]
      | o₁ :: o₂ :: os' =>
        refine ⟨{ pl with owner := .list (o₁ :: o₂ :: os') }, ?_,
          ⟨fun hc => by simp [hs] at hc, fun hc => by simp [hs] at hc,
            fun _ => .inr ⟨_, rfl, he ▸ hos.1.erase lt, by simp⟩⟩, rfl, rfl, fun _ => rfl⟩
        simp only [dropOwner, hown, if_pos hmem, he, if_neg (he ▸ hgone)]
    · refine ⟨pl, by simp [dropOwner, hown, hmem], h, rfl, ?_, fun _ => rfl⟩
      rw [hpl, List.filter_eq_self.2]
      intro t ht
      simp only [ne_eq, decide_eq_true_eq]
      rintro rfl
      exact hmem ht

/-- What the queue loop does with its first cursor: stop in front of it because
the owners block it, let it through, or make it an owner and then stop or go
on. -/
theorem wakeWaiting_cons_cases (h : pl.OwnerInv) (it : Cursor Trx) (q : List (Cursor Trx)) :
    (pl.Blocks it ∧ wakeWaiting pl (it :: q) = .ok ({ pl with waiting := it :: q }, [])) ∨
    (it.acquires = false ∧ ¬ pl.Blocks it ∧ wakeWaiting pl (it :: q) =
      (wakeWaiting pl q).map fun r => (r.1, .passed it q :: r.2)) ∨
    (it.acquires = true ∧ ∃ pl₁,
      lockAddOwner { pl with waiting := it :: q } it true = .ok (pl₁, true) ∧
      ((it.lockMode = .exclusive ∧
          wakeWaiting pl (it :: q) = .ok ({ pl₁ with waiting := q }, [.granted it])) ∨
        (it.lockMode = .shared ∧ wakeWaiting pl (it :: q) =
          (wakeWaiting pl₁ q).map fun r => (r.1, .granted it :: r.2)))) := by
  cases ha : it.acquires with
  | false =>
    by_cases hb : pl.Blocks it
    · refine .inl ⟨hb, ?_⟩
      rcases hb with ht | ⟨ht, hm⟩
      · cases hm : it.lockMode <;> simp [wakeWaiting, ha, hm, ht]
      · simp [wakeWaiting, ha, hm, ht]
    · cases hr : wakeWaiting pl q <;> cases ht : pl.type <;> cases hm : it.lockMode <;>
        simp_all [wakeWaiting, Blocks, bind, Except.bind, Except.map, pure, Except.pure]
  | true =>
    rcases lockAddOwner_spec (h.with_waiting (it :: q)) it true with
      ⟨pl₁, hadd, -, -⟩ | ⟨hadd, -, hb⟩
    · refine .inr (.inr ⟨rfl, pl₁, hadd, ?_⟩)
      cases hm : it.lockMode with
      | exclusive =>
        exact .inl ⟨rfl, by simp [wakeWaiting, ha, hm, hadd, bind, Except.bind, pure,
          Except.pure]⟩
      | shared =>
        cases hr : wakeWaiting pl₁ q <;>
          simp [wakeWaiting, ha, hm, hadd, hr, bind, Except.bind, Except.map, pure, Except.pure]
    · refine .inl ⟨by simpa using hb, ?_⟩
      simp [wakeWaiting, ha, hadd, bind, Except.bind, pure, Except.pure]

/-- The queue loop of `lock_release` never fails and serves a first part of the
queue. -/
theorem wakeWaiting_spec (h : pl.OwnerInv) (q : List (Cursor Trx)) :
    ∃ served pl' ev, wakeWaiting pl q = .ok (pl', ev) ∧ Woken pl q served pl' ev := by
  induction q generalizing pl with
  | nil => exact ⟨[], _, [], rfl, .stop h fun _ hw => by cases hw⟩
  | cons it q ih =>
    rcases wakeWaiting_cons_cases h it q with ⟨hb, he⟩ | ⟨ha, -, he⟩ | ⟨ha, pl₁, hadd, hcase⟩
    · exact ⟨[], _, [], he, .stop h fun _ hw => by cases hw; exact hb⟩
    · obtain ⟨served, pl', ev, hr, hw⟩ := ih h
      exact ⟨it :: served, pl', _, by rw [he, hr]; rfl, hw.pass ha⟩
    · have hadm := (lockAddOwner_admits (h.with_waiting _) hadd).1
      rcases hcase with ⟨hm, he⟩ | ⟨-, he⟩
      · exact ⟨[it], _, _, he, .grant hadm.owners
          (.stop hadm.inv fun _ _ => .inl (hadm.exclusive hm)) ha⟩
      · obtain ⟨served, pl', ev, hr, hw⟩ := ih hadm.inv
        exact ⟨it :: served, pl', _, by rw [he, hr]; rfl, .grant hadm.owners hw ha⟩

/-- The stages of `lock_release (pl, lt)`: the owners without `lt`, and the queue
loop over the live cursors. -/
structure Released (pending : Trx → Bool) (pl : GenLock Trx) (lt : Trx) (pl₁ : GenLock Trx)
    (served : List (Cursor Trx)) (pl' : GenLock Trx) (ev : List (Event Trx)) : Prop where
  inv : pl₁.OwnerInv
  owners : pl₁.owners = pl.owners.filter (· ≠ lt)
  type : pl₁.owners ≠ [] → pl₁.type = pl.type
  wake : wakeWaiting pl₁ (pl.waiting.filter fun it => !isDead pending lt it) = .ok (pl', ev)
  woken : Woken pl₁ (pl.waiting.filter fun it => !isDead pending lt it) served pl' ev

/-- `lock_release` of a lock that satisfies the invariant never fails: it takes
the ending transaction out of the owners, throws the dead cursors out of the
queue and serves a first part of what is left. -/
theorem lockRelease_spec (pending : Trx → Bool) (h : pl.Inv) (lt : Trx) :
    ∃ pl₁ served pl' ev,
      lockRelease pending pl lt =
        .ok (pl', (pl.waiting.filter (isDead pending lt)).map .dropped ++ ev) ∧
      Released pending pl lt pl₁ served pl' ev := by
  obtain ⟨pl₁, hdrop, hinv, hq, hown, htype⟩ := dropOwner_spec h.toOwnerInv lt
  obtain ⟨served, pl', ev, hwake, hw⟩ :=
    wakeWaiting_spec hinv (pl.waiting.filter fun it => !isDead pending lt it)
  refine ⟨pl₁, served, pl', ev, ?_, hinv, hown, htype, hwake, hw⟩
  -- a lock left without owners is free, so it cannot have left anyone waiting
  have hok : (pl'.owners.isEmpty && !pl'.waiting.isEmpty) = false := by
    cases hwait : pl'.waiting with
    | nil => simp
    | cons it q =>
      have hb := hw.blocked it (by rw [hwait]; rfl)
      have hne : pl'.owners ≠ [] := fun hc => by
        simp [Blocks, hw.inv.free_of_owners hc] at hb
      simp [hne]
  simp only [lockRelease, hdrop, hq, hwake, bind, Except.bind, hok, pure, Except.pure]
  simp

omit [DecidableEq Trx] in
theorem Released.lock_inv [DecidableEq Trx] {pending : Trx → Bool} {served : List (Cursor Trx)}
    {ev : List (Event Trx)} (hr : Released pending pl lt pl₁ served pl' ev) (h : pl.Inv) :
    pl'.Inv :=
  hr.woken.lock_inv h List.filter_sublist fun _ ht => List.mem_of_mem_filter (hr.owners ▸ ht)

/-- The cursors that a release serves or leaves are of other transactions, which are pending. -/
theorem Released.live {pending : Trx → Bool} {served : List (Cursor Trx)} {ev : List (Event Trx)}
    (hr : Released pending pl lt pl₁ served pl' ev) {it : Cursor Trx}
    (hit : it ∈ served ++ pl'.waiting) : it.ltrx ≠ lt ∧ pending it.ltrx = true := by
  rw [← hr.woken.queue] at hit
  have hlive := (List.mem_filter.1 hit).2
  simpa only [isDead, Bool.not_or, Bool.and_eq_true, Bool.not_eq_true', decide_eq_false_iff_not,
    Bool.not_not] using hlive

/-- After a release the ending transaction neither owns the lock nor waits on
it. -/
theorem Released.gone {pending : Trx → Bool} {served : List (Cursor Trx)} {ev : List (Event Trx)}
    (hr : Released pending pl lt pl₁ served pl' ev) : lt ∉ pl'.owners ∧ lt ∉ pl'.waiters := by
  refine ⟨fun hc => ?_, fun hc => ?_⟩
  · rcases (hr.woken.owners lt).1 hc with hc | hc
    · simp [hr.owners] at hc
    · obtain ⟨it, hit, heq⟩ := List.mem_map.1 hc
      exact (hr.live (List.mem_append_left _ (List.mem_of_mem_filter hit))).1 heq
  · obtain ⟨it, hit, heq⟩ := List.mem_map.1 hc
    exact (hr.live (List.mem_append_right _ hit)).1 heq

/-- `lock_enter` never fails on a lock that satisfies the invariant.  It admits
the cursor, rolls its transaction back, or appends it to the queue. -/
theorem lockEnter_spec (h : pl.Inv) (it : Cursor Trx) (bust : Bool) (hw : it.ltrx ∉ pl.waiters) :
    (∃ pl', lockEnter pl it bust = .ok (pl', .granted) ∧ pl'.Inv ∧ pl'.waiting = pl.waiting ∧
      (it.ltrx ∈ pl.owners ∨ pl.waiting = [])) ∨
    lockEnter pl it bust = .ok (pl, .busted) ∨
    (bust = false ∧ lockEnter pl it bust =
        .ok ({ pl with waiting := pl.waiting ++ [it] }, .waits) ∧
      ({ pl with waiting := pl.waiting ++ [it] } : GenLock Trx).Inv) := by
  rcases lockAddOwner_spec h.toOwnerInv it false with ⟨pl', hadd, hadm, hq⟩ | ⟨hadd, hown, hb⟩
  · refine .inl ⟨pl', by simp [lockEnter, hadd, bind, Except.bind, pure, Except.pure],
      ⟨hadm.inv, ?_, ?_, ?_⟩, hadm.waiting, ?_⟩
    · rw [waiters, hadm.waiting]; exact h.nodup
    · intro lt hlt hc
      rw [waiters, hadm.waiting] at hlt
      rcases (hadm.owners lt).1 hc with rfl | hc
      · exact hw hlt
      · exact h.disjoint lt hlt hc
    · rw [hadm.waiting]; exact fun v hv => hadm.blocks v (h.blocked v hv)
    · rcases hq with hq | hq | hq | hq
      · exact .inl hq
      · exact .inr hq
      · exact .inr (h.waiting_of_free hq)
      · cases hq
  -- refused: one of several owners is rolled back, any other transaction queues
  by_cases hmem : it.ltrx ∈ pl.owners
  · cases ho : pl.owner with
    | one o =>
      cases o with
      | none => simp [owners, ho] at hmem
      | some o =>
        have : it.ltrx = o := by simpa [owners, ho] using hmem
        exact absurd (by rw [ho, this]) hown
    | list os =>
      have : it.ltrx ∈ os := by simpa [owners, ho] using hmem
      simp [lockEnter, hadd, ho, this, bind, Except.bind, pure, Except.pure]
  cases bust with
  | true =>
    cases ho : pl.owner <;> simp [lockEnter, hadd, ho, bind, Except.bind, pure, Except.pure]
  | false =>
    refine .inr (.inr ⟨rfl, ?_, h.with_waiting _, ?_, ?_, ?_⟩)
    · cases ho : pl.owner with
      | one o => simp [lockEnter, hadd, ho, bind, Except.bind, pure, Except.pure]
      | list os =>
        have : it.ltrx ∉ os := by simpa [owners, ho] using hmem
        simp [lockEnter, hadd, ho, this, bind, Except.bind, pure, Except.pure]
    · simpa [waiters, List.nodup_append] using ⟨h.nodup, fun v hv hc =>
        hw (List.mem_map.2 ⟨v, hv, hc⟩)⟩
    · intro lt hlt
      simp only [waiters, List.map_append, List.map_cons, List.map_nil, List.mem_append,
        List.mem_singleton] at hlt
      rcases hlt with hlt | rfl
      · exact h.disjoint lt hlt
      · exact hmem
    · intro v hv
      cases hq : pl.waiting with
      | nil =>
        simp only [hq, List.nil_append, List.head?_cons, Option.mem_def,
          Option.some.injEq] at hv
        subst hv
        exact hb.resolve_right fun hc => hc.1 hq
      | cons w q =>
        simp only [hq, List.cons_append, List.head?_cons] at hv
        exact h.blocked v (by rw [hq]; exact hv)

end Virtuoso.Lock
