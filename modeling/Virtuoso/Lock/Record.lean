import Virtuoso.Lock.Check

/-!
# Recorded waits under the lock functions

Granting a request moves it to the far end of its line, and letting one through
takes it out of its line.  Neither asks for a wait edge that was not there
before: `lockEnter_granted_recorded` says so of `lock_enter`, and
`wakeWaiting_passed` of the queue loop of `lock_release` together with the edges
it drops.
-/

universe u

namespace Virtuoso.Lock

open Virtuoso.Lib Waits GenLock

variable {Trx : Type u}

/-! ## Owners at the end of a line -/

variable {pl pl' : GenLock Trx} {it : Cursor Trx}

/-- The owners of a lock that is not exclusive form a shared line. -/
theorem GenLock.ownerLine_shared (h : pl.type ≠ .exclusive) :
    ∀ p ∈ pl.ownerLine, p.2 = .shared := by
  intro p hp
  obtain ⟨o, -, rfl⟩ := List.mem_map.1 hp
  simp [h]

variable [DecidableEq Trx]

/-- A new owner takes its place at the far end of the line. -/
theorem lockAddOwner_line (h : pl.OwnerInv) {w : Bool} (hno : it.ltrx ∉ pl.owners)
    (he : lockAddOwner pl it w = .ok (pl', true)) (r : List (Trx × Mode)) (m : Mode) (y : Trx)
    (hy : y ∈ preds (r ++ pl'.ownerLine) m) :
    y ∈ preds (r ++ (it.ltrx, it.lockMode) :: pl.ownerLine) m := by
  rcases lockAddOwner_cases h it w with ⟨hf, he'⟩ | ⟨-, ho, -⟩ | ⟨he', -⟩ | ⟨-, -, hmem, -⟩ |
    ⟨hs, hm, -, -, -, he'⟩
  · rw [he'] at he
    cases he
    have hold : pl.ownerLine = [] := by
      simp [ownerLine, owners, h.free hf]
    rw [hold]
    cases hm : it.lockMode <;>
      simpa [ownerLine, owners, hm, Mode.toType] using hy
  · simp [owners, ho] at hno
  · rw [he'] at he
    cases he
  · exact absurd hmem hno
  · rw [he'] at he
    cases he
    have hne : pl.type ≠ .exclusive := by simp [hs]
    have hnew : ∀ p ∈ ({ pl with owner := .list (it.ltrx :: pl.owners) } : GenLock Trx).ownerLine,
        p.2 = .shared := ownerLine_shared hne
    refine (preds_append_congr hnew ?_ (fun t => ?_) m y).1 hy
    · intro p hp
      rcases List.mem_cons.1 hp with rfl | hp
      · exact hm
      · exact ownerLine_shared hne p hp
    · rw [ownerLine_fst, List.map_cons, ownerLine_fst]
      show t ∈ (it.ltrx :: pl.owners).reverse ↔ _
      simp [or_comm]

/-- A granted request was granted by `lock_add_owner`. -/
theorem lockAddOwner_of_granted {bust : Bool} (he : lockEnter pl it bust = .ok (pl', .granted)) :
    lockAddOwner pl it false = .ok (pl', true) := by
  cases hadd : lockAddOwner pl it false with
  | error e => simp [lockEnter, hadd, bind, Except.bind] at he
  | ok r =>
    obtain ⟨pl₁, ok⟩ := r
    cases ok with
    | true =>
      simp only [lockEnter, hadd, bind, Except.bind, pure, Except.pure, if_true] at he
      cases he
      rfl
    | false =>
      cases ho : pl₁.owner <;> cases bust <;>
        simp only [lockEnter, hadd, ho, bind, Except.bind, pure, Except.pure, Bool.false_eq_true,
          if_false] at he <;>
        (repeat' split at he) <;> cases he

/-- A request that is granted leaves the waits of the queue recorded. -/
theorem lockEnter_granted_recorded {E : Trx → Trx → Prop} (h : pl.Inv) {bust : Bool}
    (he : lockEnter pl it bust = .ok (pl', .granted))
    (hR : Recorded E pl.ownerLine (queueLine pl.waiting)) :
    Recorded E pl'.ownerLine (queueLine pl'.waiting) := by
  have hadd := lockAddOwner_of_granted he
  rcases lockAddOwner_cases h.toOwnerInv it false with ⟨hf, he'⟩ | ⟨hf, ho, he'⟩ | ⟨he', -⟩ |
    ⟨-, -, -, he'⟩ | ⟨-, -, -, -, hq, he'⟩
  · rw [he'] at hadd
    cases hadd
    rw [h.waiting_of_free hf]
    trivial
  · rw [he'] at hadd
    cases hadd
    split
    · -- the only owner upgrades; the queue starts with an exclusive cursor unless it is empty
      cases ht : pl.type with
      | free => exact absurd ht hf
      | exclusive => simpa [ownerLine, owners, ho, ht] using hR
      | shared =>
        cases hq : pl.waiting with
        | nil => trivial
        | cons v q =>
          have hv : v.lockMode = .exclusive := by
            have hb := h.blocked v (by rw [hq]; rfl)
            simpa [GenLock.Blocks, ht] using hb
          simp only [queueLine, hq, List.map_cons, hv] at hR ⊢
          refine ⟨fun y hy => hR.1 y ?_, hR.2.congr fun r m y hy => ?_⟩
          · simpa [ownerLine, owners, ho, ht, sharedRun] using hy
          · have hmem : (v.ltrx, Mode.exclusive) ∈ r ++ [(v.ltrx, .exclusive)] := by simp
            have := preds_append_of_exclusive hmem pl.ownerLine
              ({ pl with type := .exclusive } : GenLock Trx).ownerLine m
            simp only [List.append_assoc, List.cons_append, List.nil_append] at this
            rw [this]
            exact hy
    · exact hR
  · rw [he'] at hadd
    cases hadd
  · rw [he'] at hadd
    cases hadd
    exact hR
  · rw [he'] at hadd
    cases hadd
    rw [hq.resolve_right (by simp)]
    trivial

/-! ## Cursors that are let through -/

/-- The edges after the queue loop of a release has let some cursors through. -/
def clearOnPass (w : Waits Trx) : Event Trx → Waits Trx
  | .passed it rest => ltClearNonAcqReleaseWait w it rest
  | _ => w

/-- What the queue loop does to the edges: it drops only edges out of the queue,
and what is left of the queue stays recorded. -/
structure Passed (w w' : Waits Trx) (q : List (Cursor Trx)) (pl' : GenLock Trx) : Prop where
  consistent : w'.Consistent
  sub : ∀ x y, w'.Edge x y → w.Edge x y
  keep : ∀ x y, w.Edge x y → x ∉ q.map Cursor.ltrx → w'.Edge x y
  recorded : Recorded w'.Edge pl'.ownerLine (queueLine pl'.waiting)

/-- Letting a cursor through keeps those behind it recorded. -/
theorem Recorded.pass {w : Waits Trx} {q : List (Cursor Trx)} (hw : w.Consistent)
    (hn : it.ltrx ∉ q.map Cursor.ltrx) (ho : it.ltrx ∉ pl.owners) (hfree : pl.OwnerInv)
    (hb : ¬ pl.Blocks it) (hR : Recorded w.Edge pl.ownerLine (queueLine (it :: q))) :
    Recorded (ltClearNonAcqReleaseWait w it q).Edge pl.ownerLine (queueLine q) := by
  have hd := ltClearNonAcqReleaseWait_drops hw it q
  have hne : pl.type ≠ .exclusive := fun hc => hb (.inl hc)
  have hsh := ownerLine_shared hne
  have hpreds : preds pl.ownerLine it.lockMode = [] := by
    cases hm : it.lockMode with
    | shared => exact (preds_of_shared hsh).2
    | exclusive =>
      have hf : pl.type = .free := by
        cases ht : pl.type with
        | free => rfl
        | exclusive => exact absurd ht hne
        | shared => exact absurd (.inr ⟨ht, hm⟩) hb
      simp [ownerLine, owners, hfree.free hf, preds, sharedRun]
  -- nothing stands between the line and those behind `it`, so no wait is inherited
  have hR' : Recorded (fun x y => w.Edge x y ∧ x ≠ it.ltrx)
      ((it.ltrx, it.lockMode) :: pl.ownerLine) (queueLine q) := by
    refine Recorded.imp (q := queueLine q) hR.2 fun x hx y _ hxy => ⟨hxy, fun hc => hn ?_⟩
    rw [queueLine_fst] at hx
    exact hc ▸ hx
  refine Recorded.erase_line (r := pl.ownerLine) (q := queueLine q)
    (fun x y hx hy hxy => hd.keep x y hxy.1 fun hc => hy hc.2)
    (fun x y _ _ _ hky => absurd rfl hky.2) [] hR' (fun y hy => ?_) ?_ fun hm _ => ?_
  · rw [hpreds] at hy
    cases hy
  · simp only [List.nil_append, List.map_append, queueLine_fst, ownerLine_fst, List.mem_append,
      List.mem_reverse]
    exact fun hc => hc.elim hn ho
  · rw [hm] at hpreds
    cases hl : pl.ownerLine with
    | nil => rfl
    | cons p r =>
      obtain ⟨t, m⟩ := p
      rw [hl] at hpreds hsh
      cases hsh _ List.mem_cons_self
      simp at hpreds

/-- The queue loop of a release keeps what is left of the queue recorded. -/
theorem wakeWaiting_passed {w : Waits Trx} {q : List (Cursor Trx)} {ev : List (Event Trx)}
    (h : pl.OwnerInv) (hw : w.Consistent) (hn : (q.map Cursor.ltrx).Nodup)
    (ho : ∀ t ∈ q.map Cursor.ltrx, t ∉ pl.owners) (hR : Recorded w.Edge pl.ownerLine (queueLine q))
    (he : wakeWaiting pl q = .ok (pl', ev)) : Passed w (ev.foldl clearOnPass w) q pl' := by
  induction q generalizing pl w ev with
  | nil =>
    cases he
    exact ⟨hw, fun _ _ h => h, fun _ _ h _ => h, trivial⟩
  | cons it q ih =>
    rw [List.map_cons, List.nodup_cons] at hn
    rcases wakeWaiting_cons_cases h it q with ⟨hb, he'⟩ | ⟨ha, hb, he'⟩ | ⟨ha, pl₁, hadd, hcase⟩
    · rw [he'] at he
      cases he
      exact ⟨hw, fun _ _ h => h, fun _ _ h _ => h, hR⟩
    · rw [he'] at he
      obtain ⟨r, hr, he⟩ := map_eq_ok he
      cases he
      have hd := ltClearNonAcqReleaseWait_drops hw it q
      have := ih h hd.consistent hn.2 (fun t ht => ho t (List.mem_cons_of_mem _ ht))
        (hR.pass hw hn.1 (ho _ List.mem_cons_self) h hb) hr
      refine ⟨this.consistent, fun x y hxy => hd.sub x y (this.sub x y hxy), ?_, this.recorded⟩
      intro x y hxy hx
      have hx' : x ∉ q.map Cursor.ltrx := fun hc => hx (List.mem_cons_of_mem _ hc)
      exact this.keep x y (hd.keep x y hxy fun hc => hx' hc.1) hx'
    · have hadm := (lockAddOwner_admits (h.with_waiting _) hadd).1
      have hline := lockAddOwner_line (h.with_waiting (it :: q)) (ho _ List.mem_cons_self) hadd
      have hR₁ : Recorded w.Edge pl₁.ownerLine (queueLine q) := hR.2.congr hline
      rcases hcase with ⟨-, he'⟩ | ⟨-, he'⟩
      · rw [he'] at he
        cases he
        exact ⟨hw, fun _ _ h => h, fun _ _ h _ => h, hR₁⟩
      · rw [he'] at he
        obtain ⟨r, hr, he⟩ := map_eq_ok he
        cases he
        have := ih hadm.inv hw hn.2 (fun t ht hc => ?_) hR₁ hr
        · exact ⟨this.consistent, this.sub, fun x y hxy hx =>
            this.keep x y hxy fun hc => hx (List.mem_cons_of_mem _ hc), this.recorded⟩
        · rcases (hadm.owners t).1 hc with rfl | hc
          · exact hn.1 ht
          · exact ho t (List.mem_cons_of_mem _ ht) hc

end Virtuoso.Lock
