import Virtuoso.Lock.Basic
import Mathlib.Tactic.Tauto

/-!
# Whom a queued request waits for

A line of requests is a list with the nearest request first; the owners of a
lock are the far end of the line.  A request that joins the line waits for
`preds`: a shared one for the last exclusive one before it, an exclusive one for
the exclusive one right before it or else for the run of shared ones right
before it.  This is what `lock_check_deadlock_1` computes with three indices.

`Recorded E r q` says that the edges of `E` cover these waits for each request of
the queue `q` behind the line `r`.  It is stable when a request leaves the line,
provided its own waits are passed on to those behind it, with one exception: an
exclusive request between two shared ones, whose end merges two runs
(`Recorded.erase`).
-/

universe u

namespace Virtuoso.Lock

open Relation

variable {Trx : Type u}

/-- The run of shared requests at the near end of a line. -/
def sharedRun : List (Trx × Mode) → List Trx
  | (t, .shared) :: r => t :: sharedRun r
  | _ => []

/-- The nearest exclusive request of a line. -/
def lastExcl : List (Trx × Mode) → Option Trx
  | (_, .shared) :: r => lastExcl r
  | (t, .exclusive) :: _ => some t
  | [] => none

/-- The requests of a line that a new one of the given mode waits for. -/
def preds (r : List (Trx × Mode)) : Mode → List Trx
  | .shared => (lastExcl r).toList
  | .exclusive =>
    match r with
    | (t, .exclusive) :: _ => [t]
    | _ => sharedRun r

/-- The mode of the request that joins a line right after its far end: the last
of `r`, or the newcomer of mode `m`. -/
def behindMode : List (Trx × Mode) → Mode → Mode
  | [], m => m
  | (_, m) :: r, _ => behindMode r m

/-! ## Lines -/

@[simp] theorem preds_cons_exclusive (t : Trx) (r : List (Trx × Mode)) (m : Mode) :
    preds ((t, .exclusive) :: r) m = [t] := by
  cases m <;> rfl

@[simp] theorem preds_cons_shared_shared (t : Trx) (r : List (Trx × Mode)) :
    preds ((t, .shared) :: r) .shared = preds r .shared := rfl

@[simp] theorem preds_cons_shared_exclusive (t : Trx) (r : List (Trx × Mode)) :
    preds ((t, .shared) :: r) .exclusive = t :: sharedRun r := rfl

theorem sharedRun_subset (r : List (Trx × Mode)) : sharedRun r ⊆ r.map Prod.fst := by
  induction r with
  | nil => exact List.nil_subset _
  | cons a r ih =>
    obtain ⟨t, _ | _⟩ := a
    · exact List.nil_subset _
    · exact List.cons_subset_cons t ih

theorem lastExcl_mem {r : List (Trx × Mode)} {t : Trx} (h : lastExcl r = some t) :
    (t, .exclusive) ∈ r := by
  induction r with
  | nil => cases h
  | cons a r ih =>
    obtain ⟨t', _ | _⟩ := a
    · cases h; exact List.mem_cons_self
    · exact List.mem_cons_of_mem _ (ih h)

theorem preds_subset (r : List (Trx × Mode)) (m : Mode) : preds r m ⊆ r.map Prod.fst := by
  cases m with
  | shared =>
    intro t ht
    exact List.mem_map_of_mem (lastExcl_mem (Option.mem_toList.1 ht))
  | exclusive =>
    match r with
    | [] => exact List.nil_subset _
    | (t, .exclusive) :: r => simp
    | (t, .shared) :: r => exact sharedRun_subset _

variable {r₁ : List (Trx × Mode)} {m : Mode}

/-- What is waited for in the near part of a line is waited for in the whole line. -/
theorem preds_subset_append (r₁ r₂ : List (Trx × Mode)) (m : Mode) :
    preds r₁ m ⊆ preds (r₁ ++ r₂) m := by
  induction r₁ generalizing m with
  | nil => cases m <;> exact List.nil_subset _
  | cons a r₁ ih =>
    obtain ⟨t, _ | _⟩ := a
    · simp
    · cases m with
      | shared => exact ih .shared
      | exclusive =>
        match r₁ with
        | [] => simp [sharedRun]
        | (_, .exclusive) :: _ => simp [sharedRun]
        | (_, .shared) :: _ => exact List.cons_subset_cons t (ih .exclusive)

/-- A run of shared requests goes on where the line does. -/
theorem sharedRun_append (h : ∀ p ∈ r₁, p.2 = .shared) (r₂ : List (Trx × Mode)) :
    sharedRun (r₁ ++ r₂) = r₁.map Prod.fst ++ sharedRun r₂ := by
  induction r₁ with
  | nil => rfl
  | cons a r₁ ih =>
    obtain ⟨t, m⟩ := a
    cases h _ List.mem_cons_self
    exact congrArg (t :: ·) (ih fun p hp => h p (List.mem_cons_of_mem _ hp))

/-- Shared requests do not hide an exclusive one. -/
theorem lastExcl_append (h : ∀ p ∈ r₁, p.2 = .shared) (r₂ : List (Trx × Mode)) :
    lastExcl (r₁ ++ r₂) = lastExcl r₂ := by
  induction r₁ with
  | nil => rfl
  | cons a r₁ ih =>
    obtain ⟨t, m⟩ := a
    cases h _ List.mem_cons_self
    exact ih fun p hp => h p (List.mem_cons_of_mem _ hp)

/-- A shared line is waited for as a whole, and only by exclusive requests. -/
theorem preds_of_shared {r : List (Trx × Mode)} (h : ∀ p ∈ r, p.2 = .shared) :
    preds r .exclusive = r.map Prod.fst ∧ preds r .shared = [] := by
  have hrun := sharedRun_append h []
  have hexcl := lastExcl_append h []
  rw [List.append_nil] at hrun hexcl
  refine ⟨?_, by simp [preds, hexcl, lastExcl]⟩
  match r with
  | [] => rfl
  | (t, .shared) :: r => simpa [preds, sharedRun] using hrun
  | (t, .exclusive) :: r => simp at h

/-- Taking a request out of a line prolongs a run of shared requests only where
it stood between two of them. -/
theorem sharedRun_erase {r₂ : List (Trx × Mode)} {k : Trx}
    (hm : m = .exclusive → behindMode r₁ .shared = .shared → sharedRun r₂ = []) :
    sharedRun (r₁ ++ r₂) ⊆ sharedRun (r₁ ++ (k, m) :: r₂) := by
  induction r₁ with
  | nil =>
    cases m with
    | exclusive => simp [hm rfl rfl]
    | shared => exact List.subset_cons_self _ _
  | cons a r₁ ih =>
    obtain ⟨t, _ | _⟩ := a
    · exact List.nil_subset _
    · exact List.cons_subset_cons t (ih hm)

/-- When a request leaves a line, whoever stood behind it waits for no one new,
except that it may inherit the waits of the one that left. -/
theorem preds_erase {r₂ : List (Trx × Mode)} {k : Trx} {m' : Mode} {y : Trx}
    (hm : m = .exclusive → behindMode r₁ m' = .shared → sharedRun r₂ = [])
    (hy : y ∈ preds (r₁ ++ r₂) m') :
    y ∈ preds (r₁ ++ (k, m) :: r₂) m' ∨
      (k ∈ preds (r₁ ++ (k, m) :: r₂) m' ∧ y ∈ preds r₂ m) := by
  induction r₁ generalizing m' with
  | nil =>
    match m, m' with
    | .exclusive, .exclusive => exact .inr ⟨by simp, hy⟩
    | .exclusive, .shared =>
      -- an exclusive request between shared ones is excluded by `hm`
      refine .inr ⟨by simp, ?_⟩
      match r₂ with
      | [] => exact hy
      | (t, .exclusive) :: r => simpa using hy
      | (t, .shared) :: r => exact absurd (hm rfl rfl) (by simp [sharedRun])
    | .shared, .shared => exact .inl hy
    | .shared, .exclusive =>
      match r₂ with
      | [] => exact absurd hy List.not_mem_nil
      | (t, .exclusive) :: r => exact .inr ⟨by simp, by simpa using hy⟩
      | (t, .shared) :: r => exact .inl (List.mem_cons_of_mem _ hy)
  | cons a r₁ ih =>
    obtain ⟨t, _ | _⟩ := a
    · simp only [List.cons_append, preds_cons_exclusive] at hy ⊢
      exact .inl hy
    · cases m' with
      | shared => simpa using ih hm (by simpa using hy)
      | exclusive =>
        simp only [List.cons_append, preds_cons_shared_exclusive] at hy ⊢
        exact .inl (List.cons_subset_cons t (sharedRun_erase hm) hy)

/-- Behind an exclusive request the far end of the line does not matter. -/
theorem preds_append_of_exclusive {t : Trx} (h : (t, .exclusive) ∈ r₁) (r₂ r₂' : List (Trx × Mode))
    (m : Mode) : preds (r₁ ++ r₂) m = preds (r₁ ++ r₂') m := by
  induction r₁ generalizing m with
  | nil => cases h
  | cons a r₁ ih =>
    obtain ⟨t', _ | _⟩ := a
    · simp
    · have h' : (t, .exclusive) ∈ r₁ := by simpa using h
      cases m with
      | shared => exact ih h' .shared
      | exclusive =>
        match r₁ with
        | (_, .exclusive) :: _ => rfl
        | (_, .shared) :: _ => exact congrArg (t' :: ·) (ih h' .exclusive)

/-- A line whose far end is shared looks the same for every order of it. -/
theorem preds_append_congr {o o' : List (Trx × Mode)} (ho : ∀ p ∈ o, p.2 = .shared)
    (ho' : ∀ p ∈ o', p.2 = .shared) (h : ∀ t, t ∈ o.map Prod.fst ↔ t ∈ o'.map Prod.fst) (m : Mode)
    (y : Trx) : y ∈ preds (r₁ ++ o) m ↔ y ∈ preds (r₁ ++ o') m := by
  induction r₁ generalizing m with
  | nil =>
    cases m with
    | shared => simp [(preds_of_shared ho).2, (preds_of_shared ho').2]
    | exclusive =>
      rw [List.nil_append, List.nil_append, (preds_of_shared ho).1, (preds_of_shared ho').1]
      exact h y
  | cons a r₁ ih =>
    obtain ⟨t, _ | _⟩ := a
    · simp
    · cases m with
      | shared => exact ih .shared
      | exclusive =>
        match r₁ with
        | [] =>
          have hs := sharedRun_append ho []
          have hs' := sharedRun_append ho' []
          simp only [List.append_nil, sharedRun] at hs hs'
          simp [hs, hs', h y]
        | (_, .exclusive) :: _ => rfl
        | (_, .shared) :: _ =>
          simp only [List.cons_append, preds_cons_shared_exclusive, List.mem_cons]
          exact or_congr_right (ih .exclusive)

/-! ## Recorded waits -/

/-- The edges of `E` cover what each request of the queue `q` behind the line
`r` waits for. -/
def Recorded (E : Trx → Trx → Prop) : List (Trx × Mode) → List (Trx × Mode) → Prop
  | _, [] => True
  | r, (x, m) :: q => (∀ y ∈ preds r m, E x y) ∧ Recorded E ((x, m) :: r) q

namespace Recorded

variable {E E' : Trx → Trx → Prop} {r r' q q₁ q₂ : List (Trx × Mode)}

/-- Only edges from the queue to the queue or the line matter. -/
theorem imp (h : Recorded E r q)
    (hE : ∀ x ∈ q.map Prod.fst, ∀ y ∈ (q ++ r).map Prod.fst, E x y → E' x y) :
    Recorded E' r q := by
  induction q generalizing r with
  | nil => trivial
  | cons a q ih =>
    obtain ⟨x, m⟩ := a
    refine ⟨fun y hy => hE x (by simp) y ?_ (h.1 y hy), ih h.2 fun x' hx' y hy => ?_⟩
    · exact List.map_subset _ (List.subset_append_right _ _) (preds_subset r m hy)
    · refine hE x' (List.mem_cons_of_mem _ hx') y ?_
      simpa [or_left_comm] using hy

/-- The line matters only through `preds`. -/
theorem congr (h : Recorded E r q)
    (hr : ∀ r₁ m y, y ∈ preds (r₁ ++ r') m → y ∈ preds (r₁ ++ r) m) : Recorded E r' q := by
  induction q generalizing r r' with
  | nil => trivial
  | cons a q ih =>
    obtain ⟨x, m⟩ := a
    refine ⟨fun y hy => h.1 y (hr [] m y hy), ih h.2 fun r₁ m' y hy => ?_⟩
    have := hr (r₁ ++ [(x, m)]) m' y
    simp only [List.append_assoc, List.cons_append, List.nil_append] at this
    exact this hy

/-- A queue splits into its first part and the rest behind it. -/
theorem append_iff :
    Recorded E r (q₁ ++ q₂) ↔ Recorded E r q₁ ∧ Recorded E (q₁.reverse ++ r) q₂ := by
  induction q₁ generalizing r with
  | nil => simp [Recorded]
  | cons a q₁ ih =>
    obtain ⟨x, m⟩ := a
    simp [Recorded, ih, and_assoc]

/-- The mode right behind the far end of a line, seen from the queue. -/
theorem behindMode_eq {x : Trx} (r₁ q : List (Trx × Mode)) :
    ((r₁.reverse ++ (x, m) :: q).head?).map Prod.snd = some (behindMode r₁ m) := by
  induction r₁ generalizing x m q with
  | nil => rfl
  | cons a r₁ ih =>
    obtain ⟨x', m'⟩ := a
    simpa [behindMode] using ih (x := x') (m := m') ((x, m) :: q)

section Erase

variable {k : Trx} {m : Mode}
  (hE : ∀ x y, x ≠ k → y ≠ k → E x y → E' x y)
  (hk : ∀ x y, x ≠ k → y ≠ k → E x k → E k y → E' x y)
include hE hk

/-- A request of the line leaves, and those behind it inherit its waits. -/
theorem erase_line (r₁ : List (Trx × Mode)) (h : Recorded E (r₁ ++ (k, m) :: r) q)
    (hr : ∀ y ∈ preds r m, E k y) (hn : k ∉ (q ++ (r₁ ++ r)).map Prod.fst)
    (hm : m = .exclusive → (r₁.reverse ++ q).head?.map Prod.snd = some .shared →
      sharedRun r = []) : Recorded E' (r₁ ++ r) q := by
  induction q generalizing r₁ with
  | nil => trivial
  | cons a q ih =>
    obtain ⟨x, m'⟩ := a
    have hx : x ≠ k := by rintro rfl; simp at hn
    refine ⟨fun y hy => ?_, ?_⟩
    · have hyk : y ≠ k := by
        rintro rfl
        have := preds_subset _ _ hy
        simp only [List.map_append, List.mem_append, List.map_cons] at hn this
        tauto
      have hm' : m = .exclusive → behindMode r₁ m' = .shared → sharedRun r = [] :=
        fun he hb => hm he (by rw [behindMode_eq, hb])
      rcases preds_erase hm' hy with hy | ⟨hy, hyr⟩
      · exact hE x y hx hyk (h.1 y hy)
      · exact hk x y hx hyk (h.1 k hy) (hr y hyr)
    · refine ih ((x, m') :: r₁) h.2 ?_ ?_
      · simp only [List.map_append, List.map_cons, List.cons_append, List.mem_append,
          List.mem_cons] at hn ⊢
        tauto
      · simpa using hm

/-- A queued request leaves, and those behind it inherit its waits.  It must not
be an exclusive one between two shared ones. -/
theorem erase (h : Recorded E r (q₁ ++ (k, m) :: q₂))
    (hn : k ∉ (q₁ ++ q₂ ++ r).map Prod.fst)
    (hm : m = .exclusive → q₂.head?.map Prod.snd = some .shared →
      sharedRun (q₁.reverse ++ r) = []) : Recorded E' r (q₁ ++ q₂) := by
  rw [append_iff] at h ⊢
  refine ⟨h.1.imp fun x hx y hy hxy => hE x y ?_ ?_ hxy, ?_⟩
  · rintro rfl
    simp only [List.map_append, List.mem_append] at hn
    tauto
  · rintro rfl
    simp only [List.map_append, List.mem_append] at hn hy
    tauto
  · refine erase_line hE hk [] h.2.2 h.2.1 ?_ hm
    show k ∉ (q₂ ++ (q₁.reverse ++ r)).map Prod.fst
    simp only [List.map_append, List.map_reverse, List.mem_append, List.mem_reverse] at hn ⊢
    tauto

end Erase

/-- A conflict with an owner is covered by a path: along recorded edges a queued
request reaches every owner if it is exclusive, and an exclusive owner in any
case. -/
theorem path (h : Recorded E r q) {o : Trx} (hx : ∃ y ∈ preds r .exclusive, ReflTransGen E y o)
    (hs : ∀ y ∈ lastExcl r, ReflTransGen E y o) {x : Trx} (hmem : (x, m) ∈ q)
    (hm : m = .exclusive ∨ lastExcl r ≠ none) : TransGen E x o := by
  induction q generalizing r with
  | nil => cases hmem
  | cons a q ih =>
    obtain ⟨x', m'⟩ := a
    -- an exclusive request, and a shared one behind an exclusive one, reach `o`
    have hreach : m' = .exclusive ∨ lastExcl r ≠ none → TransGen E x' o := by
      intro hm'
      cases m' with
      | exclusive =>
        obtain ⟨y, hy, hyo⟩ := hx
        exact .head' (h.1 y hy) hyo
      | shared =>
        obtain ⟨y, hy⟩ := Option.ne_none_iff_exists'.1 (hm'.resolve_left (by simp))
        exact .head' (h.1 y (by simp [preds, hy])) (hs y hy)
    rcases List.mem_cons.1 hmem with heq | htail
    · cases heq
      exact hreach hm
    · cases m' with
      | exclusive =>
        have hx' := (hreach (.inl rfl)).to_reflTransGen
        refine ih h.2 ⟨x', by simp, hx'⟩ (fun y hy => ?_) htail (.inr (by simp [lastExcl]))
        cases hy
        exact hx'
      | shared =>
        refine ih h.2 ?_ hs htail hm
        match r with
        | (t, .exclusive) :: r =>
          exact ⟨x', by simp, (hreach (.inr (by simp [lastExcl]))).to_reflTransGen⟩
        | (t, .shared) :: r =>
          obtain ⟨y, hy, hyo⟩ := hx
          exact ⟨y, List.mem_cons_of_mem _ hy, hyo⟩
        | [] =>
          obtain ⟨y, hy, -⟩ := hx
          cases hy

/-- A queued request reaches every request in front of it with which it conflicts. -/
theorem path_front {o x : Trx} {mo : Mode} (h : Recorded E r (q₁ ++ (o, mo) :: q₂))
    (hmem : (x, m) ∈ q₂) (hm : m = .exclusive ∨ mo = .exclusive) : TransGen E x o := by
  -- what stands in front of `o` does not matter
  have hrest : Recorded E [(o, mo)] q₂ := by
    refine (append_iff.1 h).2.2.congr fun r₁ m' y hy => ?_
    have hsub := preds_subset_append (r₁ ++ [(o, mo)]) (q₁.reverse ++ r) m' hy
    rwa [List.append_assoc] at hsub
  refine hrest.path ⟨o, ?_, .refl⟩ (fun y hy => ?_) hmem (hm.imp_right fun hmo => ?_)
  · cases mo <;> simp
  · cases mo with
    | exclusive =>
      cases hy
      exact .refl
    | shared => cases hy
  · rw [hmo]
    simp [lastExcl]

end Recorded

end Virtuoso.Lock
