import Mathlib.Data.List.Chain
import Mathlib.Data.List.Nodup

/-!
# Depth-first search

A search is a stack, top first, and the list of finished vertices in the order in
which they finished.  A step pushes a new neighbour of the top or, if the top has none,
finishes it.  The invariant `Good` says what the order of finishing is worth: whoever
reaches a finished vertex has a partner that did not finish before it.
-/

universe u

namespace Virtuoso.Lib

open Relation

variable {α : Type u}

/-- Each reaches the other. -/
def Mutual (r : α → α → Prop) (x y : α) : Prop := ReflTransGen r x y ∧ ReflTransGen r y x

variable {r : α → α → Prop} {x y z : α}

theorem Mutual.refl (r : α → α → Prop) (x : α) : Mutual r x x := ⟨.refl, .refl⟩

theorem Mutual.symm (h : Mutual r x y) : Mutual r y x := ⟨h.2, h.1⟩

theorem Mutual.trans (h : Mutual r x y) (h' : Mutual r y z) : Mutual r x z :=
  ⟨h.1.trans h'.1, h'.2.trans h.2⟩

/-- A set that no step leaves is not left by a path. -/
theorem reflTransGen_mem {S : α → Prop} (hS : ∀ x y, S x → r x y → S y) (h : ReflTransGen r x y)
    (hx : S x) : S y := by
  induction h with
  | refl => exact hx
  | tail _ hstep ih => exact hS _ _ ih hstep

/-- A path that leaves a set has a first vertex outside. -/
theorem exists_exit {S : α → Prop} (h : ReflTransGen r x y) (hx : S x) (hy : ¬ S y) :
    ∃ u v, S u ∧ ReflTransGen r x u ∧ r u v ∧ ¬ S v ∧ ReflTransGen r v y := by
  induction h with
  | refl => exact absurd hx hy
  | @tail b c hb hbc ih =>
    by_cases hSb : S b
    · exact ⟨b, c, hSb, hb, hbc, hy, .refl⟩
    · obtain ⟨u, v, hu, hxu, huv, hv, hvb⟩ := ih hSb
      exact ⟨u, v, hu, hxu, huv, hv, hvb.tail hbc⟩

/-- A stack and what is finished. -/
structure Dfs (α : Type u) where
  stack : List α
  finished : List α

namespace Dfs

/-- The vertex was met. -/
def Met (d : Dfs α) (v : α) : Prop := v ∈ d.stack ∨ v ∈ d.finished

/-- Push a new neighbour of the top, or finish the top. -/
inductive Step (r : α → α → Prop) : Dfs α → Dfs α → Prop
  | push {t w : α} {rest fin : List α} : r t w → ¬ Met ⟨t :: rest, fin⟩ w →
      Step r ⟨t :: rest, fin⟩ ⟨w :: t :: rest, fin⟩
  | pop {t : α} {rest fin : List α} : (∀ w, r t w → Met ⟨t :: rest, fin⟩ w) →
      Step r ⟨t :: rest, fin⟩ ⟨rest, fin ++ [t]⟩

/-- The invariant of a search. -/
structure Good (r : α → α → Prop) (d : Dfs α) : Prop where
  nodup : (d.stack ++ d.finished).Nodup
  /-- The stack is a path. -/
  path : d.stack.IsChain fun a b => r b a
  /-- The edges of a finished vertex lead to vertices that were met. -/
  met : ∀ y ∈ d.finished, ∀ w, r y w → d.Met w
  /-- A finished vertex reaches finished vertices only, or it has a partner on the stack. -/
  partner : ∀ y ∈ d.finished, (∀ v, ReflTransGen r y v → v ∈ d.finished) ∨
    ∃ g ∈ d.stack, Mutual r y g
  /-- Whoever reaches a finished vertex has a partner that did not finish before it. -/
  order : ∀ A x B, d.finished = A ++ x :: B → ∀ y, ReflTransGen r y x → ∃ z, Mutual r y z ∧ z ∉ A

/-- Everything on the stack reaches its top. -/
theorem reach_head {t : α} {rest : List α} (h : (t :: rest).IsChain fun a b => r b a) {g : α}
    (hg : g ∈ t :: rest) : ReflTransGen r g t := by
  induction rest generalizing t with
  | nil =>
    rw [List.mem_singleton.1 hg]
  | cons b rest ih =>
    obtain ⟨hbt, hrest⟩ := List.isChain_cons_cons.1 h
    rcases List.mem_cons.1 hg with rfl | hg
    · exact .refl
    · exact (ih hrest hg).tail hbt

namespace Good

theorem push {t w : α} {rest fin : List α} (h : Good r ⟨t :: rest, fin⟩) (htw : r t w)
    (hw : ¬ Met ⟨t :: rest, fin⟩ w) : Good r ⟨w :: t :: rest, fin⟩ := by
  refine ⟨?_, List.isChain_cons_cons.2 ⟨htw, h.path⟩, ?_, ?_, h.order⟩
  · refine List.nodup_cons.2 ⟨fun hmem => hw ?_, h.nodup⟩
    exact List.mem_append.1 hmem
  · intro y hy v hyv
    rcases h.met y hy v hyv with hv | hv
    · exact .inl (List.mem_cons_of_mem _ hv)
    · exact .inr hv
  · intro y hy
    rcases h.partner y hy with hc | ⟨g, hg, hyg⟩
    · exact .inl hc
    · exact .inr ⟨g, List.mem_cons_of_mem _ hg, hyg⟩

theorem pop {t : α} {rest fin : List α} (h : Good r ⟨t :: rest, fin⟩)
    (ht : ∀ w, r t w → Met ⟨t :: rest, fin⟩ w) : Good r ⟨rest, fin ++ [t]⟩ := by
  have hmet (y : α) (hy : y ∈ fin ++ [t]) (w : α) (hyw : r y w) : w ∈ rest ∨ w ∈ fin ++ [t] := by
    have hw : Met ⟨t :: rest, fin⟩ w := by
      rcases List.mem_append.1 hy with hy | hy
      · exact h.met y hy w hyw
      · rw [List.mem_singleton.1 hy] at hyw
        exact ht w hyw
    rcases hw with hw | hw
    · rcases List.mem_cons.1 hw with rfl | hw
      · exact .inr (by simp)
      · exact .inl hw
    · exact .inr (List.mem_append_left _ hw)
  -- the finished top has a partner below, or reaches nothing new
  have htop : (∀ v, ReflTransGen r t v → v ∈ fin ++ [t]) ∨ ∃ g ∈ rest, Mutual r t g := by
    by_cases hc : ∀ v, ReflTransGen r t v → v ∈ fin ++ [t]
    · exact .inl hc
    · obtain ⟨v, htv, hv⟩ : ∃ v, ReflTransGen r t v ∧ v ∉ fin ++ [t] := by
        simpa only [not_forall, exists_prop] using hc
      obtain ⟨u, g, hu, htu, hug, hg, -⟩ := exists_exit (S := (· ∈ fin ++ [t])) htv (by simp) hv
      have hrest : g ∈ rest := (hmet u hu g hug).resolve_right hg
      exact .inr ⟨g, hrest, htu.tail hug, reach_head h.path (List.mem_cons_of_mem _ hrest)⟩
  refine ⟨?_, h.path.tail, hmet, ?_, ?_⟩
  · have hperm : (rest ++ (fin ++ [t])).Perm (t :: rest ++ fin) := by
      rw [← List.append_assoc]
      exact List.perm_append_singleton t (rest ++ fin)
    exact hperm.nodup_iff.2 h.nodup
  · intro y hy
    have hlift (y : α) (hyt : Mutual r y t) :
        (∀ v, ReflTransGen r y v → v ∈ fin ++ [t]) ∨ ∃ g ∈ rest, Mutual r y g := by
      rcases htop with hc | ⟨g, hg, htg⟩
      · exact .inl fun v hyv => hc v (hyt.2.trans hyv)
      · exact .inr ⟨g, hg, hyt.trans htg⟩
    rcases List.mem_append.1 hy with hy | hy
    · rcases h.partner y hy with hc | ⟨g, hg, hyg⟩
      · exact .inl fun v hyv => List.mem_append_left _ (hc v hyv)
      · rcases List.mem_cons.1 hg with rfl | hg
        · exact hlift y hyg
        · exact .inr ⟨g, hg, hyg⟩
    · rw [List.mem_singleton.1 hy]
      exact hlift t (.refl r t)
  · intro A x B heq y hyx
    rcases List.eq_nil_or_concat B with rfl | ⟨B, b, rfl⟩
    · -- `x` is the vertex that finishes now: all that did not finish yet is at or after it
      obtain ⟨rfl, rfl⟩ : A = fin ∧ x = t := by
        obtain ⟨hA, hx⟩ := List.append_inj' heq.symm rfl
        exact ⟨hA, by simpa using hx⟩
      have hxfin : x ∉ A := by
        have := (List.nodup_cons.1 h.nodup).1
        exact fun hx => this (List.mem_append_right _ hx)
      by_cases hy : y ∈ A
      · rcases h.partner y hy with hc | ⟨g, hg, hyg⟩
        · exact absurd (hc x hyx) hxfin
        · refine ⟨g, hyg, fun hgA => ?_⟩
          exact (List.nodup_append.1 h.nodup).2.2 g hg g hgA rfl
      · exact ⟨y, .refl r y, hy⟩
    · have hfin : fin = A ++ x :: B := by
        have : fin ++ [t] = (A ++ x :: B) ++ [b] := by simpa using heq
        exact (List.append_inj' this rfl).1
      exact h.order A x B hfin y hyx

theorem step {d d' : Dfs α} (h : Good r d) (hs : Step r d d') : Good r d' := by
  cases hs with
  | push htw hw => exact h.push htw hw
  | pop ht => exact h.pop ht

theorem nil (r : α → α → Prop) : Good r ⟨[], []⟩ := by
  refine ⟨by simp, by simp, ?_, ?_, ?_⟩
  · intro y hy
    cases hy
  · intro y hy
    cases hy
  · intro A x B heq
    cases A with
    | nil => cases heq
    | cons a A => cases heq

/-- With an empty stack a new search may start anywhere. -/
theorem start {x : α} {fin : List α} (h : Good r ⟨[], fin⟩) (hx : x ∉ fin) : Good r ⟨[x], fin⟩ := by
  refine ⟨List.nodup_cons.2 ⟨hx, h.nodup⟩, by simp, ?_, ?_, h.order⟩
  · intro y hy w hyw
    exact .inr ((h.met y hy w hyw).resolve_left (by simp))
  · intro y hy
    refine .inl ((h.partner y hy).resolve_right ?_)
    rintro ⟨g, hg, -⟩
    cases hg

/-- Whoever reaches one of the vertices that finished last has a partner among them. -/
theorem exists_partner {A B : List α} (h : Good r ⟨[], A ++ B⟩) {x b : α} (hb : b ∈ B)
    (hxb : ReflTransGen r x b) (hall : ∀ z, ReflTransGen r x z → z ∈ A ++ B) :
    ∃ z ∈ B, Mutual r x z := by
  obtain ⟨B₁, B₂, rfl⟩ := List.append_of_mem hb
  obtain ⟨z, hz, hnot⟩ := h.order (A ++ B₁) b B₂ (by simp) x hxb
  refine ⟨z, ?_, hz⟩
  have hmem := hall z hz.1
  rw [← List.append_assoc] at hmem
  exact List.mem_append_right _ ((List.mem_append.1 hmem).resolve_left hnot)

/-- When the stack is empty, nothing leads out of what is finished. -/
theorem closed {fin : List α} (h : Good r ⟨[], fin⟩) {y w : α} (hy : y ∈ fin) (hyw : r y w) :
    w ∈ fin := (h.met y hy w hyw).resolve_left (by simp)

end Good

/-- A search that was started at `x` over the finished vertices `base`. -/
structure From (r : α → α → Prop) (x : α) (base : List α) (d : Dfs α) : Prop where
  /-- It finishes what it reaches. -/
  finished : ∃ new, d.finished = base ++ new ∧ ∀ v ∈ new, ReflTransGen r x v
  reach : ∀ v ∈ d.stack, ReflTransGen r x v
  /-- The start finishes last. -/
  last : d.stack.getLast? = some x ∨ d.stack = [] ∧ d.finished.getLast? = some x

theorem from_start (r : α → α → Prop) (x : α) (base : List α) : From r x base ⟨[x], base⟩ where
  finished := ⟨[], by simp, by simp⟩
  reach v hv := by
    rw [List.mem_singleton.1 hv]
  last := .inl rfl

theorem From.step {base : List α} {d d' : Dfs α} (h : From r x base d) (hs : Step r d d') :
    From r x base d' := by
  obtain ⟨new, hnew, hreach⟩ := h.finished
  cases hs with
  | @push t w rest fin htw hw =>
    refine ⟨⟨new, hnew, hreach⟩, ?_, ?_⟩
    · intro v hv
      rcases List.mem_cons.1 hv with rfl | hv
      · exact (h.reach t (by simp)).tail htw
      · exact h.reach v hv
    · refine .inl ?_
      rcases h.last with hl | ⟨hnil, -⟩
      · exact (List.getLast?_cons_cons).trans hl
      · cases hnil
  | @pop t rest fin ht =>
    refine ⟨⟨new ++ [t], ?_, ?_⟩, fun v hv => h.reach v (List.mem_cons_of_mem _ hv), ?_⟩
    · change fin ++ [t] = _
      rw [show fin = base ++ new from hnew, List.append_assoc]
    · intro v hv
      rcases List.mem_append.1 hv with hv | hv
      · exact hreach v hv
      · rw [List.mem_singleton.1 hv]
        exact h.reach t (by simp)
    · rcases h.last with hl | ⟨hnil, -⟩
      · cases rest with
        | nil =>
          refine .inr ⟨rfl, ?_⟩
          have : t = x := by simpa using hl
          simp [this]
        | cons b rest => exact .inl ((List.getLast?_cons_cons).symm.trans hl)
      · cases hnil

/-- A search that is over has finished what the start reaches beyond the base. -/
theorem From.mem_iff {base fin : List α} (h : From r x base ⟨[], fin⟩) (hg : Good r ⟨[], fin⟩)
    {v : α} : v ∈ fin ↔ v ∈ base ∨ ReflTransGen r x v := by
  obtain ⟨new, hnew, hreach⟩ := h.finished
  have hfin : fin = base ++ new := hnew
  constructor
  · intro hv
    rw [hfin] at hv
    exact (List.mem_append.1 hv).imp_right (hreach v)
  · rintro (hv | hv)
    · exact hfin ▸ List.mem_append_left _ hv
    · refine reflTransGen_mem (fun a b ha hab => hg.closed ha hab) hv ?_
      rcases h.last with hl | ⟨-, hl⟩
      · cases hl
      · exact List.mem_of_getLast? hl

end Dfs

end Virtuoso.Lib
