import Virtuoso.Lib.Leapfrog
import Virtuoso.Text.Position

/-!
# Words near each other

`wp_proximity` of `text.c` decides whether two words of a document stand as a relation between
them asks: the second `dist` places after the first for the words of a phrase, less than `dist`
places apart for `NEAR`.  It walks the two position strings side by side and counts the pairs it
finds.

For a phrase the walk is exact.  For `NEAR` it compares only some pairs: it advances one word
until it has passed the other, and then compares the place where it landed, not the one it came
from.  What it compares are the pairs of `Lib.Seen`, and `wpProximity_decides_iff` says that the
answer is right exactly if a near pair, when there is one, is among them.
-/

namespace Virtuoso.Text

open Lib

/-- `word_rel_t`, the fields `wp_proximity` uses; the hits are those up to `wrl_hit_fill`. -/
structure WordRel where
  dist : ℤ
  isDistFixed : Bool
  isLefttoright : Bool
  maxHits : ℤ := 0
  hits : List (ℤ × ℤ) := []
  score : ℤ := 0
deriving DecidableEq, Repr

namespace WordRel

/-- The macro `HIT`. -/
def hit (rel : WordRel) (pos1 pos2 : ℤ) : WordRel :=
  if pos1 ≠ pos2 then
    { rel with
      score := int32 (rel.score + 1)
      hits := if (rel.hits.length : ℤ) < rel.maxHits then rel.hits ++ [(pos1, pos2)] else rel.hits }
  else rel

def cleared (rel : WordRel) : WordRel := { rel with hits := [], score := 0 }

end WordRel

/-! ## The walk -/

def lefttorightLoop (dist : ℤ) : ℕ → Cursor → Cursor → WordRel → Option WordRel
  | 0, _, _, _ => none
  | fuel + 1, p1, p2, rel =>
    if p1.pos = -1 ∨ p2.pos = -1 then some rel
    else if (if rel.isDistFixed then p2.pos = int32 (p1.pos + dist)
        else p1.pos ≤ p2.pos ∧ p2.pos ≤ int32 (p1.pos + dist)) then do
      let p1' ← wpNext p1
      let p2' ← wpNext p2
      lefttorightLoop dist fuel p1' p2' (rel.hit p1.pos p2.pos)
    else if p2.pos ≤ int32 (p1.pos + dist) then do
      let p2' ← wpNext p2
      lefttorightLoop dist fuel p1 p2' rel
    else do
      let p1' ← wpNext p1
      lefttorightLoop dist fuel p1' p2 rel

/-- The jumps to `next_pos1` (`next_pos2`): advance `p` until it has passed `pos` or is at the
end.  Returns the position before, `prev`, too. -/
def nextPos (pos : ℤ) : ℕ → Cursor → Option (ℤ × Cursor)
  | 0, _ => none
  | fuel + 1, p => do
      let p' ← wpNext p
      if p'.pos ≠ -1 ∧ p'.pos ≤ pos then nextPos pos fuel p' else some (p.pos, p')

/-- One of the two halves of the loop for `NEAR`: `p` is advanced past `other`.  Without a cursor
the walk is over. -/
def advancePast (dist : ℤ) (p other : Cursor) (rel : WordRel) :
    Option (WordRel × Option Cursor) := do
  let (prev, p') ← nextPos other.pos (p.rest.length + 1) p
  if p'.pos = -1 then
    some (if other.pos < int32 (prev + dist) then rel.hit prev other.pos else rel, none)
  else
    some (if p'.pos < int32 (other.pos + dist) then rel.hit p'.pos other.pos else rel, some p')

def nearLoop (dist : ℤ) : ℕ → Cursor → Cursor → WordRel → Option WordRel
  | 0, _, _, _ => none
  | fuel + 1, p1, p2, rel =>
    if p1.pos < p2.pos then do
      let (rel, p1') ← advancePast dist p1 p2 rel
      p1'.elim (some rel) (nearLoop dist fuel · p2 rel)
    else do
      let (rel, p2') ← advancePast dist p2 p1 rel
      p2'.elim (some rel) (nearLoop dist fuel p1 · rel)

/-- The part of `wp_proximity` after the exchange of the two words. -/
def walk (dist : ℤ) (p1 p2 : List UInt8) (rel : WordRel) : Option WordRel := do
  let c1 ← wpNext ⟨p1, 0⟩
  let c2 ← wpNext ⟨p2, 0⟩
  let fuel := p1.length + p2.length + 1
  if rel.isLefttoright then lefttorightLoop dist fuel c1 c2 rel.cleared
  else nearLoop dist fuel c1 c2 rel.cleared

/-- `wp_proximity` on two position strings.  The value it returns is the score of the relation;
`none` is a read beyond the end of a string. -/
def wpProximity (p1 p2 : List UInt8) (rel : WordRel) : Option WordRel :=
  if rel.dist = 0 ∧ rel.isDistFixed = false then some { rel with score := 1 }
  else if rel.isLefttoright ∧ 0 > rel.dist then walk (int32 (-rel.dist)) p2 p1 rel
  else walk rel.dist p1 p2 rel

/-! ## Hits -/

namespace WordRel

variable {rel : WordRel} {a b : ℤ}

@[simp] theorem hit_self (rel : WordRel) (a : ℤ) : rel.hit a a = rel := by simp [hit]

@[simp] theorem hit_isDistFixed (rel : WordRel) (a b : ℤ) :
    (rel.hit a b).isDistFixed = rel.isDistFixed := by
  unfold hit
  split_ifs <;> rfl

/-- The score counts the hits of two different positions, as long as it fits. -/
theorem hit_score (h : a ≠ b) (h0 : 0 ≤ rel.score) (h1 : rel.score + 1 < 2 ^ 31) :
    (rel.hit a b).score = rel.score + 1 := by
  rw [hit, if_pos h]
  exact int32_of_lt (by omega) h1

end WordRel

section Overflow

variable {x w : ℕ} {dist : ℤ} (hx : x < 2 ^ 31) (h : -2 ^ 31 ≤ dist) (h' : dist < 2 ^ 31)
include hx h h'

/-- A sum of two `int`s that overflows is below every position. -/
theorem le_int32_add_iff :
    (w : ℤ) ≤ int32 (x + dist) ↔ (w : ℤ) ≤ x + dist ∧ x + dist < 2 ^ 31 := by
  rcases lt_or_ge ((x : ℤ) + dist) (2 ^ 31) with hlt | hge
  · rw [int32_of_lt (by omega) hlt]
    exact (and_iff_left hlt).symm
  · rw [int32_of_ge hge (by omega)]
    omega

theorem lt_int32_add_iff :
    (w : ℤ) < int32 (x + dist) ↔ (w : ℤ) < x + dist ∧ x + dist < 2 ^ 31 := by
  have hle := le_int32_add_iff (w := w + 1) hx h h'
  push_cast at hle
  exact hle

theorem eq_int32_add_iff (hw : w < 2 ^ 31) : (w : ℤ) = int32 (x + dist) ↔ (w : ℤ) = x + dist := by
  have hle := le_int32_add_iff (w := w) hx h h'
  have hlt := lt_int32_add_iff (w := w) hx h h'
  omega

end Overflow

/-! ## Phrases -/

/-- Some position of the second word is `dist` places after one of the first. -/
def AtDist (dist : ℤ) (xs ys : List ℕ) : Prop := ∃ p ∈ xs, ∃ q ∈ ys, (q : ℤ) = p + dist

section AtDist

variable {dist : ℤ} {x y : ℕ} {xs ys : List ℕ}

theorem Positions.le_of_mem (hx : Positions (x :: xs)) (hy : y ∈ x :: xs) : x ≤ y := by
  rcases List.mem_cons.1 hy with rfl | hy
  · exact le_rfl
  · exact (hx.lt_of_mem hy).le

@[simp] theorem not_atDist_nil_left : ¬ AtDist dist [] ys := by simp [AtDist]

@[simp] theorem not_atDist_nil_right : ¬ AtDist dist xs [] := by simp [AtDist]

/-- A second position that is too early is of no use. -/
theorem atDist_cons_right_iff (hx : Positions (x :: xs)) (h : (y : ℤ) < x + dist) :
    AtDist dist (x :: xs) (y :: ys) ↔ AtDist dist (x :: xs) ys := by
  constructor
  · rintro ⟨p, hp, q, hq, hpq⟩
    have hxp := hx.le_of_mem hp
    rcases List.mem_cons.1 hq with rfl | hq
    · omega
    · exact ⟨p, hp, q, hq, hpq⟩
  · rintro ⟨p, hp, q, hq, hpq⟩
    exact ⟨p, hp, q, List.mem_cons_of_mem _ hq, hpq⟩

/-- A first position that is too early, or too late for every second one, is of no use. -/
theorem atDist_cons_left_iff (hy : Positions (y :: ys))
    (h : (x : ℤ) + dist < y ∨ 2 ^ 31 ≤ (x : ℤ) + dist) :
    AtDist dist (x :: xs) (y :: ys) ↔ AtDist dist xs (y :: ys) := by
  constructor
  · rintro ⟨p, hp, q, hq, hpq⟩
    have hq31 := hy.lt q hq
    have hyq := hy.le_of_mem hq
    rcases List.mem_cons.1 hp with rfl | hp
    · omega
    · exact ⟨p, hp, q, hq, hpq⟩
  · rintro ⟨p, hp, q, hq, hpq⟩
    exact ⟨p, List.mem_cons_of_mem _ hp, q, hq, hpq⟩

theorem atDist_cons_cons (h : (y : ℤ) = x + dist) : AtDist dist (x :: xs) (y :: ys) :=
  ⟨x, List.mem_cons_self, y, List.mem_cons_self, h⟩

end AtDist

section Phrase

variable {dist : ℤ} {x y : ℕ} {xs ys : List ℕ} {p1 p2 : Cursor} {rel : WordRel}

/-- One turn of the loop for a phrase, before either word is at the end. -/
theorem lefttorightLoop_turn (hd : -2 ^ 31 ≤ dist) (hd' : dist < 2 ^ 31)
    (h1 : p1.Holds (x :: xs)) (h2 : p2.Holds (y :: ys)) (hfixed : rel.isDistFixed = true)
    (fuel : ℕ) :
    ∃ p1' p2', p1'.Holds xs ∧ p2'.Holds ys ∧ lefttorightLoop dist (fuel + 1) p1 p2 rel =
      if (y : ℤ) = x + dist then lefttorightLoop dist fuel p1' p2' (rel.hit x y)
      else if (y : ℤ) ≤ x + dist ∧ (x : ℤ) + dist < 2 ^ 31 then
        lefttorightLoop dist fuel p1 p2' rel
      else lefttorightLoop dist fuel p1' p2 rel := by
  obtain ⟨p1', hnext1, h1'⟩ := h1.wpNext_eq
  obtain ⟨p2', hnext2, h2'⟩ := h2.wpNext_eq
  obtain ⟨hpos1, -, hxs⟩ := h1
  obtain ⟨hpos2, -, hys⟩ := h2
  have hgo : ¬ ((x : ℤ) = -1 ∨ (y : ℤ) = -1) := by omega
  refine ⟨p1', p2', h1', h2', ?_⟩
  simp only [lefttorightLoop, hpos1, hpos2, if_neg hgo, hfixed, if_true, hnext1, hnext2,
    Option.bind_eq_bind, Option.bind_some, eq_int32_add_iff hxs.head_lt hd hd' hys.head_lt,
    le_int32_add_iff hxs.head_lt hd hd']

/-- The loop finds a pair at the distance if there is one. -/
theorem lefttorightLoop_spec {fuel : ℕ} (hne : dist ≠ 0) (hd : -2 ^ 31 ≤ dist)
    (hd' : dist < 2 ^ 31) (h1 : p1.Holds xs) (h2 : p2.Holds ys)
    (hfuel : xs.length + ys.length < fuel) (hfixed : rel.isDistFixed = true)
    (h0 : 0 ≤ rel.score) (hx : ∀ x ∈ xs, rel.score ≤ x) (hy : ∀ y ∈ ys, rel.score ≤ y) :
    ∃ rel', lefttorightLoop dist fuel p1 p2 rel = some rel' ∧
      (rel'.score ≠ 0 ↔ rel.score ≠ 0 ∨ AtDist dist xs ys) := by
  induction fuel generalizing xs ys p1 p2 rel with
  | zero => exact absurd hfuel (Nat.not_lt_zero _)
  | succ fuel ih =>
    rcases xs with - | ⟨x, xs⟩
    · have hend : p1.pos = -1 := h1
      exact ⟨rel, by simp [lefttorightLoop, hend], by simp⟩
    rcases ys with - | ⟨y, ys⟩
    · have hend : p2.pos = -1 := h2
      exact ⟨rel, by simp [lefttorightLoop, hend], by simp⟩
    obtain ⟨p1', p2', h1', h2', hturn⟩ := lefttorightLoop_turn hd hd' h1 h2 hfixed fuel
    have hxs := h1.positions
    have hys := h2.positions
    have hx0 := hx x List.mem_cons_self
    have hy0 := hy y List.mem_cons_self
    have hx' : ∀ z ∈ xs, rel.score ≤ z := fun z hz => hx z (List.mem_cons_of_mem _ hz)
    have hy' : ∀ z ∈ ys, rel.score ≤ z := fun z hz => hy z (List.mem_cons_of_mem _ hz)
    rw [List.length_cons, List.length_cons] at hfuel
    rw [hturn]
    split_ifs with heq hle
    · -- the score stays below both positions, and these are different
      have hx31 := hxs.head_lt
      have hy31 := hys.head_lt
      have hscore : (rel.hit x y).score = rel.score + 1 :=
        WordRel.hit_score (by omega) h0 (by omega)
      have hx1 : ∀ z ∈ xs, (rel.hit x y).score ≤ z := by
        intro z hz
        have := hxs.lt_of_mem hz
        omega
      have hy1 : ∀ z ∈ ys, (rel.hit x y).score ≤ z := by
        intro z hz
        have := hys.lt_of_mem hz
        omega
      have hfixed' : (rel.hit x y).isDistFixed = true := by simpa using hfixed
      obtain ⟨rel', hrun, hiff⟩ := ih h1' h2' (by omega) hfixed' (by omega) hx1 hy1
      refine ⟨rel', hrun, hiff.trans ⟨fun _ => .inr (atDist_cons_cons heq), fun _ => .inl ?_⟩⟩
      omega
    · rw [atDist_cons_right_iff hxs (by omega)]
      exact ih h1 h2' (by rw [List.length_cons]; omega) hfixed h0 hx hy'
    · rw [atDist_cons_left_iff hys (by omega)]
      exact ih h1' h2 (by rw [List.length_cons]; omega) hfixed h0 hx' hy

end Phrase

/-! ## Nearness -/

/-- A comparison of two positions, the smaller first, that `NEAR` counts.  A limit that does not
fit an `int` is below every position. -/
def Counts (dist : ℤ) (a b : ℕ) : Prop := (b : ℤ) < a + dist ∧ (a : ℤ) + dist < 2 ^ 31

/-- The positions `xs` of a word are those after `x`. -/
structure Rest (A : Set ℕ) (x : ℕ) (xs : List ℕ) : Prop where
  mem : x ∈ A
  above : ∀ z, z ∈ A ∧ x < z ↔ z ∈ xs

namespace Rest

variable {A : Set ℕ} {x y w : ℕ} {xs ws zs : List ℕ}

theorem of_positions (h : Positions (x :: xs)) : Rest {z | z ∈ x :: xs} x xs := by
  refine ⟨List.mem_cons_self, fun z => ⟨?_, fun hz => ⟨List.mem_cons_of_mem _ hz, h.lt_of_mem hz⟩⟩⟩
  rintro ⟨hz, hlt⟩
  exact (List.mem_cons.1 hz).resolve_left hlt.ne'

theorem next (h : Rest A x (w :: ws)) (hpos : Positions (x :: w :: ws)) : Rest A w ws := by
  refine ⟨((h.above w).2 List.mem_cons_self).1, fun z => ⟨?_, fun hz => ?_⟩⟩
  · rintro ⟨hz, hlt⟩
    have hxw := hpos.lt_of_mem (List.mem_cons_self (a := w))
    exact (List.mem_cons.1 ((h.above z).1 ⟨hz, hxw.trans hlt⟩)).resolve_left hlt.ne'
  · exact ⟨((h.above z).2 (List.mem_cons_of_mem _ hz)).1, hpos.tail.lt_of_mem hz⟩

end Rest

section Near

variable {dist : ℤ} {x y : ℕ} {xs ys : List ℕ} {p p1 p2 : Cursor} {rel : WordRel} {A : Set ℕ}

/-- Advancing past `y`: the word ends at its last position, not above `y`, or lands on its first
position above `y`. -/
theorem nextPos_spec {fuel : ℕ} (h : p.Holds (x :: xs)) (hA : Rest A x xs) (hxy : x ≤ y)
    (hfuel : xs.length < fuel) :
    ∃ prev : ℕ, ∃ p', nextPos y fuel p = some ((prev : ℤ), p') ∧
      (p'.Holds [] ∧ IsGreatest A prev ∧ prev ≤ y ∨
        ∃ z zs, p'.Holds (z :: zs) ∧ Rest A z zs ∧ IsLeast {z | z ∈ A ∧ y < z} z ∧
          zs.length < xs.length) := by
  induction fuel generalizing x xs p with
  | zero => exact absurd hfuel (Nat.not_lt_zero _)
  | succ fuel ih =>
    obtain ⟨p', hnext, h'⟩ := h.wpNext_eq
    have hpos : p.pos = x := h.1
    cases xs with
    | nil =>
      have hend : p'.pos = -1 := h'
      refine ⟨x, p', by simp [nextPos, hnext, hend, hpos], .inl ⟨h', ⟨hA.mem, ?_⟩, hxy⟩⟩
      intro z hz
      by_contra hlt
      exact List.not_mem_nil ((hA.above z).1 ⟨hz, not_le.1 hlt⟩)
    | cons w ws =>
      have hpos' : p'.pos = w := h'.1
      have hw := hA.next h.positions
      by_cases hwy : w ≤ y
      · have hgo : p'.pos ≠ -1 ∧ p'.pos ≤ y := by omega
        obtain ⟨prev, p'', hrun, hcase⟩ := ih h' hw hwy (by simpa using hfuel)
        refine ⟨prev, p'', ?_, hcase.imp_right ?_⟩
        · simpa only [nextPos, hnext, Option.bind_eq_bind, Option.bind_some, if_pos hgo]
        · rintro ⟨z, zs, hz, hzA, hleast, hlen⟩
          exact ⟨z, zs, hz, hzA, hleast, hlen.trans (by simp)⟩
      · have hstop : ¬ (p'.pos ≠ -1 ∧ p'.pos ≤ y) := by omega
        refine ⟨x, p', ?_, .inr ⟨w, ws, h', hw, ⟨⟨hw.mem, not_le.1 hwy⟩, ?_⟩, by simp⟩⟩
        · simp only [nextPos, hnext, Option.bind_eq_bind, Option.bind_some, if_neg hstop, hpos]
        · rintro z ⟨hz, hyz⟩
          exact h.positions.tail.le_of_mem ((hA.above z).1 ⟨hz, hxy.trans_lt hyz⟩)

/-- A comparison adds to the score exactly if it counts. -/
theorem score_compare (hd : 0 < dist) (hd' : dist < 2 ^ 31) {a b : ℕ} (ha : a < 2 ^ 31)
    {c d : ℤ} (hcd : c ≠ d) (h0 : 0 ≤ rel.score) (hb : rel.score ≤ b) :
    ∃ rel', (if (b : ℤ) < int32 (a + dist) then rel.hit c d else rel) = rel' ∧
      0 ≤ rel'.score ∧ rel'.score ≤ rel.score + 1 ∧
      (rel'.score ≠ 0 ↔ rel.score ≠ 0 ∨ Counts dist a b) := by
  have hiff : (b : ℤ) < int32 (a + dist) ↔ Counts dist a b := lt_int32_add_iff ha (by omega) hd'
  by_cases hcount : Counts dist a b
  · have hscore := WordRel.hit_score hcd h0 (by unfold Counts at hcount; omega)
    refine ⟨rel.hit c d, if_pos (hiff.2 hcount), by omega, by omega, ?_⟩
    exact iff_of_true (by omega) (.inr hcount)
  · refine ⟨rel, if_neg (mt hiff.1 hcount), h0, by omega, ?_⟩
    rw [or_iff_left hcount]

/-- One half of the loop for `NEAR`: the word `p` is advanced past the position `y` of the
other. -/
theorem advancePast_spec (hd : 0 < dist) (hd' : dist < 2 ^ 31) (h : p.Holds (x :: xs))
    (hA : Rest A x xs) {other : Cursor} (hother : other.Holds (y :: ys)) (hxy : x ≤ y)
    (h0 : 0 ≤ rel.score) (hy : rel.score ≤ y) :
    ∃ rel' o, advancePast dist p other rel = some (rel', o) ∧
      ((o = none ∧ (∀ z ∈ A, z ≤ y) ∧ ∃ w, IsGreatest A w ∧
          (rel'.score ≠ 0 ↔ rel.score ≠ 0 ∨ w < y ∧ Counts dist w y)) ∨
        ∃ p' z zs, o = some p' ∧ p'.Holds (z :: zs) ∧ Rest A z zs ∧
          IsLeast {z | z ∈ A ∧ y < z} z ∧ zs.length < xs.length ∧
          0 ≤ rel'.score ∧ rel'.score ≤ z ∧
          (rel'.score ≠ 0 ↔ rel.score ≠ 0 ∨ Counts dist y z)) := by
  have hpos : other.pos = y := hother.1
  have hy31 := hother.positions.head_lt
  have hfuel : xs.length < p.rest.length + 1 := by
    rw [h.2.1]
    exact Nat.lt_succ_of_le (length_le_length_positionBytes x xs)
  obtain ⟨prev, p', hnext, ⟨hend, hgreatest, hle⟩ | ⟨z, zs, hz, hzA, hleast, hlen⟩⟩ :=
    nextPos_spec h hA hxy hfuel
  · have hend : p'.pos = -1 := hend
    have hall : ∀ z ∈ A, z ≤ y := fun z hz => (hgreatest.2 hz).trans hle
    rcases hle.eq_or_lt with rfl | hlt
    · refine ⟨rel, none, ?_, .inl ⟨rfl, hall, prev, hgreatest, by simp⟩⟩
      simp [advancePast, hpos, hnext, hend]
    · obtain ⟨rel', hrel, -, -, hiff⟩ := score_compare hd hd' (hlt.trans hy31)
        (show (prev : ℤ) ≠ y by omega) h0 hy
      refine ⟨rel', none, ?_, .inl ⟨rfl, hall, prev, hgreatest, ?_⟩⟩
      · simp only [advancePast, hpos, hnext, hend, Option.bind_eq_bind, Option.bind_some, if_true,
          hrel]
      · rw [hiff, and_iff_right hlt]
  · have hz' : p'.pos = z := hz.1
    have hne : (z : ℤ) ≠ -1 := by omega
    have hyz : y < z := hleast.1.2
    obtain ⟨rel', hrel, h0', hle, hiff⟩ := score_compare hd hd' hy31
      (show (z : ℤ) ≠ y by omega) h0 (show rel.score ≤ z by omega)
    refine ⟨rel', some p', ?_, .inr ⟨p', z, zs, rfl, hz, hzA, hleast, hlen, h0', by omega, hiff⟩⟩
    simp only [advancePast, hpos, hnext, hz', Option.bind_eq_bind, Option.bind_some, if_neg hne,
      hrel]

/-- The loop for `NEAR` compares the pairs a leaping walk sees. -/
theorem nearLoop_spec {fuel : ℕ} (hd : 0 < dist) (hd' : dist < 2 ^ 31) {S : Bool → Set ℕ}
    (h1 : p1.Holds (x :: xs)) (h2 : p2.Holds (y :: ys)) (hx : Rest (S false) x xs)
    (hy : Rest (S true) y ys) (hfuel : xs.length + ys.length < fuel) (h0 : 0 ≤ rel.score)
    (hscore : rel.score ≤ max x y) :
    ∃ rel', nearLoop dist fuel p1 p2 rel = some rel' ∧ (rel'.score ≠ 0 ↔ rel.score ≠ 0 ∨
      ∃ a b, Seen S (decide (x < y)) (max x y) a b ∧ Counts dist a b) := by
  induction fuel generalizing x xs y ys p1 p2 rel with
  | zero => exact absurd hfuel (Nat.not_lt_zero _)
  | succ fuel ih =>
    have hpos1 : p1.pos = x := h1.1
    have hpos2 : p2.pos = y := h2.1
    by_cases hxy : x < y
    · have hlt : p1.pos < p2.pos := by omega
      rw [max_eq_right hxy.le] at hscore ⊢
      rw [decide_eq_true hxy, nearLoop, if_pos hlt]
      obtain ⟨rel', o, hrun, ⟨rfl, hall, w, hw, hiff⟩ |
        ⟨p', z, zs, rfl, hz, hzA, hleast, hlen, h0', hle, hiff⟩⟩ :=
        advancePast_spec hd hd' h1 hx h2 hxy.le h0 hscore
      · refine ⟨rel', by simp [hrun], hiff.trans (or_congr_right ?_)⟩
        exact (Seen.exists_iff_of_forall_le (i := true) hall hw).symm
      · have hyz : y < z := hleast.1.2
        obtain ⟨rel'', hrun', hiff'⟩ := ih hz h2 hzA hy (by omega) h0' (by omega)
        rw [max_eq_left hyz.le, decide_eq_false hyz.not_gt, hiff, or_assoc] at hiff'
        refine ⟨rel'', by simpa [hrun] using hrun', hiff'.trans (or_congr_right ?_)⟩
        exact (Seen.exists_iff_of_isLeast (i := true) hleast).symm
    · have hge : ¬ p1.pos < p2.pos := by omega
      rw [max_eq_left (not_lt.1 hxy)] at hscore ⊢
      rw [decide_eq_false hxy, nearLoop, if_neg hge]
      obtain ⟨rel', o, hrun, ⟨rfl, hall, w, hw, hiff⟩ |
        ⟨p', z, zs, rfl, hz, hzA, hleast, hlen, h0', hle, hiff⟩⟩ :=
        advancePast_spec hd hd' h2 hy h1 (not_lt.1 hxy) h0 hscore
      · refine ⟨rel', by simp [hrun], hiff.trans (or_congr_right ?_)⟩
        exact (Seen.exists_iff_of_forall_le (i := false) hall hw).symm
      · have hxz : x < z := hleast.1.2
        obtain ⟨rel'', hrun', hiff'⟩ := ih h1 hz hx hzA (by omega) h0' (by omega)
        rw [max_eq_right hxz.le, decide_eq_true hxz, hiff, or_assoc] at hiff'
        refine ⟨rel'', by simpa [hrun] using hrun', hiff'.trans (or_congr_right ?_)⟩
        exact (Seen.exists_iff_of_isLeast (i := false) hleast).symm

end Near

/-! ## What a relation asks -/

/-- Two positions of the words, different and less than `dist` apart. -/
def NearPair (dist : ℤ) (xs ys : List ℕ) : Prop :=
  ∃ p ∈ xs, ∃ q ∈ ys, 0 < |(p : ℤ) - q| ∧ |(p : ℤ) - q| < dist

def places (xs ys : List ℕ) : Bool → Set ℕ
  | false => {z | z ∈ xs}
  | true => {z | z ∈ ys}

/-- A pair that counts is among those a walk compares that starts at the larger of the two first
positions and leaps from word to word. -/
def Compared (dist : ℤ) (xs ys : List ℕ) : Prop :=
  ∃ x ∈ xs.head?, ∃ y ∈ ys.head?, ∃ a b,
    Seen (places xs ys) (decide (x < y)) (max x y) a b ∧ Counts dist a b

namespace WordRel

/-- A relation of `NEAR`. -/
structure IsNear (rel : WordRel) : Prop where
  isLefttoright : rel.isLefttoright = false
  dist_pos : 0 < rel.dist
  dist_lt : rel.dist < 2 ^ 31

/-- A relation between two words of a phrase. -/
structure IsPhrase (rel : WordRel) : Prop where
  isLefttoright : rel.isLefttoright = true
  isDistFixed : rel.isDistFixed = true
  dist_ne : rel.dist ≠ 0
  le_dist : -2 ^ 31 ≤ rel.dist
  dist_lt : rel.dist < 2 ^ 31

/-- What the relation asks of the positions of the two words. -/
def Asks (rel : WordRel) (xs ys : List ℕ) : Prop :=
  if rel.isLefttoright then AtDist rel.dist xs ys else NearPair rel.dist xs ys

/-- `wp_proximity` returns, and the value is nonzero exactly if the words stand as asked. -/
def Decides (rel : WordRel) (xs ys : List ℕ) : Prop :=
  ∃ rel', wpProximity (positionBytes 0 xs) (positionBytes 0 ys) rel = some rel' ∧
    (rel'.score ≠ 0 ↔ rel.Asks xs ys)

end WordRel

/-- What is compared and counts is a near pair. -/
theorem Compared.nearPair {dist : ℤ} {xs ys : List ℕ} (h : Compared dist xs ys) :
    NearPair dist xs ys := by
  obtain ⟨x, hx, y, hy, a, b, hseen, hcount⟩ := h
  have hx' : x ∈ xs := List.mem_of_mem_head? hx
  have hy' : y ∈ ys := List.mem_of_mem_head? hy
  have hstart : max x y ∈ places xs ys (decide (x < y)) := by
    by_cases hxy : x < y
    · rw [decide_eq_true hxy, max_eq_right hxy.le]
      exact hy'
    · rw [decide_eq_false hxy, max_eq_left (not_lt.1 hxy)]
      exact hx'
  have hlt := hseen.lt
  obtain ⟨hnear, -⟩ := hcount
  obtain ⟨j, ha, hb⟩ := hseen.mem hstart
  cases j with
  | false =>
    refine ⟨a, ha, b, hb, ?_⟩
    rw [abs_sub_comm, abs_of_pos (by omega)]
    omega
  | true =>
    refine ⟨b, hb, a, ha, ?_⟩
    rw [abs_of_pos (by omega)]
    omega

/-- The words exchanged. -/
theorem atDist_neg_iff {dist : ℤ} {xs ys : List ℕ} :
    AtDist (-dist) ys xs ↔ AtDist dist xs ys := by
  constructor
  · rintro ⟨q, hq, p, hp, h⟩
    exact ⟨p, hp, q, hq, by omega⟩
  · rintro ⟨p, hp, q, hq, h⟩
    exact ⟨q, hq, p, hp, by omega⟩

/-- No positions are as far apart as the least `int`. -/
theorem not_atDist_of_le {dist : ℤ} {xs ys : List ℕ} (h : dist ≤ -2 ^ 31) (hxs : Positions xs) :
    ¬ AtDist dist xs ys := by
  rintro ⟨p, hp, q, -, hpq⟩
  have := hxs.lt p hp
  omega

section Walk

variable {dist : ℤ} {xs ys : List ℕ} {rel : WordRel}

theorem walk_eq {p1 p2 : List UInt8} {c1 c2 : Cursor} (h1 : wpNext ⟨p1, 0⟩ = some c1)
    (h2 : wpNext ⟨p2, 0⟩ = some c2) :
    walk dist p1 p2 rel =
      if rel.isLefttoright then
        lefttorightLoop dist (p1.length + p2.length + 1) c1 c2 rel.cleared
      else nearLoop dist (p1.length + p2.length + 1) c1 c2 rel.cleared := by
  simp only [walk, h1, h2, Option.bind_eq_bind, Option.bind_some]

/-- The walk has a turn for each position. -/
theorem length_add_length_lt (xs ys : List ℕ) :
    xs.length + ys.length < (positionBytes 0 xs).length + (positionBytes 0 ys).length + 1 :=
  Nat.lt_add_one_of_le (Nat.add_le_add (length_le_length_positionBytes 0 xs)
    (length_le_length_positionBytes 0 ys))

variable (hxs : Positions xs) (hys : Positions ys) (hx : xs ≠ []) (hy : ys ≠ [])
include hxs hys hx hy

/-- The walk for `NEAR` finds the near pairs it compares. -/
theorem walk_near (hrel : rel.isLefttoright = false) (hd : 0 < dist) (hd' : dist < 2 ^ 31) :
    ∃ rel', walk dist (positionBytes 0 xs) (positionBytes 0 ys) rel = some rel' ∧
      (rel'.score ≠ 0 ↔ Compared dist xs ys) := by
  obtain ⟨x, xs, rfl⟩ := List.exists_cons_of_ne_nil hx
  obtain ⟨y, ys, rfl⟩ := List.exists_cons_of_ne_nil hy
  obtain ⟨c1, hstart1, h1⟩ := wpNext_start hxs
  obtain ⟨c2, hstart2, h2⟩ := wpNext_start hys
  have hlen : xs.length + ys.length ≤ (x :: xs).length + (y :: ys).length :=
    Nat.add_le_add (Nat.le_succ _) (Nat.le_succ _)
  have hx' : Rest (places (x :: xs) (y :: ys) false) x xs := .of_positions hxs
  have hy' : Rest (places (x :: xs) (y :: ys) true) y ys := .of_positions hys
  have h0 : rel.cleared.score = 0 := rfl
  rw [walk_eq hstart1 hstart2, hrel, if_neg Bool.false_ne_true]
  obtain ⟨rel', hrun, hiff⟩ := nearLoop_spec hd hd' h1 h2 hx' hy'
    (hlen.trans_lt (length_add_length_lt _ _)) h0.ge (h0.trans_le (by omega))
  refine ⟨rel', hrun, hiff.trans ?_⟩
  simp [h0, Compared]

/-- The walk for a phrase finds a pair at the distance if there is one. -/
theorem walk_phrase (hrel : rel.isLefttoright = true) (hfixed : rel.isDistFixed = true)
    (hne : dist ≠ 0) (hd : -2 ^ 31 ≤ dist) (hd' : dist < 2 ^ 31) :
    ∃ rel', walk dist (positionBytes 0 xs) (positionBytes 0 ys) rel = some rel' ∧
      (rel'.score ≠ 0 ↔ AtDist dist xs ys) := by
  obtain ⟨x, xs, rfl⟩ := List.exists_cons_of_ne_nil hx
  obtain ⟨y, ys, rfl⟩ := List.exists_cons_of_ne_nil hy
  obtain ⟨c1, hstart1, h1⟩ := wpNext_start hxs
  obtain ⟨c2, hstart2, h2⟩ := wpNext_start hys
  have h0 : rel.cleared.score = 0 := rfl
  have hfixed' : rel.cleared.isDistFixed = true := hfixed
  rw [walk_eq hstart1 hstart2, hrel, if_pos rfl]
  obtain ⟨rel', hrun, hiff⟩ := lefttorightLoop_spec hne hd hd' h1 h2 (length_add_length_lt _ _)
    hfixed' h0.ge (fun z _ => h0.trans_le (by omega)) (fun z _ => h0.trans_le (by omega))
  refine ⟨rel', hrun, hiff.trans ?_⟩
  simp [h0]

/-- The exchange of the words for a negative distance.  The least `int` is its own negative, but
no positions are so far apart. -/
theorem walk_exchanged (hrel : rel.IsPhrase) (hneg : rel.dist < 0) :
    ∃ rel', walk (int32 (-rel.dist)) (positionBytes 0 ys) (positionBytes 0 xs) rel = some rel' ∧
      (rel'.score ≠ 0 ↔ AtDist rel.dist xs ys) := by
  obtain ⟨hleft, hfixed, hne, hd, hd'⟩ := hrel
  rcases hd.eq_or_lt with heq | hlt
  · have hmin : int32 (-rel.dist) = rel.dist := by
      rw [int32_of_ge (by omega) (by omega)]
      omega
    rw [hmin]
    obtain ⟨rel', hrun, hiff⟩ := walk_phrase hys hxs hy hx hleft hfixed hne hd hd'
    refine ⟨rel', hrun, hiff.trans (iff_of_false ?_ ?_)⟩
    · exact not_atDist_of_le heq.ge hys
    · exact not_atDist_of_le heq.ge hxs
  · rw [int32_of_lt (by omega) (by omega)]
    obtain ⟨rel', hrun, hiff⟩ :=
      walk_phrase hys hxs hy hx hleft hfixed (neg_ne_zero.2 hne) (by omega) (by omega)
    exact ⟨rel', hrun, hiff.trans atDist_neg_iff⟩

/-- For a relation of a phrase the answer is exact. -/
theorem WordRel.IsPhrase.decides (hrel : rel.IsPhrase) : rel.Decides xs ys := by
  have hzero : ¬ (rel.dist = 0 ∧ rel.isDistFixed = false) := fun h => hrel.dist_ne h.1
  simp only [WordRel.Decides, WordRel.Asks, wpProximity, if_neg hzero, hrel.isLefttoright, if_true,
    true_and]
  split_ifs with hneg
  · exact walk_exchanged hxs hys hx hy hrel hneg
  · exact walk_phrase hxs hys hx hy hrel.isLefttoright hrel.isDistFixed hrel.dist_ne hrel.le_dist
      hrel.dist_lt

/-- For a relation of `NEAR` the answer is whether a near pair is compared. -/
theorem WordRel.IsNear.wpProximity_eq (hrel : rel.IsNear) :
    ∃ rel', wpProximity (positionBytes 0 xs) (positionBytes 0 ys) rel = some rel' ∧
      (rel'.score ≠ 0 ↔ Compared rel.dist xs ys) := by
  have hzero : ¬ (rel.dist = 0 ∧ rel.isDistFixed = false) := fun h => hrel.dist_pos.ne' h.1
  simp only [wpProximity, if_neg hzero, hrel.isLefttoright, Bool.false_eq_true, false_and, if_false]
  exact walk_near hxs hys hx hy hrel.isLefttoright hrel.dist_pos hrel.dist_lt

end Walk

/-- The answer of `wp_proximity` is right exactly if, for a relation of `NEAR`, a near pair is
compared when there is one. -/
theorem wpProximity_decides_iff {rel : WordRel} (hrel : rel.IsNear ∨ rel.IsPhrase)
    {xs ys : List ℕ} (hxs : Positions xs) (hys : Positions ys) (hx : xs ≠ []) (hy : ys ≠ []) :
    rel.Decides xs ys ↔
      (rel.IsNear → NearPair rel.dist xs ys → Compared rel.dist xs ys) := by
  rcases hrel with hnear | hphrase
  · obtain ⟨rel', hrun, hiff⟩ := hnear.wpProximity_eq hxs hys hx hy
    constructor
    · rintro ⟨rel'', hrun', hiff'⟩ - hpair
      obtain rfl : rel' = rel'' := Option.some_inj.1 (hrun.symm.trans hrun')
      rw [WordRel.Asks, hnear.isLefttoright, if_neg Bool.false_ne_true] at hiff'
      exact hiff.1 (hiff'.2 hpair)
    · intro h
      refine ⟨rel', hrun, hiff.trans ?_⟩
      rw [WordRel.Asks, hnear.isLefttoright, if_neg Bool.false_ne_true]
      exact ⟨Compared.nearPair, h hnear⟩
  · refine iff_of_true (hphrase.decides hxs hys hx hy) fun hnear => ?_
    exact absurd (hnear.isLefttoright.symm.trans hphrase.isLefttoright) Bool.false_ne_true

/-- The relation that `NEAR` makes, with `NEAR_DIST`. -/
def nearRel : WordRel := { dist := 100, isDistFixed := false, isLefttoright := false }

/-- The walk leaps from 500 to 1050, and at its end compares 1050 with the 1000 that it passed. -/
theorem wpProximity_decides_passed : nearRel.Decides [10, 1050] [500, 1000] := by
  have hnear : nearRel.IsNear := ⟨rfl, by decide, by decide⟩
  refine (wpProximity_decides_iff (.inl hnear) ⟨by decide, by decide⟩ ⟨by decide, by decide⟩
    (by decide) (by decide)).2 fun _ _ => ?_
  have hleap : IsLeast {z | z ∈ places [10, 1050] [500, 1000] false ∧ 500 < z} 1050 :=
    ⟨by simp [places], by simp [places, lowerBounds]⟩
  have hlast : IsGreatest (places [10, 1050] [500, 1000] true) 1000 :=
    ⟨by simp [places], by simp [places, upperBounds]⟩
  refine ⟨10, rfl, 500, rfl, 1000, 1050, .onward hleap (.last ?_ hlast ?_), by decide, by decide⟩
  · simp [places]
  · decide

/-- The first word at 10 and 1000, the second at 12: the walk advances the first word past 12
and compares only 1000 with it. -/
theorem wpProximity_steps_over :
    NearPair nearRel.dist [10, 1000] [12] ∧
      (wpProximity (positionBytes 0 [10, 1000]) (positionBytes 0 [12]) nearRel).map
        WordRel.score = some 0 := by
  refine ⟨⟨10, by decide, 12, by decide, by decide, by decide⟩, by decide +kernel⟩

end Virtuoso.Text
