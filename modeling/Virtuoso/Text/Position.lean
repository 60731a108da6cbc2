import Virtuoso.Lib.Stream

/-!
# Word positions

A word list of the free-text index keeps, for each document, the positions of the word as the
differences of successive positions, each in one, two or five bytes.  `wb_word_string`
(`bif_text.c`) writes them; the macros `WP_LENGTH_IMPL` (`text.h`) and `WP_NEXT` (`text.c`) read
one off the front and step to the next position.  What was written is read back
(`wpNext_start`, `Holds.wpNext_eq`).
-/

namespace Virtuoso.Text

open Lib

def int32 (x : ℤ) : ℤ := x.bmod (2 ^ 32)

theorem int32_of_lt {x : ℤ} (h : -2 ^ 31 ≤ x) (h' : x < 2 ^ 31) : int32 x = x :=
  Int.bmod_eq_of_le (by omega) (by omega)

/-- A sum of two `int`s that is too large comes out negative. -/
theorem int32_of_ge {x : ℤ} (h : 2 ^ 31 ≤ x) (h' : x < 2 ^ 32) : int32 x = x - 2 ^ 32 := by
  rw [int32, ← Int.sub_bmod_right]
  exact Int.bmod_eq_of_le (by omega) (by omega)

/-! ## Lengths -/

/-- `WP_MAX_8_BIT_LEN`. -/
def wpMax8BitLen : ℕ := 200

/-- `WP_32_BIT_LEN`. -/
def wp32BitLen : ℕ := 0xFF

/-- A length as the word strings hold it. -/
def lengthBytes (dist : ℕ) : List UInt8 :=
  if dist < wpMax8BitLen then [UInt8.ofNat dist]
  else if dist < (254 - wpMax8BitLen) * 256 then
    [UInt8.ofNat (dist / 256 + wpMax8BitLen), UInt8.ofNat dist]
  else UInt8.ofNat wp32BitLen :: (bytesLe 4 dist).reverse

/-- `WP_LENGTH_IMPL`: the number of bytes of the length at `wp` and the length.  `none` is a read
beyond the end of the string. -/
def wpLength (wp : List UInt8) : Option (ℕ × ℤ) :=
  match wp with
  | [] => none
  | l :: rest =>
    if l.toNat < wpMax8BitLen then some (1, l.toNat)
    else if l.toNat ≠ wp32BitLen then
      rest.head?.map fun b => (2, ((l.toNat - wpMax8BitLen) * 256 + b.toNat : ℕ))
    else if 4 ≤ rest.length then
      -- `LONG_REF_NA` is a signed word, the highest byte first
      some (5, int32 (Block.ofBytes (rest.take 4).reverse))
    else none

theorem lengthBytes_ne_nil (dist : ℕ) : lengthBytes dist ≠ [] := by
  unfold lengthBytes
  split_ifs <;> simp

/-- A length reads back, whatever follows it. -/
theorem wpLength_lengthBytes {dist : ℕ} (h : dist < 2 ^ 31) (rest : List UInt8) :
    wpLength (lengthBytes dist ++ rest) = some ((lengthBytes dist).length, (dist : ℤ)) := by
  unfold lengthBytes
  split_ifs with h8 h16
  · have hb : (UInt8.ofNat dist).toNat = dist := by
      rw [UInt8.toNat_ofNat']
      exact Nat.mod_eq_of_lt (by unfold wpMax8BitLen at h8; omega)
    simp only [List.cons_append, List.nil_append, wpLength, hb, if_pos h8, List.length_singleton]
  · unfold wpMax8BitLen at h8 h16
    have hb : (UInt8.ofNat (dist / 256 + wpMax8BitLen)).toNat = dist / 256 + wpMax8BitLen := by
      rw [UInt8.toNat_ofNat']
      exact Nat.mod_eq_of_lt (by unfold wpMax8BitLen; omega)
    have hlarge : ¬ dist / 256 + wpMax8BitLen < wpMax8BitLen := by omega
    have hshort : dist / 256 + wpMax8BitLen ≠ wp32BitLen := by
      unfold wpMax8BitLen wp32BitLen
      omega
    have hvalue : (dist / 256 + wpMax8BitLen - wpMax8BitLen) * 256 + dist % 2 ^ 8 = dist := by
      omega
    simp only [List.cons_append, List.nil_append, wpLength, hb, if_neg hlarge, if_pos hshort,
      List.head?_cons, Option.map_some, UInt8.toNat_ofNat', hvalue, List.length_cons,
      List.length_nil]
  · have hb : (UInt8.ofNat wp32BitLen).toNat = wp32BitLen := rfl
    have hlarge : ¬ wp32BitLen < wpMax8BitLen := by decide
    have hlen : (bytesLe 4 dist).reverse.length = 4 := by simp
    have hrest : 4 ≤ ((bytesLe 4 dist).reverse ++ rest).length := by simp
    have hvalue : int32 (dist : ℤ) = dist := int32_of_lt (by omega) (by omega)
    simp only [List.cons_append, wpLength, hb, if_neg hlarge, ne_eq, not_true_eq_false,
      if_false, if_pos hrest, List.take_left' hlen, List.reverse_reverse, ofBytes_bytesLe,
      List.length_cons, hlen]
    rw [Nat.mod_eq_of_lt (by omega), hvalue]

/-! ## Positions -/

/-- The position string that `wb_word_string` makes of the positions after `pos`.  A `wpos_t` is
unsigned. -/
def positionBytes : ℕ → List ℕ → List UInt8
  | _, [] => []
  | pos, wPos :: positions =>
    lengthBytes ((wPos + 2 ^ 32 - pos) % 2 ^ 32) ++ positionBytes wPos positions

/-- A pointer into a position string, as what is left of it, and the position it stands at. -/
structure Cursor where
  rest : List UInt8
  pos : ℤ
deriving DecidableEq, Repr

/-- `WP_NEXT`; position `-1` is the end. -/
def wpNext (c : Cursor) : Option Cursor :=
  if c.rest = [] then some { c with pos := -1 }
  else do
    let (hl, d) ← wpLength c.rest
    some ⟨c.rest.drop hl, int32 (c.pos + d)⟩

/-- Strictly ascending positions of a word in the main text. -/
structure Positions (xs : List ℕ) : Prop where
  ascending : xs.Pairwise (· < ·)
  lt : ∀ x ∈ xs, x < 2 ^ 31

namespace Positions

variable {x : ℕ} {xs : List ℕ}

theorem tail (h : Positions (x :: xs)) : Positions xs :=
  ⟨h.ascending.of_cons, fun y hy => h.lt y (List.mem_cons_of_mem _ hy)⟩

theorem head_lt (h : Positions (x :: xs)) : x < 2 ^ 31 := h.lt x List.mem_cons_self

theorem lt_of_mem (h : Positions (x :: xs)) {y : ℕ} (hy : y ∈ xs) : x < y :=
  List.rel_of_pairwise_cons h.ascending hy

end Positions

/-- The cursor has the positions `xs` ahead of it; it stands at the first, or is at the end. -/
def Cursor.Holds (c : Cursor) : List ℕ → Prop
  | [] => c.pos = -1
  | x :: xs => c.pos = x ∧ c.rest = positionBytes x xs ∧ Positions (x :: xs)

variable {xs : List ℕ} {x : ℕ}

theorem Cursor.Holds.positions {c : Cursor} (h : c.Holds (x :: xs)) :
    Positions (x :: xs) := h.2.2

theorem length_le_length_positionBytes (x : ℕ) (xs : List ℕ) :
    xs.length ≤ (positionBytes x xs).length := by
  induction xs generalizing x with
  | nil => exact Nat.zero_le _
  | cons y ys ih =>
    have hpos := List.length_pos_iff.2 (lengthBytes_ne_nil ((y + 2 ^ 32 - x) % 2 ^ 32))
    have hrest := ih y
    rw [positionBytes, List.length_append, List.length_cons]
    omega

/-- One step from a position to one not below it. -/
theorem wpNext_positionBytes {y : ℕ} (hxy : x ≤ y) (hy : y < 2 ^ 31) (ys : List ℕ) :
    wpNext ⟨positionBytes x (y :: ys), x⟩ = some ⟨positionBytes y ys, y⟩ := by
  have hdist : (y + 2 ^ 32 - x) % 2 ^ 32 = y - x := by
    rw [show y + 2 ^ 32 - x = y - x + 2 ^ 32 by omega, Nat.add_mod_right]
    exact Nat.mod_eq_of_lt (by omega)
  have hne : positionBytes x (y :: ys) ≠ [] := by
    simp [positionBytes, lengthBytes_ne_nil]
  have hvalue : int32 ((x : ℤ) + (y - x : ℕ)) = y := by
    rw [show (x : ℤ) + (y - x : ℕ) = y by omega]
    exact int32_of_lt (by omega) (by omega)
  rw [wpNext, if_neg hne, positionBytes, hdist, wpLength_lengthBytes (by omega)]
  simp only [Option.bind_eq_bind, Option.bind_some, List.drop_left, hvalue]

/-- `WP_NEXT` goes to the next position, or to the end. -/
theorem Cursor.Holds.wpNext_eq {c : Cursor} (h : c.Holds (x :: xs)) :
    ∃ c', wpNext c = some c' ∧ c'.Holds xs := by
  obtain ⟨rest, pos⟩ := c
  obtain ⟨rfl, rfl, hxs⟩ : pos = x ∧ rest = positionBytes x xs ∧ Positions (x :: xs) := h
  cases xs with
  | nil => exact ⟨⟨[], -1⟩, rfl, rfl⟩
  | cons y ys =>
    have hxy := hxs.lt_of_mem (List.mem_cons_self (a := y))
    exact ⟨_, wpNext_positionBytes hxy.le hxs.tail.head_lt ys, rfl, rfl, hxs.tail⟩

/-- The first `WP_NEXT` on a position string goes to the first position. -/
theorem wpNext_start (h : Positions (x :: xs)) :
    ∃ c, wpNext ⟨positionBytes 0 (x :: xs), 0⟩ = some c ∧ c.Holds (x :: xs) :=
  ⟨_, wpNext_positionBytes (Nat.zero_le x) h.head_lt xs, rfl, rfl, h⟩

end Virtuoso.Text
