import Mathlib.Data.Nat.Digits.Defs
import Mathlib.Data.List.GetD

/-!
# Blocks of bytes

A block of memory is its bytes by offset.  `slice` reads a run of bytes, `blit` overwrites
one, and `word` and `setWord` do so for the eight bytes of a little-endian machine word.

Reading after writing is governed by three rules: a run that was just written reads back,
a run disjoint from what was written is unchanged, and a word only the first bytes of which
were overwritten is the new word if the remaining bytes of both agree (`word_copy`).
-/

namespace Virtuoso.Lib

/-- A block of memory, byte by byte. -/
abbrev Block := ℕ → UInt8

namespace Block

/-- The `n` bytes from offset `o` on. -/
def slice (b : Block) (o n : ℕ) : List UInt8 := (List.range' o n).map b

/-- The block with the bytes `l` written from offset `o` on. -/
def blit (b : Block) (o : ℕ) (l : List UInt8) : Block :=
  fun i => if o ≤ i ∧ i < o + l.length then l.getD (i - o) 0 else b i

/-- The number eight bytes stand for, the lowest byte first. -/
def ofBytes (l : List UInt8) : ℕ := Nat.ofDigits 256 (l.map UInt8.toNat)

/-- The eight bytes of a word, the lowest byte first. -/
def wordBytes (w : ℕ) : List UInt8 := (List.range 8).map fun i => UInt8.ofNat (w / 256 ^ i)

def word (b : Block) (o : ℕ) : ℕ := ofBytes (b.slice o 8)

def setWord (b : Block) (o w : ℕ) : Block := b.blit o (wordBytes w)

/-! ## Runs of bytes -/

@[simp] theorem length_slice (b : Block) (o n : ℕ) : (b.slice o n).length = n := by
  simp [slice]

@[simp] theorem length_wordBytes (w : ℕ) : (wordBytes w).length = 8 := by simp [wordBytes]

variable {o n o' w : ℕ} {b : Block} {l : List UInt8}

theorem slice_congr {b' : Block} (h : ∀ i, o ≤ i → i < o + n → b i = b' i) :
    b.slice o n = b'.slice o n := by
  refine List.map_congr_left fun i hi => ?_
  obtain ⟨h₁, h₂⟩ := List.mem_range'_1.1 hi
  exact h i h₁ h₂

/-- What was written reads back. -/
theorem slice_blit_self (b : Block) (o : ℕ) (l : List UInt8) :
    (b.blit o l).slice o l.length = l := by
  apply List.ext_getElem
  · simp
  · intro i h₁ h₂
    simp [slice, blit, h₂]

/-- A run disjoint from what was written is unchanged. -/
theorem slice_blit_of_disjoint (h : o' + n ≤ o ∨ o + l.length ≤ o') :
    (b.blit o l).slice o' n = b.slice o' n := by
  apply slice_congr
  intro i h₁ h₂
  rw [blit, if_neg]
  omega

theorem slice_setWord_of_disjoint (h : o' + n ≤ o ∨ o + 8 ≤ o') :
    (b.setWord o w).slice o' n = b.slice o' n :=
  slice_blit_of_disjoint (by simpa using h)

/-! ## Copies of a block's first bytes -/

theorem copy_apply (dst src : Block) (n i : ℕ) :
    dst.blit 0 (src.slice 0 n) i = if i < n then src i else dst i := by
  by_cases h : i < n
  · simp [blit, slice, h]
  · simp [blit, h]

/-- A run inside the copied bytes is the source's. -/
theorem slice_copy {dst src : Block} {m : ℕ} (h : o + m ≤ n) :
    (dst.blit 0 (src.slice 0 n)).slice o m = src.slice o m := by
  apply slice_congr
  intro i _ h₂
  rw [copy_apply, if_pos (h₂.trans_le h)]

/-! ## Words -/

theorem word_lt (b : Block) (o : ℕ) : b.word o < 2 ^ 64 := by
  have h : ofBytes (b.slice o 8) < 256 ^ ((b.slice o 8).map UInt8.toNat).length :=
    Nat.ofDigits_lt_base_pow_length (by decide) fun x hx => by
      obtain ⟨c, -, rfl⟩ := List.mem_map.1 hx
      exact c.toNat_lt
  rw [List.length_map, length_slice] at h
  exact h

theorem ofBytes_wordBytes (h : w < 2 ^ 64) : ofBytes (wordBytes w) = w := by
  simp only [ofBytes, wordBytes, List.range, List.range.loop, List.map_cons, List.map_nil,
    Nat.ofDigits_cons, Nat.ofDigits_nil, UInt8.toNat_ofNat']
  norm_num
  omega

/-- A word that was just written reads back. -/
theorem word_setWord (h : w < 2 ^ 64) : (b.setWord o w).word o = w := by
  have hs := slice_blit_self b o (wordBytes w)
  rw [length_wordBytes] at hs
  rw [word, setWord, hs, ofBytes_wordBytes h]

theorem word_blit_of_disjoint (h : o' + 8 ≤ o ∨ o + l.length ≤ o') :
    (b.blit o l).word o' = b.word o' := by
  rw [word, slice_blit_of_disjoint h, word]

/-- The high part of a word is the number its last bytes stand for. -/
theorem word_div_pow (b : Block) (o m : ℕ) :
    b.word o / 256 ^ m = ofBytes ((b.slice o 8).drop m) := by
  rw [word, ofBytes, Nat.ofDigits_div_pow_eq_ofDigits_drop m (by decide), ofBytes, List.map_drop]
  intro x hx
  obtain ⟨c, -, rfl⟩ := List.mem_map.1 hx
  exact c.toNat_lt

/-- Copying the first `n` bytes of a block carries a word over completely if the bytes of
it that are left out agree already. -/
theorem word_copy {dst src : Block} (h : src.word o / 256 ^ (n - o) = dst.word o / 256 ^ (n - o)) :
    (dst.blit 0 (src.slice 0 n)).word o = src.word o := by
  have hsplit : (dst.blit 0 (src.slice 0 n)).slice o 8 =
      (src.slice o 8).take (n - o) ++ (dst.slice o 8).drop (n - o) := by
    apply List.ext_getElem
    · simp
      omega
    · intro i h₁ h₂
      have hi : i < 8 := by simpa using h₁
      simp only [slice, List.getElem_map, List.getElem_range', one_mul]
      by_cases hin : i < n - o
      · rw [List.getElem_append_left (by simpa using ⟨hin, hi⟩)]
        have := copy_apply dst src n (o + i)
        rw [if_pos (by omega)] at this
        simpa [slice] using this
      · rw [List.getElem_append_right (by simp; omega)]
        have := copy_apply dst src n (o + i)
        rw [if_neg (by omega)] at this
        simp only [slice] at this
        simp only [this, List.length_take, List.length_map, List.length_range', List.getElem_drop,
          List.getElem_map, List.getElem_range', one_mul]
        congr 1
        omega
  rw [word_div_pow, word_div_pow] at h
  simp only [ofBytes] at h
  rw [word, hsplit, ofBytes, List.map_append, Nat.ofDigits_append, ← h, ← Nat.ofDigits_append,
    ← List.map_append, List.take_append_drop, word, ofBytes]

end Block

end Virtuoso.Lib
