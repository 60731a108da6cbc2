import Virtuoso.Lib.Bytes

/-!
# Files of bytes

A file is a list of bytes.  `bytesLe w n` is what writing the `w` bytes of the number `n`
appends, the lowest byte first, and `readWord w` takes such a number off the front.  A number
that fits its width reads back (`readWord_bytesLe`).

A file is also written and read at positions (`writeAt`, `readAt`): what was written reads
back, and a later write further on does not disturb it.  The entries of an array of a fixed
width are found again by their number (`entryAt_arrayBytes`).
-/

namespace Virtuoso.Lib

/-- The `w` lowest bytes of `n`, the lowest first. -/
def bytesLe : ℕ → ℕ → List UInt8
  | 0, _ => []
  | w + 1, n => UInt8.ofNat n :: bytesLe w (n / 256)

/-- Take a number of `w` bytes off the front; `none` if fewer are left. -/
def readWord (w : ℕ) (bs : List UInt8) : Option (ℕ × List UInt8) :=
  if w ≤ bs.length then some (Block.ofBytes (bs.take w), bs.drop w) else none

@[simp] theorem length_bytesLe (w n : ℕ) : (bytesLe w n).length = w := by
  induction w generalizing n with
  | zero => rfl
  | succ w ih => simp [bytesLe, ih]

/-- The bytes stand for the number, as far as it fits. -/
theorem ofBytes_bytesLe (w n : ℕ) : Block.ofBytes (bytesLe w n) = n % 256 ^ w := by
  induction w generalizing n with
  | zero => simp [bytesLe, Block.ofBytes, Nat.mod_one]
  | succ w ih =>
    have hrest := ih (n / 256)
    unfold Block.ofBytes at hrest ⊢
    rw [bytesLe, List.map_cons, Nat.ofDigits_cons, hrest, UInt8.toNat_ofNat', pow_succ' 256 w,
      Nat.mod_mul]

variable {w n i : ℕ} {entry : ℕ → List UInt8}

/-- What was written reads back, and the rest of the stream is left. -/
theorem readWord_bytesLe (h : n < 256 ^ w) (rest : List UInt8) :
    readWord w (bytesLe w n ++ rest) = some (n, rest) := by
  have hlen : w ≤ (bytesLe w n ++ rest).length := by simp
  rw [readWord, if_pos hlen, List.take_left' (length_bytesLe w n),
    List.drop_left' (length_bytesLe w n), ofBytes_bytesLe, Nat.mod_eq_of_lt h]

/-- Take numbers of the given widths off the front. -/
def readWords : List ℕ → List UInt8 → Option (List ℕ × List UInt8)
  | [], bs => some ([], bs)
  | w :: ws, bs => do
      let (n, bs) ← readWord w bs
      let (ns, bs) ← readWords ws bs
      some (n :: ns, bs)

/-- Numbers that fit their widths read back. -/
theorem readWords_bytesLe {ws : List (ℕ × ℕ)} (h : ∀ x ∈ ws, x.2 < 256 ^ x.1) (rest : List UInt8) :
    readWords (ws.map Prod.fst) ((ws.flatMap fun x => bytesLe x.1 x.2) ++ rest) =
      some (ws.map Prod.snd, rest) := by
  induction ws with
  | nil => rfl
  | cons x ws ih =>
    have hrest := ih fun y hy => h y (by simp [hy])
    simp [readWords, readWord_bytesLe (h x (by simp)), hrest]

/-! ## Positions -/

/-- The file with `bs` written at position `o`; a gap before it is filled with zeros. -/
def writeAt (f : List UInt8) (o : ℕ) (bs : List UInt8) : List UInt8 :=
  if bs = [] then f
  else f.take o ++ List.replicate (o - f.length) 0 ++ bs ++ f.drop (o + bs.length)

/-- The `n` bytes at position `o`; `none` if the file ends before. -/
def readAt (f : List UInt8) (o n : ℕ) : Option (List UInt8) :=
  if n = 0 ∨ o + n ≤ f.length then some ((f.drop o).take n) else none

/-- What was written reads back. -/
theorem readAt_writeAt_self (f : List UInt8) (o : ℕ) (bs : List UInt8) :
    readAt (writeAt f o bs) o bs.length = some bs := by
  by_cases hbs : bs = []
  · simp [readAt, hbs]
  · have hlen : (f.take o ++ List.replicate (o - f.length) (0 : UInt8)).length = o := by
      simp
      omega
    rw [readAt, writeAt, if_neg hbs, List.append_assoc, if_pos]
    · rw [List.drop_left' hlen, List.take_left' rfl]
    · simp only [List.length_append] at hlen ⊢
      omega

/-- What stands before the position of a write is not disturbed by it. -/
theorem readAt_writeAt_of_le {f : List UInt8} {o o' : ℕ} (bs : List UInt8) {c : List UInt8}
    (h : o' + n ≤ o) (hc : readAt f o' n = some c) : readAt (writeAt f o bs) o' n = some c := by
  by_cases hbs : bs = []
  · rwa [writeAt, if_pos hbs]
  unfold readAt at hc ⊢
  by_cases hn : n = 0
  · simpa [hn] using hc
  · rw [Option.ite_none_right_eq_some] at hc
    obtain ⟨hin, hc⟩ := hc
    have hlen : o' + n ≤ (f.take o).length := by
      rw [List.length_take]
      omega
    rw [writeAt, if_neg hbs, if_pos, ← hc, List.take_drop, List.take_drop, List.append_assoc,
      List.append_assoc, List.take_append_of_le_length hlen, List.take_take, Nat.min_eq_left h]
    simp only [List.length_append] at hlen ⊢
    omega

/-! ## Arrays -/

/-- The bytes of the first `n` entries of an array. -/
def arrayBytes (entry : ℕ → List UInt8) (n : ℕ) : List UInt8 := (List.range n).flatMap entry

/-- The bytes of entry `i` of an array whose entries have `w` bytes. -/
def entryAt (w : ℕ) (bs : List UInt8) (i : ℕ) : List UInt8 := (bs.drop (w * i)).take w

theorem length_arrayBytes (h : ∀ i, (entry i).length = w) (n : ℕ) :
    (arrayBytes entry n).length = w * n := by
  induction n with
  | zero => rfl
  | succ n ih =>
    rw [arrayBytes, List.range_succ, List.flatMap_append, List.flatMap_singleton,
      List.length_append, h n, Nat.mul_succ]
    exact congrArg (· + w) ih

/-- The entries are found again by their numbers. -/
theorem entryAt_arrayBytes (h : ∀ i, (entry i).length = w) (hi : i < n) :
    entryAt w (arrayBytes entry n) i = entry i := by
  have hsplit : arrayBytes entry n = arrayBytes entry i ++
      (entry i ++ (List.range' (i + 1) (n - (i + 1))).flatMap entry) := by
    have hrange : List.range n = List.range i ++ i :: List.range' (i + 1) (n - (i + 1)) := by
      rw [List.range_eq_range', List.range_eq_range', ← List.range'_succ]
      have := List.range'_append_1 (s := 0) (m := i) (n := n - (i + 1) + 1)
      rw [Nat.zero_add] at this
      rw [this]
      congr 1
      omega
    rw [arrayBytes, hrange, List.flatMap_append, List.flatMap_cons]
    rfl
  rw [entryAt, hsplit, List.drop_left' (length_arrayBytes h i), List.take_left' (h i)]

/-- An entry lies within the bytes of the array. -/
theorem entryAt_take (hi : i < n) (bs : List UInt8) :
    entryAt w (bs.take (w * n)) i = entryAt w bs i := by
  have hle : w * i + w ≤ w * n := by
    exact Nat.mul_le_mul_left w hi
  rw [entryAt, entryAt, List.take_drop, List.take_drop, List.take_take, Nat.min_eq_left hle]

/-- The entries of an array that was written can be read in place. -/
theorem entryAt_drop_of_readAt {f : List UInt8} {o : ℕ} (h : ∀ i, (entry i).length = w)
    (hf : readAt f o (w * n) = some (arrayBytes entry n)) (hi : i < n) :
    entryAt w (f.drop o) i = entry i := by
  rw [readAt, Option.ite_none_right_eq_some] at hf
  rw [← entryAt_take hi, Option.some.inj hf.2, entryAt_arrayBytes h hi]

end Virtuoso.Lib
