import Mathlib.Data.List.Sort
import Virtuoso.Bitmap.Entry

/-!
# Array entries

Searching and inserting in an array CE: `ce_array_bit_inx` and
`ce_array_insert`, and the conversion of an array that got too long,
`ce_array_to_bitmap`.
-/

namespace Virtuoso.Bitmap

open Lib Ce

variable {bits : List ℕ}

/-- The loop of `ce_array_bit_inx` over the array `arr`. -/
def bitInxLoop (arr : ℕ → ℕ) (bit : ℕ) : ℕ → ℕ → ℕ → ℕ
  | 0, low, _ => low
  | fuel + 1, low, high =>
    if low = high then low
    else if low + 1 = high then if bit ≤ arr low then low else high
    else
      let guess := low + (high - low) / 2
      if bit = arr guess then guess
      else if bit < arr guess then bitInxLoop arr bit fuel low guess
      else bitInxLoop arr bit fuel guess high

/-- `ce_array_bit_inx`. -/
def ceArrayBitInx (ce : List ℕ) (bit : ℕ) : ℕ :=
  let nBits := (ceLength ce - 4) / 2
  bitInxLoop (saRef (ce.drop 4)) bit (nBits + 1) 0 nBits

/-- `ce_array_insert` on a CE of exactly `CE_LENGTH` bytes.  The number the
source returns is the length of the result. -/
def ceArrayInsert (ce : List ℕ) (bit : ℕ) : List ℕ :=
  let ceLen := ceLength ce
  let nBits := (ceLen - 4) / 2
  let inx := ceArrayBitInx ce bit
  if nBits ≤ inx then ceSetLength (ce.take (4 + 2 * inx) ++ shortSetNa bit) (ceLen + 2)
  else if saRef (ce.drop 4) inx = bit then ce
  else
    ceSetLength (ce.take (4 + 2 * inx) ++ shortSetNa bit ++
      (ce.drop (4 + 2 * inx)).take ((nBits - inx) * 2)) (ceLen + 2)

/-- `ce_array_to_bitmap`: the array is over its limit by one entry. -/
def ceArrayToBitmap (ce : List ℕ) : List ℕ :=
  let temp := (List.range (1 + ceNValues / 16)).foldl
    (fun temp inx =>
      let bit := saRef (ce.drop 4) inx
      if ceNValues ≤ bit then temp else setBit temp bit)
    (List.replicate (ceMaxLength - 4) 0)
  let header := ce.take 4
  ceSetLength (header.set 2 (header.getD 2 0 &&& 0xf7)) ceMaxLength ++ temp

/-! ## Searching -/

/-- The loop finds the first of `n` ascending entries that is not below `bit`. -/
theorem bitInxLoop_spec (arr : ℕ → ℕ) (bit : ℕ) {n fuel low high : ℕ}
    (hasc : ∀ i j, i < j → j < n → arr i < arr j) (hfuel : high - low < fuel) (hle : low ≤ high)
    (hn : high ≤ n) (hlt : low = high → n = 0) (hlow : ∀ i < low, arr i < bit)
    (hhigh : ∀ i, high ≤ i → i < n → bit < arr i) :
    bitInxLoop arr bit fuel low high ≤ n ∧
      (∀ i < bitInxLoop arr bit fuel low high, arr i < bit) ∧
      ∀ i, bitInxLoop arr bit fuel low high ≤ i → i < n → bit ≤ arr i := by
  have hmono : ∀ i j, i ≤ j → j < n → arr i ≤ arr j := fun i j hij hj => by
    rcases hij.eq_or_lt with rfl | hij
    · exact le_rfl
    · exact (hasc i j hij hj).le
  induction fuel generalizing low high with
  | zero => omega
  | succ fuel ih =>
    rw [bitInxLoop]
    by_cases h₁ : low = high
    · rw [if_pos h₁]
      exact ⟨by omega, hlow, fun i _ hi => absurd (hlt h₁) (by omega)⟩
    rw [if_neg h₁]
    by_cases h₂ : low + 1 = high
    · rw [if_pos h₂]
      split_ifs with h₃
      · exact ⟨by omega, hlow, fun i hi hin => h₃.trans (hmono low i hi hin)⟩
      · refine ⟨hn, fun i hi => ?_, fun i hi hin => (hhigh i hi hin).le⟩
        exact (hmono i low (by omega) (by omega)).trans_lt (not_le.1 h₃)
    rw [if_neg h₂]
    simp only
    obtain ⟨guess, hg⟩ : ∃ guess, guess = low + (high - low) / 2 := ⟨_, rfl⟩
    rw [← hg]
    split_ifs with h₃ h₄
    · refine ⟨by omega, fun i hi => ?_, fun i hi hin => ?_⟩
      · exact h₃ ▸ hasc i guess hi (by omega)
      · exact h₃ ▸ hmono guess i hi hin
    · exact ih (by omega) (by omega) (by omega) (by omega) hlow
        fun i hi hin => h₄.trans_le (hmono guess i hi hin)
    · refine ih (by omega) (by omega) hn (by omega) (fun i hi => ?_) hhigh
      exact (hasc i guess hi (by omega)).trans (by omega)

/-- Bits of an array: ascending and in the range of a CE. -/
structure ArrayBits (bits : List ℕ) : Prop where
  asc : bits.Pairwise (· < ·)
  lt : ∀ b ∈ bits, b < ceNValues

theorem ArrayBits.lt_two_pow (h : ArrayBits bits) : ∀ b ∈ bits, b < 2 ^ 16 :=
  fun b hb => (h.lt b hb).trans (by decide)

theorem drop_array (offset : ℕ) (bits rest : List ℕ) :
    ((array offset bits).encode ++ rest).drop 4 = bits.flatMap word16 ++ rest := by
  rw [encode, List.append_assoc]
  rfl

variable {offset bit : ℕ}

/-- The number of bits the code reads off the length of an array. -/
theorem nBits_array (hf : (array offset bits).Fits) (rest : List ℕ) :
    (ceLength ((array offset bits).encode ++ rest) - 4) / 2 = bits.length := by
  rw [ceLength_encode hf, length]
  omega

theorem saRef_array (offset : ℕ) (h : ArrayBits bits) (rest : List ℕ) {i b : ℕ}
    (hi : bits[i]? = some b) : saRef (((array offset bits).encode ++ rest).drop 4) i = b := by
  rw [drop_array]
  exact saRef_flatMap h.lt_two_pow rest hi

/-- The loop splits ascending bits into what is below the bit and the rest. -/
theorem bitInxLoop_split {arr : ℕ → ℕ} (harr : ∀ i b, bits[i]? = some b → arr i = b)
    (hasc : bits.Pairwise (· < ·)) (bit : ℕ) :
    ∃ xs ys, bits = xs ++ ys ∧ bitInxLoop arr bit (bits.length + 1) 0 bits.length = xs.length ∧
      (∀ b ∈ xs, b < bit) ∧ ∀ b ∈ ys, bit ≤ b := by
  have harr' : ∀ i (hi : i < bits.length), arr i = bits.get ⟨i, hi⟩ := fun i hi =>
    harr i _ (List.getElem?_eq_getElem hi)
  obtain ⟨hle, hbelow, habove⟩ := bitInxLoop_spec arr bit (n := bits.length)
    (fun i j hij hj => by
      rw [harr' i (hij.trans hj), harr' j hj]
      exact List.pairwise_iff_getElem.1 hasc i j _ hj hij)
    (Nat.lt_succ_self (bits.length - 0)) (Nat.zero_le _) le_rfl Eq.symm (by omega) (by omega)
  obtain ⟨inx, hinx⟩ : ∃ inx, inx = bitInxLoop arr bit (bits.length + 1) 0 bits.length := ⟨_, rfl⟩
  rw [Nat.sub_zero, ← hinx] at hle hbelow habove
  refine ⟨bits.take inx, bits.drop inx, (List.take_append_drop inx bits).symm, ?_, fun b hb => ?_,
    fun b hb => ?_⟩
  · rw [← hinx, List.length_take_of_le hle]
  · obtain ⟨i, hi, rfl⟩ := List.mem_take_iff_getElem.1 hb
    have := hbelow i (by omega)
    rwa [harr' i (by omega)] at this
  · obtain ⟨i, hi, rfl⟩ := List.mem_drop_iff_getElem.1 hb
    have := habove _ (Nat.le_add_right inx i) (by omega)
    rwa [harr' _ (by omega)] at this

/-- `ce_array_bit_inx` splits the array into what is below the bit and the rest. -/
theorem ceArrayBitInx_spec (hf : (array offset bits).Fits) (h : ArrayBits bits) (bit : ℕ)
    (rest : List ℕ) :
    ∃ xs ys, bits = xs ++ ys ∧ ceArrayBitInx ((array offset bits).encode ++ rest) bit = xs.length ∧
      (∀ b ∈ xs, b < bit) ∧ ∀ b ∈ ys, bit ≤ b := by
  rw [ceArrayBitInx, nBits_array hf]
  exact bitInxLoop_split (fun i b hb => saRef_array offset h rest hb) h.asc bit

/-! ## Inserting -/

def addBit (bits : List ℕ) (bit : ℕ) : List ℕ :=
  bits.filter (· < bit) ++ bit :: bits.filter (bit < ·)

theorem mem_addBit {b : ℕ} : b ∈ addBit bits bit ↔ b = bit ∨ b ∈ bits := by
  simp only [addBit, List.mem_append, List.mem_filter, List.mem_cons, decide_eq_true_eq]
  constructor
  · rintro (h | rfl | h)
    · exact .inr h.1
    · exact .inl rfl
    · exact .inr h.1
  · rintro (rfl | h)
    · exact .inr (.inl rfl)
    · rcases lt_trichotomy b bit with hb | hb | hb
      · exact .inl ⟨h, hb⟩
      · exact .inr (.inl hb)
      · exact .inr (.inr ⟨h, hb⟩)

theorem pairwise_addBit (h : bits.Pairwise (· < ·)) (bit : ℕ) :
    (addBit bits bit).Pairwise (· < ·) := by
  refine List.pairwise_append.2 ⟨h.filter _, List.pairwise_cons.2 ⟨?_, h.filter _⟩, ?_⟩
  · intro b hb
    simpa using (List.mem_filter.1 hb).2
  · intro b hb b' hb'
    have hlt : b < bit := by simpa using (List.mem_filter.1 hb).2
    rcases List.mem_cons.1 hb' with rfl | hb'
    · exact hlt
    · exact hlt.trans (by simpa using (List.mem_filter.1 hb').2)

theorem ArrayBits.addBit (h : ArrayBits bits) (hbit : bit < ceNValues) :
    ArrayBits (addBit bits bit) := by
  refine ⟨pairwise_addBit h.asc bit, fun b hb => ?_⟩
  rcases mem_addBit.1 hb with rfl | hb
  · exact hbit
  · exact h.lt b hb

/-- With the bits around it known, adding a bit puts it between them. -/
theorem addBit_of_notMem {xs ys : List ℕ} (h : (xs ++ ys).Pairwise (· < ·)) (hx : ∀ b ∈ xs, b < bit)
    (hy : ∀ b ∈ ys, bit < b) : addBit (xs ++ ys) bit = xs ++ bit :: ys := by
  have hasc : (xs ++ bit :: ys).Pairwise (· < ·) := by
    obtain ⟨hxs, hys, hxy⟩ := List.pairwise_append.1 h
    refine List.pairwise_append.2 ⟨hxs, List.pairwise_cons.2 ⟨hy, hys⟩, fun b hb b' hb' => ?_⟩
    rcases List.mem_cons.1 hb' with rfl | hb'
    · exact hx b hb
    · exact hxy b hb b' hb'
  refine (pairwise_addBit h bit).eq_of_mem_iff hasc fun b => ?_
  rw [mem_addBit, List.mem_append, List.mem_append, List.mem_cons]
  tauto

theorem addBit_of_mem (h : bits.Pairwise (· < ·)) (hb : bit ∈ bits) : addBit bits bit = bits := by
  refine (pairwise_addBit h bit).eq_of_mem_iff h fun b => ?_
  rw [mem_addBit, or_iff_right_iff_imp]
  rintro rfl
  exact hb

theorem length_addBit (h : bits.Pairwise (· < ·)) (bit : ℕ) :
    (addBit bits bit).length = if bit ∈ bits then bits.length else bits.length + 1 := by
  split_ifs with hb
  · rw [addBit_of_mem h hb]
  · have hnodup : (bit :: bits).Nodup := List.nodup_cons.2 ⟨hb, h.imp ne_of_lt⟩
    refine ((List.perm_ext_iff_of_nodup ((pairwise_addBit h bit).imp ne_of_lt) hnodup).2
      ?_).length_eq
    intro b
    rw [mem_addBit, List.mem_cons]

@[simp] theorem length_flatMap_word16 (bits : List ℕ) :
    (bits.flatMap word16).length = 2 * bits.length := by
  simp [List.length_flatMap, Nat.mul_comm]

/-- The bytes of an array up to one of its entries, and from it on. -/
theorem take_drop_array (offset : ℕ) (xs ys : List ℕ) :
    (array offset (xs ++ ys)).encode.take (4 + 2 * xs.length) =
        word32 (offset + ceArrayMask + (4 + 2 * (xs ++ ys).length)) ++ xs.flatMap word16 ∧
      (array offset (xs ++ ys)).encode.drop (4 + 2 * xs.length) = ys.flatMap word16 := by
  have hlen : (word32 (offset + ceArrayMask + (4 + 2 * (xs ++ ys).length)) ++
      xs.flatMap word16).length = 4 + 2 * xs.length := by
    rw [List.length_append, length_word32, length_flatMap_word16]
  rw [encode, List.flatMap_append, ← List.append_assoc]
  exact ⟨List.take_left' hlen, List.drop_left' hlen⟩

/-- Writing a new length into the header of an array. -/
theorem ceSetLength_array {n m : ℕ} (hoff : offset % ceNValues = 0) (hn : n < 2 ^ 11)
    (hm : m < 2 ^ 11) (rest : List ℕ) :
    ceSetLength (word32 (offset + ceArrayMask + n) ++ rest) m =
      word32 (offset + ceArrayMask + m) ++ rest := by
  rw [ceSetLength_word32 _ hm]
  congr 2
  simp only [ceNValues, ceArrayMask] at *
  omega

/-- `ce_array_insert` adds the bit. -/
theorem ceArrayInsert_spec (hf : (array offset bits).Fits) (h : ArrayBits bits) (bit : ℕ) :
    ceArrayInsert (array offset bits).encode bit = (array offset (addBit bits bit)).encode := by
  obtain ⟨xs, ys, rfl, hinx, hxs, hys⟩ := ceArrayBitInx_spec hf h bit []
  have hn := nBits_array hf []
  have hlen := ceLength_encode hf []
  rw [List.append_nil] at hinx hn hlen
  obtain ⟨htake, hdrop⟩ := take_drop_array offset xs ys
  obtain ⟨-, hoff, hlt⟩ := hf
  rw [ceArrayInsert, hinx, hn, hlen, htake, hdrop, shortSetNa_eq, length, List.append_assoc,
    List.append_assoc, ceSetLength_array hoff (by omega) (by omega),
    ceSetLength_array hoff (by omega) (by omega)]
  cases ys with
  | nil =>
    rw [if_pos (by simp), addBit_of_notMem h.asc hxs (by simp), encode]
    simp [Nat.mul_add, Nat.add_assoc]
  | cons y ys =>
    have hy := saRef_array offset h [] (i := xs.length) (b := y) (by simp)
    rw [List.append_nil] at hy
    rw [if_neg (by simp), hy]
    split_ifs with hb
    · rw [addBit_of_mem h.asc (by simp [hb])]
    · have hyb : bit < y := lt_of_le_of_ne (hys y (by simp)) (Ne.symm hb)
      have hasc := (List.pairwise_append.1 h.asc).2.1
      have habove : ∀ b ∈ y :: ys, bit < b := fun b hbm => by
        rcases List.mem_cons.1 hbm with rfl | hbm
        · exact hyb
        · exact hyb.trans ((List.pairwise_cons.1 hasc).1 b hbm)
      rw [addBit_of_notMem h.asc hxs habove, encode, List.take_of_length_le (by simp; omega)]
      simp [Nat.mul_add, Nat.add_assoc]

/-! ## Turning an array into a bitmap -/

theorem bitSet_replicate (n : ℕ) : bitSet (List.replicate n 0) = ∅ := by
  refine Finset.eq_empty_of_forall_notMem fun i hi => ?_
  have h0 : (List.replicate n 0).getD (i / 8) 0 = 0 := by
    rw [List.getD_eq_getElem?_getD, List.getElem?_replicate]
    split_ifs <;> rfl
  rw [mem_bitSet, bitAt, h0, Nat.zero_testBit] at hi
  cases hi

/-- Setting the bits of a list one after the other. -/
theorem foldl_setBit {bytes : List ℕ} (h : ∀ b ∈ bits, b < 8 * bytes.length) (hb : IsBytes bytes) :
    (bits.foldl setBit bytes).length = bytes.length ∧ IsBytes (bits.foldl setBit bytes) ∧
      bitSet (bits.foldl setBit bytes) = bits.toFinset ∪ bitSet bytes := by
  induction bits generalizing bytes with
  | nil => simp [hb]
  | cons b bits ih =>
    have hbits : ∀ c ∈ bits, c < 8 * (setBit bytes b).length := fun c hc => by
      simpa using h c (by simp [hc])
    obtain ⟨hlen, hbytes, hset⟩ := ih hbits (hb.setBit b)
    refine ⟨by simpa using hlen, hbytes, ?_⟩
    rw [List.foldl_cons, hset, bitSet_setBit (h b (by simp))]
    ext i
    simp

/-- Clearing the flag that tells an array from a bitmap. -/
theorem clear_array_flag {w : ℕ} (h : w / 2 ^ 11 % 2 = 1) :
    (word32 w).set 2 ((word32 w).getD 2 0 &&& 0xf7) = word32 (w - 2 ^ 11) := by
  have hand : ∀ b < 256, b / 8 % 2 = 1 → b &&& 0xf7 = b - 8 := by decide +kernel
  simp only [word32, List.getD_cons_succ, List.getD_cons_zero, List.set_cons_succ,
    List.set_cons_zero]
  rw [hand _ (by omega) (by omega)]
  simp only [List.cons.injEq, and_true]
  omega

/-- The bitmap with the bits of an array. -/
def bitsToBytes (bits : List ℕ) : List ℕ := bits.foldl setBit (List.replicate (ceNValues / 8) 0)

/-- `ce_array_to_bitmap` on an array that is over its limit by one. -/
theorem ceArrayToBitmap_spec (hf : (array offset bits).Fits) (h : ArrayBits bits)
    (hlen : bits.length = 1 + ceNValues / 16) :
    ceArrayToBitmap (array offset bits).encode = (bitmap offset (bitsToBytes bits)).encode := by
  obtain ⟨arr, harr⟩ : ∃ arr, arr = saRef ((array offset bits).encode.drop 4) := ⟨_, rfl⟩
  have hmap : (List.range bits.length).map arr = bits := by
    refine List.ext_getElem (by simp) fun i hi hi' => ?_
    have := saRef_array offset h [] (List.getElem?_eq_getElem hi')
    rw [List.append_nil, ← harr] at this
    simpa using this
  have hfold : (List.range (1 + ceNValues / 16)).foldl
      (fun temp inx => if ceNValues ≤ arr inx then temp else setBit temp (arr inx))
      (List.replicate (ceMaxLength - 4) 0) = bitsToBytes bits := by
    rw [bitsToBytes, ← hlen]
    conv_rhs => rw [← hmap, List.foldl_map]
    refine List.foldl_ext _ _ _ fun temp i hi => if_neg ?_
    have hmem : arr i ∈ bits := by
      rw [← hmap]
      exact List.mem_map_of_mem hi
    exact not_le.2 (h.lt _ hmem)
  have hheader : (array offset bits).encode.take 4 =
      word32 (offset + ceArrayMask + (4 + 2 * bits.length)) := by
    rw [encode]
    exact List.take_left' rfl
  obtain ⟨-, hoff, -⟩ := hf
  simp only [ceNValues, ceArrayMask] at hoff hlen hheader
  rw [ceArrayToBitmap, hheader, ← harr, clear_array_flag (by omega)]
  have hlength := ceSetLength_word32 (offset + 6144 + (4 + 2 * bits.length) - 2 ^ 11)
    (show ceMaxLength < 2 ^ 11 by decide) []
  have hw : (offset + 6144 + (4 + 2 * bits.length) - 2 ^ 11) / 2 ^ 11 * 2 ^ 11 + ceMaxLength =
      offset + 0x1000 + ceMaxLength := by omega
  rw [List.append_nil, List.append_nil, hw] at hlength
  simp only [hfold, hlength, encode]

end Virtuoso.Bitmap
