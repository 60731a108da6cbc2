import Virtuoso.Bitmap.Array
import Virtuoso.Lib.Scan

/-!
# Bitmap entries

Searching a bitmap CE for a bit, `ce_bitmap_value`, counting its bits,
`bits_count`, and the conversion of one with few bits, `ce_bitmap_to_array`.
-/

namespace Virtuoso.Bitmap

open Lib

variable {bits : List ℕ}

/-- `byte_bit_after` of `start - 1`: the first one at `start` or after it. -/
def byteBitAfter (byte start : ℕ) : Option ℕ := scanUp (byte.testBit ·) start (8 - start)

/-- `byte_bit_before`. -/
def byteBitBefore (byte pos : ℕ) : Option ℕ := scanDown (byte.testBit ·) pos

/-- `ce_bitmap_value`. -/
def ceBitmapValue (bits : List ℕ) (value : ℤ) (isFwd : Bool) : ℕ :=
  let byte := value.toNat / 8
  let bit := value.toNat % 8
  if value < 0 ∨ (ceNValues : ℤ) ≤ value then ceNValues
  else if (bits.getD byte 0).testBit bit then value.toNat
  else
    match if isFwd then byteBitAfter (bits.getD byte 0) (bit + 1)
      else byteBitBefore (bits.getD byte 0) bit with
    | some after => byte * 8 + after
    | none =>
      if isFwd then
        match scanUp (bits.getD · 0 ≠ 0) (byte + 1) (ceNValues / 8 - (byte + 1)) with
        | some byte => byte * 8 + (byteBitAfter (bits.getD byte 0) 0).getD 8
        | none => ceNValues
      else
        match scanDown (bits.getD · 0 ≠ 0) byte with
        | some byte => byte * 8 + (byteBitBefore (bits.getD byte 0) 8).getD 0
        | none => ceNValues

/-- `word_logcount`. -/
def wordLogcount (word : ℕ) : ℕ := countOnes 32 word

/-- `bits_count`, with the number of groups of four bytes that are left. -/
def bitsCount (countMax : ℕ) : ℕ → List ℕ → ℕ → ℕ
  | 0, _, res => res
  | n + 1, bits, res =>
    let res := res + (wordLogcount (bits.getD 0 0) + wordLogcount (bits.getD 1 0) +
      wordLogcount (bits.getD 2 0) + wordLogcount (bits.getD 3 0))
    if countMax < res then res else bitsCount countMax n (bits.drop 4) res

/-- The loop of `ce_bitmap_to_array`: the bits from `bit` on, after `fill` others.
`none` is the fatal branch, or a lack of fuel. -/
def bitmapToArrayLoop (bits : List ℕ) : ℕ → ℤ → ℕ → Option (List ℕ)
  | 0, _, _ => none
  | fuel + 1, bit, fill =>
    let bit := ceBitmapValue bits bit true
    if bit = ceNValues then some []
    else if ceNValues / 16 ≤ fill + 1 then none
    else (bitmapToArrayLoop bits fuel (bit + 1) (fill + 1)).map (bit :: ·)

/-- `ce_bitmap_to_array` on a CE of exactly `CE_MAX_LENGTH` bytes: the array CE
in its front part. -/
def ceBitmapToArray (ce : List ℕ) : Option (List ℕ) := do
  let res ← bitmapToArrayLoop (ce.drop 4) (ceNValues + 1) 0 0
  let header := ceSetLength (ce.take 4) (4 + 2 * res.length)
  return header.set 2 (header.getD 2 0 ||| 0x8) ++ res.flatMap shortSetNa

/-! ## Searching -/

/-- `r` is the first member of `s` at `v` or after it, or `n` if there is none. -/
def IsFirstFrom (s : Finset ℕ) (n v r : ℕ) : Prop :=
  (r ∈ s ∧ v ≤ r ∧ ∀ j ∈ s, v ≤ j → r ≤ j) ∨ (r = n ∧ ∀ j ∈ s, j < v)

/-- `r` is the last member of `s` at `v` or before it, or `n` if there is none. -/
def IsLastTo (s : Finset ℕ) (n v r : ℕ) : Prop :=
  (r ∈ s ∧ r ≤ v ∧ ∀ j ∈ s, j ≤ v → j ≤ r) ∨ (r = n ∧ ∀ j ∈ s, v < j)

/-- A byte other than 0 has a bit that is set. -/
theorem exists_testBit {byte : ℕ} (hb : byte < 256) (h : byte ≠ 0) : ∃ n < 8, byte.testBit n := by
  obtain ⟨n, hn⟩ := Nat.exists_testBit_of_ne_zero h
  refine ⟨n, not_le.1 fun h8 => ?_, hn⟩
  have hpow : 2 ^ 8 ≤ 2 ^ n := Nat.pow_le_pow_right Nat.two_pos h8
  have hlt : byte < 2 ^ n := hb.trans_le hpow
  rw [Nat.testBit_lt_two_pow hlt] at hn
  cases hn

theorem mem_bitSet_mul_add {byte bit : ℕ} (h : bit < 8) :
    byte * 8 + bit ∈ bitSet bits ↔ (bits.getD byte 0).testBit bit := by
  rw [mem_bitSet, bitAt, show (byte * 8 + bit) / 8 = byte by omega,
    show (byte * 8 + bit) % 8 = bit by omega]

/-- A byte without ones in some places has no members there. -/
theorem not_mem_bitSet {i : ℕ} (h : (bits.getD (i / 8) 0).testBit (i % 8) = false) :
    i ∉ bitSet bits := by
  rw [mem_bitSet, bitAt, h]
  simp

variable {v : ℕ} {bytes : List ℕ}

/-- A forward search finds the first bit from the value on. -/
theorem ceBitmapValue_fwd (hlen : 8 * bits.length = ceNValues) (hb : IsBytes bits)
    (hv : v < ceNValues) : IsFirstFrom (bitSet bits) ceNValues v (ceBitmapValue bits v true) := by
  have hv' : ¬ ((v : ℤ) < 0 ∨ (ceNValues : ℤ) ≤ v) := by omega
  simp only [ceBitmapValue, hv', if_false, Int.toNat_natCast, if_true]
  split_ifs with h₁
  · exact .inl ⟨mem_bitSet.2 h₁, le_rfl, fun j _ hj => hj⟩
  cases h₂ : byteBitAfter (bits.getD (v / 8) 0) (v % 8 + 1) with
  | some after =>
    obtain ⟨hle, hlt, hset, hfirst⟩ := scanUp_eq_some h₂
    change IsFirstFrom _ _ _ (v / 8 * 8 + after)
    refine .inl ⟨(mem_bitSet_mul_add (by omega)).2 hset, by omega, fun j hj hvj => ?_⟩
    by_contra hlt'
    have hbyte : j / 8 = v / 8 := by omega
    rcases hvj.eq_or_lt with rfl | hvj
    · exact h₁ (mem_bitSet.1 hj)
    · exact not_mem_bitSet (hbyte ▸ hfirst (j % 8) (by omega) (by omega)) hj
  | none =>
    have hnone := scanUp_eq_none h₂
    -- no bit from the value on in its own byte
    have hbyte : ∀ j ∈ bitSet bits, v ≤ j → v / 8 < j / 8 := fun j hj hvj => by
      by_contra hle
      have hbyte : j / 8 = v / 8 := by omega
      rcases hvj.eq_or_lt with rfl | hvj
      · exact h₁ (mem_bitSet.1 hj)
      · exact not_mem_bitSet (hbyte ▸ hnone (j % 8) (by omega) (by omega)) hj
    have hzero : ∀ j, bits.getD (j / 8) 0 = 0 → j ∉ bitSet bits := fun j hj =>
      not_mem_bitSet (by rw [hj, Nat.zero_testBit])
    cases h₃ : scanUp (bits.getD · 0 ≠ 0) (v / 8 + 1) (ceNValues / 8 - (v / 8 + 1)) with
    | some byte =>
      obtain ⟨hle, hlt, hne, hfirst⟩ := scanUp_eq_some h₃
      obtain ⟨n, hn, hset⟩ := exists_testBit (hb.getD byte) (by simpa using hne)
      cases h₄ : byteBitAfter (bits.getD byte 0) 0 with
      | none =>
        rw [scanUp_eq_none h₄ n (by omega) (by omega)] at hset
        cases hset
      | some bit =>
        obtain ⟨-, hlt', hset', hfirst'⟩ := scanUp_eq_some h₄
        simp only [h₄, Option.getD_some]
        refine .inl ⟨(mem_bitSet_mul_add (by omega)).2 hset', by omega, fun j hj hvj => ?_⟩
        have hj8 := hbyte j hj hvj
        by_contra hgt
        rcases lt_trichotomy (j / 8) byte with h | h | h
        · exact hzero j (by simpa using hfirst (j / 8) (by omega) h) hj
        · exact not_mem_bitSet (h ▸ hfirst' (j % 8) (by omega) (by omega)) hj
        · omega
    | none =>
      have hnone' := scanUp_eq_none h₃
      refine .inr ⟨rfl, fun j hj => ?_⟩
      by_contra hvj
      have hj8 := hbyte j hj (by omega)
      have hlt := lt_of_mem_bitSet hj
      exact hzero j (by simpa using hnone' (j / 8) (by omega) (by omega)) hj

/-- A backward search finds the last bit up to the value. -/
theorem ceBitmapValue_bwd (hb : IsBytes bits) (hv : v < ceNValues) :
    IsLastTo (bitSet bits) ceNValues v (ceBitmapValue bits v false) := by
  have hv' : ¬ ((v : ℤ) < 0 ∨ (ceNValues : ℤ) ≤ v) := by omega
  simp only [ceBitmapValue, hv', if_false, Int.toNat_natCast, Bool.false_eq_true]
  split_ifs with h₁
  · exact .inl ⟨mem_bitSet.2 h₁, le_rfl, fun j _ hj => hj⟩
  cases h₂ : byteBitBefore (bits.getD (v / 8) 0) (v % 8) with
  | some before =>
    obtain ⟨hlt, hset, hlast⟩ := scanDown_eq_some h₂
    change IsLastTo _ _ _ (v / 8 * 8 + before)
    refine .inl ⟨(mem_bitSet_mul_add (by omega)).2 hset, by omega, fun j hj hjv => ?_⟩
    by_contra hgt
    have hbyte : j / 8 = v / 8 := by omega
    rcases hjv.eq_or_lt with rfl | hjv
    · exact h₁ (mem_bitSet.1 hj)
    · exact not_mem_bitSet (hbyte ▸ hlast (j % 8) (by omega) (by omega)) hj
  | none =>
    have hnone := scanDown_eq_none h₂
    have hbyte : ∀ j ∈ bitSet bits, j ≤ v → j / 8 < v / 8 := fun j hj hjv => by
      by_contra hle
      have hbyte : j / 8 = v / 8 := by omega
      rcases hjv.eq_or_lt with rfl | hjv
      · exact h₁ (mem_bitSet.1 hj)
      · exact not_mem_bitSet (hbyte ▸ hnone (j % 8) (by omega)) hj
    have hzero : ∀ j, bits.getD (j / 8) 0 = 0 → j ∉ bitSet bits := fun j hj =>
      not_mem_bitSet (by rw [hj, Nat.zero_testBit])
    cases h₃ : scanDown (bits.getD · 0 ≠ 0) (v / 8) with
    | some byte =>
      obtain ⟨hlt, hne, hlast⟩ := scanDown_eq_some h₃
      obtain ⟨n, hn, hset⟩ := exists_testBit (hb.getD byte) (by simpa using hne)
      cases h₄ : byteBitBefore (bits.getD byte 0) 8 with
      | none =>
        rw [scanDown_eq_none h₄ n hn] at hset
        cases hset
      | some bit =>
        obtain ⟨hlt', hset', hlast'⟩ := scanDown_eq_some h₄
        simp only [h₄, Option.getD_some]
        refine .inl ⟨(mem_bitSet_mul_add hlt').2 hset', by omega, fun j hj hjv => ?_⟩
        have hj8 := hbyte j hj hjv
        by_contra hgt
        rcases lt_trichotomy (j / 8) byte with h | h | h
        · omega
        · exact not_mem_bitSet (h ▸ hlast' (j % 8) (by omega) (by omega)) hj
        · exact hzero j (by simpa using hlast (j / 8) h hj8) hj
    | none =>
      have hnone' := scanDown_eq_none h₃
      refine .inr ⟨rfl, fun j hj => ?_⟩
      by_contra hjv
      exact hzero j (by simpa using hnone' (j / 8) (hbyte j hj (by omega))) hj

/-- A search looks at the bytes of its own CE only. -/
theorem ceBitmapValue_append (hlen : 8 * bits.length = ceNValues) (rest : List ℕ) (value : ℤ)
    (isFwd : Bool) : ceBitmapValue (bits ++ rest) value isFwd = ceBitmapValue bits value isFwd := by
  have hget : ∀ i < ceNValues / 8, (bits ++ rest).getD i 0 = bits.getD i 0 := fun i hi => by
    have hi : i < bits.length := by omega
    rw [List.getD_eq_getElem?_getD, List.getElem?_append_left hi, ← List.getD_eq_getElem?_getD]
  by_cases hv : value < 0 ∨ (ceNValues : ℤ) ≤ value
  · simp only [ceBitmapValue, hv, if_true]
  have hbyte : value.toNat / 8 < ceNValues / 8 := by
    simp only [ceNValues] at *
    omega
  have hup : scanUp ((bits ++ rest).getD · 0 ≠ 0) (value.toNat / 8 + 1)
      (ceNValues / 8 - (value.toNat / 8 + 1)) = scanUp (bits.getD · 0 ≠ 0) (value.toNat / 8 + 1)
      (ceNValues / 8 - (value.toNat / 8 + 1)) :=
    scanUp_congr fun j _ hj => by rw [hget j (by omega)]
  have hdown : scanDown ((bits ++ rest).getD · 0 ≠ 0) (value.toNat / 8) =
      scanDown (bits.getD · 0 ≠ 0) (value.toNat / 8) :=
    scanDown_congr fun j hj => by rw [hget j (by omega)]
  cases isFwd with
  | true =>
    simp only [ceBitmapValue, hv, if_false, if_true, hget _ hbyte, hup]
    cases hu : scanUp (bits.getD · 0 ≠ 0) (value.toNat / 8 + 1)
        (ceNValues / 8 - (value.toNat / 8 + 1)) with
    | none => rfl
    | some byte =>
      have hlt := (scanUp_eq_some hu).2.1
      simp only [hget byte (by omega)]
  | false =>
    simp only [ceBitmapValue, hv, if_false, Bool.false_eq_true, hget _ hbyte, hdown]
    cases hd : scanDown (bits.getD · 0 ≠ 0) (value.toNat / 8) with
    | none => rfl
    | some byte => simp only [hget byte ((scanDown_eq_some hd).1.trans hbyte)]

/-! ## Counting -/

/-- `bits_count` is the number of bits, or some number above the limit that is
not more than it. -/
theorem bitsCount_spec (countMax : ℕ) {n : ℕ} (hb : IsBytes bits) (hlen : bits.length = 4 * n)
    (rest : List ℕ) (res : ℕ) :
    bitsCount countMax n (bits ++ rest) res = res + (bitSet bits).card ∨
      (countMax < bitsCount countMax n (bits ++ rest) res ∧
        bitsCount countMax n (bits ++ rest) res ≤ res + (bitSet bits).card) := by
  rw [← sum_countOnes]
  induction n generalizing bits res with
  | zero =>
    obtain rfl : bits = [] := List.length_eq_zero_iff.1 (by simpa using hlen)
    exact .inl rfl
  | succ n ih =>
    match bits with
    | b₀ :: b₁ :: b₂ :: b₃ :: bits =>
      have hcount : ∀ b ∈ [b₀, b₁, b₂, b₃], wordLogcount b = countOnes 8 b := fun b hbm =>
        countOnes_of_lt (n := 8) (hb b (by simp at hbm ⊢; tauto)) 24
      simp only [List.length_cons] at hlen
      have hb' : IsBytes bits := fun b hbm => hb b (by simp [hbm])
      rw [bitsCount]
      simp only [List.cons_append, List.getD_cons_zero, List.getD_cons_succ, List.drop_succ_cons,
        List.drop_zero, List.map_cons, List.sum_cons]
      rw [hcount b₀ (by simp), hcount b₁ (by simp), hcount b₂ (by simp), hcount b₃ (by simp)]
      split_ifs with h
      · exact .inr ⟨h, by omega⟩
      · rcases ih hb' (by omega)
          (res + (countOnes 8 b₀ + countOnes 8 b₁ + countOnes 8 b₂ + countOnes 8 b₃)) with ih | ih
        · exact .inl (by omega)
        · exact .inr (by omega)

/-- `bits_count` decides whether there are few bits. -/
theorem bitsCount_lt_iff (hb : IsBytes bits) (hlen : 8 * bits.length = ceNValues) (rest : List ℕ) :
    bitsCount 400 (ceNValues / 32) (bits ++ rest) 0 < 400 ↔ (bitSet bits).card < 400 := by
  have hlen' : bits.length = 4 * (ceNValues / 32) := by
    simp only [ceNValues] at hlen ⊢
    omega
  rcases bitsCount_spec 400 hb hlen' rest 0 with h | h
  · rw [h, Nat.zero_add]
  · omega

/-! ## Turning a bitmap into an array -/

/-- The bits from `v` on, when `r` is the first of them. -/
theorem filter_bitList {r : ℕ} (hr : r ∈ bitSet bytes) (hv : v ≤ r)
    (hfirst : ∀ j ∈ bitSet bytes, v ≤ j → r ≤ j) :
    (bitList bytes).filter (v ≤ ·) = r :: (bitList bytes).filter (r + 1 ≤ ·) := by
  have hasc := pairwise_bitList bytes
  refine (hasc.filter _).eq_of_mem_iff (List.pairwise_cons.2 ⟨fun b hb => ?_, hasc.filter _⟩)
    fun b => ?_
  · have : r + 1 ≤ b := by simpa using (List.mem_filter.1 hb).2
    omega
  · simp only [List.mem_filter, List.mem_cons, mem_bitList, decide_eq_true_eq]
    constructor
    · rintro ⟨hb, hvb⟩
      rcases (hfirst b hb hvb).eq_or_lt with h | h
      · exact .inl h.symm
      · exact .inr ⟨hb, h⟩
    · rintro (rfl | ⟨hb, hrb⟩)
      · exact ⟨hr, hv⟩
      · exact ⟨hb, by omega⟩

/-- No bits from `v` on. -/
theorem filter_bitList_eq_nil (h : ∀ j ∈ bitSet bytes, j < v) :
    (bitList bytes).filter (v ≤ ·) = [] :=
  List.filter_eq_nil_iff.2 fun b hb => by simpa using h b (mem_bitList.1 hb)

/-- The loop collects the bits from `v` on, if there is room for them. -/
theorem bitmapToArrayLoop_spec (hlen : 8 * bits.length = ceNValues) (hb : IsBytes bits)
    {fuel fill : ℕ} (hv : v ≤ ceNValues) (hfuel : ceNValues < fuel + v)
    (hfill : fill + ((bitList bits).filter (v ≤ ·)).length < ceNValues / 16) :
    bitmapToArrayLoop bits fuel v fill = some ((bitList bits).filter (v ≤ ·)) := by
  induction fuel generalizing v fill with
  | zero => omega
  | succ fuel ih =>
    rw [bitmapToArrayLoop]
    rcases hv.eq_or_lt with rfl | hv
    · have hend : ceBitmapValue bits ceNValues true = ceNValues := by simp [ceBitmapValue]
      rw [hend, filter_bitList_eq_nil fun j hj => hlen ▸ lt_of_mem_bitSet hj]
      simp
    · rcases ceBitmapValue_fwd hlen hb hv with ⟨hmem, hvr, hfirst⟩ | ⟨hend, hnone⟩
      · have hlt := lt_of_mem_bitSet hmem
        rw [filter_bitList hmem hvr hfirst, List.length_cons] at hfill
        have hfill' : fill + 1 +
          ((bitList bits).filter (ceBitmapValue bits v true + 1 ≤ ·)).length <
            ceNValues / 16 := by omega
        have hrest := ih (by omega) (by omega) hfill'
        push_cast at hrest
        rw [if_neg (by omega), if_neg (by omega), filter_bitList hmem hvr hfirst, hrest]
        rfl
      · rw [hend, filter_bitList_eq_nil hnone]
        simp

/-- Setting the flag that tells an array from a bitmap. -/
theorem set_array_flag {w : ℕ} (h : w / 2 ^ 11 % 2 = 0) :
    (word32 w).set 2 ((word32 w).getD 2 0 ||| 0x8) = word32 (w + 2 ^ 11) := by
  have hor : ∀ b < 256, b / 8 % 2 = 0 → b ||| 0x8 = b + 8 := by decide +kernel
  simp only [word32, List.getD_cons_succ, List.getD_cons_zero, List.set_cons_succ,
    List.set_cons_zero]
  rw [hor _ (by omega) (by omega)]
  simp only [List.cons.injEq, and_true]
  omega

/-- `ce_bitmap_to_array` on a bitmap with few bits. -/
theorem ceBitmapToArray_spec {offset : ℕ} (hf : (Ce.bitmap offset bytes).Fits) (hb : IsBytes bytes)
    (hcard : (bitSet bytes).card < ceNValues / 16) :
    ceBitmapToArray (Ce.bitmap offset bytes).encode =
      some (Ce.array offset (bitList bytes)).encode := by
  obtain ⟨-, hoff, hlen⟩ := hf
  have hall : (bitList bytes).filter (0 ≤ ·) = bitList bytes := List.filter_eq_self.2 (by simp)
  rw [← length_bitList] at hcard
  have hfill : 0 + ((bitList bytes).filter (0 ≤ ·)).length < ceNValues / 16 := by
    rwa [hall, Nat.zero_add]
  have hloop : bitmapToArrayLoop bytes (ceNValues + 1) 0 0 = some (bitList bytes) :=
    hall ▸ bitmapToArrayLoop_spec hlen hb (Nat.zero_le _) (Nat.lt_succ_self ceNValues) hfill
  have hdrop : (Ce.bitmap offset bytes).encode.drop 4 = bytes := by
    rw [Ce.encode]
    exact List.drop_left' rfl
  have htake : (Ce.bitmap offset bytes).encode.take 4 = word32 (offset + 0x1000 + ceMaxLength) := by
    rw [Ce.encode]
    exact List.take_left' rfl
  simp only [ceNValues] at hoff hcard
  have hlength := ceSetLength_word32 (offset + 0x1000 + ceMaxLength)
    (show 4 + 2 * (bitList bytes).length < 2 ^ 11 by omega) []
  have hw : (offset + 0x1000 + ceMaxLength) / 2 ^ 11 * 2 ^ 11 + (4 + 2 * (bitList bytes).length) +
      2 ^ 11 = offset + ceArrayMask + (4 + 2 * (bitList bytes).length) := by
    simp only [ceMaxLength, ceArrayMask]
    omega
  rw [List.append_nil, List.append_nil] at hlength
  rw [ceBitmapToArray, hdrop, htake, hloop]
  simp only [Option.bind_eq_bind, Option.bind_some, hlength, Option.pure_def, Option.some.injEq]
  rw [set_array_flag (by simp only [ceMaxLength]; omega), hw, Ce.encode, funext shortSetNa_eq]

end Virtuoso.Bitmap
