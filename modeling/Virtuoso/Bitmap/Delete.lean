import Virtuoso.Bitmap.Insert

/-!
# Deleting a bit from a row

`bm_delete` over byte strings, and what it makes of a row that has the bit.
-/

namespace Virtuoso.Bitmap

open Lib

/-- The results of `bm_delete`: `DVC_LESS` for a bit that is not there, and
`DVC_MATCH` with the new row. -/
inductive BmDelete where
  | less
  | matched (bm : List ℕ)
deriving DecidableEq, Repr

/-- Delete the bit of the CE at `pos`.  `none` is the fatal branch of
`ce_bitmap_to_array`. -/
def deleteInCe (bmStart value : ℤ) (bm : List ℕ) (pos : ℕ) : Option BmDelete :=
  let ce := bm.drop pos
  let ceLen := ceLength ce
  let bit := (value - (bmStart + ceOffset ce)).toNat
  if ceIsSingle ce then
    if bmStart + ceSingleValue ce = value then some (.matched (splice bm pos 4 []))
    else some .less
  else if ceIsArray ce then
    let inx := ceArrayBitInx ce bit
    if inx = (ceLen - 4) / 2 then some .less
    else if bit = saRef (ce.drop 4) inx then
      if ceLen = 6 then some (.matched (splice bm pos 6 []))
      else
        let bm := bm.take pos ++ ceSetLength ce (ceLen - 2)
        some (.matched (splice bm (pos + 4 + 2 * inx) 2 []))
    else some .less
  else
    let byte := pos + 4 + bit / 8
    if (bm.getD byte 0).testBit (bit % 8) then
      let bm := bm.set byte (bm.getD byte 0 &&& (255 ^^^ 1 <<< (bit % 8)))
      let ce := bm.drop pos
      if bitsCount 400 (ceNValues / 32) (ce.drop 4) 0 < 400 then do
        let array ← ceBitmapToArray (ce.take ceMaxLength)
        return .matched (splice bm pos ceMaxLength array)
      else some (.matched bm)
    else some .less

/-- The loop of `bm_delete` over the CEs from `pos` on.  `none` is the fatal branch
or a loop that does not end. -/
def deleteLoop (bmStart value : ℤ) (bm : List ℕ) : ℕ → ℕ → Option BmDelete
  | 0, _ => none
  | fuel + 1, pos =>
    if pos < bm.length then
      let ce := bm.drop pos
      let ceStart := bmStart + ceOffset ce
      if value < ceStart then some .less
      else if value < ceStart + ceNValues then deleteInCe bmStart value bm pos
      else deleteLoop bmStart value bm fuel (pos + ceLength ce)
    else none

/-- `bm_delete`. -/
def bmDelete (bmStart : ℤ) (bm : List ℕ) (value : ℤ) : Option BmDelete :=
  deleteLoop bmStart value bm (bm.length + 1) 0

/-! ## What it makes of a row -/

theorem splice_append (pre mid rest : List ℕ) (ext : List ℕ) :
    splice (pre ++ mid ++ rest) pre.length mid.length ext = pre ++ ext ++ rest := by
  rw [splice, List.append_assoc pre, List.take_left, ← List.drop_drop, List.drop_left,
    List.drop_left]

/-- The bytes of an entry that may be gone. -/
def encodeOption (c : Option Ce) : List ℕ := encodeRow c.toList

/-- Taking one entry out of an array. -/
theorem splice_array (pre rest : List ℕ) {offset bit : ℕ} {xs ys : List ℕ}
    (hf : (Ce.array offset (xs ++ bit :: ys)).Fits) :
    splice (pre ++ ceSetLength ((Ce.array offset (xs ++ bit :: ys)).encode ++ rest)
        ((Ce.array offset (xs ++ bit :: ys)).length - 2)) (pre.length + 4 + 2 * xs.length) 2 [] =
      pre ++ (Ce.array offset (xs ++ ys)).encode ++ rest := by
  obtain ⟨-, hoff, hlen⟩ := hf
  have hsub : (Ce.array offset (xs ++ bit :: ys)).length - 2 = 4 + 2 * (xs ++ ys).length := by
    simp only [Ce.length_array, List.length_append, List.length_cons]
    omega
  have hlt : 4 + 2 * (xs ++ ys).length < 2 ^ 11 := by
    simp only [List.length_append, List.length_cons] at hlen ⊢
    omega
  rw [hsub, Ce.encode, Ce.encode, List.append_assoc, ceSetLength_array hoff (by omega) hlt]
  have := splice_append (pre ++ word32 (offset + ceArrayMask + (4 + 2 * (xs ++ ys).length)) ++
    xs.flatMap word16) (word16 bit) (ys.flatMap word16 ++ rest) []
  simpa [Nat.add_assoc, Nat.mul_comm 2] using this

/-- The bits around one of ascending bits are the others. -/
theorem filter_ne_append {xs ys : List ℕ} {bit : ℕ} (h : (xs ++ bit :: ys).Pairwise (· < ·)) :
    (xs ++ bit :: ys).filter (· ≠ bit) = xs ++ ys := by
  obtain ⟨-, hys, hxy⟩ := List.pairwise_append.1 h
  have hx : xs.filter (· ≠ bit) = xs :=
    List.filter_eq_self.2 fun b hb => by simpa using (hxy b hb bit (by simp)).ne
  have hy : ys.filter (· ≠ bit) = ys :=
    List.filter_eq_self.2 fun b hb => by simpa using ((List.pairwise_cons.1 hys).1 b hb).ne'
  rw [List.filter_append, List.filter_cons_of_neg (by simp), hx, hy]

variable {c : Ce} {v : ℕ} {rest : List Ce}

/-- Deleting a bit that is there leaves the entry without it. -/
theorem deleteInCe_spec (bmStart : ℤ) (pre rest : List ℕ) (h : c.Ok) (hle : c.offset ≤ v)
    (hbit : v - c.offset ∈ c.bits) :
    deleteInCe bmStart (bmStart + v) (pre ++ c.encode ++ rest) pre.length =
      some (.matched (pre ++ encodeOption (c.remove (v - c.offset)) ++ rest)) := by
  have hdrop : (pre ++ c.encode ++ rest).drop pre.length = c.encode ++ rest := by simp
  have hbit' : (bmStart + v - (bmStart + c.offset)).toNat = v - c.offset := by omega
  rw [deleteInCe]
  simp only [hdrop, Ce.ceLength_encode h.fits, Ce.ceOffset_encode h.fits, Ce.ite_encode h.fits,
    hbit']
  cases c with
  | single value =>
    have hv : bmStart + (value : ℤ) = bmStart + v := by
      simp only [Ce.bits, Ce.offset, List.mem_singleton, ceNValues] at *
      omega
    simp only [if_true, Ce.ceSingleValue_single h, hv]
    have := splice_append pre (Ce.single value).encode rest []
    rw [show (Ce.single value).encode.length = 4 from rfl] at this
    rw [this]
    rfl
  | array offset bits =>
    simp only [Ce.offset, Ce.bits] at hle hbit ⊢
    obtain ⟨xs, ys, rfl, hinx, hxs, hys⟩ := ceArrayBitInx_spec h.fits h.2.2.1 (v - offset) rest
    have hn := nBits_array h.fits rest
    rw [Ce.ceLength_encode h.fits] at hn
    -- the bit is the first of those that are not below it
    have hmem : v - offset ∈ ys := (List.mem_append.1 hbit).resolve_left fun hb => (hxs _ hb).false
    obtain ⟨y, ys, rfl⟩ := List.exists_cons_of_ne_nil (List.ne_nil_of_mem hmem)
    have hasc := h.2.2.1.asc
    obtain rfl : y = v - offset := by
      refine le_antisymm ?_ (hys y (by simp))
      rcases List.mem_cons.1 hmem with heq | hin
      · exact heq.ge
      · exact ((List.pairwise_cons.1 (List.pairwise_append.1 hasc).2.1).1 _ hin).le
    have href := saRef_array offset h.2.2.1 rest (i := xs.length) (b := v - offset) (by simp)
    have hinx' : xs.length ≠ (xs ++ (v - offset) :: ys).length := by simp
    have hone : (Ce.array offset (xs ++ (v - offset) :: ys)).length = 6 ↔
        (xs ++ (v - offset) :: ys).length = 1 := by
      rw [Ce.length_array]
      omega
    have htake : (pre ++ (Ce.array offset (xs ++ (v - offset) :: ys)).encode ++ rest).take
      pre.length =
        pre := by simp
    simp only [if_false, if_true, hinx, hn, hinx', href, hone, htake]
    rw [Ce.remove]
    split_ifs with hlen
    · have := splice_append pre (Ce.array offset (xs ++ (v - offset) :: ys)).encode rest []
      rw [Ce.length_encode h.fits, hone.2 hlen] at this
      rw [this]
      rfl
    · rw [splice_array pre rest h.fits, filter_ne_append hasc]
      simp [encodeOption, encodeRow]
  | bitmap offset bytes =>
    simp only [Ce.offset, Ce.bits, mem_bitList] at hle hbit ⊢
    have hlt := lt_of_mem_bitSet hbit
    have hbyte : (v - offset) / 8 < bytes.length := by omega
    obtain ⟨hget, hset⟩ := getD_set_bitmap pre rest offset hbyte
    have hbit₁ : (bytes.getD ((v - offset) / 8) 0).testBit ((v - offset) % 8) = true :=
      mem_bitSet.1 hbit
    have hclear : bytes.set ((v - offset) / 8)
        (bytes.getD ((v - offset) / 8) 0 &&& (255 ^^^ 1 <<< ((v - offset) % 8))) =
          clearBit bytes (v - offset) := rfl
    have hlen : 8 * (clearBit bytes (v - offset)).length = ceNValues := by
      rw [length_clearBit, h.2.2.1]
    have hfits : (Ce.bitmap offset (clearBit bytes (v - offset))).Fits := ⟨h.1, h.2.1, hlen⟩
    have hdrop' : (pre ++ (Ce.bitmap offset (clearBit bytes (v - offset))).encode ++ rest).drop
        pre.length = (Ce.bitmap offset (clearBit bytes (v - offset))).encode ++ rest := by simp
    have hbits : ((Ce.bitmap offset (clearBit bytes (v - offset))).encode ++ rest).drop 4 =
        clearBit bytes (v - offset) ++ rest := by
      rw [Ce.encode, List.append_assoc]
      rfl
    have htake : ((Ce.bitmap offset (clearBit bytes (v - offset))).encode ++ rest).take
      ceMaxLength =
        (Ce.bitmap offset (clearBit bytes (v - offset))).encode :=
      List.take_left' (Ce.length_encode hfits)
    simp only [hget, hset, hbit₁, if_true, hclear, hdrop', hbits,
      bitsCount_lt_iff (h.2.2.2.1.clearBit _) hlen, htake]
    rw [Ce.remove]
    split_ifs with hfew
    · rw [ceBitmapToArray_spec hfits (h.2.2.2.1.clearBit _) (hfew.trans (by decide))]
      have := splice_append pre (Ce.bitmap offset (clearBit bytes (v - offset))).encode rest
        (Ce.array offset (bitList (clearBit bytes (v - offset)))).encode
      rw [Ce.length_encode hfits] at this
      simp [encodeOption, encodeRow, ← this]
      rfl
    · simp [encodeOption, encodeRow]

/-- A bit of its range that an entry does not have is not found. -/
theorem deleteInCe_absent (bmStart : ℤ) (pre rest : List ℕ) (h : c.Ok) (hle : c.offset ≤ v)
    (hlt : v < c.offset + ceNValues) (hbit : v - c.offset ∉ c.bits) :
    deleteInCe bmStart (bmStart + v) (pre ++ c.encode ++ rest) pre.length = some .less := by
  have hdrop : (pre ++ c.encode ++ rest).drop pre.length = c.encode ++ rest := by simp
  have hbit' : (bmStart + v - (bmStart + c.offset)).toNat = v - c.offset := by omega
  rw [deleteInCe]
  simp only [hdrop, Ce.ceLength_encode h.fits, Ce.ceOffset_encode h.fits, Ce.ite_encode h.fits,
    hbit']
  cases c with
  | single value =>
    have hv : bmStart + (value : ℤ) ≠ bmStart + v := by
      simp only [Ce.bits, Ce.offset, List.mem_singleton, ceNValues] at *
      omega
    simp only [Ce.ceSingleValue_single h, hv, if_false]
  | array offset bits =>
    simp only [Ce.offset, Ce.bits] at hle hbit ⊢
    obtain ⟨xs, ys, rfl, hinx, -, -⟩ := ceArrayBitInx_spec h.fits h.2.2.1 (v - offset) rest
    have hn := nBits_array h.fits rest
    rw [Ce.ceLength_encode h.fits] at hn
    simp only [hinx, hn]
    cases ys with
    | nil => simp
    | cons y ys =>
      have href := saRef_array offset h.2.2.1 rest (i := xs.length) (b := y) (by simp)
      have hy : v - offset ≠ y := fun heq => hbit (by simp [heq])
      simp [href, hy]
  | bitmap offset bytes =>
    simp only [Ce.offset, Ce.bits, mem_bitList] at hle hlt hbit ⊢
    have hbyte : (v - offset) / 8 < bytes.length := by
      have := h.2.2.1
      omega
    obtain ⟨hget, -⟩ := getD_set_bitmap pre rest offset hbyte
    have hbit₁ : ¬ (bytes.getD ((v - offset) / 8) 0).testBit ((v - offset) % 8) = true :=
      fun htest => hbit (mem_bitSet.2 htest)
    simp only [hget, hbit₁, Bool.false_eq_true, if_false]

/-- One round of the loop of `bm_delete`. -/
theorem deleteLoop_cons (bmStart value : ℤ) {passed : List Ce} (h : EntriesOk (passed ++ c :: rest))
    (fuel : ℕ) :
    deleteLoop bmStart value (encodeRow (passed ++ c :: rest)) (fuel + 1) (rowLength passed) =
      if value < bmStart + c.offset then some .less
      else if value < bmStart + c.offset + ceNValues then
        deleteInCe bmStart value (encodeRow (passed ++ c :: rest)) (rowLength passed)
      else
        deleteLoop bmStart value (encodeRow (passed ++ c :: rest)) fuel
          (rowLength (passed ++ [c])) := by
  have hc := h.ok c (by simp)
  rw [deleteLoop, if_pos (rowLength_lt_length h), drop_encodeRow (EntriesOk.append_iff.1 h).1]
  simp only [Ce.ceOffset_encode hc.fits, Ce.ceLength_encode hc.fits, rowLength_append,
    rowLength_cons, rowLength_nil, Nat.add_zero]

section Stops

variable {bmStart value : ℤ} {before rest : List Ce} {c : Ce}

/-- The loop of `bm_delete` gets to the place where it stops. -/
theorem bmDelete_passes {after : List Ce} (h : EntriesOk (before ++ after))
    (hs : StopsAt bmStart value (before ++ after) before after) :
    ∃ fuel, bmDelete bmStart (encodeRow (before ++ after)) value =
      deleteLoop bmStart value (encodeRow (before ++ after)) (fuel + 1) (rowLength before) := by
  refine hs.loop h (fun fuel passed => deleteLoop bmStart value (encodeRow (before ++ after)) fuel
    (rowLength passed)) fun fuel heq hpast => ?_
  rw [heq] at h ⊢
  rw [deleteLoop_cons bmStart value h, if_neg (by omega), if_neg (by omega)]

/-- A value that is beyond all entries is fatal. -/
theorem bmDelete_beyond (h : EntriesOk before) (hs : StopsAt bmStart value before before []) :
    bmDelete bmStart (encodeRow before) value = none := by
  obtain ⟨fuel, hloop⟩ := bmDelete_passes (show EntriesOk (before ++ []) by rwa [List.append_nil])
    (by rwa [List.append_nil])
  rw [List.append_nil] at hloop
  rw [hloop, deleteLoop, h.length_encodeRow, if_neg (lt_irrefl _)]

/-- At the entry where the loop stops the value is in a gap or in its range. -/
theorem bmDelete_stops (h : EntriesOk (before ++ c :: rest))
    (hs : StopsAt bmStart value (before ++ c :: rest) before (c :: rest)) :
    bmDelete bmStart (encodeRow (before ++ c :: rest)) value =
      if value < bmStart + c.offset then some .less
      else deleteInCe bmStart value (encodeRow before ++ c.encode ++ encodeRow rest)
        (encodeRow before).length := by
  have hstop := hs.after c (by simp)
  obtain ⟨fuel, hloop⟩ := bmDelete_passes h hs
  rw [hloop, deleteLoop_cons bmStart value h, encodeRow_append_cons,
    (EntriesOk.append_iff.1 h).1.length_encodeRow]
  split_ifs
  · rfl
  · rfl

end Stops

/-- The entries of a row without the bit number `v` of the entry `c`. -/
def removeAt (before : List Ce) (c : Ce) (rest : List Ce) (v : ℕ) : List Ce :=
  before ++ ((c.remove (v - c.offset)).toList ++ rest)

section RemoveAt

variable {before rest : List Ce} {c : Ce} {v : ℕ}

/-- What is left of the entry lies where the entry was. -/
theorem mem_toList_remove (h : c.Ok) (hbit : v - c.offset ∈ c.bits) {d : Ce}
    (hmem : d ∈ (c.remove (v - c.offset)).toList) :
    d.Dense ∧ d.offset = c.offset ∧ d.length ≤ c.length := by
  have hr : c.remove (v - c.offset) = some d := by simpa using hmem
  obtain ⟨-, h₁, -, h₂⟩ := Ce.remove_eq_some h hbit hr
  exact ⟨Ce.dense_of_remove hr, h₁, h₂⟩

theorem EntriesOk.removeAt (h : EntriesOk (before ++ c :: rest)) (hl : ¬ c.Lone (v - c.offset))
    (hbit : v - c.offset ∈ c.bits) : EntriesOk (removeAt before c rest v) := by
  obtain ⟨hb, ⟨hcok, hcasc⟩, hbc⟩ := EntriesOk.append_iff.1 h
  obtain ⟨hcr, hrest⟩ := List.pairwise_cons.1 hcasc
  have hc := hcok c (by simp)
  have hleft := fun {d} hmem => mem_toList_remove (d := d) hc hbit hmem
  have hmid : EntriesOk (c.remove (v - c.offset)).toList := by
    refine ⟨fun d hd => hc.remove hl hbit (by simpa using hd), ?_⟩
    cases c.remove (v - c.offset) <;> simp
  have hrest' : EntriesOk rest := ⟨fun d hd => hcok d (by simp [hd]), hrest⟩
  refine EntriesOk.append_iff.2 ⟨hb, EntriesOk.append_iff.2 ⟨hmid, hrest', ?_⟩, ?_⟩
  · intro d hd e he
    rw [(hleft hd).2.1]
    exact hcr e he
  · intro d hd e he
    rcases List.mem_append.1 he with he | he
    · rw [(hleft he).2.1]
      exact hbc d hd c (by simp)
    · exact hbc d hd e (by simp [he])

/-- A delete makes no row longer. -/
theorem rowLength_removeAt (h : c.Ok) (hbit : v - c.offset ∈ c.bits) :
    rowLength (removeAt before c rest v) ≤ rowLength (before ++ c :: rest) := by
  have hmid : rowLength (c.remove (v - c.offset)).toList ≤ c.length := by
    cases hr : c.remove (v - c.offset) with
    | none => exact Nat.zero_le _
    | some d =>
      rw [Option.toList_some, rowLength_singleton]
      exact (mem_toList_remove h hbit (by simp [hr])).2.2
  rw [removeAt, rowLength_append, rowLength_append, rowLength_append, rowLength_cons]
  omega

theorem dense_removeAt (h : c.Ok) (hd : ∀ d ∈ before ++ c :: rest, d.Dense)
    (hbit : v - c.offset ∈ c.bits) : ∀ d ∈ removeAt before c rest v, d.Dense := by
  intro d hmem
  rcases List.mem_append.1 hmem with hmem | hmem
  · exact hd d (by simp [hmem])
  · rcases List.mem_append.1 hmem with hmem | hmem
    · exact (mem_toList_remove h hbit hmem).1
    · exact hd d (by simp [hmem])

end RemoveAt

/-- **What `bm_delete` makes of a row.**  It takes the bit out of the entry whose
range it is in. -/
theorem bmDelete_spec {before : List Ce} (h : EntriesOk (before ++ c :: rest)) (hle : c.offset ≤ v)
    (hbit : v - c.offset ∈ c.bits) (bmStart : ℤ) :
    bmDelete bmStart (encodeRow (before ++ c :: rest)) (bmStart + v) =
      some (.matched (encodeRow (removeAt before c rest v))) := by
  have hc := h.ok c (by simp)
  have hl : Located (before ++ c :: rest) v before (c :: rest) :=
    ⟨rfl, fun d hd => (h.around.1 d hd).trans hle, by simpa using hc.lt_of_mem_bits hbit⟩
  rw [bmDelete_stops h (hl.stopsAt bmStart), if_neg (by omega),
    deleteInCe_spec bmStart (encodeRow before) (encodeRow rest) hc hle hbit, removeAt,
    encodeRow_append, encodeRow_append, encodeOption, List.append_assoc]

end Virtuoso.Bitmap
