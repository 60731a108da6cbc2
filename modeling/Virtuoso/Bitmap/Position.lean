import Virtuoso.Bitmap.Reading
import Virtuoso.Lib.Ascending
import Virtuoso.Search.Compare

/-!
# Positions in a bitmap row

The position that a placeholder keeps in a bitmap row, and the functions that
set it to a bit of a CE, `pl_ce_set`, and move it to the next bit of the row in
either direction, `pl_next_bit`.
-/

namespace Virtuoso.Bitmap

open Lib Search

/-- The values of `bp_ce_type`. -/
inductive CeType where
  | single
  | array
  | bitmap
  | singletonRow
deriving DecidableEq, Repr

/-- `bm_pos_t`. -/
structure BmPos where
  bpValue : ℤ
  bpCeOffset : ℕ
  bpPosInCe : ℕ
  bpCeType : CeType
  bpIsPosValid : Bool
  bpAtEnd : Bool
  bpBelowStart : Bool
deriving DecidableEq, Repr

/-- `BITNO_MIN`. -/
def bitnoMin : ℤ := -2 ^ 63

/-- `BITNO_MAX`. -/
def bitnoMax : ℤ := 2 ^ 63 - 1

/-- `pl_ce_set` on a single CE. -/
def plCeSetSingle (bp : BmPos) (ce : List ℕ) (bmStart value : ℤ) (isFwd : Bool) : BmPos × Dvc :=
  let ceValue := bmStart + ceSingleValue ce
  let bp := { bp with bpValue := ceValue, bpCeType := .single }
  if value = ceValue then (bp, .matched)
  else if ceValue < value then
    if isFwd then ({ bp with bpAtEnd := true }, .greater) else (bp, .less)
  else
    let bp := { bp with bpBelowStart := true }
    if isFwd then (bp, .less) else ({ bp with bpAtEnd := true }, .greater)

/-- `pl_ce_set` on an array CE. -/
def plCeSetArray (bp : BmPos) (ce : List ℕ) (bmStart value : ℤ) (isFwd : Bool) : BmPos × Dvc :=
  let ceStart := bmStart + ceOffset ce
  let nBits := (ceLength ce - 4) / 2
  let on (inx : ℕ) : BmPos :=
    { bp with bpValue := ceStart + saRef (ce.drop 4) inx, bpPosInCe := inx, bpCeType := .array }
  if value < ceStart then
    ({ on 0 with bpAtEnd := true, bpBelowStart := true }, .greater)
  else if ceStart + ceNValues ≤ value then ({ on (nBits - 1) with bpAtEnd := true }, .greater)
  else
    let inx := ceArrayBitInx ce (value - ceStart).toNat
    if inx = nBits then ({ on (nBits - 1) with bpAtEnd := true }, .greater)
    else if value = ceStart + saRef (ce.drop 4) inx then (on inx, .matched)
    else if inx = 0 then ({ on 0 with bpAtEnd := true, bpBelowStart := true }, .greater)
    else (on (if isFwd then inx else inx - 1), .less)

/-- `pl_ce_set` on a bitmap CE. -/
def plCeSetBitmap (bp : BmPos) (ce : List ℕ) (bmStart value : ℤ) (isFwd : Bool) : BmPos × Dvc :=
  let ceStart := bmStart + ceOffset ce
  let bits := ce.drop 4
  let on (bit : ℕ) : BmPos := { bp with bpValue := ceStart + bit, bpCeType := .bitmap }
  if value < ceStart then
    ({ on (ceBitmapValue bits 0 true) with bpAtEnd := true, bpBelowStart := true }, .greater)
  else if ceStart + ceNValues ≤ value then
    ({ on (ceBitmapValue bits (ceNValues - 1) false) with bpAtEnd := true }, .greater)
  else
    let bit := ceBitmapValue bits (value - ceStart) isFwd
    if bit + ceStart = value then (on bit, .matched)
    else if bit = ceNValues then
      let bit := if isFwd then ceBitmapValue bits (ceNValues - 1) false
        else ceBitmapValue bits 0 true
      ({ on bit with bpAtEnd := true }, .greater)
    else (on bit, .less)

/-- `pl_ce_set`. -/
def plCeSet (bp : BmPos) (ce : List ℕ) (bmStart value : ℤ) (isFwd : Bool) : BmPos × Dvc :=
  let bp := { bp with bpIsPosValid := true, bpAtEnd := false, bpBelowStart := false }
  if ceIsSingle ce then plCeSetSingle bp ce bmStart value isFwd
  else if ceIsArray ce then plCeSetArray bp ce bmStart value isFwd
  else plCeSetBitmap bp ce bmStart value isFwd

/-- The loop of `bm_prev_ce`.  `none` is a fatal branch. -/
def prevCeLoop (bm : List ℕ) (nextCe : ℕ) : ℕ → ℕ → Option ℕ
  | 0, _ => none
  | fuel + 1, ce =>
    let len := ceLength (bm.drop ce)
    if ce + len = nextCe then some ce
    else if len = 0 then none
    else if ceMaxLength < ce + len then none
    else prevCeLoop bm nextCe fuel (ce + len)

/-- `bm_prev_ce`: the CE before the one at `nextCe`, if there is one. -/
def bmPrevCe (bm : List ℕ) (nextCe : ℕ) : Option (Option ℕ) :=
  if nextCe = 0 then some none else (prevCeLoop bm nextCe (bm.length + 1) 0).map some

/-- `next_ce` of `pl_next_bit`. -/
def nextCe (bp : BmPos) (bm : List ℕ) (bmStart : ℤ) (ce : ℕ) : BmPos × Dvc :=
  let ce := ce + ceLength (bm.drop ce)
  if bm.length ≤ ce then ({ bp with bpAtEnd := true }, .greater)
  else
    let bp := { bp with bpCeOffset := ce }
    ({ (plCeSet bp (bm.drop ce) bmStart bitnoMin true).1 with bpAtEnd := false }, .matched)

/-- `prev_ce` of `pl_next_bit`. -/
def prevCe (bp : BmPos) (bm : List ℕ) (bmStart : ℤ) (ce : ℕ) : Option (BmPos × Dvc) := do
  match ← bmPrevCe bm ce with
  | none => return ({ bp with bpAtEnd := true }, .greater)
  | some ce =>
    let bp := { bp with bpCeOffset := ce }
    return ({ (plCeSet bp (bm.drop ce) bmStart bitnoMax false).1 with bpAtEnd := false }, .matched)

/-- `pl_next_bit`.  `none` is a fatal branch.  The bit number of the bitmap case is
a `short`. -/
def plNextBit (bp : BmPos) (bm : List ℕ) (bmStart : ℤ) (isDesc : Bool) : Option (BmPos × Dvc) :=
  let ce := bp.bpCeOffset
  if bp.bpIsPosValid then
    match bp.bpCeType with
    | .singletonRow => some ({ bp with bpAtEnd := true }, .greater)
    | .single => if isDesc then prevCe bp bm bmStart ce else some (nextCe bp bm bmStart ce)
    | .array =>
      let inx := bp.bpPosInCe
      if isDesc ∧ inx = 0 then prevCe bp bm bmStart ce
      else if ¬ isDesc ∧ (ceLength (bm.drop ce) - 4) / 2 ≤ inx + 1 then
        some (nextCe bp bm bmStart ce)
      else
        let inx := if isDesc then inx - 1 else inx + 1
        some ({ bp with
          bpPosInCe := inx
          bpValue := bmStart + ceOffset (bm.drop ce) + saRef ((bm.drop ce).drop 4) inx }, .matched)
    | .bitmap =>
      let bit := (bp.bpValue - bmStart).bmod (2 ^ 16)
      let bit := (bit + if isDesc then -1 else 1).bmod (2 ^ 16)
      if bit < 0 then prevCe bp bm bmStart ce
      else if (ceNValues : ℤ) ≤ bit then some (nextCe bp bm bmStart ce)
      else
        let bit := ceBitmapValue ((bm.drop ce).drop 4) bit (!isDesc)
        if bit = ceNValues then
          if isDesc then prevCe bp bm bmStart ce else some (nextCe bp bm bmStart ce)
        else some ({ bp with bpValue := bmStart + bit }, .matched)
  else none

/-! ## The ends of an entry -/

def Ce.ceType : Ce → CeType
  | .single _ => .single
  | .array _ _ => .array
  | .bitmap _ _ => .bitmap

/-- The position is on the bit `bit` of the entry `c` at `pos`, the one with index
`inx` if `c` is an array. -/
structure BmPos.At (bp : BmPos) (bmStart : ℤ) (pos : ℕ) (c : Ce) (inx bit : ℕ) : Prop where
  valid : bp.bpIsPosValid = true
  value : bp.bpValue = bmStart + (c.offset + bit : ℕ)
  ceOffset : bp.bpCeOffset = pos
  ceType : bp.bpCeType = c.ceType
  posInCe : c.ceType = .array → bp.bpPosInCe = inx

variable {bit b : ℕ} {c : Ce}

/-- Whether the position is at the end says nothing about where it is. -/
theorem BmPos.At.setAtEnd {bp : BmPos} {bmStart : ℤ} {pos inx : ℕ} (h : bp.At bmStart pos c inx bit)
    (atEnd : Bool) : { bp with bpAtEnd := atEnd }.At bmStart pos c inx bit :=
  ⟨h.valid, h.value, h.ceOffset, h.ceType, h.posInCe⟩

section Ends

variable {bmStart : ℤ} (bp : BmPos) (rest : List ℕ)

theorem bitnoMin_lt_end : ¬ bitnoMin + (ceNValues : ℤ) ≤ bitnoMin := by decide

theorem plCeSetSingle_at {value : ℕ} (h : (Ce.single value).Ok) (target : ℤ) (isFwd : Bool) :
    (plCeSetSingle { bp with bpIsPosValid := true }
      ((Ce.single value).encode ++ rest) bmStart target isFwd).1.At bmStart bp.bpCeOffset
        (.single value) 0 (value % ceNValues) := by
  have hvalue : bmStart + (value : ℤ) =
      bmStart + ((Ce.single value).offset + value % ceNValues : ℕ) := by
    rw [Ce.offset, Nat.div_add_mod']
  rw [plCeSetSingle, Ce.ceSingleValue_single h]
  simp only
  split_ifs <;> exact ⟨rfl, hvalue, rfl, rfl, fun harray => by cases harray⟩

variable {offset : ℕ} {bits bytes : List ℕ}

/-- Setting a position to an index of an array. -/
theorem at_array (h : ArrayBits bits) {inx : ℕ} (hinx : bits[inx]? = some bit) {bp' : BmPos}
    (hvalid : bp'.bpIsPosValid = true) (hvalue : bp'.bpValue =
      bmStart + (offset : ℤ) + saRef (((Ce.array offset bits).encode ++ rest).drop 4) inx)
    (hoff : bp'.bpCeOffset = bp.bpCeOffset) (htype : bp'.bpCeType = .array)
    (hpos : bp'.bpPosInCe = inx) : bp'.At bmStart bp.bpCeOffset (.array offset bits) inx bit := by
  rw [saRef_array offset h rest hinx] at hvalue
  refine ⟨hvalid, ?_, hoff, htype, fun _ => hpos⟩
  rw [hvalue, Ce.offset]
  push_cast
  ring

/-- The first bit of a bitmap. -/
theorem ceBitmapValue_zero (hlen : 8 * bytes.length = ceNValues) (hb : IsBytes bytes)
    (hfirst : (bitList bytes).head? = some b) : ceBitmapValue (bytes ++ rest) 0 true = b := by
  have hleast := (isLeast_iff_head_eq (pairwise_bitList bytes)).2 hfirst
  have hmem : b ∈ bitSet bytes := mem_bitList.1 hleast.1
  rw [ceBitmapValue_append hlen]
  rcases ceBitmapValue_fwd hlen hb (show 0 < ceNValues by decide) with ⟨hin, -, hle⟩ | ⟨-, hnone⟩
  · exact le_antisymm (hle b hmem (Nat.zero_le b)) (hleast.2 (mem_bitList.2 hin))
  · exact absurd (hnone b hmem) (Nat.not_lt_zero b)

/-- The last bit of a bitmap. -/
theorem ceBitmapValue_last (hlen : 8 * bytes.length = ceNValues) (hb : IsBytes bytes)
    (hlast : (bitList bytes).getLast? = some b) :
    ceBitmapValue (bytes ++ rest) (ceNValues - 1) false = b := by
  have hgreatest := (isGreatest_iff_getLast_eq (pairwise_bitList bytes)).2 hlast
  have hmem : b ∈ bitSet bytes := mem_bitList.1 hgreatest.1
  have hlt : b < ceNValues := hlen ▸ lt_of_mem_bitSet hmem
  rw [ceBitmapValue_append hlen]
  rcases ceBitmapValue_bwd hb (show ceNValues - 1 < ceNValues by decide) with
    ⟨hin, -, hle⟩ | ⟨-, hnone⟩
  · exact le_antisymm (hgreatest.2 (mem_bitList.2 hin)) (hle b hmem (by omega))
  · exact absurd (hnone b hmem) (by omega)

theorem drop_bitmap (offset : ℕ) (bytes : List ℕ) :
    ((Ce.bitmap offset bytes).encode ++ rest).drop 4 = bytes ++ rest := by
  rw [Ce.encode, List.append_assoc]
  rfl

/-- The smallest bit number leads to the first bit of an array. -/
theorem plCeSetArray_first (h : (Ce.array offset bits).Ok) (hmin : bitnoMin ≤ bmStart)
    (hfirst : bits.head? = some b) :
    (plCeSetArray { bp with bpIsPosValid := true } ((Ce.array offset bits).encode ++ rest) bmStart
      bitnoMin true).1.At bmStart bp.bpCeOffset (.array offset bits) 0 b := by
  have hinx : bits[0]? = some b := by rwa [← List.head?_eq_getElem?]
  have hoff := Ce.ceOffset_encode h.fits rest
  obtain ⟨xs, ys, hbits, hsearch, hxs, -⟩ := ceArrayBitInx_spec h.fits h.2.2.1 0 rest
  obtain rfl : xs = [] := List.eq_nil_iff_forall_not_mem.2 fun x hx => Nat.not_lt_zero x (hxs x hx)
  have hn : (0 : ℕ) ≠ (ceLength ((Ce.array offset bits).encode ++ rest) - 4) / 2 := by
    rw [nBits_array h.fits]
    rintro h0
    exact h.2.2.2.1 (List.length_eq_zero_iff.1 h0.symm)
  rw [plCeSetArray]
  simp only [hoff, Ce.offset]
  by_cases hlt : bitnoMin < bmStart + (offset : ℤ)
  · rw [if_pos hlt]
    exact at_array bp rest h.2.2.1 hinx rfl rfl rfl rfl rfl
  · -- the row starts at the smallest bit number
    have hstart : bmStart + (offset : ℤ) = bitnoMin := by omega
    simp only [hstart, lt_irrefl, if_false, bitnoMin_lt_end, Int.sub_self, Int.toNat_zero, hsearch,
      List.length_nil, hn, if_true]
    split_ifs <;> exact at_array bp rest h.2.2.1 hinx rfl (by rw [hstart]) rfl rfl rfl

/-- The largest bit number leads to the last bit of an array. -/
theorem plCeSetArray_last (h : (Ce.array offset bits).Ok)
    (hmax : bmStart + (offset : ℤ) + ceNValues ≤ bitnoMax) (hlast : bits.getLast? = some b)
    (isFwd : Bool) :
    (plCeSetArray { bp with bpIsPosValid := true } ((Ce.array offset bits).encode ++ rest) bmStart
      bitnoMax isFwd).1.At bmStart bp.bpCeOffset (.array offset bits) (bits.length - 1) b := by
  have hinx : bits[bits.length - 1]? = some b := by rwa [← List.getLast?_eq_getElem?]
  have hoff := Ce.ceOffset_encode h.fits rest
  rw [plCeSetArray]
  simp only [hoff, Ce.offset, nBits_array h.fits]
  rw [if_neg (by omega), if_pos hmax]
  exact at_array bp rest h.2.2.1 hinx rfl rfl rfl rfl rfl

/-- Setting a position to a bit of a bitmap. -/
theorem at_bitmap (inx : ℕ) {bp' : BmPos} (hvalid : bp'.bpIsPosValid = true)
    (hvalue : bp'.bpValue = bmStart + (offset : ℤ) + bit) (hoff : bp'.bpCeOffset = bp.bpCeOffset)
    (htype : bp'.bpCeType = .bitmap) :
    bp'.At bmStart bp.bpCeOffset (.bitmap offset bytes) inx bit := by
  refine ⟨hvalid, ?_, hoff, htype, fun harray => by cases harray⟩
  rw [hvalue, Ce.offset]
  push_cast
  ring

/-- The smallest bit number leads to the first bit of a bitmap. -/
theorem plCeSetBitmap_first (h : (Ce.bitmap offset bytes).Ok) (hmin : bitnoMin ≤ bmStart)
    (hfirst : (bitList bytes).head? = some b) :
    (plCeSetBitmap { bp with bpIsPosValid := true }
      ((Ce.bitmap offset bytes).encode ++ rest) bmStart bitnoMin true).1.At bmStart bp.bpCeOffset
        (.bitmap offset bytes) 0 b := by
  have hoff := Ce.ceOffset_encode h.fits rest
  have hvalue := ceBitmapValue_zero rest h.2.2.1 h.2.2.2.1 hfirst
  have hb : b ≠ ceNValues := by
    have hmem : b ∈ bitSet bytes := mem_bitList.1 (List.mem_of_mem_head? hfirst)
    exact (h.2.2.1 ▸ lt_of_mem_bitSet hmem).ne
  rw [plCeSetBitmap]
  simp only [hoff, Ce.offset, drop_bitmap]
  by_cases hlt : bitnoMin < bmStart + (offset : ℤ)
  · rw [if_pos hlt]
    exact at_bitmap bp 0 rfl (by rw [hvalue]) rfl rfl
  · have hstart : bmStart + (offset : ℤ) = bitnoMin := by omega
    simp only [hstart, lt_irrefl, if_false, bitnoMin_lt_end, Int.sub_self, hvalue, hb]
    split_ifs <;> exact at_bitmap bp 0 rfl (by rw [hstart]) rfl rfl

/-- The largest bit number leads to the last bit of a bitmap. -/
theorem plCeSetBitmap_last (h : (Ce.bitmap offset bytes).Ok)
    (hmax : bmStart + (offset : ℤ) + ceNValues ≤ bitnoMax) (inx : ℕ)
    (hlast : (bitList bytes).getLast? = some b) (isFwd : Bool) :
    (plCeSetBitmap { bp with bpIsPosValid := true }
      ((Ce.bitmap offset bytes).encode ++ rest) bmStart bitnoMax isFwd).1.At bmStart bp.bpCeOffset
        (.bitmap offset bytes) inx b := by
  have hoff := Ce.ceOffset_encode h.fits rest
  have hvalue := ceBitmapValue_last rest h.2.2.1 h.2.2.2.1 hlast
  rw [plCeSetBitmap]
  simp only [hoff, Ce.offset, drop_bitmap]
  rw [if_neg (by omega), if_pos hmax]
  exact at_bitmap bp inx rfl (by rw [hvalue]) rfl rfl

/-- `pl_ce_set` with the smallest bit number goes to the first bit of a CE. -/
theorem plCeSet_first (h : c.Ok) (hmin : bitnoMin ≤ bmStart) (hfirst : c.bits.head? = some b) :
    (plCeSet bp (c.encode ++ rest) bmStart bitnoMin true).1.At bmStart bp.bpCeOffset c 0 b := by
  let bp' := { bp with bpAtEnd := false, bpBelowStart := false }
  rw [plCeSet, Ce.ite_encode h.fits]
  cases c with
  | single value =>
    obtain rfl : value % ceNValues = b := by simpa [Ce.bits] using hfirst
    exact plCeSetSingle_at bp' rest h _ _
  | array offset bits => exact plCeSetArray_first bp' rest h hmin hfirst
  | bitmap offset bytes => exact plCeSetBitmap_first bp' rest h hmin hfirst

/-- `pl_ce_set` with the largest bit number goes to the last bit of a CE. -/
theorem plCeSet_last (h : c.Ok) (hmax : bmStart + (c.offset : ℤ) + ceNValues ≤ bitnoMax)
    (hlast : c.bits.getLast? = some b) (isFwd : Bool) :
    (plCeSet bp (c.encode ++ rest) bmStart bitnoMax isFwd).1.At bmStart bp.bpCeOffset c
      (c.bits.length - 1) b := by
  let bp' := { bp with bpAtEnd := false, bpBelowStart := false }
  rw [plCeSet, Ce.ite_encode h.fits]
  cases c with
  | single value =>
    obtain rfl : value % ceNValues = b := by simpa [Ce.bits] using hlast
    exact plCeSetSingle_at bp' rest h _ _
  | array offset bits => exact plCeSetArray_last bp' rest h hmax hlast _
  | bitmap offset bytes => exact plCeSetBitmap_last bp' rest h hmax _ hlast _

end Ends

/-! ## The previous entry -/

/-- The loop of `bm_prev_ce` finds the entry `d` before the one at the end of `done
++ (mid ++ [d])`, if it does not start too far into the row. -/
theorem prevCeLoop_spec {done mid rest : List Ce} {d : Ce} {fuel : ℕ}
    (h : EntriesOk (done ++ (mid ++ d :: rest))) (hfuel : mid.length < fuel) :
    prevCeLoop (encodeRow (done ++ (mid ++ d :: rest))) (rowLength (done ++ (mid ++ [d]))) fuel
        (rowLength done) =
      if mid = [] ∨ rowLength (done ++ mid) ≤ ceMaxLength then some (rowLength (done ++ mid))
        else none := by
  induction mid generalizing done fuel with
  | nil =>
    obtain ⟨fuel, rfl⟩ := Nat.exists_eq_succ_of_ne_zero (by omega : fuel ≠ 0)
    have hd := h.ok d (by simp)
    rw [List.nil_append] at h ⊢
    rw [prevCeLoop, drop_encodeRow (EntriesOk.append_iff.1 h).1, Ce.ceLength_encode hd.fits,
      List.nil_append, rowLength_append, rowLength_singleton]
    simp
  | cons e mid ih =>
    obtain ⟨fuel, rfl⟩ := Nat.exists_eq_succ_of_ne_zero (by omega : fuel ≠ 0)
    have he := h.ok e (by simp)
    have hassoc : ∀ tail, done ++ (e :: mid ++ tail) = done ++ [e] ++ (mid ++ tail) := by simp
    have hlen : rowLength (done ++ [e]) = rowLength done + e.length := by
      rw [rowLength_append, rowLength_singleton]
    have hpos := e.length_pos
    have hdpos := d.length_pos
    have hne : rowLength done + e.length ≠ rowLength (done ++ (e :: mid ++ [d])) := by
      rw [hassoc, rowLength_append, hlen, rowLength_append, rowLength_cons]
      omega
    have hdrop : (encodeRow (done ++ (e :: mid ++ d :: rest))).drop (rowLength done) =
        e.encode ++ encodeRow (mid ++ d :: rest) := drop_encodeRow (EntriesOk.append_iff.1 h).1 _ _
    rw [prevCeLoop, hdrop, Ce.ceLength_encode he.fits]
    simp only [hne, hpos.ne', if_false]
    have hmid : done ++ e :: mid = done ++ [e] ++ mid := by simp
    rw [hassoc] at h
    rw [hassoc, hassoc, hmid]
    simp only [List.cons_ne_nil, false_or]
    by_cases hfar : ceMaxLength < rowLength done + e.length
    · rw [if_pos hfar, if_neg]
      rw [rowLength_append, hlen]
      omega
    · have hnext := ih h (by simpa using hfuel)
      rw [if_neg hfar, ← hlen, hnext]
      refine if_congr ⟨fun hor => hor.elim (fun hnil => ?_) id, .inr⟩ rfl rfl
      rw [hnil, List.append_nil, hlen]
      omega

/-- `bm_prev_ce` behind another entry. -/
theorem bmPrevCe_concat {before rest : List Ce} {d : Ce} (h : EntriesOk (before ++ d :: rest)) :
    bmPrevCe (encodeRow (before ++ d :: rest)) (rowLength (before ++ [d])) =
      if rowLength before ≤ ceMaxLength then some (some (rowLength before)) else none := by
  have hpos := d.length_pos
  have hne : rowLength (before ++ [d]) ≠ 0 := by
    rw [rowLength_append, rowLength_cons]
    omega
  have hfuel : before.length < (encodeRow (before ++ d :: rest)).length + 1 := by
    have := length_le_rowLength before
    rw [h.length_encodeRow, rowLength_append]
    omega
  have hloop := prevCeLoop_spec (show EntriesOk ([] ++ (before ++ d :: rest)) from h) hfuel
  rw [List.nil_append, List.nil_append, List.nil_append, rowLength_nil] at hloop
  rw [bmPrevCe, if_neg hne, hloop]
  by_cases hle : rowLength before ≤ ceMaxLength
  · rw [if_pos (.inr hle), if_pos hle]
    rfl
  · have hnil : before ≠ [] := by
      rintro rfl
      exact hle (Nat.zero_le _)
    rw [if_neg (by simp [hnil, hle]), if_neg hle]
    rfl

/-! ## Leaving an entry -/

section Leave

variable {bmStart : ℤ} (bp : BmPos) {before after : List Ce} {c d : Ce}

/-- After the last entry there is no next one. -/
theorem nextCe_nil (h : EntriesOk (before ++ [c])) :
    nextCe bp (encodeRow (before ++ [c])) bmStart (rowLength before) =
      ({ bp with bpAtEnd := true }, .greater) := by
  have hc := h.ok c (by simp)
  rw [nextCe, drop_encodeRow (EntriesOk.append_iff.1 h).1, Ce.ceLength_encode hc.fits,
    h.length_encodeRow, rowLength_append, rowLength_singleton, if_pos le_rfl]

/-- The next entry is entered at its first bit. -/
theorem nextCe_cons (h : EntriesOk (before ++ c :: d :: after)) (hmin : bitnoMin ≤ bmStart)
    (hfirst : d.bits.head? = some b) :
    ∃ bp', nextCe bp (encodeRow (before ++ c :: d :: after)) bmStart (rowLength before) =
        (bp', .matched) ∧ bp'.bpAtEnd = false ∧
        bp'.At bmStart (rowLength (before ++ [c])) d 0 b := by
  have hc := h.ok c (by simp)
  have hd := h.ok d (by simp)
  have hpos := d.length_pos
  have hlen : rowLength before + c.length = rowLength (before ++ [c]) := by
    rw [rowLength_append, rowLength_singleton]
  have hassoc : before ++ c :: d :: after = before ++ [c] ++ d :: after := by simp
  have hlt : ¬ rowLength (before ++ c :: d :: after) ≤ rowLength (before ++ [c]) := by
    rw [hassoc, rowLength_append, rowLength_cons]
    omega
  rw [nextCe, drop_encodeRow (EntriesOk.append_iff.1 h).1, Ce.ceLength_encode hc.fits,
    h.length_encodeRow, hlen, if_neg hlt]
  rw [hassoc] at h ⊢
  rw [drop_encodeRow (EntriesOk.append_iff.1 h).1]
  refine ⟨_, rfl, rfl, BmPos.At.setAtEnd ?_ false⟩
  exact plCeSet_first { bp with bpCeOffset := rowLength (before ++ [c]) } _ hd hmin hfirst

/-- Before the first entry there is no previous one. -/
theorem prevCe_nil (bm : List ℕ) :
    prevCe bp bm bmStart (rowLength []) = some ({ bp with bpAtEnd := true }, .greater) := rfl

/-- The previous entry is entered at its last bit, unless it is too far into the
row. -/
theorem prevCe_concat (h : EntriesOk (before ++ d :: after))
    (hmax : bmStart + (d.offset : ℤ) + ceNValues ≤ bitnoMax) (hlast : d.bits.getLast? = some b) :
    if rowLength before ≤ ceMaxLength then
      ∃ bp', prevCe bp (encodeRow (before ++ d :: after)) bmStart (rowLength (before ++ [d])) =
          some (bp', .matched) ∧ bp'.bpAtEnd = false ∧
        bp'.At bmStart (rowLength before) d (d.bits.length - 1) b
    else prevCe bp (encodeRow (before ++ d :: after)) bmStart (rowLength (before ++ [d])) =
      none := by
  have hd := h.ok d (by simp)
  rw [prevCe, bmPrevCe_concat h]
  split_ifs with hle
  · simp only [Option.bind_eq_bind, Option.bind_some, Option.pure_def, Option.some.injEq]
    rw [drop_encodeRow (EntriesOk.append_iff.1 h).1]
    refine ⟨_, rfl, rfl, BmPos.At.setAtEnd ?_ false⟩
    exact plCeSet_last { bp with bpCeOffset := rowLength before } _ hd hmax hlast _
  · rfl

end Leave

end Virtuoso.Bitmap
