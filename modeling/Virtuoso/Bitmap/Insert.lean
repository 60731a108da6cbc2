import Mathlib.Tactic.Ring
import Virtuoso.Bitmap.Row

/-!
# Inserting a bit in a row

`bm_insert` over byte strings.  A pointer into the row is a position in its
string, and the three results carry the strings that the source leaves in place
and in `split_ret`.  Bit numbers are integers.  The end of the range of a CE,
`ce_start + CE_N_VALUES`, may lie beyond 64 bits; the sum is then undefined in C,
and it is the exact one here, as it is in what compilers make of the comparison.
-/

namespace Virtuoso.Bitmap

open Lib EntriesOk

variable {before ces after rest : List Ce} {bmStart : ℤ}

/-- What is to be put into the row: the new CE `ext` in place of `oldCeLen` bytes
at `pos`.  `ceLen` is the length of the last CE that was looked at. -/
structure Plan where
  pos : ℕ
  ext : List ℕ
  oldCeLen : ℕ
  insAtEnd : Bool
  ceLen : ℕ
deriving DecidableEq, Repr

/-- How the loop of `bm_insert` ends: with `BI_FITS`, or with a plan. -/
inductive Found where
  | inPlace (bm : List ℕ)
  | put (plan : Plan)
deriving DecidableEq, Repr

def setInCe (bmStart value : ℤ) (bm : List ℕ) (pos : ℕ) : Found :=
  let ce := bm.drop pos
  let ceLen := ceLength ce
  let bit := (value - (bmStart + ceOffset ce)).toNat
  if ceIsSingle ce then
    let offset1 := ceSingleValue ce
    if value - bmStart = offset1 then .inPlace bm
    else
      let ext := longSetNa (ceOffset ce ||| ceArrayMask ||| 6) ++ shortSetNa (offset1 - ceOffset ce)
      .put ⟨pos, ceArrayInsert ext bit, 4, false, ceLen⟩
  else if ceIsArray ce then
    let ext := ceArrayInsert (ce.take ceLen) bit
    .put ⟨pos, if ceMaxLength < ext.length then ceArrayToBitmap ext else ext, ceLen, false, ceLen⟩
  else
    let byte := pos + 4 + bit / 8
    .inPlace (bm.set byte (bm.getD byte 0 ||| 1 <<< (bit % 8)))

def newSingle (bmStart value : ℤ) : List ℕ := longSetNa ((value - bmStart).toNat ||| 0x80000000)

/-- The loop of `bm_insert` over the CEs from `pos` on.  `none` is a loop that
does not end. -/
def findCe (bmStart value : ℤ) (bm : List ℕ) : ℕ → ℕ → ℕ → Option Found
  | 0, _, _ => none
  | fuel + 1, pos, ceLen =>
    if pos < bm.length then
      let ce := bm.drop pos
      let ceStart := bmStart + ceOffset ce
      if value < ceStart then
        some (.put ⟨pos, newSingle bmStart value, 0, false, ceLength ce⟩)
      else if value < ceStart + ceNValues then some (setInCe bmStart value bm pos)
      else findCe bmStart value bm fuel (pos + ceLength ce) (ceLength ce)
    else some (.put ⟨pos, newSingle bmStart value, 0, true, ceLen⟩)

/-- The loop that looks for the CE to split at. -/
def splitLoop (bm : List ℕ) : ℕ → ℕ → ℕ → Option ℕ
  | 0, _, _ => none
  | fuel + 1, loopCe, splitCe =>
    if loopCe < bm.length then
      if ceMaxLength / 2 < loopCe then some loopCe
      else splitLoop bm fuel (loopCe + ceLength (bm.drop loopCe)) loopCe
    else some splitCe

/-- The results `BI_FITS`, `BI_EXTENDED` and `BI_SPLIT`. -/
inductive BmInsert where
  | fits (bm : List ℕ)
  | extended (ext : List ℕ)
  | split (left right : List ℕ)
deriving DecidableEq, Repr

/-- Replace `len` bytes at `pos`. -/
def splice (bm : List ℕ) (pos len : ℕ) (ext : List ℕ) : List ℕ :=
  bm.take pos ++ ext ++ bm.drop (pos + len)

/-- The CE `bm_insert` splits a row at. -/
def splitCe (bm : List ℕ) (plan : Plan) : Option ℕ :=
  if plan.insAtEnd ∧ ceMaxLength - 4 < plan.ceLen then some plan.pos
  else if plan.pos = 0 ∧ ceLength bm = ceMaxLength then some 0
  else splitLoop bm (bm.length + 1) 0 0

/-- `bm_insert`.  `none` is a loop that does not end or the fatal branch. -/
def bmInsert (bmStart : ℤ) (bm : List ℕ) (value bytesAvailable : ℤ) : Option BmInsert := do
  match ← findCe bmStart value bm (bm.length + 1) 0 0 with
  | .inPlace bm => return .fits bm
  | .put plan =>
    if ceMaxLength + plan.oldCeLen < bm.length + plan.ext.length then
      let split ← splitCe bm plan
      let left := bm.take split
      let right := bm.drop split
      if plan.insAtEnd ∨ split ≤ plan.pos then
        return .split left (splice right (plan.pos - split) plan.oldCeLen plan.ext)
      else return .split (splice left plan.pos plan.oldCeLen plan.ext) right
    else if bm.length < plan.oldCeLen then none
    else if bytesAvailable < plan.ext.length - plan.oldCeLen then
      return .extended (splice bm plan.pos plan.oldCeLen plan.ext)
    else return .fits (splice bm plan.pos plan.oldCeLen plan.ext)

/-! ## The rows it makes -/

/-- The entries of a row with the bit number `v` inserted at its place. -/
def insertAt (before after : List Ce) (v : ℕ) : List Ce :=
  match after with
  | [] => before ++ [.single v]
  | c :: rest =>
    if v < c.offset then before ++ .single v :: c :: rest
    else before ++ c.add (v - c.offset) :: rest

theorem exists_located (ces : List Ce) (v : ℕ) : ∃ before after, Located ces v before after := by
  obtain ⟨before, after, heq, hbefore, hafter⟩ := exists_cut (fun c => c.offset + ceNValues ≤ v) ces
  exact ⟨before, after, heq, hbefore, fun c hc => not_le.1 (hafter c hc)⟩

theorem EntriesOk.insertAt {v : ℕ} (h : EntriesOk ces) (hv : v < 2 ^ 31)
    (hl : Located ces v before after) : EntriesOk (insertAt before after v) := by
  have hbefore : ∀ c ∈ before, c.offset < v / ceNValues * ceNValues := fun c hc => by
    have h₁ := hl.before c hc
    simp only [ceNValues] at *
    omega
  have hok := h
  rw [hl.eq, append_iff] at hok
  obtain ⟨hb, ha, hba⟩ := hok
  have hgap : (∀ c ∈ after, v < c.offset) → EntriesOk (before ++ .single v :: after) :=
    fun hgap => by
    refine append_iff.2 ⟨hb, ⟨fun c hc => ?_, ?_⟩, fun c hc d hd => ?_⟩
    · rcases List.mem_cons.1 hc with rfl | hc
      · exact hv
      · exact ha.ok c hc
    · exact List.pairwise_cons.2 ⟨fun d hd => (Nat.div_mul_le_self v _).trans_lt (hgap d hd),
        ha.asc⟩
    · rcases List.mem_cons.1 hd with rfl | hd
      · exact hbefore c hc
      · exact hba c hc d hd
  cases after with
  | nil => exact hgap (by simp)
  | cons c rest =>
    obtain ⟨hc, hrest⟩ := List.pairwise_cons.1 ha.asc
    rw [Bitmap.insertAt]
    split_ifs with hlt
    · refine hgap fun d hd => ?_
      rcases List.mem_cons.1 hd with rfl | hd
      · exact hlt
      · exact hlt.trans (hc d hd)
    · have hvc : v < c.offset + ceNValues := hl.after c (by simp)
      have hadd := (ha.ok c (by simp)).add (show v - c.offset < ceNValues by omega)
      refine append_iff.2 ⟨hb, ⟨fun d hd => ?_, List.pairwise_cons.2 ⟨?_, hrest⟩⟩,
        fun d hd e he => ?_⟩
      · rcases List.mem_cons.1 hd with rfl | hd
        · exact hadd
        · exact ha.ok d (by simp [hd])
      · simpa using hc
      · rcases List.mem_cons.1 he with rfl | he
        · simpa using hba d hd c (by simp)
        · exact hba d hd e (by simp [he])

/-! ## Finding the place -/

theorem newSingle_eq (bmStart : ℤ) {v : ℕ} (hv : v < 2 ^ 31) :
    newSingle bmStart (bmStart + v) = (Ce.single v).encode := by
  have hor : v ||| 0x80000000 = 2 ^ 31 + v := by
    rw [Nat.or_comm, show (0x80000000 : ℕ) = 1 * 2 ^ 31 from rfl, or_low hv, Nat.one_mul]
  rw [newSingle, show bmStart + (v : ℤ) - bmStart = v by ring, Int.toNat_natCast, hor, longSetNa_eq,
    Ce.encode]

/-- The array a single is turned into before the new bit is inserted. -/
theorem encode_array_single (value : ℕ) :
    longSetNa ((Ce.single value).offset ||| ceArrayMask ||| 6) ++
        shortSetNa (value - (Ce.single value).offset) =
      (Ce.array (Ce.single value).offset [value % ceNValues]).encode := by
  have hor : (Ce.single value).offset ||| ceArrayMask ||| 6 =
      (Ce.single value).offset + ceArrayMask + (4 + 2 * 1) := by
    simp only [Ce.offset, ceNValues, ceArrayMask]
    rw [show 8192 = 2 ^ 13 from rfl, or_low (by decide),
      show value / 2 ^ 13 * 2 ^ 13 + 0x1800 = (value / 2 ^ 13 * 4 + 3) * 2 ^ 11 by ring,
      or_low (by decide)]
  have hsub : value - (Ce.single value).offset = value % ceNValues := by
    simp only [Ce.offset, ceNValues]
    omega
  rw [hor, hsub, longSetNa_eq, shortSetNa_eq, Ce.encode]
  simp

/-- A byte of a bitmap, and writing it in place. -/
theorem getD_set_bitmap (pre rest : List ℕ) (offset : ℕ) {bytes : List ℕ} {i : ℕ}
    (hi : i < bytes.length) :
    (pre ++ (Ce.bitmap offset bytes).encode ++ rest).getD (pre.length + 4 + i) 0 = bytes.getD i 0 ∧
      ∀ b, (pre ++ (Ce.bitmap offset bytes).encode ++ rest).set (pre.length + 4 + i) b =
        pre ++ (Ce.bitmap offset (bytes.set i b)).encode ++ rest := by
  obtain ⟨front, hfront⟩ : ∃ front, front = pre ++ word32 (offset + 0x1000 + ceMaxLength) :=
    ⟨_, rfl⟩
  have hlen : pre.length + 4 + i = front.length + i := by simp [hfront]
  have hrow : ∀ bytes, pre ++ (Ce.bitmap offset bytes).encode ++ rest = front ++ (bytes ++ rest) :=
    fun bytes => by simp [Ce.encode, hfront]
  rw [hlen, hrow]
  refine ⟨?_, fun b => ?_⟩
  · rw [List.getD_eq_getElem?_getD, List.getElem?_append_right (by omega), Nat.add_sub_cancel_left,
      List.getElem?_append_left hi, ← List.getD_eq_getElem?_getD]
  · rw [List.set_append_right _ _ (by omega), Nat.add_sub_cancel_left, List.set_append_left _ _ hi,
      hrow]

theorem setInCe_spec (bmStart : ℤ) (pre rest : List ℕ) {c : Ce} (h : c.Ok) {v : ℕ}
    (hle : c.offset ≤ v) (hlt : v < c.offset + ceNValues) :
    (setInCe bmStart (bmStart + v) (pre ++ c.encode ++ rest) pre.length =
        .inPlace (pre ++ (c.add (v - c.offset)).encode ++ rest) ∧
      (c.add (v - c.offset)).length = c.length) ∨
    setInCe bmStart (bmStart + v) (pre ++ c.encode ++ rest) pre.length =
      .put ⟨pre.length, (c.add (v - c.offset)).encode, c.length, false, c.length⟩ := by
  have hdrop : (pre ++ c.encode ++ rest).drop pre.length = c.encode ++ rest := by simp
  have hbit : (bmStart + v - (bmStart + c.offset)).toNat = v - c.offset := by omega
  have hsub : bmStart + (v : ℤ) - bmStart = v := by ring
  rw [setInCe]
  simp only [hdrop, Ce.ceLength_encode h.fits, Ce.ceOffset_encode h.fits, Ce.ite_encode h.fits,
    hbit, hsub]
  cases c with
  | single value =>
    have hv : (v : ℤ) = (value : ℕ) ↔ value % ceNValues = v - (Ce.single value).offset := by
      simp only [Ce.offset, ceNValues] at *
      omega
    simp only [Ce.ceSingleValue_single h, hv, encode_array_single]
    rw [Ce.add]
    split_ifs with heq
    · exact .inl ⟨rfl, rfl⟩
    · right
      have hone : ArrayBits [value % ceNValues] :=
        ⟨List.pairwise_singleton _ _, by simp [Nat.mod_lt, ceNValues]⟩
      rw [ceArrayInsert_spec ⟨h.offset_lt, h.offset_mod, by simp⟩ hone]
      rfl
  | array offset bits =>
    right
    have hlen := length_addBit h.2.2.1.asc (v - offset)
    have hle512 : bits.length ≤ 512 := h.2.2.2.2
    have hfits : (Ce.array offset (addBit bits (v - offset))).Fits := by
      refine ⟨h.1, h.2.1, ?_⟩
      rw [hlen]
      split_ifs <;> omega
    have hadd : ArrayBits (addBit bits (v - offset)) := h.2.2.1.addBit (by
      simp only [Ce.offset] at *
      omega)
    have htake : ((Ce.array offset bits).encode ++ rest).take (Ce.array offset bits).length =
        (Ce.array offset bits).encode := List.take_left' (Ce.length_encode h.fits)
    simp only [htake, ceArrayInsert_spec h.fits h.2.2.1, Ce.offset, Ce.length_encode hfits]
    rw [Ce.length_array offset (addBit bits _), Ce.add]
    by_cases hn : (addBit bits (v - offset)).length ≤ ceNValues / 16
    · rw [if_pos hn, if_neg (by simp only [ceNValues, ceMaxLength] at *; omega)]
    · have h513 : (addBit bits (v - offset)).length = 1 + ceNValues / 16 := by
        simp only [ceNValues] at *
        split_ifs at hlen <;> omega
      rw [if_neg hn, if_pos (by simp only [ceNValues, ceMaxLength] at *; omega),
        ceArrayToBitmap_spec hfits hadd h513]
  | bitmap offset bytes =>
    left
    have hbyte : (v - offset) / 8 < bytes.length := by
      have := h.2.2.1
      simp only [Ce.offset] at *
      omega
    obtain ⟨hget, hset⟩ := getD_set_bitmap pre rest offset hbyte
    simp only [Ce.offset]
    rw [hget, hset]
    exact ⟨rfl, rfl⟩

/-- Where the loops over the CEs of a row stop for a value: they pass the CEs whose
ranges end below it. -/
structure StopsAt (bmStart value : ℤ) (ces before after : List Ce) : Prop where
  eq : ces = before ++ after
  before : ∀ c ∈ before, bmStart + c.offset + ceNValues ≤ value
  after : ∀ c ∈ after.head?, value < bmStart + c.offset + ceNValues

theorem exists_stopsAt (bmStart value : ℤ) (ces : List Ce) :
    ∃ before after, StopsAt bmStart value ces before after := by
  obtain ⟨before, after, heq, hbefore, hafter⟩ := exists_cut
    (fun c : Ce => bmStart + c.offset + ceNValues ≤ value) ces
  exact ⟨before, after, heq, hbefore, fun c hc => not_le.1 (hafter c hc)⟩

/-- The loops stop at the place of a bit number. -/
theorem Located.stopsAt {v : ℕ} (hl : Located ces v before after) (bmStart : ℤ) :
    StopsAt bmStart (bmStart + v) ces before after := by
  refine ⟨hl.eq, fun c hc => ?_, fun c hc => ?_⟩
  · have := hl.before c hc
    omega
  · have := hl.after c hc
    omega

/-- The macros at an entry of a row. -/
theorem drop_encodeRow (h : EntriesOk before) (c : Ce) (after : List Ce) :
    (encodeRow (before ++ c :: after)).drop (rowLength before) = c.encode ++ encodeRow after := by
  rw [encodeRow_append, encodeRow_cons]
  exact List.drop_left' h.length_encodeRow

theorem rowLength_lt_length {c : Ce} (h : EntriesOk (before ++ c :: after)) :
    rowLength before < (encodeRow (before ++ c :: after)).length := by
  have := c.length_pos
  rw [h.length_encodeRow, rowLength_append, rowLength_cons]
  omega

theorem length_le_rowLength (ces : List Ce) : ces.length ≤ rowLength ces := by
  induction ces with
  | nil => simp
  | cons c ces ih =>
    have := c.length_pos
    rw [List.length_cons, rowLength_cons]
    omega

/-- A loop over the CEs of a row that goes on at those it passes gets to the place where it
stops. -/
theorem StopsAt.loop {value : ℤ} {α : Type} (hs : StopsAt bmStart value ces before after)
    (h : EntriesOk ces) (loop : ℕ → List Ce → α)
    (hstep : ∀ {passed rest c} fuel, ces = passed ++ c :: rest →
      bmStart + c.offset + ceNValues ≤ value → loop (fuel + 1) passed = loop fuel (passed ++ [c])) :
    ∃ fuel, loop ((encodeRow ces).length + 1) [] = loop (fuel + 1) before := by
  have hpass : ∀ mid passed fuel, before = passed ++ mid →
      loop (mid.length + fuel) passed = loop fuel before := by
    intro mid
    induction mid with
    | nil =>
      intro passed fuel heq
      simp [heq]
    | cons c mid ih =>
      intro passed fuel heq
      have hc := hs.before c (by simp [heq])
      have hces : ces = passed ++ c :: (mid ++ after) := by simp [hs.eq, heq]
      rw [List.length_cons, Nat.add_right_comm, hstep _ hces hc, ih _ _ (by simp [heq])]
  have hlen : (encodeRow ces).length + 1 =
      before.length + ((encodeRow ces).length - before.length + 1) := by
    have := length_le_rowLength before
    rw [h.length_encodeRow, hs.eq, rowLength_append]
    omega
  exact ⟨_, hlen ▸ hpass before [] _ rfl⟩

/-- What the loop of `bm_insert` finds at the place of a bit number. -/
def foundAt (bmStart : ℤ) (before after : List Ce) (v ceLen : ℕ) : Found :=
  match after with
  | [] => .put ⟨rowLength before, (Ce.single v).encode, 0, true, ceLen⟩
  | c :: rest =>
    if v < c.offset then .put ⟨rowLength before, (Ce.single v).encode, 0, false, c.length⟩
    else setInCe bmStart (bmStart + v) (encodeRow (before ++ c :: rest)) (rowLength before)

def lastLength (ces : List Ce) : ℕ := (ces.getLast?.map Ce.length).getD 0

/-- One round of the loop of `bm_insert`. -/
theorem findCe_cons (bmStart : ℤ) {passed : List Ce} {c : Ce} (h : EntriesOk (passed ++ c :: rest))
    {v : ℕ} (hv : v < 2 ^ 31) (fuel ceLen : ℕ) :
    findCe bmStart (bmStart + v) (encodeRow (passed ++ c :: rest)) (fuel + 1)
      (rowLength passed) ceLen =
      if v < c.offset then
        some (.put ⟨rowLength passed, (Ce.single v).encode, 0, false, c.length⟩)
      else if v < c.offset + ceNValues then
        some (setInCe bmStart (bmStart + v) (encodeRow (passed ++ c :: rest)) (rowLength passed))
      else
        findCe bmStart (bmStart + v) (encodeRow (passed ++ c :: rest)) fuel
          (rowLength (passed ++ [c])) c.length := by
  have hc := h.ok c (by simp)
  rw [findCe, if_pos (rowLength_lt_length h), drop_encodeRow (append_iff.1 h).1]
  simp only [Ce.ceOffset_encode hc.fits, Ce.ceLength_encode hc.fits, newSingle_eq bmStart hv,
    rowLength_append, rowLength_singleton]
  have h₁ : bmStart + (v : ℤ) < bmStart + c.offset ↔ v < c.offset := by omega
  have h₂ : bmStart + (v : ℤ) < bmStart + c.offset + ceNValues ↔
    v < c.offset + ceNValues := by omega
  simp only [h₁, h₂]

/-- The loop of `bm_insert` finds the place where it stops. -/
theorem findCe_row {v : ℕ} (h : EntriesOk ces) (hv : v < 2 ^ 31)
    (hs : StopsAt bmStart (bmStart + v) ces before after) :
    findCe bmStart (bmStart + v) (encodeRow ces) ((encodeRow ces).length + 1) 0 0 =
      some (foundAt bmStart before after v (lastLength before)) := by
  obtain ⟨fuel, hloop⟩ := hs.loop h (fun fuel passed => findCe bmStart (bmStart + v) (encodeRow ces)
    fuel (rowLength passed) (lastLength passed)) fun {passed rest c} fuel heq hpast => by
      rw [heq] at h ⊢
      rw [findCe_cons bmStart h hv, if_neg (by omega), if_neg (by omega)]
      simp [lastLength]
  refine hloop.trans ?_
  obtain rfl := hs.eq
  match after, hs.after with
  | [], _ =>
    rw [findCe, h.length_encodeRow, List.append_nil, if_neg (lt_irrefl _)]
    simp [foundAt, newSingle_eq bmStart hv]
  | c :: rest, hafter =>
    have hc := hafter c (by simp)
    rw [findCe_cons bmStart h hv, foundAt]
    split_ifs with hlt hend
    · rfl
    · rfl
    · omega

/-! ## Putting the entry in its place -/

/-- A plan puts the entry `new` in place of `old`, which is one entry or none,
between `before` and `rest`. -/
structure Plan.Replaces (plan : Plan) (before old : List Ce) (new : Ce)
    (rest : List Ce) : Prop where
  pos : plan.pos = rowLength before
  ext : plan.ext = new.encode
  oldCeLen : plan.oldCeLen = rowLength old
  old_le_one : old.length ≤ 1
  new_ok : new.Ok
  growth : new.length ≤ rowLength old + 4
  insAtEnd : plan.insAtEnd = true ↔ old = [] ∧ rest = []
  ceLen : plan.insAtEnd = true → plan.ceLen = lastLength before

theorem splice_encodeRow {old : List Ce} (h : EntriesOk (before ++ (old ++ rest))) (new : Ce) :
    splice (encodeRow (before ++ (old ++ rest))) (rowLength before) (rowLength old) new.encode =
      encodeRow (before ++ new :: rest) := by
  obtain ⟨hb, hor, -⟩ := append_iff.1 h
  have ho := (append_iff.1 hor).1
  rw [splice, ← List.drop_drop, encodeRow_append, List.take_left' hb.length_encodeRow,
    List.drop_left' hb.length_encodeRow, encodeRow_append, List.drop_left' ho.length_encodeRow,
    encodeRow_append, encodeRow_cons, List.append_assoc]

/-- The loop that looks for the split, after its first round.  It ends at an
entry that is not the first. -/
theorem splitLoop_spec {p : List Ce} {d : Ce} {fuel : ℕ} (h : EntriesOk (p ++ d :: rest))
    (hne : p ≠ [] ∨ rest ≠ []) (hfuel : rest.length < fuel) :
    ∃ l r, p ++ d :: rest = l ++ r ∧ l ≠ [] ∧ r ≠ [] ∧
      splitLoop (encodeRow (p ++ d :: rest)) fuel (rowLength (p ++ [d])) (rowLength p) =
        some (rowLength l) := by
  induction rest generalizing p d fuel with
  | nil =>
    obtain ⟨fuel, rfl⟩ := Nat.exists_eq_succ_of_ne_zero (by omega : fuel ≠ 0)
    refine ⟨p, [d], rfl, by simpa using hne, by simp, ?_⟩
    rw [splitLoop, h.length_encodeRow, if_neg (lt_irrefl _)]
  | cons e rest ih =>
    obtain ⟨fuel, rfl⟩ := Nat.exists_eq_succ_of_ne_zero (by omega : fuel ≠ 0)
    have hassoc : p ++ d :: e :: rest = (p ++ [d]) ++ e :: rest := by simp
    rw [hassoc] at h ⊢
    have hnext : rowLength (p ++ [d]) + ceLength ((encodeRow ((p ++ [d]) ++ e :: rest)).drop
        (rowLength (p ++ [d]))) = rowLength ((p ++ [d]) ++ [e]) := by
      rw [drop_encodeRow (append_iff.1 h).1, Ce.ceLength_encode (h.ok e (by simp)).fits,
        rowLength_append _ [e]]
      rfl
    rw [splitLoop, if_pos (rowLength_lt_length h), hnext]
    split_ifs with hhalf
    · exact ⟨p ++ [d], e :: rest, rfl, by simp, by simp, rfl⟩
    · exact ih h (.inl (by simp)) (by simpa using hfuel)

/-- A row that `bm_insert` does not split well: one CE with no room after it, and
a value below the CE. -/
def Cornered (ces : List Ce) (v : ℕ) : Prop :=
  ∃ c, ces = [c] ∧ ceMaxLength - 4 < c.length ∧ v < c.offset

theorem rowLength_eq_zero (h : rowLength ces = 0) : ces = [] := by
  match ces with
  | [] => rfl
  | c :: ces =>
    have := c.length_pos
    rw [rowLength_cons] at h
    omega

/-- The split is at an entry that is not the first, or after the last entry when
the new one goes there. -/
theorem splitCe_spec {plan : Plan} {old : List Ce} {new : Ce} {v : ℕ}
    (hp : plan.Replaces before old new rest) (h : EntriesOk (before ++ (old ++ rest)))
    (hgap : old = [] → ∀ c ∈ rest.head?, v < c.offset) (hc : ¬ Cornered (before ++ (old ++ rest)) v)
    (hlen : rowLength (before ++ (old ++ rest)) ≤ ceMaxLength)
    (hover : ceMaxLength + rowLength old < rowLength (before ++ (old ++ rest)) + new.length) :
    ∃ l r, before ++ (old ++ rest) = l ++ r ∧
      splitCe (encodeRow (before ++ (old ++ rest))) plan = some (rowLength l) ∧ l ≠ [] ∧
      (r ≠ [] ∨ r = [] ∧ old = [] ∧ rest = []) := by
  have hnew := hp.new_ok.length_le
  -- a row of one entry overflows only with the new entry after it
  have hone : ∀ c, before ++ (old ++ rest) = [c] →
      plan.insAtEnd = true ∧ ceMaxLength - 4 < plan.ceLen := fun c hone => by
    rw [hone, rowLength_cons, rowLength_nil] at hover
    have hgrow := hp.growth
    rcases List.append_eq_singleton_iff.1 hone with ⟨hb, ho⟩ | ⟨hb, ho⟩
    · exfalso
      rcases List.append_eq_singleton_iff.1 ho with ⟨ho', hr⟩ | ⟨ho', hr⟩
      · exact hc ⟨c, hone, by omega, hgap ho' c (by simp [hr])⟩
      · rw [ho', rowLength_cons, rowLength_nil] at hover
        omega
    · obtain ⟨ho, hr⟩ := List.append_eq_nil_iff.1 ho
      have hend := hp.insAtEnd.2 ⟨ho, hr⟩
      refine ⟨hend, ?_⟩
      rw [hp.ceLen hend, hb]
      simp only [lastLength, List.getLast?_singleton, Option.map_some, Option.getD_some]
      omega
  rw [splitCe]
  split_ifs with hend hfirst
  · obtain ⟨ho, hr⟩ := hp.insAtEnd.1 hend.1
    refine ⟨before, [], by simp [ho, hr], by rw [hp.pos], ?_, .inr ⟨rfl, ho, hr⟩⟩
    rintro rfl
    rw [ho, hr] at hover
    simp only [List.append_nil, rowLength_nil] at hover
    omega
  all_goals
    obtain ⟨c, tail, hces⟩ : ∃ c tail, before ++ (old ++ rest) = c :: tail := by
      refine List.exists_cons_of_ne_nil fun hnil => ?_
      rw [hnil, rowLength_nil] at hover
      omega
    have htail : tail ≠ [] := fun htail => hend (hone c (htail ▸ hces))
    rw [hces] at h hlen hfirst ⊢
    have hok := h.ok c (by simp)
  · exfalso
    rw [encodeRow_cons, Ce.ceLength_encode hok.fits] at hfirst
    rw [rowLength_cons] at hlen
    exact htail (rowLength_eq_zero (by omega))
  · have hfuel : tail.length < (encodeRow (c :: tail)).length := by
      have h₁ := length_le_rowLength tail
      have h₂ := c.length_pos
      rw [h.length_encodeRow, rowLength_cons]
      omega
    obtain ⟨l, r, heq, hl, hr, hloop⟩ := splitLoop_spec (p := []) h (.inr htail) hfuel
    refine ⟨l, r, heq, ?_, hl, .inl hr⟩
    rw [splitLoop, if_pos (by omega), if_neg (by omega), ← hloop, List.drop_zero, encodeRow_cons,
      Ce.ceLength_encode hok.fits]
    simp [rowLength, encodeRow_cons]

/-- What the loop finds is a place to change or a plan. -/
theorem foundAt_spec {v : ℕ} (h : EntriesOk ces) (hv : v < 2 ^ 31)
    (hs : StopsAt bmStart (bmStart + v) ces before after) :
    (foundAt bmStart before after v (lastLength before) =
        .inPlace (encodeRow (insertAt before after v)) ∧
      rowLength (insertAt before after v) = rowLength ces) ∨
    ∃ plan old new rest, foundAt bmStart before after v (lastLength before) = .put plan ∧
      plan.Replaces before old new rest ∧ after = old ++ rest ∧
      insertAt before after v = before ++ new :: rest ∧
        (old = [] → ∀ c ∈ rest.head?, v < c.offset) := by
  have hsingle : (Ce.single v).Ok := hv
  obtain ⟨hb, ha, -⟩ := append_iff.1 (hs.eq ▸ h)
  match after, hs, ha with
  | [], _, _ =>
    refine .inr ⟨_, [], .single v, [], rfl, ?_, rfl, rfl, by simp⟩
    exact ⟨rfl, rfl, rfl, by simp, hsingle, by simp [Ce.length_single], by simp, fun _ => rfl⟩
  | c :: rest, hs, ha =>
    have hc := ha.ok c (by simp)
    have hstop := hs.after c (by simp)
    rw [foundAt, insertAt]
    split_ifs with hlt
    · refine .inr ⟨_, [], .single v, c :: rest, rfl, ?_, rfl, rfl, by simpa using hlt⟩
      exact ⟨rfl, rfl, rfl, by simp, hsingle, by simp [Ce.length_single], by simp, by simp⟩
    · have hvc : v < c.offset + ceNValues := by omega
      have hadd := hc.add (show v - c.offset < ceNValues by omega)
      have hset := setInCe_spec bmStart (encodeRow before) (encodeRow rest) hc (not_lt.1 hlt) hvc
      rw [encodeRow_append_cons, encodeRow_append_cons, hb.length_encodeRow] at hset
      rcases hset with ⟨hset, hlen⟩ | hset
      · refine .inl ⟨?_, ?_⟩
        · exact hset
        · rw [hs.eq, rowLength_append, rowLength_append, rowLength_cons, rowLength_cons, hlen]
      · refine .inr ⟨_, [c], _, rest, hset, ?_, rfl, rfl, by simp⟩
        have hgrow := (Ce.length_add hc (v - c.offset)).2
        refine ⟨rfl, rfl, ?_, by simp, hadd, ?_, by simp, by simp⟩
        · rw [rowLength_singleton]
        · rwa [rowLength_singleton]

/-- The results of an insert that makes the entries `ces`. -/
inductive BmInsert.Makes (ces : List Ce) : BmInsert → Prop
  | fits : rowLength ces ≤ ceMaxLength → Makes ces (.fits (encodeRow ces))
  | extended : rowLength ces ≤ ceMaxLength → Makes ces (.extended (encodeRow ces))
  | split {l r : List Ce} : ceMaxLength < rowLength ces → ces = l ++ r → l ≠ [] → r ≠ [] →
      rowLength l ≤ ceMaxLength → rowLength r ≤ ceMaxLength →
      Makes ces (.split (encodeRow l) (encodeRow r))

/-- An entry that is not the first leaves room before it, and one that is not the
last, after it. -/
theorem EntriesOk.four_le (h : EntriesOk ces) (hne : ces ≠ []) : 4 ≤ rowLength ces := by
  obtain ⟨c, ces, rfl⟩ := List.exists_cons_of_ne_nil hne
  have := (h.ok c (by simp)).length_ge
  rw [rowLength_cons]
  omega

/-- Two ways to cut one list. -/
theorem append_cases {xs ys l r : List Ce} (h : xs ++ ys = l ++ r) :
    (∃ b, xs = l ++ b ∧ r = b ++ ys) ∨ ∃ a, a ≠ [] ∧ l = xs ++ a ∧ ys = a ++ r := by
  rcases List.append_eq_append_iff.1 h with ⟨a, rfl, rfl⟩ | ⟨b, rfl, rfl⟩
  · by_cases ha : a = []
    · exact .inl ⟨[], by simp [ha], by simp [ha]⟩
    · exact .inr ⟨a, ha, rfl, rfl⟩
  · exact .inl ⟨b, rfl, rfl⟩

/-- One entry or none, at the front of a list that is not empty. -/
theorem append_of_le_one {old a r : List Ce} (hold : old.length ≤ 1) (ha : a ≠ [])
    (h : old ++ rest = a ++ r) : ∃ a', a = old ++ a' ∧ rest = a' ++ r := by
  match old, a, hold, ha with
  | [], a, _, _ => exact ⟨a, rfl, by simpa using h⟩
  | [c], d :: a, _, _ =>
    obtain ⟨rfl, rfl⟩ : c = d ∧ rest = a ++ r := by simpa using h
    exact ⟨a, rfl, rfl⟩

/-- Putting a new entry into a row that is split makes two rows of the right
length. -/
theorem split_makes {plan : Plan} {old l r : List Ce} {new : Ce}
    (hp : plan.Replaces before old new rest) (h : EntriesOk (before ++ (old ++ rest)))
    (hlen : rowLength (before ++ (old ++ rest)) ≤ ceMaxLength)
    (hover : ceMaxLength < rowLength (before ++ new :: rest))
    (heq : before ++ (old ++ rest) = l ++ r) (hl : l ≠ [])
    (hr : r ≠ [] ∨ r = [] ∧ old = [] ∧ rest = []) :
    (if plan.insAtEnd = true ∨ rowLength l ≤ plan.pos then
        BmInsert.split ((encodeRow (before ++ (old ++ rest))).take (rowLength l))
          (splice ((encodeRow (before ++ (old ++ rest))).drop (rowLength l))
            (plan.pos - rowLength l) plan.oldCeLen plan.ext)
      else
        .split (splice ((encodeRow (before ++ (old ++ rest))).take (rowLength l)) plan.pos
            plan.oldCeLen plan.ext)
          ((encodeRow (before ++ (old ++ rest))).drop (rowLength l))).Makes
          (before ++ new :: rest) := by
  have hgrow := hp.growth
  rw [heq] at h hlen ⊢
  obtain ⟨hlOk, hrOk, -⟩ := append_iff.1 h
  have htake : (encodeRow (l ++ r)).take (rowLength l) = encodeRow l := by
    rw [encodeRow_append, List.take_left' hlOk.length_encodeRow]
  have hdrop : (encodeRow (l ++ r)).drop (rowLength l) = encodeRow r := by
    rw [encodeRow_append, List.drop_left' hlOk.length_encodeRow]
  rw [htake, hdrop, hp.pos, hp.oldCeLen, hp.ext]
  rw [rowLength_append] at hlen
  have h4 := hlOk.four_le hl
  rcases append_cases heq with ⟨b, rfl, rfl⟩ | ⟨a, ha, rfl, hrest⟩
  · have hpos : rowLength l ≤ rowLength (l ++ b) := by
      rw [rowLength_append]
      omega
    rw [if_pos (.inr hpos), rowLength_append, Nat.add_sub_cancel_left, splice_encodeRow hrOk]
    refine .split hover (by simp) hl (by simp) (by omega) ?_
    rw [rowLength_append, rowLength_append] at hlen
    rw [rowLength_append, rowLength_cons]
    omega
  · obtain ⟨a', rfl, rfl⟩ := append_of_le_one hp.old_le_one ha hrest
    have hend : ¬ plan.insAtEnd = true := fun hend => by
      obtain ⟨ho, hr⟩ := hp.insAtEnd.1 hend
      exact ha (by rw [ho, (List.append_eq_nil_iff.1 hr).1]; rfl)
    have hr : r ≠ [] := hr.resolve_right fun ⟨_, ho, hr⟩ => hend (hp.insAtEnd.2 ⟨ho, hr⟩)
    have h4' := hrOk.four_le hr
    have hpos : 0 < rowLength (old ++ a') := Nat.pos_of_ne_zero fun h0 => ha (rowLength_eq_zero h0)
    have hbelow : ¬ (plan.insAtEnd = true ∨ rowLength (before ++ (old ++ a')) ≤
      rowLength before) := by
      rw [rowLength_append]
      rintro (hend' | hle)
      · exact hend hend'
      · omega
    rw [if_neg hbelow, splice_encodeRow hlOk]
    refine .split hover (by simp) (by simp) hr ?_ (by omega)
    rw [rowLength_append, rowLength_append] at hlen
    rw [rowLength_append, rowLength_cons]
    omega

/-- **What `bm_insert` makes of a row.**  It inserts the bit at its place,
and the rows it leaves are neither empty nor too long, unless the row is cornered. -/
theorem bmInsert_makes {v : ℕ} (h : EntriesOk ces) (hlen : rowLength ces ≤ ceMaxLength)
    (hv : v < 2 ^ 31) (hl : Located ces v before after) (hc : ¬ Cornered ces v)
    (bmStart bytesAvailable : ℤ) :
    ∃ res, bmInsert bmStart (encodeRow ces) (bmStart + v) bytesAvailable = some res ∧
      res.Makes (insertAt before after v) := by
  have hs := hl.stopsAt bmStart
  obtain rfl := hs.eq
  rw [bmInsert, findCe_row h hv hs, Option.bind_eq_bind, Option.bind_some]
  rcases foundAt_spec h hv hs with
    ⟨hfound, hrow⟩ | ⟨plan, old, new, rest, hfound, hp, rfl, hins, hgap⟩
  · rw [hfound]
    exact ⟨_, rfl, .fits (hrow ▸ hlen)⟩
  · have hext : plan.ext.length = new.length := by
      rw [hp.ext, Ce.length_encode hp.new_ok.fits]
    have hsplice : splice (encodeRow (before ++ (old ++ rest))) plan.pos plan.oldCeLen plan.ext =
        encodeRow (before ++ new :: rest) := by
      rw [hp.pos, hp.oldCeLen, hp.ext, splice_encodeRow h]
    rw [hfound, hins]
    simp only [hext, hp.oldCeLen, h.length_encodeRow]
    by_cases hover : ceMaxLength + rowLength old < rowLength (before ++ (old ++ rest)) + new.length
    · obtain ⟨l, r, heq, hsplit, hlne, hrne⟩ := splitCe_spec hp h hgap hc hlen hover
      have hover' : ceMaxLength < rowLength (before ++ new :: rest) := by
        rw [rowLength_append, rowLength_append] at hover
        rw [rowLength_append, rowLength_cons]
        omega
      have hmakes := split_makes hp h hlen hover' heq hlne hrne
      rw [hp.oldCeLen] at hmakes
      refine ⟨_, ?_, hmakes⟩
      rw [if_pos hover, hsplit, Option.bind_eq_bind, Option.bind_some]
      split_ifs <;> rfl
    · have hrow : rowLength (before ++ new :: rest) ≤ ceMaxLength := by
        rw [rowLength_append, rowLength_append] at hover
        rw [rowLength_append, rowLength_cons]
        omega
      have hold : ¬ rowLength (before ++ (old ++ rest)) < rowLength old := by
        rw [rowLength_append, rowLength_append]
        omega
      rw [hp.oldCeLen] at hsplice
      rw [if_neg hover, if_neg hold, hsplice]
      split_ifs
      · exact ⟨_, rfl, .extended hrow⟩
      · exact ⟨_, rfl, .fits hrow⟩

/-- A cornered row is split before its only entry: the left row is empty and the
right one too long. -/
theorem bmInsert_cornered (bmStart : ℤ) {c : Ce} {v : ℕ} (h : c.Ok)
    (hlong : ceMaxLength - 4 < c.length) (hv : v < c.offset) (bytesAvailable : ℤ) :
    bmInsert bmStart (encodeRow [c]) (bmStart + v) bytesAvailable =
      some (.split [] (encodeRow [.single v, c])) := by
  have hok : EntriesOk [c] := ⟨by simpa using h, List.pairwise_singleton _ _⟩
  have hlen : (encodeRow [c]).length = c.length := by
    rw [hok.length_encodeRow, rowLength_singleton]
  have hce : ceLength (encodeRow [c]) = c.length := by
    rw [encodeRow_cons, Ce.ceLength_encode h.fits]
  have hfind := findCe_cons bmStart (show EntriesOk ([] ++ c :: []) from hok) (hv.trans h.offset_lt)
    (encodeRow [c]).length 0
  rw [if_pos hv, List.nil_append, rowLength_nil] at hfind
  have hpos := c.length_pos
  obtain ⟨fuel, hfuel⟩ := Nat.exists_eq_succ_of_ne_zero hpos.ne'
  have hsplit : splitCe (encodeRow [c]) ⟨0, (Ce.single v).encode, 0, false, c.length⟩ = some 0 := by
    rw [splitCe, if_neg (by simp)]
    split_ifs with hmax
    · rfl
    · rw [splitLoop, if_pos (by omega), if_neg (by omega), List.drop_zero, hce, hlen, hfuel,
        splitLoop, if_neg (by omega)]
  rw [bmInsert, hfind, Option.bind_eq_bind, Option.bind_some]
  have hext : (Ce.single v).encode.length = 4 := rfl
  simp only [hext, hlen]
  rw [if_pos (by omega), hsplit, Option.bind_eq_bind, Option.bind_some, if_pos (.inr le_rfl)]
  simp [splice, encodeRow_cons]

end Virtuoso.Bitmap
