import Virtuoso.Bitmap.Delete

/-!
# Reading a row back

What a row is, read off its bytes alone: the CEs that `CE_LENGTH` cuts it into,
the members of each, and when the row is well formed.  The encoding of
well-formed entries is well formed in this sense.
-/

namespace Virtuoso.Bitmap

open Lib

def cutCes : ℕ → List ℕ → List (List ℕ)
  | 0, _ => []
  | fuel + 1, bm =>
    if bm = [] then [] else bm.take (ceLength bm) :: cutCes fuel (bm.drop (ceLength bm))

def rowCes (bm : List ℕ) : List (List ℕ) := cutCes bm.length bm

/-- The members of a CE, as offsets from the start of the row. -/
def ceMembers (ce : List ℕ) : List ℕ :=
  if ceIsSingle ce then [ceSingleValue ce]
  else if ceIsArray ce then
    (List.range ((ceLength ce - 4) / 2)).map fun inx => ceOffset ce + saRef (ce.drop 4) inx
  else (bitList (ce.drop 4)).map (ceOffset ce + ·)

/-- The members of a row, as offsets from its start. -/
def rowMembers (bm : List ℕ) : List ℕ := (rowCes bm).flatMap ceMembers

/-- A well-formed CE: its length is the one its header says, its members are in
its range, and an array is ascending, neither empty nor over its limit. -/
structure CeWellFormed (ce : List ℕ) : Prop where
  bytes : IsBytes ce
  length : ceLength ce = ce.length
  range : ∀ m ∈ ceMembers ce, ceOffset ce ≤ m ∧ m < ceOffset ce + ceNValues
  array : ceIsSingle ce = false → ceIsArray ce = true →
    (ceMembers ce).Pairwise (· < ·) ∧ ceMembers ce ≠ [] ∧ (ceMembers ce).length ≤ 512 ∧
      ce.length = 4 + 2 * (ceMembers ce).length
  bitmap : ceIsSingle ce = false → ceIsArray ce = false → ce.length = ceMaxLength

/-- A well-formed row: it is cut into well-formed CEs with ascending offsets, and
it is neither empty nor too long. -/
structure RowWellFormed (bm : List ℕ) : Prop where
  parses : (rowCes bm).flatten = bm ∧ ((rowCes bm).map ceLength).sum = bm.length
  ces : ∀ ce ∈ rowCes bm, CeWellFormed ce
  asc : (rowCes bm).Pairwise fun ce ce' => ceOffset ce < ceOffset ce'
  pos : 0 < bm.length
  le : bm.length ≤ ceMaxLength

/-! ## One entry -/

namespace Ce

variable {c : Ce}

theorem Ok.isBytes_encode (h : c.Ok) : IsBytes c.encode := by
  cases c with
  | single value => exact isBytes_word32 _
  | array offset bits =>
    refine (isBytes_word32 _).append fun b hb => ?_
    obtain ⟨w, -, hw⟩ := List.mem_flatMap.1 hb
    exact isBytes_word16 w b hw
  | bitmap offset bytes => exact (isBytes_word32 _).append h.2.2.2.1

theorem Ok.ceOffset_eq (h : c.Ok) : ceOffset c.encode = c.offset := by
  simpa using ceOffset_encode h.fits []

theorem Ok.ceLength_eq (h : c.Ok) : ceLength c.encode = c.length := by
  simpa using ceLength_encode h.fits []

theorem Ok.ceIsSingle_eq (h : c.Ok) : ceIsSingle c.encode = c.isSingle := by
  simpa using ceIsSingle_encode h.fits []

theorem ceIsArray_array_eq {offset : ℕ} {bits : List ℕ} (h : (array offset bits).Ok) :
    ceIsArray (array offset bits).encode = true := by
  simpa using ceIsArray_array h.fits []

theorem ceIsArray_bitmap_eq {offset : ℕ} {bytes : List ℕ} (h : (bitmap offset bytes).Ok) :
    ceIsArray (bitmap offset bytes).encode = false := by
  simpa using ceIsArray_bitmap h.fits []

/-- Reading the members of an entry gives its bits. -/
theorem Ok.ceMembers_eq (h : c.Ok) : ceMembers c.encode = c.bits.map (c.offset + ·) := by
  rw [ceMembers, h.ceIsSingle_eq, h.ceOffset_eq, h.ceLength_eq]
  cases c with
  | single value =>
    have hvalue : ceSingleValue (single value).encode = value := by
      simpa using ceSingleValue_single h []
    rw [isSingle, if_pos rfl, hvalue, bits, offset, List.map_singleton, Nat.mul_comm,
      Nat.div_add_mod]
  | array offset bits =>
    have hn : ((array offset bits).length - 4) / 2 = bits.length := by
      rw [length_array]
      omega
    simp only [isSingle, Bool.false_eq_true, if_false, ceIsArray_array_eq h, if_true, hn]
    refine List.ext_getElem (by simp [Ce.bits]) fun i hi hi' => ?_
    have hi : i < bits.length := by simpa using hi
    have href := saRef_array offset h.2.2.1 [] (List.getElem?_eq_getElem hi)
    rw [List.append_nil] at href
    simp [href, Ce.bits, Ce.offset]
  | bitmap offset bytes =>
    simp only [isSingle, Bool.false_eq_true, if_false, ceIsArray_bitmap_eq h]
    rfl

theorem Ok.ceWellFormed (h : c.Ok) : CeWellFormed c.encode := by
  refine ⟨h.isBytes_encode, ?_, ?_, ?_, ?_⟩
  · rw [h.ceLength_eq, length_encode h.fits]
  · intro m hm
    rw [h.ceMembers_eq] at hm
    obtain ⟨b, hb, rfl⟩ := List.mem_map.1 hm
    rw [h.ceOffset_eq]
    exact ⟨Nat.le_add_right _ _, Nat.add_lt_add_left (h.arrayBits.lt b hb) _⟩
  · intro hs ha
    rw [h.ceIsSingle_eq] at hs
    rw [h.ceMembers_eq, length_encode h.fits, List.length_map]
    cases c with
    | single value => cases hs
    | array offset bits =>
      have hle : bits.length ≤ 512 := h.2.2.2.2
      refine ⟨?_, ?_, hle, rfl⟩
      · exact List.pairwise_map.2 (h.2.2.1.asc.imp fun hlt => Nat.add_lt_add_left hlt _)
      · simpa [Ce.bits] using h.2.2.2.1
    | bitmap offset bytes =>
      cases (ceIsArray_bitmap_eq h).symm.trans ha
  · intro hs ha
    rw [h.ceIsSingle_eq] at hs
    rw [length_encode h.fits]
    cases c with
    | single value => cases hs
    | array offset bits =>
      cases (ceIsArray_array_eq h).symm.trans ha
    | bitmap offset bytes => rfl

end Ce

/-! ## Rows -/

variable {ces : List Ce}

/-- A row is cut into the entries it was made of. -/
theorem cutCes_encodeRow {fuel : ℕ} (h : ∀ c ∈ ces, c.Fits) (hfuel : ces.length ≤ fuel) :
    cutCes fuel (encodeRow ces) = ces.map Ce.encode := by
  induction ces generalizing fuel with
  | nil => cases fuel <;> simp [cutCes]
  | cons c ces ih =>
    obtain ⟨fuel, rfl⟩ := Nat.exists_eq_succ_of_ne_zero (by simp at hfuel; omega : fuel ≠ 0)
    have hc := h c (by simp)
    have hne : encodeRow (c :: ces) ≠ [] := by
      rw [encodeRow_cons, ← List.length_pos_iff, List.length_append, Ce.length_encode hc]
      exact Nat.add_pos_left c.length_pos _
    rw [cutCes, if_neg hne, encodeRow_cons, Ce.ceLength_encode hc,
      List.take_left' (Ce.length_encode hc), List.drop_left' (Ce.length_encode hc),
        ih (fun d hd => h d (by simp [hd])) (by simpa using hfuel),
      List.map_cons]

theorem rowCes_encodeRow (h : ∀ c ∈ ces, c.Fits) : rowCes (encodeRow ces) = ces.map Ce.encode := by
  refine cutCes_encodeRow h ?_
  have hlen : (encodeRow ces).length = rowLength ces := by
    rw [encodeRow, List.length_flatMap, rowLength]
    exact congrArg List.sum (List.map_congr_left fun c hc => Ce.length_encode (h c hc))
  rw [hlen]
  exact length_le_rowLength ces

theorem rowMembers_encodeRow (h : ∀ c ∈ ces, c.Ok) :
    rowMembers (encodeRow ces) = ces.flatMap fun c => c.bits.map (c.offset + ·) := by
  rw [rowMembers, rowCes_encodeRow fun c hc => (h c hc).fits, List.flatMap_map]
  exact List.flatMap_congr fun c hc => (h c hc).ceMembers_eq

namespace EntriesOk

variable {ces : List Ce}

/-- A row of well-formed entries is cut into them. -/
theorem rowCes_eq (h : EntriesOk ces) : rowCes (encodeRow ces) = ces.map Ce.encode :=
  rowCes_encodeRow fun c hc => (h.ok c hc).fits

theorem rowMembers_eq (h : EntriesOk ces) :
    rowMembers (encodeRow ces) = ces.flatMap fun c => c.bits.map (c.offset + ·) :=
  rowMembers_encodeRow h.ok

theorem mem_rowMembers (h : EntriesOk ces) {m : ℕ} :
    m ∈ rowMembers (encodeRow ces) ↔ ∃ c ∈ ces, c.offset ≤ m ∧ m - c.offset ∈ c.bits := by
  rw [h.rowMembers_eq, List.mem_flatMap]
  refine exists_congr fun c => and_congr_right fun _ => ?_
  rw [List.mem_map]
  constructor
  · rintro ⟨b, hb, rfl⟩
    exact ⟨Nat.le_add_right _ _, by rwa [Nat.add_sub_cancel_left]⟩
  · rintro ⟨hle, hb⟩
    exact ⟨_, hb, Nat.add_sub_cancel' hle⟩

/-- A row of well-formed entries that is neither empty nor too long is well
formed. -/
theorem rowWellFormed (h : EntriesOk ces) (hne : ces ≠ []) (hlen : rowLength ces ≤ ceMaxLength) :
    RowWellFormed (encodeRow ces) := by
  refine ⟨⟨?_, ?_⟩, ?_, ?_, ?_, ?_⟩
  · rw [h.rowCes_eq]
    exact List.flatMap_def.symm
  · rw [h.rowCes_eq, h.length_encodeRow, List.map_map, rowLength]
    exact congrArg List.sum (List.map_congr_left fun c hc => (h.ok c hc).ceLength_eq)
  · intro ce hce
    rw [h.rowCes_eq] at hce
    obtain ⟨c, hc, rfl⟩ := List.mem_map.1 hce
    exact (h.ok c hc).ceWellFormed
  · rw [h.rowCes_eq, List.pairwise_map]
    refine h.asc.imp_of_mem fun {c d} hc hd hlt => ?_
    rwa [(h.ok c hc).ceOffset_eq, (h.ok d hd).ceOffset_eq]
  · rw [h.length_encodeRow]
    exact Nat.pos_of_ne_zero fun h0 => hne (rowLength_eq_zero h0)
  · rwa [h.length_encodeRow]

end EntriesOk

end Virtuoso.Bitmap
