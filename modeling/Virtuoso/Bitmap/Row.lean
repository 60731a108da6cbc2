import Virtuoso.Bitmap.Bits

/-!
# Well-formed rows

What the entries of a row must satisfy, and how adding or removing one bit
changes an entry.  A row is a list of CEs here; `encodeRow` has its bytes.
-/

namespace Virtuoso.Bitmap

open Lib Finset

variable {d : Ce}

namespace Ce

/-- A well-formed entry: the fields fit the header, an array is ascending, in
range, neither empty nor over its limit, and a bitmap has a bit. -/
def Ok : Ce → Prop
  | .single value => value < 2 ^ 31
  | .array offset bits =>
    offset < 2 ^ 31 ∧ offset % ceNValues = 0 ∧ ArrayBits bits ∧ bits ≠ [] ∧
      bits.length ≤ ceNValues / 16
  | .bitmap offset bytes =>
    offset < 2 ^ 31 ∧ offset % ceNValues = 0 ∧ 8 * bytes.length = ceNValues ∧ IsBytes bytes ∧
      (bitSet bytes).Nonempty

variable {c : Ce}

theorem Ok.fits (h : c.Ok) : c.Fits := by
  cases c with
  | single value => exact h
  | array offset bits => exact ⟨h.1, h.2.1, h.2.2.2.2.trans_lt (by decide)⟩
  | bitmap offset bytes => exact ⟨h.1, h.2.1, h.2.2.1⟩

theorem Ok.offset_lt (h : c.Ok) : c.offset < 2 ^ 31 := by
  cases c with
  | single value =>
    simp only [Ok] at h
    simp only [offset, ceNValues]
    omega
  | array offset bits => exact h.1
  | bitmap offset bytes => exact h.1

theorem Ok.offset_mod (h : c.Ok) : c.offset % ceNValues = 0 := by
  cases c with
  | single value => simp [offset]
  | array offset bits => exact h.2.1
  | bitmap offset bytes => exact h.2.1

theorem Ok.length_le (h : c.Ok) : c.length ≤ ceMaxLength := by
  cases c with
  | single value => simp [length, ceMaxLength]
  | array offset bits =>
    have := h.2.2.2.2
    simp only [ceNValues] at this
    simp only [length, ceMaxLength]
    omega
  | bitmap offset bytes => exact le_rfl

theorem Ok.length_ge (h : c.Ok) : 4 ≤ c.length := by
  cases c <;> simp [length, ceMaxLength]

/-- The bits of a well-formed entry are ascending and in its range. -/
theorem Ok.arrayBits (h : c.Ok) : ArrayBits c.bits := by
  cases c with
  | single value => exact ⟨List.pairwise_singleton _ _, by simp [bits, Nat.mod_lt, ceNValues]⟩
  | array offset bits => exact h.2.2.1
  | bitmap offset bytes =>
    exact ⟨pairwise_bitList bytes, fun b hb => h.2.2.1 ▸ lt_of_mem_bitSet (mem_bitList.1 hb)⟩

theorem Ok.bits_ne_nil (h : c.Ok) : c.bits ≠ [] := by
  cases c with
  | single value => simp [bits]
  | array offset bits => exact h.2.2.2.1
  | bitmap offset bytes =>
    obtain ⟨i, hi⟩ := h.2.2.2.2
    exact List.ne_nil_of_mem (mem_bitList.2 hi)

theorem Ok.add_le_offset (hc : c.Ok) (hd : d.Ok) (h : c.offset < d.offset) :
    c.offset + ceNValues ≤ d.offset := by
  have h₁ := hc.offset_mod
  have h₂ := hd.offset_mod
  simp only [ceNValues] at *
  omega

theorem Ok.lt_of_mem_bits (h : c.Ok) {v : ℕ} (hbit : v - c.offset ∈ c.bits) :
    v < c.offset + ceNValues := by
  have := h.arrayBits.lt _ hbit
  omega

/-! ## Adding a bit -/

/-- The entry with one more bit: a single becomes an array, an array over its
limit a bitmap. -/
def add (c : Ce) (bit : ℕ) : Ce :=
  match c with
  | .single value =>
    if value % ceNValues = bit then .single value
    else .array (value / ceNValues * ceNValues) (addBit [value % ceNValues] bit)
  | .array offset bits =>
    if (addBit bits bit).length ≤ ceNValues / 16 then .array offset (addBit bits bit)
    else .bitmap offset (bitsToBytes (addBit bits bit))
  | .bitmap offset bytes => .bitmap offset (setBit bytes bit)

@[simp] theorem offset_add (c : Ce) (bit : ℕ) : (c.add bit).offset = c.offset := by
  cases c with
  | single value =>
    simp only [add]
    split_ifs <;> rfl
  | array offset bits =>
    simp only [add]
    split_ifs <;> rfl
  | bitmap offset bytes => rfl

end Ce

/-- The bitmap that replaces an array has its bits. -/
theorem bitsToBytes_spec {bits : List ℕ} (h : ArrayBits bits) :
    8 * (bitsToBytes bits).length = ceNValues ∧ IsBytes (bitsToBytes bits) ∧
      bitSet (bitsToBytes bits) = bits.toFinset := by
  have hbytes : IsBytes (List.replicate (ceNValues / 8) 0) := fun b hb => by
    rw [List.eq_of_mem_replicate hb]
    decide
  have hlength : 8 * (List.replicate (ceNValues / 8) 0).length = ceNValues := by
    rw [List.length_replicate]
    rfl
  have hlt : ∀ b ∈ bits, b < 8 * (List.replicate (ceNValues / 8) 0).length := fun b hb => by
    rw [hlength]
    exact h.lt b hb
  obtain ⟨hlen, hb, hset⟩ := foldl_setBit hlt hbytes
  refine ⟨by rw [bitsToBytes, hlen, hlength], hb, ?_⟩
  · rw [bitsToBytes, hset, bitSet_replicate, union_empty]

namespace Ce

variable {c : Ce}

variable {bit : ℕ}

theorem bits_add (h : c.Ok) (hbit : bit < ceNValues) : (c.add bit).bits = addBit c.bits bit := by
  cases c with
  | single value =>
    simp only [add]
    split_ifs with hv
    · rw [bits, ← hv]
      exact (addBit_of_mem (List.pairwise_singleton _ _) (by simp)).symm
    · rfl
  | array offset bits =>
    have hadd := h.2.2.1.addBit hbit
    simp only [add]
    split_ifs with hlen
    · rfl
    · refine (pairwise_bitList _).eq_of_mem_iff hadd.asc fun b => ?_
      rw [mem_bitList, (bitsToBytes_spec hadd).2.2, List.mem_toFinset, Ce.bits]
  | bitmap offset bytes =>
    refine (pairwise_bitList _).eq_of_mem_iff (pairwise_addBit (pairwise_bitList bytes) bit)
      fun b => ?_
    rw [mem_bitList, bitSet_setBit (h.2.2.1 ▸ hbit), mem_insert, mem_addBit, bits, mem_bitList]

theorem Ok.add (h : c.Ok) (hbit : bit < ceNValues) : (c.add bit).Ok := by
  cases c with
  | single value =>
    simp only [Ce.add]
    split_ifs with hv
    · exact h
    · have hone : ArrayBits [value % ceNValues] :=
        ⟨List.pairwise_singleton _ _, by simp [Nat.mod_lt, ceNValues]⟩
      have hoff : (single value).offset < 2 ^ 31 := Ok.offset_lt h
      refine ⟨hoff, by simp, hone.addBit hbit, List.ne_nil_of_mem (mem_addBit.2 (.inl rfl)), ?_⟩
      rw [length_addBit hone.asc, List.length_singleton]
      split_ifs <;> decide
  | array offset bits =>
    have hadd := h.2.2.1.addBit hbit
    simp only [Ce.add]
    split_ifs with hlen
    · exact ⟨h.1, h.2.1, hadd, List.ne_nil_of_mem (mem_addBit.2 (.inl rfl)), hlen⟩
    · obtain ⟨h₁, h₂, h₃⟩ := bitsToBytes_spec hadd
      refine ⟨h.1, h.2.1, h₁, h₂, ⟨bit, ?_⟩⟩
      rw [h₃, List.mem_toFinset]
      exact mem_addBit.2 (.inl rfl)
  | bitmap offset bytes =>
    refine ⟨h.1, h.2.1, by simpa using h.2.2.1, h.2.2.2.1.setBit bit, ⟨bit, ?_⟩⟩
    rw [bitSet_setBit (h.2.2.1 ▸ hbit)]
    exact mem_insert_self _ _

/-- Adding a bit makes an entry longer by at most four bytes. -/
theorem length_add (h : c.Ok) (bit : ℕ) :
    c.length ≤ (c.add bit).length ∧ (c.add bit).length ≤ c.length + 4 := by
  cases c with
  | single value =>
    have hlen := length_addBit (List.pairwise_singleton (· < ·) (value % ceNValues)) bit
    rw [List.length_singleton] at hlen
    rw [add]
    split_ifs with hv
    · exact ⟨le_rfl, by omega⟩
    · rw [length_array, length_single, hlen]
      split_ifs <;> omega
  | array offset bits =>
    have hlen := length_addBit h.2.2.1.asc bit
    have hle : bits.length ≤ 512 := h.2.2.2.2
    rw [add]
    split_ifs with hv
    · rw [length_array, length_array, hlen]
      split_ifs <;> omega
    · rw [length_bitmap, length_array]
      rw [hlen, ceNValues] at hv
      split_ifs at hv <;> omega
  | bitmap offset bytes => exact ⟨le_rfl, by simp [add, length_bitmap]⟩

/-! ## Removing a bit -/

/-- The entry without a bit that it has.  An entry with no bit left goes away,
and a bitmap with fewer than 400 bits becomes an array. -/
def remove (c : Ce) (bit : ℕ) : Option Ce :=
  match c with
  | .single _ => none
  | .array offset bits =>
    if bits.length = 1 then none else some (.array offset (bits.filter (· ≠ bit)))
  | .bitmap offset bytes =>
    if (bitSet (clearBit bytes bit)).card < 400 then
      some (.array offset (bitList (clearBit bytes bit)))
    else some (.bitmap offset (clearBit bytes bit))

/-- A bitmap has at least 400 bits. -/
def Dense : Ce → Prop
  | .bitmap _ bytes => 400 ≤ (bitSet bytes).card
  | _ => True

theorem bitList_clearBit {bytes : List ℕ} (h : bit < 8 * bytes.length) :
    bitList (clearBit bytes bit) = (bitList bytes).filter (· ≠ bit) := by
  refine (pairwise_bitList _).eq_of_mem_iff ((pairwise_bitList bytes).filter _) fun b => ?_
  rw [mem_bitList, bitSet_clearBit h, mem_erase, List.mem_filter, mem_bitList, and_comm]
  simp

/-- The bit is the only one of a bitmap. -/
def Lone (c : Ce) (bit : ℕ) : Prop :=
  ∃ offset bytes, c = .bitmap offset bytes ∧ bitSet bytes = {bit}

theorem Dense.not_lone (h : c.Dense) (bit : ℕ) : ¬ c.Lone bit := by
  rintro ⟨offset, bytes, rfl, hone⟩
  have hdense : 400 ≤ (bitSet bytes).card := h
  rw [hone, card_singleton] at hdense
  omega

/-- What is left of an entry without one of its bits. -/
theorem remove_eq_some (h : c.Ok) (hbit : bit ∈ c.bits) (hr : c.remove bit = some d) :
    d.Fits ∧ d.offset = c.offset ∧ d.bits = c.bits.filter (· ≠ bit) ∧ d.length ≤ c.length := by
  cases c with
  | single value => cases hr
  | array offset bits =>
    rw [remove] at hr
    split_ifs at hr with hone
    cases hr
    obtain ⟨h₁, h₂, -, -, h₅⟩ := h
    have hle : (bits.filter (· ≠ bit)).length ≤ bits.length := List.length_filter_le _ _
    refine ⟨⟨h₁, h₂, ?_⟩, rfl, rfl, ?_⟩
    · simp only [ceNValues] at h₅
      omega
    · rw [length_array, length_array]
      omega
  | bitmap offset bytes =>
    obtain ⟨h₁, h₂, h₃, -, -⟩ := h
    have hlist := bitList_clearBit (lt_of_mem_bitSet (mem_bitList.1 hbit))
    have hlen := length_bitList (clearBit bytes bit)
    rw [remove] at hr
    split_ifs at hr with hlt
    · cases hr
      refine ⟨⟨h₁, h₂, by omega⟩, rfl, hlist, ?_⟩
      rw [length_array, length_bitmap]
      omega
    · cases hr
      exact ⟨⟨h₁, h₂, by rwa [length_clearBit]⟩, rfl, hlist, le_rfl⟩

/-- What is left of an entry is well formed, unless it is an array of none. -/
theorem Ok.remove (h : c.Ok) (hl : ¬ c.Lone bit) (hbit : bit ∈ c.bits)
    (hr : c.remove bit = some d) :
    d.Ok := by
  cases c with
  | single value => cases hr
  | array offset bits =>
    rw [Ce.remove] at hr
    split_ifs at hr with hone
    cases hr
    obtain ⟨h₁, h₂, h₃, h₄, h₅⟩ := h
    refine ⟨h₁, h₂, ⟨h₃.asc.filter _, fun b hb => h₃.lt b (List.mem_of_mem_filter hb)⟩, ?_,
      (List.length_filter_le _ _).trans h₅⟩
    intro hnil
    have hall : ∀ b ∈ bits, b = bit := by simpa using hnil
    match bits, h₄ with
    | [_], _ => exact hone rfl
    | b₀ :: b₁ :: bits, _ =>
      have hlt := (List.pairwise_cons.1 h₃.asc).1 b₁ (by simp)
      rw [hall b₀ (by simp), hall b₁ (by simp)] at hlt
      exact lt_irrefl _ hlt
  | bitmap offset bytes =>
    obtain ⟨h₁, h₂, h₃, h₄, -⟩ := h
    have hmem : bit ∈ bitSet bytes := mem_bitList.1 hbit
    have hset := bitSet_clearBit (lt_of_mem_bitSet hmem)
    have hlen := length_bitList (clearBit bytes bit)
    have hlen' : 8 * (clearBit bytes bit).length = ceNValues := by rwa [length_clearBit]
    -- a bit is left
    have hpos : 0 < (bitSet (clearBit bytes bit)).card := by
      refine card_pos.2 (nonempty_iff_ne_empty.2 fun hempty => hl ⟨offset, bytes, rfl, ?_⟩)
      rw [hset, erase_eq_empty_iff] at hempty
      exact hempty.resolve_left (ne_empty_of_mem hmem)
    rw [Ce.remove] at hr
    split_ifs at hr with hlt
    · cases hr
      refine ⟨h₁, h₂, ⟨pairwise_bitList _, fun b hb => ?_⟩, ?_, ?_⟩
      · exact hlen' ▸ lt_of_mem_bitSet (mem_bitList.1 hb)
      · exact List.ne_nil_of_length_pos (hlen ▸ hpos)
      · simp only [ceNValues]
        omega
    · cases hr
      exact ⟨h₁, h₂, hlen', h₄.clearBit bit, card_pos.1 hpos⟩

theorem dense_of_remove (hr : c.remove bit = some d) : d.Dense := by
  cases c with
  | single value => cases hr
  | array offset bits =>
    rw [remove] at hr
    split_ifs at hr
    cases hr
    trivial
  | bitmap offset bytes =>
    rw [remove] at hr
    split_ifs at hr with hlt
    · cases hr
      trivial
    · cases hr
      exact not_lt.1 hlt

theorem Dense.add (h : c.Ok) (hd : c.Dense) (hbit : bit < ceNValues) : (c.add bit).Dense := by
  cases c with
  | single value =>
    rw [Ce.add]
    split_ifs <;> trivial
  | array offset bits =>
    have hadd := h.2.2.1.addBit hbit
    rw [Ce.add]
    split_ifs with hlen
    · trivial
    · change 400 ≤ (bitSet _).card
      rw [(bitsToBytes_spec hadd).2.2, List.toFinset_card_of_nodup (hadd.asc.imp ne_of_lt)]
      simp only [ceNValues] at hlen
      omega
  | bitmap offset bytes =>
    have hdense : 400 ≤ (bitSet bytes).card := hd
    change 400 ≤ (bitSet (setBit bytes bit)).card
    rw [bitSet_setBit (h.2.2.1 ▸ hbit)]
    exact hdense.trans (card_le_card (subset_insert _ _))

end Ce

/-! ## Rows -/

def rowLength (ces : List Ce) : ℕ := (ces.map Ce.length).sum

/-- The entries of a row are well formed and their ranges ascend. -/
structure EntriesOk (ces : List Ce) : Prop where
  ok : ∀ c ∈ ces, c.Ok
  asc : ces.Pairwise fun c d => c.offset < d.offset

theorem EntriesOk.append_iff {xs ys : List Ce} :
    EntriesOk (xs ++ ys) ↔
      EntriesOk xs ∧ EntriesOk ys ∧ ∀ c ∈ xs, ∀ d ∈ ys, c.offset < d.offset := by
  constructor
  · rintro ⟨hok, hasc⟩
    obtain ⟨hx, hy, hxy⟩ := List.pairwise_append.1 hasc
    exact ⟨⟨fun c hc => hok c (by simp [hc]), hx⟩, ⟨fun c hc => hok c (by simp [hc]), hy⟩, hxy⟩
  · rintro ⟨hx, hy, hxy⟩
    refine ⟨fun c hc => ?_, List.pairwise_append.2 ⟨hx.asc, hy.asc, hxy⟩⟩
    rcases List.mem_append.1 hc with hc | hc
    · exact hx.ok c hc
    · exact hy.ok c hc

/-- The ranges of the entries around one are below and above its own. -/
theorem EntriesOk.around {before rest : List Ce} {c : Ce} (h : EntriesOk (before ++ c :: rest)) :
    (∀ d ∈ before, d.offset + ceNValues ≤ c.offset) ∧
      ∀ d ∈ rest, c.offset + ceNValues ≤ d.offset := by
  obtain ⟨hb, hr, hbr⟩ := append_iff.1 h
  have hc := hr.ok c (by simp)
  exact ⟨fun d hd => (hb.ok d hd).add_le_offset hc (hbr d hd c (by simp)),
    fun d hd => hc.add_le_offset (hr.ok d (by simp [hd])) ((List.pairwise_cons.1 hr.asc).1 d hd)⟩

theorem length_encodeRow_of_ok {ces : List Ce} (h : ∀ c ∈ ces, c.Ok) :
    (encodeRow ces).length = rowLength ces := by
  rw [encodeRow, List.length_flatMap, rowLength]
  congr 1
  exact List.map_congr_left fun c hc => Ce.length_encode (h c hc).fits

theorem EntriesOk.length_encodeRow {ces : List Ce} (h : EntriesOk ces) :
    (encodeRow ces).length = rowLength ces :=
  length_encodeRow_of_ok h.ok

theorem encodeRow_append (xs ys : List Ce) : encodeRow (xs ++ ys) = encodeRow xs ++ encodeRow ys :=
  List.flatMap_append

theorem encodeRow_append_cons (xs ys : List Ce) (c : Ce) :
    encodeRow xs ++ c.encode ++ encodeRow ys = encodeRow (xs ++ c :: ys) := by
  simp [encodeRow]

theorem encodeRow_cons (c : Ce) (ces : List Ce) :
    encodeRow (c :: ces) = c.encode ++ encodeRow ces :=
  List.flatMap_cons

@[simp] theorem encodeRow_nil : encodeRow [] = [] := rfl

theorem rowLength_append (xs ys : List Ce) :
    rowLength (xs ++ ys) = rowLength xs + rowLength ys := by
  simp [rowLength]

theorem rowLength_cons (c : Ce) (ces : List Ce) :
    rowLength (c :: ces) = c.length + rowLength ces := by
  simp [rowLength]

@[simp] theorem rowLength_nil : rowLength [] = 0 := rfl

@[simp] theorem rowLength_singleton (c : Ce) : rowLength [c] = c.length := Nat.add_zero _

/-- The place of a bit number in a row: the entries before it, and the entries
that start at its own range or above it. -/
structure Located (ces : List Ce) (v : ℕ) (before after : List Ce) : Prop where
  eq : ces = before ++ after
  before : ∀ c ∈ before, c.offset + ceNValues ≤ v
  after : ∀ c ∈ after.head?, v < c.offset + ceNValues

end Virtuoso.Bitmap
