import Virtuoso.Bitmap.Iterate
import Virtuoso.Bitmap.Rows

/-!
# Rows as sets

A row denotes a set of bit numbers.  `bm_insert` adds a number to the set, and
`bm_delete` takes one out, with two exceptions that this file makes exact: a delete
beyond all CEs is fatal, and a bitmap that loses its only bit is left as an array
of none.
-/

namespace Virtuoso.Bitmap

open Lib

/-- The set that a bitmap string denotes in a row that starts at `bmStart`. -/
def denotes (bmStart : ℤ) (bm : List ℕ) : Set ℤ := {x | ∃ m ∈ rowMembers bm, x = bmStart + m}

variable {v m bit : ℕ} {c : Ce} {bmStart : ℤ}

section Denotes

variable {bmStart : ℤ} {ces : List Ce}

theorem mem_denotes (h : ∀ c ∈ ces, c.Ok) {x : ℤ} :
    x ∈ denotes bmStart (encodeRow ces) ↔ ∃ m ∈ membersOf ces, x = bmStart + m := by
  rw [denotes, Set.mem_ofPred_eq, rowMembers_encodeRow h]
  rfl

theorem mem_denotes_add (h : ∀ c ∈ ces, c.Ok) :
    bmStart + v ∈ denotes bmStart (encodeRow ces) ↔ v ∈ membersOf ces := by
  rw [mem_denotes h]
  constructor
  · rintro ⟨m, hm, heq⟩
    obtain rfl : v = m := by omega
    exact hm
  · intro hv
    exact ⟨v, hv, rfl⟩

theorem mem_membersOf_append {xs ys : List Ce} :
    m ∈ membersOf (xs ++ ys) ↔ m ∈ membersOf xs ∨ m ∈ membersOf ys := by
  simp [membersOf]

theorem mem_membersOf_cons :
    m ∈ membersOf (c :: ces) ↔ (c.offset ≤ m ∧ m - c.offset ∈ c.bits) ∨ m ∈ membersOf ces := by
  simp only [membersOf, List.flatMap_cons, List.mem_append, List.mem_map]
  refine or_congr_left ⟨?_, ?_⟩
  · rintro ⟨b, hb, rfl⟩
    exact ⟨Nat.le_add_right _ _, by rwa [Nat.add_sub_cancel_left]⟩
  · rintro ⟨hle, hb⟩
    exact ⟨_, hb, Nat.add_sub_cancel' hle⟩

theorem membersOf_single (v : ℕ) : membersOf [.single v] = [v] := by
  simp [membersOf, Ce.bits, Ce.offset, Nat.div_add_mod']

/-- A member lies in the range of its entry. -/
theorem exists_of_mem_membersOf (h : ∀ c ∈ ces, c.Ok) (hm : m ∈ membersOf ces) :
    ∃ c ∈ ces, c.offset ≤ m ∧ m < c.offset + ceNValues ∧ m - c.offset ∈ c.bits := by
  obtain ⟨c, hc, b, hb, rfl⟩ := mem_membersOf.1 hm
  refine ⟨c, hc, Nat.le_add_right _ _, Nat.add_lt_add_left ((h c hc).arrayBits.lt b hb) _, ?_⟩
  rwa [Nat.add_sub_cancel_left]

theorem denotes_append {xs ys : List Ce} (h : ∀ c ∈ xs ++ ys, c.Ok) :
    denotes bmStart (encodeRow (xs ++ ys)) =
      denotes bmStart (encodeRow xs) ∪ denotes bmStart (encodeRow ys) := by
  have hx : ∀ c ∈ xs, c.Ok := fun c hc => h c (by simp [hc])
  have hy : ∀ c ∈ ys, c.Ok := fun c hc => h c (by simp [hc])
  ext x
  rw [Set.mem_union, mem_denotes h, mem_denotes hx, mem_denotes hy]
  simp only [mem_membersOf_append, or_and_right, exists_or]

/-- The members of the entries that the loops pass are below the value. -/
theorem StopsAt.lt_of_mem {value : ℤ} {before after : List Ce}
    (hs : StopsAt bmStart value ces before after) (h : EntriesOk ces) (hm : m ∈ membersOf before) :
    bmStart + m < value := by
  have hok : ∀ d ∈ before, d.Ok := fun d hd => h.ok d (by simp [hs.eq, hd])
  obtain ⟨d, hd, -, hmd, -⟩ := exists_of_mem_membersOf hok hm
  have hpast := hs.before d hd
  omega

end Denotes

/-! ## Inserting -/

/-- The result of an insert holds the set `s`, and the left part of a split lies
below the right one. -/
def BmInsert.Holds (bmStart : ℤ) (s : Set ℤ) : BmInsert → Prop
  | .fits bm => denotes bmStart bm = s
  | .extended ext => denotes bmStart ext = s
  | .split left right => denotes bmStart left ∪ denotes bmStart right = s ∧
      ∀ x ∈ denotes bmStart left, ∀ y ∈ denotes bmStart right, x < y

/-- The entries on both sides of a cut hold ascending members. -/
theorem EntriesOk.denotes_lt {l r : List Ce} (h : EntriesOk (l ++ r)) :
    ∀ x ∈ denotes bmStart (encodeRow l), ∀ y ∈ denotes bmStart (encodeRow r), x < y := by
  obtain ⟨hl, hr, -⟩ := EntriesOk.append_iff.1 h
  intro x hx y hy
  obtain ⟨m, hm, rfl⟩ := (mem_denotes hl.ok).1 hx
  obtain ⟨m', hm', rfl⟩ := (mem_denotes hr.ok).1 hy
  have hasc := h.pairwise_membersOf
  rw [membersOf, List.flatMap_append] at hasc
  have hlt := (List.pairwise_append.1 hasc).2.2 m hm m' hm'
  omega

/-- A result made of ascending entries holds what they denote. -/
theorem BmInsert.Makes.holds {ces : List Ce} {res : BmInsert} (hm : res.Makes ces)
    (h : EntriesOk ces) : res.Holds bmStart (denotes bmStart (encodeRow ces)) := by
  cases hm with
  | fits => rfl
  | extended => rfl
  | @split l r _ heq =>
    rw [heq] at h ⊢
    exact ⟨(denotes_append h.ok).symm, h.denotes_lt⟩

section Insert

variable {bmStart : ℤ} {ces before after : List Ce} {v : ℕ}

/-- An insert at the place of a bit number adds it. -/
theorem mem_membersOf_insertAt (h : EntriesOk ces) (hl : Located ces v before after) :
    m ∈ membersOf (insertAt before after v) ↔ m ∈ membersOf ces ∨ m = v := by
  obtain rfl := hl.eq
  match after, hl, h with
  | [], _, _ => simp [insertAt, mem_membersOf_append, membersOf_single]
  | c :: rest, hl, h =>
    rw [insertAt]
    split_ifs with hlt
    · rw [← List.singleton_append]
      rw [mem_membersOf_append, mem_membersOf_append, mem_membersOf_append, membersOf_single,
        List.mem_singleton, or_comm (a := m = v), or_assoc]
    · have hvc : v < c.offset + ceNValues := hl.after c (by simp)
      have hbits := Ce.bits_add (h.ok c (by simp)) (show v - c.offset < ceNValues by omega)
      have hadd : c.offset ≤ m ∧ m - c.offset ∈ addBit c.bits (v - c.offset) ↔
          (c.offset ≤ m ∧ m - c.offset ∈ c.bits) ∨ m = v := by
        rw [mem_addBit]
        constructor
        · rintro ⟨hle, heq | hmem⟩
          · exact .inr (by omega)
          · exact .inl ⟨hle, hmem⟩
        · rintro (⟨hle, hmem⟩ | rfl)
          · exact ⟨hle, .inr hmem⟩
          · exact ⟨not_lt.1 hlt, .inl rfl⟩
      rw [mem_membersOf_append, mem_membersOf_append, mem_membersOf_cons, mem_membersOf_cons,
        Ce.offset_add, hbits, hadd]
      exact (or_congr_right or_right_comm).trans or_assoc.symm

theorem denotes_insert (bmStart : ℤ) {ces' : List Ce} (h : ∀ c ∈ ces, c.Ok) (h' : ∀ c ∈ ces', c.Ok)
    (hmem : ∀ m, m ∈ membersOf ces' ↔ m ∈ membersOf ces ∨ m = v) :
    denotes bmStart (encodeRow ces') = denotes bmStart (encodeRow ces) ∪ {bmStart + (v : ℤ)} := by
  ext x
  rw [mem_denotes h', Set.mem_union, mem_denotes h, Set.mem_singleton_iff]
  simp only [hmem, or_and_right, exists_or, exists_eq_left]

end Insert

/-- **`bm_insert` has set semantics.**  Its result holds the set of the row and the
value; a row that is cornered leaves an empty left part. -/
theorem bmInsert_holds {bmStart : ℤ} {ces : List Ce} (h : EntriesOk ces)
    (hlen : rowLength ces ≤ ceMaxLength) {value : ℤ} (hge : bmStart ≤ value)
    (hlt : value < bmStart + 0x10000000) (bytesAvailable : ℤ) :
    ∃ res, bmInsert bmStart (encodeRow ces) value bytesAvailable = some res ∧
      res.Holds bmStart (denotes bmStart (encodeRow ces) ∪ {value}) := by
  obtain ⟨v, rfl⟩ : ∃ v : ℕ, value = bmStart + v := ⟨(value - bmStart).toNat, by omega⟩
  have hv : v < 2 ^ 31 := by omega
  obtain ⟨before, after, hl⟩ := exists_located ces v
  have hok := h.insertAt hv hl
  have hset := denotes_insert bmStart h.ok hok.ok fun m => mem_membersOf_insertAt h hl
  by_cases hc : Cornered ces v
  · -- the left part is empty, the right one holds everything
    obtain ⟨c, rfl, hlong, hvc⟩ := hc
    have hplace : insertAt before after v = [.single v, c] := by
      rcases List.append_eq_singleton_iff.1 hl.eq.symm with ⟨rfl, rfl⟩ | ⟨rfl, rfl⟩
      · rw [insertAt, if_pos hvc, List.nil_append]
      · have hle := hl.before c (by simp)
        omega
    have hempty : denotes bmStart [] = ∅ := Set.eq_empty_of_forall_notMem fun x hx => by
      simp [denotes, rowMembers, rowCes, cutCes] at hx
    rw [hplace] at hset
    refine ⟨_, bmInsert_cornered bmStart (h.ok c (by simp)) hlong hvc bytesAvailable, ?_, ?_⟩
    · rw [hempty, Set.empty_union, hset]
    · rw [hempty]
      exact fun x hx => absurd hx (Set.notMem_empty x)
  · obtain ⟨res, hres, hmakes⟩ := bmInsert_makes h hlen hv hl hc bmStart bytesAvailable
    exact ⟨res, hres, hset ▸ hmakes.holds hok⟩

/-- A row of 5, 8192 and 8193, the last two in an array. -/
theorem entriesOk_array : EntriesOk [.single 5, .array 8192 [0, 1]] := by
  refine ⟨fun c hc => ?_, by simp [Ce.offset, ceNValues]⟩
  rcases List.mem_cons.1 hc with rfl | hc
  · exact (by decide : 5 < 2 ^ 31)
  · rw [List.mem_singleton.1 hc]
    exact ⟨by decide, by decide, ⟨by decide, by decide⟩, by decide, by decide⟩

/-- A value in the range of the single CE, with no room on the page, and one in the range
of the array. -/
theorem bmInsert_holds_array :
    EntriesOk [.single 5, .array 8192 [0, 1]] ∧
      (∃ res, bmInsert 0 (encodeRow [.single 5, .array 8192 [0, 1]]) 7 0 = some res ∧
        res.Holds 0 (denotes 0 (encodeRow [.single 5, .array 8192 [0, 1]]) ∪ {7})) ∧
      ∃ res, bmInsert 0 (encodeRow [.single 5, .array 8192 [0, 1]]) 9000 100 = some res ∧
        res.Holds 0 (denotes 0 (encodeRow [.single 5, .array 8192 [0, 1]]) ∪ {9000}) :=
  ⟨entriesOk_array, bmInsert_holds entriesOk_array (by decide) (by decide) (by decide) 0,
    bmInsert_holds entriesOk_array (by decide) (by decide) (by decide) 100⟩

/-! ## Deleting -/

/-- What a delete should do: take a member out of the row and leave a well-formed
one, and change nothing for a value that is no member. -/
structure Deletes (bmStart : ℤ) (bm : List ℕ) (value : ℤ) : Prop where
  present : value ∈ denotes bmStart bm → ∃ ces, EntriesOk ces ∧
    bmDelete bmStart bm value = some (.matched (encodeRow ces)) ∧
    denotes bmStart (encodeRow ces) = denotes bmStart bm \ {value}
  absent : value ∉ denotes bmStart bm → bmDelete bmStart bm value = some .less

/-- Some entry keeps the loop of `bm_delete` from running off the row: its range
ends above the value. -/
def Reaches (bmStart : ℤ) (ces : List Ce) (value : ℤ) : Prop :=
  ∃ c ∈ ces, value < bmStart + c.offset + ceNValues

/-- The value is the only bit of a bitmap. -/
def IsLone (bmStart : ℤ) (ces : List Ce) (value : ℤ) : Prop :=
  ∃ c ∈ ces, ∃ bit, c.Lone bit ∧ value = bmStart + (c.offset + bit : ℕ)

theorem Ce.Lone.mem_bits (h : c.Lone bit) : bit ∈ c.bits := by
  obtain ⟨offset, bytes, rfl, hset⟩ := h
  rw [Ce.bits, mem_bitList, hset]
  exact Finset.mem_singleton_self bit

/-- A bitmap without its only bit is an array of none. -/
theorem Ce.Lone.remove (h : c.Lone bit) : c.remove bit = some (.array c.offset []) := by
  have hbit := h.mem_bits
  obtain ⟨offset, bytes, rfl, hset⟩ := h
  have hnone : bitSet (clearBit bytes bit) = ∅ := by
    rw [bitSet_clearBit (lt_of_mem_bitSet (mem_bitList.1 hbit)), hset]
    exact Finset.erase_singleton _
  have hlist : bitList (clearBit bytes bit) = [] := by
    rw [← List.length_eq_zero_iff, length_bitList, hnone, Finset.card_empty]
  rw [Ce.remove, hnone, Finset.card_empty, if_pos (by decide), hlist, Ce.offset]

/-- An entry that goes away had no other bit. -/
theorem Ce.remove_eq_none (hbit : bit ∈ c.bits) (hr : c.remove bit = none) : c.bits = [bit] := by
  cases c with
  | single value =>
    rw [Ce.bits, List.mem_singleton] at hbit
    rw [Ce.bits, hbit]
  | array offset bits =>
    rw [Ce.remove] at hr
    split_ifs at hr with hone
    obtain ⟨b, rfl⟩ := List.length_eq_one_iff.1 hone
    rw [Ce.bits, List.mem_singleton] at hbit
    rw [Ce.bits, hbit]
  | bitmap offset bytes =>
    rw [Ce.remove] at hr
    split_ifs at hr

section Delete

variable {bmStart value : ℤ} {ces before rest : List Ce} {c : Ce} {v : ℕ}

section

variable (h : EntriesOk (before ++ c :: rest)) (hle : c.offset ≤ v)
include h hle

/-- The entries around one have no members in its range. -/
theorem not_mem_membersOf (hlt : v < c.offset + ceNValues) :
    v ∉ membersOf before ∧ v ∉ membersOf rest := by
  constructor
  · intro hv
    obtain ⟨d, hd, -, hvd, -⟩ := exists_of_mem_membersOf (EntriesOk.append_iff.1 h).1.ok hv
    have := h.around.1 d hd
    omega
  · intro hv
    obtain ⟨d, hd, hdv, -, -⟩ := exists_of_mem_membersOf (fun d hd => h.ok d (by simp [hd])) hv
    have := h.around.2 d hd
    omega

theorem mem_membersOf_iff (hlt : v < c.offset + ceNValues) :
    v ∈ membersOf (before ++ c :: rest) ↔ v - c.offset ∈ c.bits := by
  obtain ⟨hb, hr⟩ := not_mem_membersOf h hle hlt
  simp only [mem_membersOf_append, mem_membersOf_cons, hb, hr, hle, true_and, or_false, false_or]

/-- A delete takes out the bit number. -/
theorem mem_membersOf_removeAt (hbit : v - c.offset ∈ c.bits) :
    m ∈ membersOf (removeAt before c rest v) ↔ m ∈ membersOf (before ++ c :: rest) ∧ m ≠ v := by
  have hc := h.ok c (by simp)
  have hlt := hc.lt_of_mem_bits hbit
  obtain ⟨hvb, hvr⟩ := not_mem_membersOf h hle hlt
  have hb : m ∈ membersOf before → m ≠ v := by
    rintro hm rfl
    exact hvb hm
  have hr : m ∈ membersOf rest → m ≠ v := by
    rintro hm rfl
    exact hvr hm
  have hmid : m ∈ membersOf (c.remove (v - c.offset)).toList ↔
      (c.offset ≤ m ∧ m - c.offset ∈ c.bits) ∧ m ≠ v := by
    cases hrem : c.remove (v - c.offset) with
    | none =>
      rw [Ce.remove_eq_none hbit hrem, List.mem_singleton]
      simp only [Option.toList_none, membersOf, List.flatMap_nil, List.not_mem_nil, false_iff]
      omega
    | some d =>
      obtain ⟨-, hoff, hbits, -⟩ := Ce.remove_eq_some hc hbit hrem
      rw [Option.toList_some, mem_membersOf_cons, hoff, hbits, List.mem_filter, decide_eq_true_eq]
      simp only [membersOf, List.flatMap_nil, List.not_mem_nil, or_false]
      constructor
      · rintro ⟨hle', hm, hne⟩
        exact ⟨⟨hle', hm⟩, by rintro rfl; exact hne rfl⟩
      · rintro ⟨⟨hle', hm⟩, hne⟩
        exact ⟨hle', hm, by omega⟩
  rw [removeAt, mem_membersOf_append, mem_membersOf_append, hmid, mem_membersOf_append,
    mem_membersOf_cons, or_and_right, or_and_right, and_iff_left_of_imp hb, and_iff_left_of_imp hr]

end

/-- A string with an array of none is no row of well-formed entries. -/
theorem encodeRow_ne_of_empty {offset : ℕ} (hoff : (Ce.array offset []).Fits)
    (hb : ∀ d ∈ before, d.Fits) (hr : ∀ d ∈ rest, d.Fits) (h : EntriesOk ces) :
    encodeRow ces ≠ encodeRow (before ++ .array offset [] :: rest) := by
  intro heq
  have hfits : ∀ d ∈ before ++ .array offset [] :: rest, d.Fits := fun d hd => by
    rcases List.mem_append.1 hd with hd | hd
    · exact hb d hd
    · rcases List.mem_cons.1 hd with rfl | hd
      · exact hoff
      · exact hr d hd
  have hces := congrArg rowCes heq
  rw [h.rowCes_eq, rowCes_encodeRow hfits] at hces
  have hmem : (Ce.array offset []).encode ∈ ces.map Ce.encode := by
    rw [hces]
    exact List.mem_map_of_mem (by simp)
  obtain ⟨d, hd, hde⟩ := List.mem_map.1 hmem
  have hlen := Ce.ceLength_encode hoff []
  have hsingle := Ce.ceIsSingle_encode hoff []
  have harray := Ce.ceIsArray_array hoff []
  rw [List.append_nil] at hlen hsingle harray
  have hwf := (h.ok d hd).ceWellFormed
  rw [hde] at hwf
  refine (hwf.array hsingle harray).2.1 ?_
  rw [ceMembers, hsingle, harray, hlen]
  simp [Ce.isSingle, Ce.length_array]

/-- A value in a gap is no member. -/
theorem not_mem_of_gap (h : EntriesOk (before ++ c :: rest))
    (hs : StopsAt bmStart value (before ++ c :: rest) before (c :: rest))
    (hgap : value < bmStart + c.offset) :
    value ∉ denotes bmStart (encodeRow (before ++ c :: rest)) := by
  intro hmem
  obtain ⟨m, hm, rfl⟩ := (mem_denotes h.ok).1 hmem
  rcases mem_membersOf_append.1 hm with hm | hm
  · exact absurd (hs.lt_of_mem h hm) (lt_irrefl _)
  · obtain ⟨d, hd, hdm, -, -⟩ := exists_of_mem_membersOf (EntriesOk.append_iff.1 h).2.1.ok hm
    rcases List.mem_cons.1 hd with rfl | hd
    · omega
    · have := h.around.2 d hd
      omega

/-- A delete of a bit of an entry is right unless it is the only one of a bitmap. -/
theorem deletes_present_iff (h : EntriesOk (before ++ c :: rest)) (hle : c.offset ≤ v)
    (hbit : v - c.offset ∈ c.bits) :
    Deletes bmStart (encodeRow (before ++ c :: rest)) (bmStart + v) ↔ ¬ c.Lone (v - c.offset) := by
  have hc := h.ok c (by simp)
  have hlt := hc.lt_of_mem_bits hbit
  have hmem : bmStart + (v : ℤ) ∈ denotes bmStart (encodeRow (before ++ c :: rest)) :=
    (mem_denotes_add h.ok).2 ((mem_membersOf_iff h hle hlt).2 hbit)
  have hdel := bmDelete_spec h hle hbit bmStart
  constructor
  · intro hd hlone
    obtain ⟨ces, hces, hres, -⟩ := hd.present hmem
    have hbefore : ∀ d ∈ before, d.Fits := fun d hd => (h.ok d (by simp [hd])).fits
    have hrest : ∀ d ∈ rest, d.Fits := fun d hd => (h.ok d (by simp [hd])).fits
    rw [hdel, removeAt, hlone.remove] at hres
    refine encodeRow_ne_of_empty ⟨hc.offset_lt, hc.offset_mod, by decide⟩ hbefore hrest hces ?_
    simpa using hres.symm
  · intro hlone
    have hok := h.removeAt hlone hbit
    refine ⟨fun _ => ⟨_, hok, hdel, ?_⟩, fun hnot => absurd hmem hnot⟩
    ext x
    rw [mem_denotes hok.ok, Set.mem_sdiff, mem_denotes h.ok, Set.mem_singleton_iff]
    simp only [mem_membersOf_removeAt h hle hbit]
    constructor
    · rintro ⟨m, ⟨hm, hne⟩, rfl⟩
      exact ⟨⟨m, hm, rfl⟩, by omega⟩
    · rintro ⟨⟨m, hm, rfl⟩, hne⟩
      exact ⟨m, ⟨hm, by omega⟩, rfl⟩

/-- The only bit of a bitmap is a member. -/
theorem IsLone.mem_denotes (h : EntriesOk ces) (hl : IsLone bmStart ces value) :
    value ∈ denotes bmStart (encodeRow ces) := by
  obtain ⟨c, hc, bit, hbit, rfl⟩ := hl
  exact (mem_denotes_add h.ok).2 (mem_membersOf.2 ⟨c, hc, bit, hbit.mem_bits, rfl⟩)

theorem deletes_absent (h : EntriesOk ces) (hnot : value ∉ denotes bmStart (encodeRow ces))
    (hless : bmDelete bmStart (encodeRow ces) value = some .less) :
    Deletes bmStart (encodeRow ces) value ∧ ¬ IsLone bmStart ces value :=
  ⟨⟨fun hmem => absurd hmem hnot, fun _ => hless⟩, fun hl => hnot (hl.mem_denotes h)⟩

/-- The value is the only bit of a bitmap exactly if it is of the entry whose range
it is in. -/
theorem isLone_iff (h : EntriesOk (before ++ c :: rest)) (hle : c.offset ≤ v)
    (hlt : v < c.offset + ceNValues) :
    IsLone bmStart (before ++ c :: rest) (bmStart + v) ↔ c.Lone (v - c.offset) := by
  constructor
  · rintro ⟨d, hd, bit, hbit, heq⟩
    obtain rfl : v = d.offset + bit := by omega
    obtain ⟨hb, hr⟩ := not_mem_membersOf h hle hlt
    rcases List.mem_append.1 hd with hd | hd
    · exact absurd (mem_membersOf.2 ⟨d, hd, bit, hbit.mem_bits, rfl⟩) hb
    · rcases List.mem_cons.1 hd with rfl | hd
      · rwa [Nat.add_sub_cancel_left]
      · exact absurd (mem_membersOf.2 ⟨d, hd, bit, hbit.mem_bits, rfl⟩) hr
  · intro hlone
    exact ⟨c, by simp, _, hlone, by rw [Nat.add_sub_cancel' hle]⟩

end Delete

/-- **`bm_delete` is total and exact**, for a value that some entry keeps within the
row and that is not the only bit of a bitmap. -/
theorem deletes_iff {bmStart : ℤ} {ces : List Ce} (h : EntriesOk ces) (value : ℤ) :
    Deletes bmStart (encodeRow ces) value ↔
      Reaches bmStart ces value ∧ ¬ IsLone bmStart ces value := by
  obtain ⟨before, after, hs⟩ := exists_stopsAt bmStart value ces
  obtain rfl := hs.eq
  cases after with
  | nil =>
    -- the loop runs off the row
    rw [List.append_nil] at h hs ⊢
    have hnone := bmDelete_beyond h hs
    constructor
    · intro hd
      by_cases hmem : value ∈ denotes bmStart (encodeRow before)
      · obtain ⟨ces, -, hres, -⟩ := hd.present hmem
        rw [hnone] at hres
        cases hres
      · have hres := hd.absent hmem
        rw [hnone] at hres
        cases hres
    · rintro ⟨⟨c, hc, hreach⟩, -⟩
      have := hs.before c hc
      omega
  | cons c rest =>
    have hreach : Reaches bmStart (before ++ c :: rest) value := ⟨c, by simp, hs.after c (by simp)⟩
    rw [and_iff_right hreach]
    by_cases hgap : value < bmStart + c.offset
    · have hless := bmDelete_stops h hs
      rw [if_pos hgap] at hless
      have habsent := deletes_absent h (not_mem_of_gap h hs hgap) hless
      exact iff_of_true habsent.1 habsent.2
    · -- the value is in the range of the entry
      obtain ⟨v, rfl⟩ : ∃ v : ℕ, value = bmStart + v := ⟨(value - bmStart).toNat, by omega⟩
      have hc := h.ok c (by simp)
      have hle : c.offset ≤ v := by omega
      have hlt : v < c.offset + ceNValues := by
        have := hs.after c (by simp)
        omega
      by_cases hbit : v - c.offset ∈ c.bits
      · rw [deletes_present_iff h hle hbit, isLone_iff h hle hlt]
      · have hless := bmDelete_stops h hs
        rw [if_neg hgap, deleteInCe_absent bmStart _ _ hc hle hlt hbit] at hless
        have hnot : bmStart + (v : ℤ) ∉ denotes bmStart (encodeRow (before ++ c :: rest)) := by
          rwa [mem_denotes_add h.ok, mem_membersOf_iff h hle hlt]
        have habsent := deletes_absent h hnot hless
        exact iff_of_true habsent.1 habsent.2

/-- Deleting the single, a bit of the array, a number that is not in the array and
one between the two. -/
theorem deletes_array :
    EntriesOk [.single 5, .array 8192 [0, 1]] ∧
      ∀ value ∈ [5, 8193, 8200, 6], Deletes 0
        (encodeRow [.single 5, .array 8192 [0, 1]]) value := by
  refine ⟨entriesOk_array, fun value hvalue => (deletes_iff entriesOk_array value).2 ⟨?_, ?_⟩⟩
  · exact ⟨.array 8192 [0, 1], by simp, by revert value; decide⟩
  · rintro ⟨c, hc, bit, ⟨offset, bytes, rfl, -⟩, -⟩
    simp at hc

theorem entriesOk_single (hv : v < 2 ^ 31) : EntriesOk [.single v] :=
  ⟨fun _ hc => List.mem_singleton.1 hc ▸ hv, List.pairwise_singleton _ _⟩

/-- A delete of a value beyond all entries is fatal. -/
theorem bmDelete_beyond_single :
    EntriesOk [.single 5] ∧ 8192 ∉ denotes 0 (encodeRow [.single 5]) ∧
      bmDelete 0 (encodeRow [.single 5]) 8192 = none := by
  have h : EntriesOk [.single 5] := entriesOk_single (by decide)
  refine ⟨h, ?_, by decide⟩
  rw [mem_denotes h.ok, membersOf_single]
  simp

end Virtuoso.Bitmap
