import Virtuoso.Bitmap.Position

/-!
# Iterating over the bits of a row

`pl_next_bit` should move a position to the next member of its row, and so list
all members in order.  It does from every place but some of a bitmap CE that
does not start at the start of the row: there the bit number is taken relative
to the row and then looked up relative to the CE.
-/

namespace Virtuoso.Bitmap

open Lib Search

variable {bytes : List ℕ} {target : Option ℕ}

/-! ## Places -/

/-- A place in a row: one of its entries, and one of the bits of that. -/
structure Place (ces : List Ce) where
  before : List Ce
  entry : Ce
  after : List Ce
  low : List ℕ
  bit : ℕ
  high : List ℕ
  ces_eq : ces = before ++ entry :: after
  bits_eq : entry.bits = low ++ bit :: high

/-- The members of entries, as offsets from the start of their row. -/
def membersOf (ces : List Ce) : List ℕ := ces.flatMap fun c => c.bits.map (c.offset + ·)

variable {ces : List Ce} {b : ℕ}

theorem mem_membersOf {m : ℕ} : m ∈ membersOf ces ↔ ∃ c ∈ ces, ∃ b ∈ c.bits, c.offset + b = m := by
  simp [membersOf]

/-- The members of a row ascend. -/
theorem EntriesOk.pairwise_membersOf (h : EntriesOk ces) : (membersOf ces).Pairwise (· < ·) := by
  refine List.pairwise_flatMap.2 ⟨fun c hc => ?_, h.asc.imp_of_mem fun {c d} hc hd hlt => ?_⟩
  · exact List.pairwise_map.2 ((h.ok c hc).arrayBits.asc.imp fun hlt => Nat.add_lt_add_left hlt _)
  · intro x hx y hy
    obtain ⟨b, hb, rfl⟩ := List.mem_map.1 hx
    obtain ⟨b', -, rfl⟩ := List.mem_map.1 hy
    have h₁ := (h.ok c hc).arrayBits.lt b hb
    have h₂ := (h.ok c hc).add_le_offset (h.ok d hd) hlt
    omega

namespace Place

variable {ces : List Ce} (p : Place ces)

def member : ℕ := p.entry.offset + p.bit

def below : List ℕ := membersOf p.before ++ p.low.map (p.entry.offset + ·)

def above : List ℕ := p.high.map (p.entry.offset + ·) ++ membersOf p.after

theorem membersOf_eq : membersOf ces = p.below ++ p.member :: p.above := by
  obtain ⟨before, entry, after, low, bit, high, rfl, hbits⟩ := p
  simp [membersOf, below, above, member, hbits]

theorem entry_mem : p.entry ∈ ces := by
  obtain ⟨before, entry, after, low, bit, high, rfl, hbits⟩ := p
  simp

theorem bit_mem : p.bit ∈ p.entry.bits := by
  rw [p.bits_eq]
  simp

/-- The position is at the place. -/
def Holds (bmStart : ℤ) (bp : BmPos) : Prop :=
  bp.At bmStart (rowLength p.before) p.entry p.low.length p.bit

/-- The next member in a direction. -/
def neighbour (isDesc : Bool) : Option ℕ := if isDesc then p.below.getLast? else p.above.head?

theorem neighbour_false : p.neighbour false = p.above.head? := rfl

theorem neighbour_true : p.neighbour true = p.below.getLast? := rfl

end Place

/-- The position is on the member `m` of the row. -/
def OnMember (ces : List Ce) (bmStart : ℤ) (bp : BmPos) (m : ℕ) : Prop :=
  ∃ p : Place ces, p.member = m ∧ p.Holds bmStart bp

/-- `m'` is the next of the members in a direction. -/
def IsNeighbour (isDesc : Bool) (members : List ℕ) (m m' : ℕ) : Prop :=
  if isDesc then IsGreatest {x | x ∈ members ∧ x < m} m' else IsLeast {x | x ∈ members ∧ m < x} m'

/-- The step that an iteration should make from the member `m`: to the next
member, or to the end if there is none. -/
def Steps (ces : List Ce) (bmStart : ℤ) (isDesc : Bool) (bp : BmPos) (m : ℕ) : Prop :=
  (∀ m', IsNeighbour isDesc (rowMembers (encodeRow ces)) m m' →
    ∃ bp', plNextBit bp (encodeRow ces) bmStart isDesc = some (bp', .matched) ∧
      OnMember ces bmStart bp' m' ∧ (bp'.bpAtEnd = true → bp.bpAtEnd = true)) ∧
  ((∀ m', ¬ IsNeighbour isDesc (rowMembers (encodeRow ces)) m m') →
    ∃ bp', plNextBit bp (encodeRow ces) bmStart isDesc = some (bp', .greater) ∧ bp'.bpAtEnd = true)

/-- The step to a given member, or to the end. -/
def MovesTo (ces : List Ce) (bmStart : ℤ) (bp : BmPos) (res : Option (BmPos × Dvc)) :
    Option ℕ → Prop
  | some m => ∃ bp', res = some (bp', .matched) ∧ OnMember ces bmStart bp' m ∧
      (bp'.bpAtEnd = true → bp.bpAtEnd = true)
  | none => ∃ bp', res = some (bp', .greater) ∧ bp'.bpAtEnd = true

/-- The step from a place leads to the next member, or to the end. -/
def Place.MovesRight {ces : List Ce} (p : Place ces) (bmStart : ℤ) (bp : BmPos) (isDesc : Bool) :
    Prop :=
  MovesTo ces bmStart bp (plNextBit bp (encodeRow ces) bmStart isDesc) (p.neighbour isDesc)

theorem EntriesOk.rowMembers_eq_membersOf (h : EntriesOk ces) :
    rowMembers (encodeRow ces) = membersOf ces :=
  h.rowMembers_eq

theorem isNeighbour_iff (h : EntriesOk ces) (p : Place ces) {isDesc : Bool} {m' : ℕ} :
    IsNeighbour isDesc (rowMembers (encodeRow ces)) p.member m' ↔ p.neighbour isDesc = some m' := by
  have hasc := h.pairwise_membersOf
  rw [h.rowMembers_eq_membersOf]
  rw [p.membersOf_eq] at hasc ⊢
  cases isDesc with
  | false => exact isLeast_above_iff hasc
  | true => exact isGreatest_below_iff hasc

/-- The step an iteration should make, with its target. -/
theorem steps_iff_movesTo (h : EntriesOk ces) (p : Place ces) {bmStart : ℤ} {isDesc : Bool}
    {bp : BmPos} :
    Steps ces bmStart isDesc bp p.member ↔
      p.MovesRight bmStart bp isDesc := by
  simp only [Steps, isNeighbour_iff h p, Place.MovesRight]
  cases p.neighbour isDesc with
  | none => simp [MovesTo]
  | some m => simp [MovesTo]

/-! ## Where a step can lead -/

section Moves

variable {ces : List Ce} {bmStart : ℤ} {bp bp' : BmPos}

theorem OnMember.value {m : ℕ} (h : OnMember ces bmStart bp m) : bp.bpValue = bmStart + m := by
  obtain ⟨p, rfl, hp⟩ := h
  exact hp.value

/-- A step to a place is right if that place has the member it should lead to. -/
theorem movesTo_place_iff {q : Place ces} (hq : q.Holds bmStart bp')
    (hend : bp'.bpAtEnd = true → bp.bpAtEnd = true) :
    MovesTo ces bmStart bp (some (bp', .matched)) target ↔ target = some q.member := by
  cases target with
  | none => simp [MovesTo]
  | some m =>
    constructor
    · rintro ⟨bp'', heq, hon, -⟩
      obtain rfl : bp' = bp'' := by simpa using heq
      have hvalue := hon.value.symm.trans hq.value
      exact congrArg some (show m = q.entry.offset + q.bit by omega)
    · intro hm
      exact ⟨bp', rfl, ⟨q, (Option.some_inj.1 hm).symm, hq⟩, hend⟩

/-- A step to the end is right if there is no member to go to. -/
theorem movesTo_end_iff :
    MovesTo ces bmStart bp (some ({ bp with bpAtEnd := true }, .greater)) target ↔
      target = none := by
  cases target <;> simp [MovesTo]

theorem not_movesTo_none : ¬ MovesTo ces bmStart bp none target := by
  cases target <;> simp [MovesTo]

/-- All members are 64-bit numbers. -/
structure RowInt64 (bmStart : ℤ) (ces : List Ce) : Prop where
  min : bitnoMin ≤ bmStart
  max : ∀ m ∈ membersOf ces, bmStart + (m : ℤ) ≤ bitnoMax

theorem RowInt64.offset_le (h : RowInt64 bmStart ces) (hok : EntriesOk ces) {c : Ce}
    (hc : c ∈ ces) :
    bmStart + (c.offset : ℤ) ≤ bitnoMax := by
  obtain ⟨b, hb⟩ := List.exists_mem_of_ne_nil _ (hok.ok c hc).bits_ne_nil
  have := h.max _ (mem_membersOf.2 ⟨c, hc, b, hb, rfl⟩)
  omega

/-- The previous entry of a place starts where `bm_prev_ce` still looks. -/
def Place.PrevNear (p : Place ces) : Prop := rowLength p.before.dropLast ≤ ceMaxLength

def Place.Alone (p : Place ces) : Prop := p.before = [] ∧ p.after = []

/-- `next_ce` at the entry of a place. -/
def Place.toNext (p : Place ces) (bmStart : ℤ) (bp : BmPos) : BmPos × Dvc :=
  nextCe bp (encodeRow ces) bmStart (rowLength p.before)

/-- `prev_ce` at the entry of a place. -/
def Place.toPrev (p : Place ces) (bmStart : ℤ) (bp : BmPos) : Option (BmPos × Dvc) :=
  prevCe bp (encodeRow ces) bmStart (rowLength p.before)

/-- Where `next_ce` leads. -/
theorem nextCe_cases (h : EntriesOk ces) (hr : RowInt64 bmStart ces) (p : Place ces) (bp : BmPos) :
    (p.after = [] ∧ p.toNext bmStart bp =
      ({ bp with bpAtEnd := true }, .greater)) ∨
    ∃ bp', ∃ q : Place ces, p.toNext bmStart bp = (bp', .matched) ∧
      bp'.bpAtEnd = false ∧ q.Holds bmStart bp' ∧ p.after ≠ [] ∧
      (membersOf p.after).head? = some q.member ∧ p.entry.offset + ceNValues ≤ q.member := by
  obtain ⟨before, c, after, low, bit, high, rfl, hbits⟩ := p
  cases after with
  | nil => exact .inl ⟨rfl, nextCe_nil bp h⟩
  | cons d after =>
    right
    obtain ⟨b, bs, hdbits⟩ := List.exists_cons_of_ne_nil (h.ok d (by simp)).bits_ne_nil
    obtain ⟨bp', hnext, hend, hat⟩ := nextCe_cons bp h hr.min (by rw [hdbits, List.head?_cons])
    refine ⟨bp', ⟨before ++ [c], d, after, [], b, bs, by simp, hdbits⟩, hnext, hend,
      hat, by simp, ?_, ?_⟩
    · simp [membersOf, hdbits, Place.member]
    · exact (h.around.2 d (by simp)).trans (Nat.le_add_right _ _)

/-- Where `prev_ce` leads. -/
theorem prevCe_cases (h : EntriesOk ces) (hr : RowInt64 bmStart ces) (p : Place ces) (bp : BmPos) :
    (p.before = [] ∧ p.toPrev bmStart bp =
      some ({ bp with bpAtEnd := true }, .greater)) ∨
    (∃ bp', ∃ q : Place ces, p.toPrev bmStart bp =
        some (bp', .matched) ∧ bp'.bpAtEnd = false ∧ q.Holds bmStart bp' ∧ p.before ≠ [] ∧
      (membersOf p.before).getLast? = some q.member ∧ q.member < p.entry.offset ∧ p.PrevNear) ∨
    p.toPrev bmStart bp = none ∧ p.before ≠ [] ∧ ¬ p.PrevNear := by
  obtain ⟨before, c, after, low, bit, high, rfl, hbits⟩ := p
  rcases List.eq_nil_or_concat' before with rfl | ⟨before, d, rfl⟩
  · exact .inl ⟨rfl, prevCe_nil bp _⟩
  · right
    have hassoc : before ++ [d] ++ c :: after = before ++ d :: (c :: after) := by simp
    rw [hassoc] at h hr
    have hd := h.ok d (by simp)
    rcases List.eq_nil_or_concat' d.bits with hnil | ⟨bs, b, hdbits⟩
    · exact absurd hnil hd.bits_ne_nil
    · -- the range of `d` ends where that of `c` starts, or below
      have hcd := h.around.2 c (by simp)
      have hmax := hr.offset_le h (c := c) (by simp)
      have hend : bmStart + (d.offset : ℤ) + ceNValues ≤ bitnoMax := by omega
      have hprev := prevCe_concat bp h hend (by rw [hdbits, List.getLast?_concat])
      have hnear : ∀ hces hbits, (⟨before ++ [d], c, after, low, bit, high, hces, hbits⟩ :
          Place (before ++ [d] ++ c :: after)).PrevNear ↔ rowLength before ≤ ceMaxLength :=
        fun _ _ => by rw [Place.PrevNear, List.dropLast_concat]
      simp only [hnear]
      split_ifs at hprev with hle
      · obtain ⟨bp', hprev, hend, hat⟩ := hprev
        left
        refine ⟨bp', ⟨before, d, c :: after, bs, b, [], hassoc, hdbits⟩, ?_, hend, ?_, by simp, ?_,
          ?_, hle⟩
        · simpa only [Place.toPrev, hassoc] using hprev
        · rw [hdbits, List.length_append, List.length_singleton, Nat.add_sub_cancel] at hat
          exact hat
        · simp [membersOf, hdbits, Place.member]
        · have hb := hd.arrayBits.lt b (by rw [hdbits]; simp)
          simp only [Place.member]
          omega
      · exact .inr ⟨by simpa only [Place.toPrev, hassoc] using hprev, by simp, hle⟩

theorem membersOf_eq_nil (h : EntriesOk ces) {part : List Ce} (hpart : ∀ c ∈ part, c ∈ ces) :
    membersOf part = [] ↔ part = [] := by
  constructor
  · intro hnil
    refine List.eq_nil_iff_forall_not_mem.2 fun c hc => ?_
    obtain ⟨b, hb⟩ := List.exists_mem_of_ne_nil _ (h.ok c (hpart c hc)).bits_ne_nil
    have : c.offset + b ∈ membersOf part := mem_membersOf.2 ⟨c, hc, b, hb, rfl⟩
    rw [hnil] at this
    cases this
  · rintro rfl
    rfl

namespace Place

variable (p : Place ces)

theorem before_mem : ∀ c ∈ p.before, c ∈ ces := by
  obtain ⟨before, c, after, low, bit, high, rfl, hbits⟩ := p
  intro d hd
  simp [show d ∈ before from hd]

theorem after_mem : ∀ c ∈ p.after, c ∈ ces := by
  obtain ⟨before, c, after, low, bit, high, rfl, hbits⟩ := p
  intro d hd
  simp [show d ∈ after from hd]

theorem above_eq_nil (h : EntriesOk ces) : p.above = [] ↔ p.high = [] ∧ p.after = [] := by
  rw [above, List.append_eq_nil_iff, List.map_eq_nil_iff, membersOf_eq_nil h p.after_mem]

theorem below_eq_nil (h : EntriesOk ces) : p.below = [] ↔ p.low = [] ∧ p.before = [] := by
  rw [below, List.append_eq_nil_iff, List.map_eq_nil_iff, membersOf_eq_nil h p.before_mem, and_comm]

theorem high_lt (h : EntriesOk ces) : ∀ b ∈ p.high, b < ceNValues := fun b hb =>
  (h.ok _ p.entry_mem).arrayBits.lt b (by rw [p.bits_eq]; simp [hb])

variable (h : EntriesOk ces) (hr : RowInt64 bmStart ces) (bp : BmPos)
include h hr

/-- `next_ce` is the right way up from the last bit of an entry only. -/
theorem movesTo_nextCe_iff :
    MovesTo ces bmStart bp (some (p.toNext bmStart bp))
      (p.neighbour false) ↔ p.high = [] := by
  rcases nextCe_cases h hr p bp with ⟨hafter, hnext⟩ | ⟨bp', q, hnext, hend, hq, -, hhead, hge⟩
  · rw [hnext, movesTo_end_iff, neighbour_false, List.head?_eq_none_iff, p.above_eq_nil h,
      and_iff_left hafter]
  · rw [hnext, movesTo_place_iff hq (by simp [hend]), neighbour_false, above]
    cases hhigh : p.high with
    | nil => simpa using hhead
    | cons b high =>
      have hb := p.high_lt h b (by simp [hhigh])
      simp only [List.map_cons, List.cons_append, List.head?_cons, Option.some.injEq,
        List.cons_ne_nil, iff_false]
      omega

/-- `next_ce` is the right way down only from the first member of a row with one
entry. -/
theorem movesTo_nextCe_down_iff :
    MovesTo ces bmStart bp (some (p.toNext bmStart bp))
      (p.neighbour true) ↔ p.low = [] ∧ p.Alone := by
  rcases nextCe_cases h hr p bp with ⟨hafter, hnext⟩ | ⟨bp', q, hnext, hend, hq, hafter, -, hge⟩
  · rw [hnext, movesTo_end_iff, neighbour_true, List.getLast?_eq_none_iff, p.below_eq_nil h, Alone,
      and_iff_left hafter]
  · rw [hnext, movesTo_place_iff hq (by simp [hend]), neighbour_true]
    have hasc := h.pairwise_membersOf
    rw [p.membersOf_eq] at hasc
    constructor
    · intro hlast
      have hlt := (List.pairwise_append.1 hasc).2.2 _ (List.mem_of_getLast? hlast) p.member
        (by simp)
      have hbit := (h.ok _ p.entry_mem).arrayBits.lt _ p.bit_mem
      have hmember : p.member = p.entry.offset + p.bit := rfl
      omega
    · rintro ⟨-, -, hnil⟩
      exact absurd hnil hafter

/-- `prev_ce` is the right way down from the first bit of an entry only. -/
theorem movesTo_prevCe_iff :
    MovesTo ces bmStart bp (p.toPrev bmStart bp)
      (p.neighbour true) ↔ p.low = [] ∧ p.PrevNear := by
  rcases prevCe_cases h hr p bp with ⟨hbefore, hprev⟩ |
    ⟨bp', q, hprev, hend, hq, -, hlast, hlt, hnear⟩ |
    ⟨hprev, -, hfar⟩
  · have hnear : p.PrevNear := by
      rw [PrevNear, hbefore]
      exact Nat.zero_le _
    rw [hprev, movesTo_end_iff, neighbour_true, List.getLast?_eq_none_iff, p.below_eq_nil h,
      and_iff_left hbefore, and_iff_left hnear]
  · rw [hprev, movesTo_place_iff hq (by simp [hend]), neighbour_true, below, and_iff_left hnear]
    rcases List.eq_nil_or_concat' p.low with hlow | ⟨low, b, hlow⟩
    · simpa [hlow] using hlast
    · simp only [hlow, List.map_append, List.map_cons, List.map_nil, ← List.append_assoc,
        List.getLast?_concat, Option.some.injEq, List.append_eq_nil_iff, List.cons_ne_nil,
        and_false, iff_false]
      omega
  · rw [hprev]
    exact iff_of_false not_movesTo_none fun hp => hfar hp.2

/-- `prev_ce` is the right way up only from the last member of a row with one
entry. -/
theorem movesTo_prevCe_up_iff :
    MovesTo ces bmStart bp (p.toPrev bmStart bp)
      (p.neighbour false) ↔ p.high = [] ∧ p.Alone := by
  rcases prevCe_cases h hr p bp with ⟨hbefore, hprev⟩ |
    ⟨bp', q, hprev, hend, hq, hbefore, -, hlt, -⟩ |
    ⟨hprev, hbefore, -⟩
  · rw [hprev, movesTo_end_iff, neighbour_false, List.head?_eq_none_iff, p.above_eq_nil h, Alone,
      and_iff_right hbefore]
  · rw [hprev, movesTo_place_iff hq (by simp [hend]), neighbour_false]
    have hasc := h.pairwise_membersOf
    rw [p.membersOf_eq] at hasc
    constructor
    · intro hhead
      have hgt := (List.pairwise_cons.1 (List.pairwise_append.1 hasc).2.1).1 _
        (List.mem_of_mem_head? hhead)
      have hmember : p.member = p.entry.offset + p.bit := rfl
      omega
    · rintro ⟨-, hnil, -⟩
      exact absurd hnil hbefore
  · rw [hprev]
    exact iff_of_false not_movesTo_none fun hp => hbefore hp.2.1

omit h hr

/-! ## Moves within an entry -/

def up {b : ℕ} {high : List ℕ} (hhigh : p.high = b :: high) : Place ces :=
  { p with
    low := p.low ++ [p.bit]
    bit := b
    high := high
    bits_eq := by rw [p.bits_eq, hhigh, List.append_assoc, List.singleton_append] }

def down {b : ℕ} {low : List ℕ} (hlow : p.low = low ++ [b]) : Place ces :=
  { p with
    low := low
    bit := b
    high := p.bit :: p.high
    bits_eq := by rw [p.bits_eq, hlow, List.append_assoc, List.singleton_append] }

theorem neighbour_up {high : List ℕ} (hhigh : p.high = b :: high) :
    p.neighbour false = some (p.up hhigh).member := by
  rw [neighbour_false, above, hhigh, List.map_cons, List.cons_append, List.head?_cons]
  rfl

theorem neighbour_down {low : List ℕ} (hlow : p.low = low ++ [b]) :
    p.neighbour true = some (p.down hlow).member := by
  rw [neighbour_true, below, hlow, List.map_append, List.map_singleton, ← List.append_assoc,
    List.getLast?_concat]
  rfl

/-- The bytes at the entry of a place. -/
theorem drop_eq (h : EntriesOk ces) : ∃ rest, (encodeRow ces).drop (rowLength p.before) =
    p.entry.encode ++ rest := by
  obtain ⟨before, c, after, low, bit, high, rfl, hbits⟩ := p
  exact ⟨_, drop_encodeRow (EntriesOk.append_iff.1 h).1 c after⟩

end Place

end Moves

/-! ## One step -/

section Step

variable {ces : List Ce} {bmStart : ℤ} {bp : BmPos} (p : Place ces)

/-- A step from a single entry. -/
theorem movesTo_single_iff (h : EntriesOk ces) (hr : RowInt64 bmStart ces) (hp : p.Holds bmStart bp)
    {value : ℕ} (hc : p.entry = .single value) (isDesc : Bool) :
    p.MovesRight bmStart bp isDesc ↔
      (isDesc = true → p.low = [] → p.PrevNear) := by
  have hbits := p.bits_eq
  rw [hc, Ce.bits] at hbits
  obtain ⟨hlow, -, hhigh⟩ := List.append_eq_singleton_iff.1 hbits.symm |>.resolve_right (by simp)
    |>.imp_right fun hcons => List.cons_eq_cons.1 hcons
  have hnext : plNextBit bp (encodeRow ces) bmStart isDesc =
      if isDesc then p.toPrev bmStart bp
      else some (p.toNext bmStart bp) := by
    simp only [plNextBit, hp.valid, if_true, hp.ceType, hc, Ce.ceType, hp.ceOffset, Place.toPrev,
      Place.toNext]
  rw [Place.MovesRight, hnext]
  cases isDesc with
  | false => simpa [hhigh] using p.movesTo_nextCe_iff h hr bp
  | true => simpa [hlow] using p.movesTo_prevCe_iff h hr bp

/-- A step within an array. -/
theorem movesTo_inx_iff (h : EntriesOk ces) {q : Place ces} (hq : q.before = p.before)
    (hp : p.Holds bmStart bp) {offset : ℕ} {bits : List ℕ} (hc : q.entry = .array offset bits)
    {rest : List ℕ} (hdrop : (encodeRow ces).drop (rowLength p.before) = q.entry.encode ++ rest)
    (htype : p.entry.ceType = .array) :
    MovesTo ces bmStart bp (some ({ bp with
      bpPosInCe := q.low.length
      bpValue := bmStart + ceOffset ((encodeRow ces).drop (rowLength p.before)) +
        saRef (((encodeRow ces).drop (rowLength p.before)).drop 4) q.low.length }, .matched))
      target ↔ target = some q.member := by
  have hok := h.ok _ q.entry_mem
  have hbits := q.bits_eq
  have hinx : q.entry.bits[q.low.length]? = some q.bit := by simp [hbits]
  have hvalue : bmStart + ceOffset ((encodeRow ces).drop (rowLength p.before)) +
      saRef (((encodeRow ces).drop (rowLength p.before)).drop 4) q.low.length =
        bmStart + (q.entry.offset + q.bit : ℕ) := by
    rw [hdrop, Ce.ceOffset_encode hok.fits]
    rw [hc] at hok hinx ⊢
    rw [saRef_array offset hok.2.2.1 rest hinx]
    push_cast
    ring
  have hoff : bp.bpCeOffset = rowLength q.before := by rw [hq, hp.ceOffset]
  have htype' : bp.bpCeType = q.entry.ceType := by rw [hp.ceType, htype, hc]; rfl
  refine movesTo_place_iff (q := q) ?_ id
  exact ⟨hp.valid, hvalue, hoff, htype', fun _ => rfl⟩

variable {offset : ℕ}

/-- A step from an array entry. -/
theorem movesTo_array_iff (h : EntriesOk ces) (hr : RowInt64 bmStart ces) (hp : p.Holds bmStart bp)
    {bits : List ℕ} (hc : p.entry = .array offset bits) (isDesc : Bool) :
    p.MovesRight bmStart bp isDesc ↔
      (isDesc = true → p.low = [] → p.PrevNear) := by
  obtain ⟨rest, hdrop⟩ := p.drop_eq h
  have hok := h.ok _ p.entry_mem
  have htype : p.entry.ceType = .array := by rw [hc]; rfl
  have hn : (ceLength ((encodeRow ces).drop (rowLength p.before)) - 4) / 2 =
      p.low.length + 1 + p.high.length := by
    have hlen := congrArg List.length p.bits_eq
    rw [hc] at hdrop hok hlen
    rw [hdrop, nBits_array hok.fits]
    simp only [Ce.bits, List.length_append, List.length_cons] at hlen
    omega
  have hnext : plNextBit bp (encodeRow ces) bmStart isDesc =
      if isDesc ∧ p.low.length = 0 then p.toPrev bmStart bp
      else if ¬ isDesc ∧ p.low.length + 1 + p.high.length ≤ p.low.length + 1 then
        some (p.toNext bmStart bp)
      else
        let inx := if isDesc then p.low.length - 1 else p.low.length + 1
        some ({ bp with
          bpPosInCe := inx
          bpValue := bmStart + ceOffset ((encodeRow ces).drop (rowLength p.before)) +
            saRef (((encodeRow ces).drop (rowLength p.before)).drop 4) inx }, .matched) := by
    simp only [plNextBit, hp.valid, if_true, hp.ceType, htype, hp.ceOffset, hp.posInCe htype, hn,
      Place.toPrev, Place.toNext]
  rw [Place.MovesRight, hnext]
  cases isDesc with
  | false =>
    simp only [Bool.false_eq_true, false_and, if_false, not_false_eq_true, true_and, false_implies,
      iff_true]
    cases hhigh : p.high with
    | nil =>
      rw [if_pos (by simp)]
      exact (p.movesTo_nextCe_iff h hr bp).2 hhigh
    | cons b high =>
      rw [if_neg (by simp), p.neighbour_up hhigh]
      have hlen : p.low.length + 1 = (p.up hhigh).low.length := by simp [Place.up]
      simp only [hlen]
      exact (movesTo_inx_iff p h (q := p.up hhigh) rfl hp hc hdrop htype).2 rfl
  | true =>
    rcases List.eq_nil_or_concat' p.low with hlow | ⟨low, b, hlow⟩
    · simpa [hlow] using p.movesTo_prevCe_iff h hr bp
    · rw [if_neg (by simp [hlow]), p.neighbour_down hlow]
      have hlen : p.low.length - 1 = (p.down hlow).low.length := by simp [Place.down, hlow]
      simp only [hlen]
      refine iff_of_true ?_ (by simp [hlow])
      exact (movesTo_inx_iff p h (q := p.down hlow) rfl hp hc hdrop htype).2 rfl

/-! ### Bitmaps -/

/-- The bit number that a step looks up in a bitmap. -/
def Place.probe (isDesc : Bool) : ℤ := ((p.member : ℤ) + if isDesc then -1 else 1).bmod (2 ^ 16)

/-- Places with the same position have the same entry. -/
theorem Place.entry_eq {p q : Place ces} (h : rowLength p.before = rowLength q.before) :
    p.entry = q.entry := by
  rcases append_cases (p.ces_eq.symm.trans q.ces_eq) with ⟨b, hb, htail⟩ | ⟨a, ha, hb, -⟩
  · rw [hb, rowLength_append] at h
    obtain rfl := rowLength_eq_zero (show rowLength b = 0 by omega)
    exact (List.cons_eq_cons.1 htail).1.symm
  · rw [hb, rowLength_append] at h
    exact absurd (rowLength_eq_zero (show rowLength a = 0 by omega)) ha

/-- A bit number that was not made relative to its entry is not that of a member
there. -/
theorem not_movesTo_of_lt_offset (hp : p.Holds bmStart bp) (hb : b < p.entry.offset) :
    ¬ MovesTo ces bmStart bp (some ({ bp with bpValue := bmStart + b }, .matched)) target := by
  cases target with
  | none => simp [MovesTo]
  | some m =>
    rintro ⟨bp', heq, ⟨q, -, hq⟩, -⟩
    obtain rfl : { bp with bpValue := bmStart + (b : ℤ) } = bp' := by simpa using heq
    have hentry : p.entry = q.entry := Place.entry_eq (hp.ceOffset.symm.trans hq.ceOffset)
    have hvalue : bmStart + (b : ℤ) = bmStart + (q.entry.offset + q.bit : ℕ) := hq.value
    rw [← hentry] at hvalue
    omega

/-- `pl_next_bit` in a bitmap. -/
theorem plNextBit_bitmap (h : EntriesOk ces) (hp : p.Holds bmStart bp)
    (hc : p.entry = .bitmap offset bytes) (isDesc : Bool) :
    plNextBit bp (encodeRow ces) bmStart isDesc =
      if p.probe isDesc < 0 then p.toPrev bmStart bp
      else if (ceNValues : ℤ) ≤ p.probe isDesc then
        some (p.toNext bmStart bp)
      else if ceBitmapValue bytes (p.probe isDesc) (!isDesc) = ceNValues then
        if isDesc then p.toPrev bmStart bp
        else some (p.toNext bmStart bp)
      else some ({ bp with
        bpValue := bmStart + ceBitmapValue bytes (p.probe isDesc) (!isDesc) }, .matched) := by
  obtain ⟨rest, hdrop⟩ := p.drop_eq h
  have hok := h.ok _ p.entry_mem
  have hsub : bp.bpValue - bmStart = (p.member : ℤ) := by
    rw [hp.value, Place.member]
    omega
  have hprobe : ((p.member : ℤ).bmod (2 ^ 16) + if isDesc then -1 else 1).bmod (2 ^ 16) =
      p.probe isDesc := by
    rw [Place.probe, Int.bmod_add_bmod]
  rw [hc] at hok hdrop
  simp only [plNextBit, hp.valid, if_true, hp.ceType, hc, Ce.ceType, hp.ceOffset, hsub,
    hprobe, hdrop, drop_bitmap, ceBitmapValue_append hok.2.2.1, Place.toPrev, Place.toNext]

theorem Place.prevNear_of_before_eq_nil {p : Place ces} (h : p.before = []) : p.PrevNear := by
  rw [Place.PrevNear, h]
  exact Nat.zero_le _

/-- An entry that starts the row has none before it. -/
theorem Place.prevNear_of_offset_eq_zero (h : EntriesOk ces) (hzero : p.entry.offset = 0) :
    p.PrevNear := by
  refine prevNear_of_before_eq_nil (List.eq_nil_iff_forall_not_mem.2 fun d hd => ?_)
  rw [p.ces_eq] at h
  have hlt := (EntriesOk.append_iff.1 h).2.2 d hd p.entry (by simp)
  rw [hzero] at hlt
  exact Nat.not_lt_zero _ hlt

theorem Ce.Ok.le_offset {c : Ce} (h : c.Ok) (hne : c.offset ≠ 0) : ceNValues ≤ c.offset := by
  have := h.offset_mod
  simp only [ceNValues] at *
  omega

/-- The step up that a bitmap CE which does not start its row happens to make
right: from its last bit, when no bit is found from the wrong number on. -/
def Place.RightUp : Prop :=
  p.high = [] ∧ (p.probe false < 0 → p.Alone) ∧
    (0 ≤ p.probe false → ∀ b ∈ p.entry.bits, (b : ℤ) < p.probe false)

/-- The same for the step down. -/
def Place.RightDown : Prop :=
  p.low = [] ∧ ((ceNValues : ℤ) ≤ p.probe true → p.Alone) ∧
    (p.probe true < ceNValues → p.PrevNear ∧ ∀ b ∈ p.entry.bits, p.probe true < b)

theorem Place.mem_bits_iff (hc : p.entry = .bitmap offset bytes) (b : ℕ) :
    b ∈ p.entry.bits ↔ b ∈ bitSet bytes := by
  rw [hc, Ce.bits, mem_bitList]

/-- A step within a bitmap that starts its row. -/
theorem movesTo_bit_iff (hp : p.Holds bmStart bp) {q : Place ces} (hbefore : q.before = p.before)
    (hentry : q.entry = p.entry) (hc : p.entry = .bitmap 0 bytes) :
    MovesTo ces bmStart bp (some ({ bp with bpValue := bmStart + q.bit }, .matched)) target ↔
      target = some q.member := by
  have hvalue : bmStart + (q.bit : ℤ) = bmStart + (q.entry.offset + q.bit : ℕ) := by
    rw [hentry, hc, Ce.offset, Nat.zero_add]
  have hholds : q.Holds bmStart { bp with bpValue := bmStart + q.bit } := by
    refine ⟨hp.valid, hvalue, ?_, ?_, ?_⟩
    · rw [hbefore]
      exact hp.ceOffset
    · rw [hentry]
      exact hp.ceType
    · rw [hentry, hc]
      intro harray
      cases harray
  exact movesTo_place_iff hholds id

variable (h : EntriesOk ces) (hr : RowInt64 bmStart ces) (hp : p.Holds bmStart bp)
include h hr hp

/-- A step up from a bitmap that starts its row. -/
theorem movesTo_bitmap_zero_up (hc : p.entry = .bitmap 0 bytes) :
    p.MovesRight bmStart bp false := by
  have hok := h.ok _ p.entry_mem
  have hbit := hok.arrayBits.lt _ p.bit_mem
  have hasc := hok.arrayBits.asc
  have hmem := p.mem_bits_iff hc
  rw [p.bits_eq] at hasc hmem
  have hprobe : p.probe false = (p.bit + 1 : ℕ) := by
    simp only [Place.probe, Place.member, hc, Ce.offset, Nat.zero_add, Bool.false_eq_true, if_false,
      ceNValues] at *
    rw [Int.bmod_eq_of_le (by omega) (by omega)]
    rfl
  have hlast : (∀ b ∈ bitSet bytes, b < p.bit + 1) → p.high = [] := fun hle => by
    refine List.eq_nil_iff_forall_not_mem.2 fun b hb => ?_
    have h₁ := (mem_and_lt_iff hasc).2 hb
    have h₂ := hle b ((hmem b).1 h₁.1)
    omega
  rw [hc] at hok
  have hlen := hok.2.2.1
  rw [Place.MovesRight, plNextBit_bitmap p h hp hc, hprobe, if_neg (by omega)]
  by_cases hend : (ceNValues : ℤ) ≤ (p.bit + 1 : ℕ)
  · rw [if_pos hend]
    refine (p.movesTo_nextCe_iff h hr bp).2 (hlast fun b hb => ?_)
    have := lt_of_mem_bitSet hb
    omega
  · rw [if_neg hend, Bool.not_false]
    rcases ceBitmapValue_fwd hlen hok.2.2.2.1 (show p.bit + 1 < ceNValues by omega) with
      ⟨hin, hge, hle⟩ | ⟨hnone, hall⟩
    · have hlt := lt_of_mem_bitSet hin
      rw [if_neg (by omega)]
      obtain ⟨b, hb⟩ : ∃ b, b = ceBitmapValue bytes (p.bit + 1 : ℕ) true := ⟨_, rfl⟩
      rw [← hb] at hin hge hle ⊢
      have hhead : p.high.head? = some b := (isLeast_above_iff hasc).1
        ⟨⟨(hmem b).2 hin, by omega⟩, fun x hx => hle x ((hmem x).1 hx.1) hx.2⟩
      obtain ⟨high, hhigh⟩ : ∃ high, p.high = b :: high := List.head?_eq_some_iff.1 hhead
      rw [p.neighbour_up hhigh]
      exact (movesTo_bit_iff p hp (q := p.up hhigh) rfl rfl hc).2 rfl
    · rw [if_pos hnone, if_neg Bool.false_ne_true]
      exact (p.movesTo_nextCe_iff h hr bp).2 (hlast hall)

/-- A step down from a bitmap that starts its row. -/
theorem movesTo_bitmap_zero_down (hc : p.entry = .bitmap 0 bytes) :
    p.MovesRight bmStart bp true := by
  have hok := h.ok _ p.entry_mem
  have hbit := hok.arrayBits.lt _ p.bit_mem
  have hasc := hok.arrayBits.asc
  have hmem := p.mem_bits_iff hc
  rw [p.bits_eq] at hasc hmem
  have hprobe : p.probe true = (p.bit : ℤ) - 1 := by
    simp only [Place.probe, Place.member, hc, Ce.offset, Nat.zero_add, if_true, ceNValues] at *
    rw [Int.bmod_eq_of_le (by omega) (by omega)]
    rfl
  have hfirst : (∀ b ∈ bitSet bytes, p.bit ≤ b) → p.low = [] := fun hle => by
    refine List.eq_nil_iff_forall_not_mem.2 fun b hb => ?_
    have h₁ := (mem_and_gt_iff hasc).2 hb
    have h₂ := hle b ((hmem b).1 h₁.1)
    omega
  have hnear := p.prevNear_of_offset_eq_zero h (by rw [hc]; rfl)
  rw [hc] at hok
  rw [Place.MovesRight, plNextBit_bitmap p h hp hc, hprobe]
  by_cases hzero : p.bit = 0
  · rw [if_pos (by omega)]
    exact (p.movesTo_prevCe_iff h hr bp).2 ⟨hfirst fun b _ => by omega, hnear⟩
  · obtain ⟨v, hv⟩ : ∃ v, p.bit = v + 1 := Nat.exists_eq_succ_of_ne_zero hzero
    have hv' : (p.bit : ℤ) - 1 = (v : ℕ) := by omega
    rw [hv', if_neg (by omega), if_neg (by omega), Bool.not_true]
    rcases ceBitmapValue_bwd hok.2.2.2.1 (show v < ceNValues by omega) with
      ⟨hin, hge, hle⟩ | ⟨hnone, hall⟩
    · rw [if_neg (by omega)]
      obtain ⟨b, hb⟩ : ∃ b, b = ceBitmapValue bytes (v : ℕ) false := ⟨_, rfl⟩
      rw [← hb] at hin hge hle ⊢
      have hlast : p.low.getLast? = some b := (isGreatest_below_iff hasc).1
        ⟨⟨(hmem b).2 hin, by omega⟩, fun x hx => hle x ((hmem x).1 hx.1) (by have := hx.2; omega)⟩
      obtain ⟨low, hlow⟩ : ∃ low, p.low = low ++ [b] := List.getLast?_eq_some_iff.1 hlast
      rw [p.neighbour_down hlow]
      exact (movesTo_bit_iff p hp (q := p.down hlow) rfl rfl hc).2 rfl
    · rw [if_pos hnone, if_pos rfl]
      exact (p.movesTo_prevCe_iff h hr bp).2 ⟨hfirst fun b hb => by have := hall b hb; omega, hnear⟩

/-- A step up from a bitmap that does not start its row. -/
theorem movesTo_bitmap_up_iff (hc : p.entry = .bitmap offset bytes) (hne : offset ≠ 0) :
    p.MovesRight bmStart bp false ↔
      p.RightUp := by
  have hok := h.ok _ p.entry_mem
  have hoff : ceNValues ≤ p.entry.offset := hok.le_offset (by rwa [hc])
  have hmem := p.mem_bits_iff hc
  have hlt := hok.arrayBits.lt
  rw [hc] at hok
  rw [Place.MovesRight, plNextBit_bitmap p h hp hc, Place.RightUp]
  by_cases hneg : p.probe false < 0
  · rw [if_pos hneg, p.movesTo_prevCe_up_iff h hr bp]
    simp only [hneg, true_implies, not_le.2 hneg, false_implies, and_true]
  · rw [if_neg hneg]
    simp only [hneg, false_implies, true_and, not_lt.1 hneg, true_implies]
    by_cases hbig : (ceNValues : ℤ) ≤ p.probe false
    · rw [if_pos hbig, p.movesTo_nextCe_iff h hr bp, iff_self_and]
      intro _ b hb
      have := hlt b hb
      omega
    · obtain ⟨v, hv⟩ : ∃ v : ℕ, p.probe false = v := ⟨(p.probe false).toNat, by omega⟩
      rw [hv] at hbig ⊢
      rw [if_neg hbig, Bool.not_false]
      rcases ceBitmapValue_fwd hok.2.2.1 hok.2.2.2.1 (show v < ceNValues by omega) with
        ⟨hin, hge, -⟩ | ⟨hnone, hall⟩
      · have hltin := hlt _ ((hmem _).2 hin)
        rw [if_neg (by omega)]
        refine iff_of_false (not_movesTo_of_lt_offset p hp (by omega)) fun hright => ?_
        have := hright.2 _ ((hmem _).2 hin)
        omega
      · rw [if_pos hnone, if_neg Bool.false_ne_true, p.movesTo_nextCe_iff h hr bp, iff_self_and]
        intro _ b hb
        have := hall b ((hmem b).1 hb)
        omega

/-- A step down from a bitmap that does not start its row. -/
theorem movesTo_bitmap_down_iff (hc : p.entry = .bitmap offset bytes) (hne : offset ≠ 0) :
    p.MovesRight bmStart bp true ↔
      p.RightDown := by
  have hok := h.ok _ p.entry_mem
  have hoff : ceNValues ≤ p.entry.offset := hok.le_offset (by rwa [hc])
  have hmem := p.mem_bits_iff hc
  rw [hc] at hok
  rw [Place.MovesRight, plNextBit_bitmap p h hp hc, Place.RightDown]
  by_cases hneg : p.probe true < 0
  · have hsmall : p.probe true < (ceNValues : ℤ) := by omega
    rw [if_pos hneg, p.movesTo_prevCe_iff h hr bp]
    simp only [not_le.2 hsmall, false_implies, hsmall, true_implies, true_and]
    refine and_congr_right fun _ => (and_iff_left fun b _ => ?_).symm
    omega
  · rw [if_neg hneg]
    by_cases hbig : (ceNValues : ℤ) ≤ p.probe true
    · rw [if_pos hbig, p.movesTo_nextCe_down_iff h hr bp]
      simp only [hbig, true_implies, not_lt.2 hbig, false_implies, and_true]
    · have hsmall : p.probe true < (ceNValues : ℤ) := not_le.1 hbig
      simp only [hbig, if_false, false_implies, hsmall, true_implies, true_and]
      obtain ⟨v, hv⟩ : ∃ v : ℕ, p.probe true = v := ⟨(p.probe true).toNat, by omega⟩
      rw [hv] at hsmall ⊢
      rw [Bool.not_true]
      rcases ceBitmapValue_bwd hok.2.2.2.1 (show v < ceNValues by omega) with
        ⟨hin, hge, -⟩ | ⟨hnone, hall⟩
      · rw [if_neg (by omega)]
        refine iff_of_false (not_movesTo_of_lt_offset p hp (by omega)) fun hright => ?_
        have := hright.2.2 _ ((hmem _).2 hin)
        omega
      · rw [if_pos hnone, if_pos trivial, p.movesTo_prevCe_iff h hr bp]
        refine and_congr_right fun _ => (and_iff_left fun b hb => ?_).symm
        have := hall b ((hmem b).1 hb)
        omega

/-- The places from which `pl_next_bit` makes the right step. -/
def Place.Safe (isDesc : Bool) : Prop :=
  (isDesc = true → p.low = [] → p.PrevNear) ∧
    (p.entry.ceType = .bitmap → p.entry.offset ≠ 0 → if isDesc then p.RightDown else p.RightUp)

/-- `pl_next_bit` makes the right step from exactly the safe places. -/
theorem steps_iff_safe (isDesc : Bool) :
    Steps ces bmStart isDesc bp p.member ↔ p.Safe isDesc := by
  rw [steps_iff_movesTo h p, Place.Safe]
  cases hc : p.entry with
  | single value =>
    rw [movesTo_single_iff p h hr hp hc]
    exact (and_iff_left fun hbitmap => by cases hbitmap).symm
  | array offset bits =>
    rw [movesTo_array_iff p h hr hp hc]
    exact (and_iff_left fun hbitmap => by cases hbitmap).symm
  | bitmap offset bytes =>
    by_cases hzero : offset = 0
    · subst hzero
      have hnear := p.prevNear_of_offset_eq_zero h (by rw [hc]; rfl)
      refine iff_of_true ?_ ⟨fun _ _ => hnear, fun _ hne => absurd rfl hne⟩
      cases isDesc with
      | false => exact movesTo_bitmap_zero_up p h hr hp hc
      | true => exact movesTo_bitmap_zero_down p h hr hp hc
    · simp only [Ce.ceType, Ce.offset, true_implies, ne_eq, hzero, not_false_eq_true]
      cases isDesc with
      | false =>
        rw [movesTo_bitmap_up_iff p h hr hp hc hzero]
        exact (and_iff_right fun hdesc => by cases hdesc).symm
      | true =>
        rw [movesTo_bitmap_down_iff p h hr hp hc hzero]
        refine (and_iff_right_of_imp fun hright _ _ => ?_).symm
        rcases lt_or_ge (p.probe true) ceNValues with hlt | hge
        · exact (hright.2.2 hlt).1
        · exact Place.prevNear_of_before_eq_nil (hright.2.1 hge).1

end Step

/-! ## Whole iterations -/

/-- The loop of `row_log` over a bitmap row, in either direction: the values it
logs.  `none` is a fatal branch or a loop that does not end. -/
def rowLogLoop (bm : List ℕ) (bmStart : ℤ) (isDesc : Bool) : ℕ → BmPos → Option (List ℤ)
  | 0, _ => none
  | fuel + 1, bp => do
      let (bp', _) ← plNextBit bp bm bmStart isDesc
      if bp'.bpAtEnd then return [bp.bpValue]
      else return bp.bpValue :: (← rowLogLoop bm bmStart isDesc fuel bp')

/-- The members from `m` on in a direction, in that order. -/
def onward (isDesc : Bool) (members : List ℕ) (m : ℕ) : List ℕ :=
  if isDesc then (members.filter (· ≤ m)).reverse else members.filter (m ≤ ·)

section Onward

variable {ces : List Ce}

/-- The members from a place on. -/
theorem onward_eq (h : EntriesOk ces) (p : Place ces) (isDesc : Bool) :
    onward isDesc (membersOf ces) p.member =
      p.member :: if isDesc then p.below.reverse else p.above := by
  have hasc := h.pairwise_membersOf
  rw [p.membersOf_eq] at hasc ⊢
  cases isDesc with
  | false => exact filter_ge_eq hasc
  | true => exact (congrArg List.reverse (filter_le_eq hasc)).trans (by simp)

variable {p : Place ces}

/-- After the next member come the others. -/
theorem onward_cons (h : EntriesOk ces) {q : Place ces} {isDesc : Bool}
    (hq : p.neighbour isDesc = some q.member) :
    onward isDesc (membersOf ces) p.member =
      p.member :: onward isDesc (membersOf ces) q.member := by
  have hasc := h.pairwise_membersOf
  rw [onward_eq h p]
  congr 1
  cases isDesc with
  | false =>
    obtain ⟨above, habove⟩ : ∃ above, p.above = q.member :: above := List.head?_eq_some_iff.1 hq
    have hsplit : membersOf ces = p.below ++ [p.member] ++ q.member :: above := by
      rw [p.membersOf_eq, habove, List.append_assoc, List.singleton_append]
    rw [hsplit] at hasc ⊢
    exact habove.trans (filter_ge_eq hasc).symm
  | true =>
    obtain ⟨below, hbelow⟩ : ∃ below, p.below = below ++ [q.member] :=
      List.getLast?_eq_some_iff.1 hq
    have hsplit : membersOf ces = below ++ q.member :: (p.member :: p.above) := by
      rw [p.membersOf_eq, hbelow, List.append_assoc, List.singleton_append]
    rw [hsplit] at hasc ⊢
    exact congrArg List.reverse (hbelow.trans (filter_le_eq hasc).symm)

theorem onward_last (h : EntriesOk ces) {isDesc : Bool} (hnone : p.neighbour isDesc = none) :
    onward isDesc (membersOf ces) p.member = [p.member] := by
  rw [onward_eq h p]
  cases isDesc with
  | false =>
    have habove : p.above = [] := List.head?_eq_none_iff.1 hnone
    simp [habove]
  | true =>
    have hbelow : p.below = [] := List.getLast?_eq_none_iff.1 hnone
    simp [hbelow]

variable {bmStart : ℤ} {bp : BmPos} {isDesc : Bool}

/-- If all places are safe, the loop lists the members from its place on. -/
theorem rowLogLoop_eq (h : EntriesOk ces) (hr : RowInt64 bmStart ces)
    (hsafe : ∀ q : Place ces, q.Safe isDesc) (hp : p.Holds bmStart bp) (hend : bp.bpAtEnd = false)
    {fuel : ℕ} (hfuel : (onward isDesc (membersOf ces) p.member).length ≤ fuel) :
    rowLogLoop (encodeRow ces) bmStart isDesc fuel bp =
      some ((onward isDesc (membersOf ces) p.member).map fun m : ℕ => bmStart + (m : ℤ)) := by
  induction fuel generalizing bp p with
  | zero =>
    rw [onward_eq h p, List.length_cons] at hfuel
    omega
  | succ fuel ih =>
    have hmoves := (steps_iff_movesTo h p).1 ((steps_iff_safe p h hr hp isDesc).2 (hsafe p))
    rw [Place.MovesRight] at hmoves
    have hvalue : bp.bpValue = bmStart + (p.member : ℕ) := hp.value
    rw [rowLogLoop]
    cases hn : p.neighbour isDesc with
    | none =>
      rw [hn] at hmoves
      obtain ⟨bp', hnext, hend'⟩ := hmoves
      simp [hnext, hend', onward_last h hn, hvalue]
    | some m =>
      rw [hn] at hmoves
      obtain ⟨bp', hnext, ⟨q, rfl, hq⟩, hend'⟩ := hmoves
      have hend'' : bp'.bpAtEnd = false := by
        rw [← Bool.not_eq_true]
        exact fun htrue => by simp [hend' htrue] at hend
      rw [onward_cons h hn] at hfuel ⊢
      simp [hnext, hend'', ih hq hend'' (by simpa using hfuel), hvalue]

end Onward

/-- **Iterating over a row.**  `pl_next_bit` moves a position to the next member, or
to the end, from exactly the safe places; and if all places are safe, its calls
list the members in order. -/
theorem plNextBit_iff_safe {ces : List Ce} (h : EntriesOk ces) {bmStart : ℤ}
    (hr : RowInt64 bmStart ces)
    (isDesc : Bool) :
    (∀ (p : Place ces) (bp : BmPos), p.Holds bmStart bp →
      (Steps ces bmStart isDesc bp p.member ↔ p.Safe isDesc)) ∧
    ((∀ q : Place ces, q.Safe isDesc) → ∀ (p : Place ces) (bp : BmPos), p.Holds bmStart bp →
      bp.bpAtEnd = false →
      rowLogLoop (encodeRow ces) bmStart isDesc (rowMembers (encodeRow ces)).length bp =
        some ((onward isDesc (rowMembers (encodeRow ces)) p.member).map fun m : ℕ => bmStart +
          (m : ℤ))) := by
  refine ⟨fun p bp hp => steps_iff_safe p h hr hp isDesc, fun hsafe p bp hp hend => ?_⟩
  rw [h.rowMembers_eq_membersOf]
  refine rowLogLoop_eq h hr hsafe hp hend ?_
  cases isDesc with
  | false => exact List.length_filter_le _ _
  | true =>
    rw [onward, if_pos rfl, List.length_reverse]
    exact List.length_filter_le _ _

/-- The members of a row of two entries, listed from the first one on. -/
theorem rowLogLoop_two_entries :
    EntriesOk [.single 5, .array 8192 [1, 3]] ∧
      rowLogLoop (encodeRow [.single 5, .array 8192 [1, 3]]) 0 false 3
        ⟨5, 0, 0, .single, true, false, false⟩ = some [5, 8193, 8195] := by
  have h : EntriesOk [.single 5, .array 8192 [1, 3]] := by
    refine ⟨fun c hc => ?_, List.pairwise_pair.2 (by decide)⟩
    rcases List.mem_pair.1 hc with rfl | rfl
    · exact show 5 < 2 ^ 31 by decide
    · exact ⟨by decide, by decide, ⟨by decide, by decide⟩, by decide, by decide⟩
  have hr : RowInt64 0 [.single 5, .array 8192 [1, 3]] := ⟨by decide, by decide⟩
  have hsafe : ∀ q : Place [.single 5, .array 8192 [1, 3]], q.Safe false := fun q => by
    refine ⟨fun hdesc => (by cases hdesc), fun hbitmap => ?_⟩
    rcases List.mem_pair.1 q.entry_mem with hq | hq <;> rw [hq] at hbitmap <;> cases hbitmap
  have hp : Place.Holds ⟨[], .single 5, [.array 8192 [1, 3]], [], 5, [], rfl, by decide⟩ 0
      ⟨5, 0, 0, .single, true, false, false⟩ :=
    ⟨rfl, by decide, rfl, rfl, fun harray => by cases harray⟩
  exact ⟨h, ((plNextBit_iff_safe h hr false).2 hsafe _ _ hp rfl).trans (by decide +kernel)⟩

/-- A bitmap whose first 400 bits are set. -/
def denseBytes : List ℕ := List.replicate 50 255 ++ List.replicate 974 0

theorem ok_denseBytes : (Ce.bitmap 8192 denseBytes).Ok := by
  refine ⟨by decide, by decide, by decide +kernel, ?_, ?_⟩
  · intro b hb
    rcases List.mem_append.1 hb with hb | hb <;> rw [List.eq_of_mem_replicate hb] <;> decide
  · exact ⟨0, mem_bitSet.2 (by decide +kernel)⟩

/-- In a row with one bitmap CE that does not start it, the step from the first
member goes to the end, past the other members. -/
theorem plNextBit_skips_bitmap :
    EntriesOk [.bitmap 8192 denseBytes] ∧
      OnMember [.bitmap 8192 denseBytes] 0 ⟨8192, 0, 0, .bitmap, true, false, false⟩ 8192 ∧
      8193 ∈ rowMembers (encodeRow [.bitmap 8192 denseBytes]) ∧
      plNextBit ⟨8192, 0, 0, .bitmap, true, false, false⟩
        (encodeRow [.bitmap 8192 denseBytes]) 0 false =
        some (⟨8192, 0, 0, .bitmap, true, true, false⟩, .greater) ∧
      ¬ Steps [.bitmap 8192 denseBytes] 0 false ⟨8192, 0, 0, .bitmap, true, false, false⟩ 8192 := by
  have hok : EntriesOk [.bitmap 8192 denseBytes] :=
    ⟨by simpa using ok_denseBytes, List.pairwise_singleton _ _⟩
  have hon : OnMember [.bitmap 8192 denseBytes] 0 ⟨8192, 0, 0, .bitmap, true, false, false⟩
    8192 := by
    obtain ⟨b, bs, hbits⟩ := List.exists_cons_of_ne_nil ok_denseBytes.bits_ne_nil
    have hasc := ok_denseBytes.arrayBits.asc
    have hzero : 0 ∈ (Ce.bitmap 8192 denseBytes).bits :=
      mem_bitList.2 (mem_bitSet.2 (by decide +kernel))
    rw [hbits] at hasc hzero
    obtain rfl : b = 0 := by
      rcases List.mem_cons.1 hzero with hb | hb
      · exact hb.symm
      · exact absurd ((List.pairwise_cons.1 hasc).1 0 hb) (Nat.not_lt_zero b)
    exact ⟨⟨[], _, [], [], 0, bs, rfl, hbits⟩, by simp [Place.member, Ce.offset], rfl,
      by simp [Ce.offset], rfl, rfl, fun harray => by cases harray⟩
  have hmem : 8193 ∈ rowMembers (encodeRow [.bitmap 8192 denseBytes]) := by
    have hone : 1 ∈ bitSet denseBytes := mem_bitSet.2 (by decide +kernel)
    rw [hok.rowMembers_eq_membersOf]
    exact mem_membersOf.2 ⟨_, List.mem_singleton_self _, 1, mem_bitList.2 hone, by rw [Ce.offset]⟩
  have hnext : plNextBit ⟨8192, 0, 0, .bitmap, true, false, false⟩
      (encodeRow [.bitmap 8192 denseBytes]) 0 false =
        some (⟨8192, 0, 0, .bitmap, true, true, false⟩, .greater) := by
    decide +kernel
  refine ⟨hok, hon, hmem, hnext, fun hsteps => ?_⟩
  obtain ⟨bp', hbp', -⟩ := hsteps.1 8193 ⟨⟨hmem, by decide⟩, fun m hm => hm.2⟩
  rw [hnext] at hbp'
  simp at hbp'

end Virtuoso.Bitmap
