import Virtuoso.Bitmap.Sets

/-!
# Seeking a bit in a row

`pl_set_at_bit` sets a position to a bit number, or to the next member of the row
in a direction.  Going up it finds the member, but it leaves `bp_at_end` set when
that is the first bit of an array or a bitmap behind the CE of the value.
-/

namespace Virtuoso.Bitmap

open Lib Search

/-- `pl_set_at_bit` going up, at the CE whose range the value is in. -/
def seekUpInCe (bp : BmPos) (bm : List ℕ) (bmStart value : ℤ) (ce : ℕ) : BmPos :=
  let bp := (plCeSet bp (bm.drop ce) bmStart value true).1
  if bp.bpBelowStart then { bp with bpAtEnd := false }
  else if ¬ bp.bpAtEnd then bp
  else
    let ce := ce + ceLength (bm.drop ce)
    if bm.length ≤ ce then { bp with bpAtEnd := true }
    else (plCeSet { bp with bpCeOffset := ce } (bm.drop ce) bmStart bitnoMin true).1

/-- The loop of `pl_set_at_bit` going up.  `none` is a loop that does not end, or
one over an empty row. -/
def seekUp (bm : List ℕ) (bmStart value : ℤ) : ℕ → ℕ → Option ℕ → BmPos → Option BmPos
  | 0, _, _, _ => none
  | fuel + 1, ce, prevCe, bp =>
    if ce < bm.length then
      let ceStart := bmStart + ceOffset (bm.drop ce)
      let bp := { bp with bpCeOffset := ce }
      if ceStart ≤ value ∧ value < ceStart + ceNValues then some (seekUpInCe bp bm bmStart value ce)
      else if value < ceStart then
        some { (plCeSet bp (bm.drop ce) bmStart bitnoMin true).1 with bpAtEnd := false }
      else seekUp bm bmStart value fuel (ce + ceLength (bm.drop ce)) (some ce) bp
    else
      prevCe.map fun prevCe =>
        (plCeSet { bp with bpCeOffset := prevCe } (bm.drop prevCe) bmStart bitnoMax true).1

/-- `pl_set_at_bit` going down, when the member is in the CE before or there is
none. -/
def seekDownPrev (bp : BmPos) (bm : List ℕ) (bmStart : ℤ) : Option ℕ → BmPos
  | some prevCe =>
    { (plCeSet bp (bm.drop prevCe) bmStart bitnoMax false).1 with bpCeOffset := prevCe }
  | none => { bp with bpAtEnd := true }

def seekDown (bm : List ℕ) (bmStart value : ℤ) : ℕ → ℕ → Option ℕ → BmPos → Option BmPos
  | 0, _, _, _ => none
  | fuel + 1, ce, prevCe, bp =>
    if ce < bm.length then
      let ceStart := bmStart + ceOffset (bm.drop ce)
      let bp := { bp with bpCeOffset := ce }
      if value < ceStart then some (seekDownPrev bp bm bmStart prevCe)
      else if value < ceStart + ceNValues then
        let bp := (plCeSet bp (bm.drop ce) bmStart value false).1
        some (if bp.bpAtEnd then seekDownPrev bp bm bmStart prevCe else bp)
      else seekDown bm bmStart value fuel (ce + ceLength (bm.drop ce)) (some ce) bp
    else
      prevCe.map fun prevCe =>
        (plCeSet { bp with bpCeOffset := prevCe } (bm.drop prevCe) bmStart bitnoMax false).1

/-- `pl_set_at_bit`.  A row with no bitmap string has the one member `bmStart`. -/
def plSetAtBit (bp : BmPos) (bm : List ℕ) (bmStart value : ℤ) (isDesc : Bool) : Option BmPos :=
  let bp := { bp with bpIsPosValid := true, bpAtEnd := false }
  let singleton := { bp with bpCeType := .singletonRow }
  if isDesc then
    if bm = [] then
      some (if value < bmStart then { singleton with bpAtEnd := true }
        else { singleton with bpValue := bmStart })
    else seekDown bm bmStart value (bm.length + 1) 0 none bp
  else
    if bm = [] then
      some (if value ≤ bmStart then { singleton with bpValue := bmStart }
        else { singleton with bpAtEnd := true })
    else seekUp bm bmStart value (bm.length + 1) 0 none bp

/-! ## Seeking in a CE -/

/-- What `pl_ce_set` finds going up in the range of a CE: the first bit that is not
below the bit number, or that there is none. -/
inductive Sought (bmStart : ℤ) (pos : ℕ) (c : Ce) (v : ℕ) (bp : BmPos) : Prop
  | found {low high : List ℕ} {b : ℕ} (hbits : c.bits = low ++ b :: high)
      (hat : bp.At bmStart pos c low.length b) (hlow : ∀ x ∈ low, c.offset + x < v)
      (hle : v ≤ c.offset + b) (hflags : bp.bpBelowStart = true ∨ bp.bpAtEnd = false)
  | none {low : List ℕ} {b : ℕ} (hbits : c.bits = low ++ [b])
      (hat : bp.At bmStart pos c low.length b)
      (hall : ∀ x ∈ c.bits, c.offset + x < v) (hbelow : bp.bpBelowStart = false)
      (hend : bp.bpAtEnd = true)

section Ce

variable (bmStart : ℤ) (bp : BmPos) (rest : List ℕ) {v : ℕ}

theorem plCeSetSingle_sought {value : ℕ} (h : (Ce.single value).Ok)
    (hvalid : bp.bpIsPosValid = true)
    (hend : bp.bpAtEnd = false) (hbelow : bp.bpBelowStart = false) :
    Sought bmStart bp.bpCeOffset (.single value) v
      (plCeSetSingle bp ((Ce.single value).encode ++ rest) bmStart (bmStart + v) true).1 := by
  have hbits : (Ce.single value).bits = [] ++ [value % ceNValues] := rfl
  have hmember : (Ce.single value).offset + value % ceNValues = value := Nat.div_add_mod' value _
  have hat : ∀ bp' : BmPos, bp'.bpIsPosValid = true → bp'.bpValue = bmStart + value →
      bp'.bpCeOffset = bp.bpCeOffset → bp'.bpCeType = .single →
      bp'.At bmStart bp.bpCeOffset (.single value) 0 (value % ceNValues) := by
    intro bp' h₁ h₂ h₃ h₄
    exact ⟨h₁, by rw [h₂, hmember], h₃, h₄, fun harray => by cases harray⟩
  rw [plCeSetSingle, Ce.ceSingleValue_single h]
  simp only [if_true]
  split_ifs with heq hlt
  · exact .found hbits (hat _ hvalid rfl rfl rfl) (by simp) (by omega) (.inr hend)
  · refine .none hbits (hat _ hvalid rfl rfl rfl) (fun x hx => ?_) hbelow rfl
    obtain rfl : x = value % ceNValues := by simpa [Ce.bits] using hx
    omega
  · exact .found hbits (hat _ hvalid rfl rfl rfl) (by simp) (by omega) (.inl rfl)

theorem plCeSetArray_sought {offset : ℕ} {bits : List ℕ} (h : (Ce.array offset bits).Ok)
    (hle : offset ≤ v) (hlt : v < offset + ceNValues) (hvalid : bp.bpIsPosValid = true)
    (hend : bp.bpAtEnd = false) (hbelow : bp.bpBelowStart = false) :
    Sought bmStart bp.bpCeOffset (.array offset bits) v
      (plCeSetArray bp ((Ce.array offset bits).encode ++ rest) bmStart (bmStart + v) true).1 := by
  have hoff := Ce.ceOffset_encode h.fits rest
  have hbit : (bmStart + (v : ℤ) - (bmStart + offset)).toNat = v - offset := by omega
  obtain ⟨xs, ys, rfl, hinx, hxs, hys⟩ := ceArrayBitInx_spec h.fits h.2.2.1 (v - offset) rest
  -- setting the position to an index of the array
  have hat : ∀ {inx b : ℕ} {bp' : BmPos}, (xs ++ ys)[inx]? = some b → bp'.bpIsPosValid = true →
      bp'.bpValue = bmStart + (offset : ℤ) +
        saRef (((Ce.array offset (xs ++ ys)).encode ++ rest).drop 4) inx →
      bp'.bpCeOffset = bp.bpCeOffset → bp'.bpCeType = .array → bp'.bpPosInCe = inx →
      bp'.At bmStart bp.bpCeOffset (.array offset (xs ++ ys)) inx b :=
    fun hget => at_array bp rest h.2.2.1 hget
  have hfit : ¬ bmStart + (v : ℤ) < bmStart + offset := by omega
  rw [plCeSetArray]
  simp only [hoff, Ce.offset, hbit, hinx, nBits_array h.fits, if_true]
  rw [if_neg hfit, if_neg (by omega)]
  cases ys with
  | nil =>
    have hne : xs ≠ [] := by simpa using h.2.2.2.1
    obtain ⟨low, b, rfl⟩ := (List.eq_nil_or_concat' xs).resolve_left hne
    rw [if_pos (by simp)]
    have hbits : (Ce.array offset (low ++ [b] ++ [])).bits = low ++ [b] := List.append_nil _
    refine .none hbits (hat (by simp) hvalid ?_ rfl rfl (by simp)) (fun x hx => ?_) hbelow rfl
    · simp
    · have := hxs x (by simpa [Ce.bits] using hx)
      rw [Ce.offset]
      omega
  | cons y ys =>
    have hy := hys y (by simp)
    have hget : (xs ++ y :: ys)[xs.length]? = some y := by simp
    have hlow : ∀ x ∈ xs, (Ce.array offset (xs ++ y :: ys)).offset + x < v := fun x hx => by
      have := hxs x hx
      rw [Ce.offset]
      omega
    have hge : v ≤ (Ce.array offset (xs ++ y :: ys)).offset + y := by
      rw [Ce.offset]
      omega
    rw [if_neg (by simp)]
    split_ifs with heq hzero
    · exact .found rfl (hat hget hvalid rfl rfl rfl rfl) hlow hge (.inr hend)
    · refine .found rfl (hat hget hvalid ?_ rfl rfl ?_) hlow hge (.inl rfl)
      · simp [hzero]
      · simp [hzero]
    · exact .found rfl (hat hget hvalid rfl rfl rfl rfl) hlow hge (.inr hend)

theorem plCeSetBitmap_sought {offset : ℕ} {bytes : List ℕ} (h : (Ce.bitmap offset bytes).Ok)
    (hle : offset ≤ v) (hlt : v < offset + ceNValues)
    (hvalid : bp.bpIsPosValid = true) (hend : bp.bpAtEnd = false)
    (hbelow : bp.bpBelowStart = false) :
    Sought bmStart bp.bpCeOffset (.bitmap offset bytes) v
      (plCeSetBitmap bp ((Ce.bitmap offset bytes).encode ++ rest) bmStart
        (bmStart + v) true).1 := by
  have hoff := Ce.ceOffset_encode h.fits rest
  have hbit : bmStart + (v : ℤ) - (bmStart + offset) = (v - offset : ℕ) := by omega
  have hfit : ¬ bmStart + (v : ℤ) < bmStart + offset := by omega
  have hfirst := ceBitmapValue_fwd h.2.2.1 h.2.2.2.1 (show v - offset < ceNValues by omega)
  rw [plCeSetBitmap]
  simp only [hoff, Ce.offset, drop_bitmap, hbit, if_true, ceBitmapValue_append h.2.2.1]
  rw [if_neg hfit, if_neg (by omega)]
  generalize ceBitmapValue bytes (v - offset : ℕ) true = r at hfirst ⊢
  rcases hfirst with ⟨hmem, hge, hleast⟩ | ⟨rfl, hnone⟩
  · obtain ⟨low, high, hsplit⟩ := List.append_of_mem (mem_bitList.2 hmem)
    have hr : r ≠ ceNValues := (h.2.2.1 ▸ lt_of_mem_bitSet hmem).ne
    have hasc := pairwise_bitList bytes
    rw [hsplit] at hasc
    have hlow : ∀ x ∈ low, (Ce.bitmap offset bytes).offset + x < v := fun x hx => by
      have hxr := (List.pairwise_append.1 hasc).2.2 x hx r (by simp)
      have hx' : ¬ v - offset ≤ x := fun hx' =>
        absurd (hleast x (mem_bitList.1 (by rw [hsplit]; simp [hx])) hx') (not_le.2 hxr)
      rw [Ce.offset]
      omega
    have hge' : v ≤ (Ce.bitmap offset bytes).offset + r := by
      rw [Ce.offset]
      omega
    split_ifs with heq
    · exact .found hsplit (at_bitmap bp _ hvalid rfl rfl rfl) hlow hge' (.inr hend)
    · exact .found hsplit (at_bitmap bp _ hvalid rfl rfl rfl) hlow hge' (.inr hend)
  · have hne : bitList bytes ≠ [] := Ce.Ok.bits_ne_nil h
    obtain ⟨low, b, hsplit⟩ := (List.eq_nil_or_concat' (bitList bytes)).resolve_left hne
    have hlast := ceBitmapValue_last rest h.2.2.1 h.2.2.2.1 (b := b)
      (by rw [hsplit, List.getLast?_concat])
    rw [ceBitmapValue_append h.2.2.1] at hlast
    rw [if_neg (by omega), if_pos rfl]
    refine .none hsplit (at_bitmap bp _ hvalid ?_ rfl rfl) (fun x hx => ?_) hbelow rfl
    · simp only [hlast]
    · have := hnone x (mem_bitList.1 hx)
      rw [Ce.offset]
      omega

/-- `pl_ce_set` going up, with a value in the range of the CE. -/
theorem plCeSet_sought {c : Ce} (h : c.Ok) (hle : c.offset ≤ v) (hlt : v < c.offset + ceNValues) :
    Sought bmStart bp.bpCeOffset c v
      (plCeSet bp (c.encode ++ rest) bmStart (bmStart + v) true).1 := by
  let bp' := { bp with bpIsPosValid := true, bpAtEnd := false, bpBelowStart := false }
  rw [plCeSet, Ce.ite_encode h.fits]
  cases c with
  | single value => exact plCeSetSingle_sought bmStart bp' rest h rfl rfl rfl
  | array offset bits => exact plCeSetArray_sought bmStart bp' rest h hle hlt rfl rfl rfl
  | bitmap offset bytes => exact plCeSetBitmap_sought bmStart bp' rest h hle hlt rfl rfl rfl

/-- `pl_ce_set` with the smallest bit number says that it is before the CE, at an
end, except at a single CE. -/
theorem plCeSet_first_atEnd {c : Ce} (h : c.Ok) (hstart : bitnoMin < bmStart + c.offset) :
    (plCeSet bp (c.encode ++ rest) bmStart bitnoMin true).1.bpAtEnd = !c.isSingle := by
  rw [plCeSet, Ce.ite_encode h.fits]
  cases c with
  | single value =>
    have hle : (Ce.single value).offset ≤ value := Nat.div_mul_le_self value _
    simp only [plCeSetSingle, Ce.ceSingleValue_single h]
    rw [if_neg (by omega), if_neg (by omega)]
    rfl
  | array offset bits =>
    simp only [plCeSetArray, Ce.ceOffset_encode h.fits]
    rw [if_pos hstart]
    rfl
  | bitmap offset bytes =>
    simp only [plCeSetBitmap, Ce.ceOffset_encode h.fits]
    rw [if_pos hstart]
    rfl

/-- `pl_ce_set` with the largest bit number says that it is after a CE whose range
ends below. -/
theorem plCeSet_last_atEnd {c : Ce} (h : c.Ok) (hmax : bmStart + c.offset + ceNValues ≤ bitnoMax) :
    (plCeSet bp (c.encode ++ rest) bmStart bitnoMax true).1.bpAtEnd = true := by
  rw [plCeSet, Ce.ite_encode h.fits]
  cases c with
  | single value =>
    have hlt : value % ceNValues < ceNValues := Nat.mod_lt _ (by decide)
    have hvalue : (Ce.single value).offset + value % ceNValues = value := Nat.div_add_mod' value _
    simp only [plCeSetSingle, Ce.ceSingleValue_single h]
    rw [if_neg (by omega), if_pos (by omega)]
    rfl
  | array offset bits =>
    simp only [plCeSetArray, Ce.ceOffset_encode h.fits]
    rw [if_neg (by omega), if_pos hmax]
  | bitmap offset bytes =>
    simp only [plCeSetBitmap, Ce.ceOffset_encode h.fits]
    rw [if_neg (by omega), if_pos hmax]

end Ce

/-! ## The loop -/

def lastStart (ces : List Ce) : Option ℕ := if ces = [] then none else some (rowLength ces.dropLast)

section Loop

variable (bmStart value : ℤ) {passed after before rest : List Ce} {c : Ce}

/-- One round of the loop going up. -/
theorem seekUp_cons (h : EntriesOk (passed ++ c :: rest)) (fuel : ℕ) (prevCe : Option ℕ)
    (bp : BmPos) :
    seekUp (encodeRow (passed ++ c :: rest)) bmStart value (fuel + 1) (rowLength passed) prevCe bp =
      if bmStart + c.offset ≤ value ∧ value < bmStart + c.offset + ceNValues then
        some (seekUpInCe { bp with bpCeOffset := rowLength passed }
          (encodeRow (passed ++ c :: rest)) bmStart value (rowLength passed))
      else if value < bmStart + c.offset then
        some { (plCeSet { bp with bpCeOffset := rowLength passed }
          (c.encode ++ encodeRow rest) bmStart bitnoMin true).1 with bpAtEnd := false }
      else
        seekUp (encodeRow (passed ++ c :: rest)) bmStart value fuel (rowLength (passed ++ [c]))
          (some (rowLength passed)) { bp with bpCeOffset := rowLength passed } := by
  have hc := h.ok c (by simp)
  rw [seekUp, if_pos (rowLength_lt_length h), drop_encodeRow (EntriesOk.append_iff.1 h).1]
  simp only [Ce.ceOffset_encode hc.fits, Ce.ceLength_encode hc.fits, rowLength_append,
    rowLength_cons, rowLength_nil, Nat.add_zero]

/-- Going up, the loop gets to the place where it stops. -/
theorem plSetAtBit_passes {bmStart value : ℤ} (h : EntriesOk (before ++ after))
    (hne : before ++ after ≠ []) (hs : StopsAt bmStart value (before ++ after) before after)
    (bp : BmPos) :
    ∃ fuel bp', plSetAtBit bp (encodeRow (before ++ after)) bmStart value false =
      seekUp (encodeRow (before ++ after)) bmStart value (fuel + 1) (rowLength before)
        (lastStart before)
        bp' := by
  have hne' : encodeRow (before ++ after) ≠ [] := by
    rw [← List.length_pos_iff, h.length_encodeRow]
    exact Nat.pos_of_ne_zero fun h0 => hne (rowLength_eq_zero h0)
  -- the position changes only in the CE that was passed last
  obtain ⟨fuel, hloop⟩ := hs.loop h (fun fuel passed => seekUp (encodeRow (before ++ after)) bmStart
    value fuel (rowLength passed) (lastStart passed) ((lastStart passed).elim
      { bp with bpIsPosValid := true, bpAtEnd := false } fun ce =>
        { bp with bpIsPosValid := true, bpAtEnd := false, bpCeOffset := ce }))
      fun fuel heq hpast => by
      rw [heq] at h ⊢
      rw [seekUp_cons bmStart value h, if_neg (by omega), if_neg (by omega)]
      cases lastStart _ <;> simp [lastStart]
  rw [plSetAtBit, if_neg Bool.false_ne_true, if_neg hne']
  exact ⟨fuel, _, hloop⟩

end Loop

/-! ## What a seek should do -/

/-- The seek goes to the least member that is not below the value and clears
`bp_at_end`, or sets `bp_at_end` if there is none; either way the position is on a
member. -/
def Seeks (ces : List Ce) (bmStart value : ℤ) (res : Option BmPos) : Prop :=
  ∃ bp, res = some bp ∧
    ((∃ m ∈ rowMembers (encodeRow ces), value ≤ bmStart + m) → bp.bpAtEnd = false ∧
      ∃ m, IsLeast {m | m ∈ rowMembers (encodeRow ces) ∧ value ≤ bmStart + (m : ℤ)} m ∧
        OnMember ces bmStart bp m) ∧
    ((∀ m ∈ rowMembers (encodeRow ces), bmStart + m < value) → bp.bpAtEnd = true ∧
      ∃ m, OnMember ces bmStart bp m)

section Seeks

variable {ces before rest : List Ce} {c d : Ce} {bmStart value : ℤ} {bp : BmPos}

/-- A seek that ends on the least member that is not below the value. -/
theorem seeks_found_iff (h : EntriesOk ces) {p : Place ces} (hp : p.Holds bmStart bp)
    (hbelow : ∀ m ∈ p.below, bmStart + m < value) (hle : value ≤ bmStart + p.member) :
    Seeks ces bmStart value (some bp) ↔ bp.bpAtEnd = false := by
  have hmembers := p.membersOf_eq
  have hmem : p.member ∈ rowMembers (encodeRow ces) := by
    rw [h.rowMembers_eq_membersOf, hmembers]
    simp
  constructor
  · rintro ⟨bp', heq, hfound, -⟩
    obtain rfl := Option.some_inj.1 heq
    exact (hfound ⟨p.member, hmem, hle⟩).1
  · intro hend
    refine ⟨bp, rfl, fun _ => ⟨hend, p.member, ⟨⟨hmem, hle⟩, ?_⟩, p, rfl, hp⟩, fun hall => ?_⟩
    · rintro m ⟨hm, hm'⟩
      have hasc := h.pairwise_membersOf
      rw [h.rowMembers_eq_membersOf, hmembers] at hm
      rw [hmembers] at hasc
      rcases List.mem_append.1 hm with hm | hm
      · exact absurd (hbelow m hm) (not_lt.2 hm')
      · rcases List.mem_cons.1 hm with rfl | hm
        · exact le_rfl
        · exact ((List.pairwise_cons.1 (List.pairwise_append.1 hasc).2.1).1 m hm).le
    · exact absurd (hall _ hmem) (not_lt.2 hle)

/-- A seek beyond all members. -/
theorem seeks_none_iff (h : EntriesOk ces) {p : Place ces} (hp : p.Holds bmStart bp)
    (hall : ∀ m ∈ membersOf ces, bmStart + m < value) :
    Seeks ces bmStart value (some bp) ↔ bp.bpAtEnd = true := by
  rw [← h.rowMembers_eq_membersOf] at hall
  constructor
  · rintro ⟨bp', heq, -, hnone⟩
    obtain rfl := Option.some_inj.1 heq
    exact (hnone hall).1
  · intro hend
    refine ⟨bp, rfl, ?_, fun _ => ⟨hend, p.member, p, rfl, hp⟩⟩
    rintro ⟨m, hm, hle⟩
    exact absurd (hall m hm) (not_lt.2 hle)

/-- A seek that says it is at the end is wrong if there is a member. -/
theorem not_seeks_of_atEnd (h : EntriesOk ces) {m : ℕ} (hm : m ∈ membersOf ces)
    (hle : value ≤ bmStart + m)
    (hend : bp.bpAtEnd = true) : ¬ Seeks ces bmStart value (some bp) := by
  rintro ⟨bp', heq, hfound, -⟩
  obtain rfl := Option.some_inj.1 heq
  rw [← h.rowMembers_eq_membersOf] at hm
  have hfalse := (hfound ⟨m, hm, hle⟩).1
  rw [hend] at hfalse
  cases hfalse

/-- The value is in the range of an entry and above its bits, and the next entry is
not a single one. -/
def SkipsNext (bmStart : ℤ) (ces : List Ce) (value : ℤ) : Prop :=
  ∃ before c d rest, ces = before ++ c :: d :: rest ∧ bmStart + c.offset ≤ value ∧
    value < bmStart + c.offset + ceNValues ∧ (∀ b ∈ c.bits, bmStart + (c.offset + b : ℕ) < value) ∧
    d.isSingle = false

/-- In the range of an entry, the seek skips the next one or does not. -/
theorem skipsNext_iff {v : ℕ} (h : EntriesOk (before ++ c :: rest)) (hle : c.offset ≤ v)
    (hlt : v < c.offset + ceNValues) :
    SkipsNext bmStart (before ++ c :: rest) (bmStart + v) ↔
      (∀ b ∈ c.bits, c.offset + b < v) ∧ ∃ d rest', rest = d :: rest' ∧ d.isSingle = false := by
  constructor
  · rintro ⟨before', c', d, rest', heq, hle', hlt', hbits, hd⟩
    have hbefore : c' ∉ before := fun hmem => by
      have := h.around.1 c' hmem
      omega
    have hrest : c' ∉ rest := fun hmem => by
      have := h.around.2 c' hmem
      omega
    obtain ⟨-, rfl, rfl⟩ := (List.append_cons_inj_of_notMem hbefore hrest).1 heq
    refine ⟨fun b hb => ?_, d, rest', rfl, hd⟩
    have := hbits b hb
    omega
  · rintro ⟨hbits, d, rest', rfl, hd⟩
    refine ⟨before, c, d, rest', rfl, by omega, by omega, fun b hb => ?_, hd⟩
    have := hbits b hb
    omega

section

variable (h : EntriesOk (before ++ c :: rest)) (hmin : bitnoMin ≤ bmStart)
include h hmin

/-- A seek to a value in the range of an entry. -/
theorem seekUpInCe_seeks_iff {v : ℕ}
    (hs : StopsAt bmStart (bmStart + v) (before ++ c :: rest) before (c :: rest))
    (hle : c.offset ≤ v) (hoff : bp.bpCeOffset = rowLength before) :
    Seeks (before ++ c :: rest) bmStart (bmStart + v)
        (some (seekUpInCe bp (encodeRow (before ++ c :: rest)) bmStart (bmStart + v)
          (rowLength before))) ↔
      ¬ SkipsNext bmStart (before ++ c :: rest) (bmStart + v) := by
  have hc := h.ok c (by simp)
  have hlt : v < c.offset + ceNValues := by
    have := hs.after c (by simp)
    omega
  have hbelow : ∀ m ∈ membersOf before, bmStart + (m : ℤ) < bmStart + v := fun m hm =>
    hs.lt_of_mem h hm
  have hsought := plCeSet_sought bmStart bp (encodeRow rest) hc hle hlt
  rw [skipsNext_iff h hle hlt, seekUpInCe, drop_encodeRow (EntriesOk.append_iff.1 h).1,
    Ce.ceLength_encode hc.fits]
  generalize (plCeSet bp (c.encode ++ encodeRow rest) bmStart (bmStart + v) true).1 =
    bp' at hsought ⊢
  rw [hoff] at hsought
  cases hsought with
  | @found low high b hbits hat hlow hge hflags =>
    let p : Place (before ++ c :: rest) := ⟨before, c, rest, low, b, high, rfl, hbits⟩
    have hpbelow : ∀ m ∈ p.below, bmStart + (m : ℤ) < bmStart + v := fun m hm => by
      rcases List.mem_append.1 hm with hm | hm
      · exact hbelow m hm
      · obtain ⟨x, hx, rfl⟩ := List.mem_map.1 hm
        have : c.offset + x < v := hlow x hx
        change bmStart + ((c.offset + x : ℕ) : ℤ) < bmStart + v
        omega
    have hple : bmStart + (v : ℤ) ≤ bmStart + p.member := by
      change bmStart + (v : ℤ) ≤ bmStart + ((c.offset + b : ℕ) : ℤ)
      omega
    have hnot : ¬ ((∀ x ∈ c.bits, c.offset + x < v) ∧ ∃ d rest', rest = d :: rest' ∧
      d.isSingle = false) :=
      fun hskip => absurd (hskip.1 b (by rw [hbits]; simp)) (not_lt.2 hge)
    by_cases hbs : bp'.bpBelowStart = true
    · rw [if_pos hbs]
      exact iff_of_true ((seeks_found_iff h (p := p) (hat.setAtEnd false) hpbelow hple).2 rfl) hnot
    · have hae := hflags.resolve_left hbs
      rw [if_neg hbs, if_pos (by simp [hae])]
      exact iff_of_true ((seeks_found_iff h (p := p) hat hpbelow hple).2 hae) hnot
  | @none low b hbits hat hall hbs hae =>
    have hbelow' : ∀ m ∈ membersOf (before ++ [c]), bmStart + (m : ℤ) < bmStart + v :=
      fun m hm => by
      rcases mem_membersOf_append.1 hm with hm | hm
      · exact hbelow m hm
      · obtain ⟨e, he, x, hx, rfl⟩ := mem_membersOf.1 hm
        obtain rfl := List.mem_singleton.1 he
        have := hall x hx
        omega
    rw [if_neg (by simp [hbs]), if_neg (by simp [hae])]
    cases rest with
    | nil =>
      let p : Place (before ++ [c]) := ⟨before, c, [], low, b, [], rfl, hbits⟩
      have hlen : (encodeRow (before ++ [c])).length ≤ rowLength before + c.length := by
        rw [h.length_encodeRow, rowLength_append, rowLength_singleton]
      rw [if_pos hlen]
      refine iff_of_true ((seeks_none_iff h (p := p) (hat.setAtEnd true) hbelow').2 rfl) ?_
      rintro ⟨-, d, rest', hnil, -⟩
      cases hnil
    | cons d rest =>
      have hassoc : before ++ c :: d :: rest = before ++ [c] ++ d :: rest := by simp
      have hlen : ¬ (encodeRow (before ++ c :: d :: rest)).length ≤
        rowLength before + c.length := by
        have := d.length_pos
        rw [h.length_encodeRow, rowLength_append, rowLength_cons, rowLength_cons]
        omega
      have hlen' : rowLength before + c.length = rowLength (before ++ [c]) := by
        rw [rowLength_append, rowLength_singleton]
      have hd := h.ok d (by simp)
      obtain ⟨b', bs, hdbits⟩ := List.exists_cons_of_ne_nil hd.bits_ne_nil
      have hcd := h.around.2 d (by simp)
      let q : Place (before ++ c :: d :: rest) :=
        ⟨before ++ [c], d, rest, [], b', bs, hassoc, hdbits⟩
      have hqbelow : ∀ m ∈ q.below, bmStart + (m : ℤ) < bmStart + v := fun m hm => by
        refine hbelow' m ?_
        simpa [q, Place.below] using hm
      have hqle : bmStart + (v : ℤ) ≤ bmStart + q.member := by
        change bmStart + (v : ℤ) ≤ bmStart + ((d.offset + b' : ℕ) : ℤ)
        omega
      rw [if_neg hlen, hlen', hassoc]
      rw [hassoc] at h
      rw [drop_encodeRow (EntriesOk.append_iff.1 h).1]
      rw [← hassoc] at h ⊢
      have hat' := plCeSet_first { bp' with bpCeOffset := rowLength (before ++ [c]) }
        (encodeRow rest) hd
        hmin (b := b') (by rw [hdbits, List.head?_cons])
      have hatEnd := plCeSet_first_atEnd bmStart
        { bp' with bpCeOffset := rowLength (before ++ [c]) }
        (encodeRow rest) hd (by omega)
      rw [seeks_found_iff h (p := q) hat' hqbelow hqle, hatEnd]
      constructor
      · rintro hsingle ⟨-, e, rest', heq, he⟩
        obtain ⟨rfl, rfl⟩ := List.cons.inj heq
        simp [he] at hsingle
      · intro hnot
        by_contra hsingle
        exact hnot ⟨hall, d, rest, rfl, by simpa using hsingle⟩

section

variable (hs : StopsAt bmStart value (before ++ c :: rest) before (c :: rest))
  (hgap : value < bmStart + c.offset)
include hs hgap

/-- A seek to a value in the gap before an entry. -/
theorem seeks_gap (hoff : bp.bpCeOffset = rowLength before) :
    Seeks (before ++ c :: rest) bmStart value
      (some { (plCeSet bp (c.encode ++ encodeRow rest) bmStart bitnoMin true).1 with
        bpAtEnd := false }) := by
  have hc := h.ok c (by simp)
  obtain ⟨b, bs, hbits⟩ := List.exists_cons_of_ne_nil hc.bits_ne_nil
  have hat := plCeSet_first bp (encodeRow rest) hc hmin (b := b) (by rw [hbits, List.head?_cons])
  rw [hoff] at hat
  let p : Place (before ++ c :: rest) := ⟨before, c, rest, [], b, bs, rfl, hbits⟩
  refine (seeks_found_iff h (p := p) (hat.setAtEnd false) (fun m hm => ?_) ?_).2 rfl
  · exact hs.lt_of_mem h (by simpa [p, Place.below] using hm)
  · change value ≤ bmStart + ((c.offset + b : ℕ) : ℤ)
    omega

omit hmin in
/-- A value in a gap is in the range of no entry. -/
theorem not_in_range_of_gap {d : Ce} (hd : d ∈ before ++ c :: rest)
    (hle : bmStart + d.offset ≤ value) : bmStart + d.offset + ceNValues ≤ value := by
  rcases List.mem_append.1 hd with hd | hd
  · exact hs.before d hd
  · rcases List.mem_cons.1 hd with rfl | hd
    · omega
    · have := h.around.2 d hd
      omega

end

end

/-- A seek that runs off the row ends on the last bit. -/
theorem seeks_past (h : EntriesOk (before ++ [c]))
    (hs : StopsAt bmStart value (before ++ [c]) (before ++ [c]) []) (hvalue : value ≤ bitnoMax)
    (hoff : bp.bpCeOffset = rowLength before) :
    Seeks (before ++ [c]) bmStart value
      (some (plCeSet bp (c.encode ++ encodeRow []) bmStart bitnoMax true).1) := by
  have hc := h.ok c (by simp)
  have hmax := (hs.before c (by simp)).trans hvalue
  obtain ⟨low, b, hbits⟩ := (List.eq_nil_or_concat' c.bits).resolve_left hc.bits_ne_nil
  have hat := plCeSet_last bp (encodeRow []) hc hmax (b := b)
    (by rw [hbits, List.getLast?_concat]) true
  rw [hoff, hbits, List.length_append, List.length_singleton, Nat.add_sub_cancel] at hat
  let p : Place (before ++ [c]) := ⟨before, c, [], low, b, [], rfl, hbits⟩
  exact (seeks_none_iff h (p := p) hat fun m hm => hs.lt_of_mem h hm).2
    (plCeSet_last_atEnd bmStart bp (encodeRow []) hc hmax)

end Seeks

/-- **Seeking a bit.**  Going up, `pl_set_at_bit` finds the least member that is not
below the value, or that there is none, unless it skips the next entry. -/
theorem plSetAtBit_seeks_iff {bmStart : ℤ} {ces : List Ce} (h : EntriesOk ces) (hne : ces ≠ [])
    (hr : RowInt64 bmStart ces) {value : ℤ} (hvalue : value ≤ bitnoMax) (bp : BmPos) :
    Seeks ces bmStart value (plSetAtBit bp (encodeRow ces) bmStart value false) ↔
      ¬ SkipsNext bmStart ces value := by
  obtain ⟨before, after, hs⟩ := exists_stopsAt bmStart value ces
  obtain rfl := hs.eq
  obtain ⟨fuel, bp', hseek⟩ := plSetAtBit_passes h hne hs bp
  rw [hseek]
  cases after with
  | nil =>
    rw [List.append_nil] at h hne hr hs ⊢
    obtain ⟨pre, c, rfl⟩ := (List.eq_nil_or_concat' before).resolve_left hne
    have hlast : lastStart (pre ++ [c]) = some (rowLength pre) := by simp [lastStart]
    rw [seekUp, h.length_encodeRow, if_neg (lt_irrefl _), hlast, Option.map_some,
      drop_encodeRow (EntriesOk.append_iff.1 h).1]
    refine iff_of_true (seeks_past h hs hvalue rfl) ?_
    rintro ⟨before', c', d, rest', heq, hle, hlt, -⟩
    have := hs.before c' (by rw [heq]; simp)
    omega
  | cons c rest =>
    rw [seekUp_cons bmStart value h]
    by_cases hgap : value < bmStart + c.offset
    · rw [if_neg (by omega), if_pos hgap]
      refine iff_of_true (seeks_gap h hr.min hs hgap rfl) ?_
      rintro ⟨before', c', d, rest', heq, hle, hlt, -⟩
      have := not_in_range_of_gap h hs hgap (d := c') (by rw [heq]; simp) hle
      omega
    · obtain ⟨v, rfl⟩ : ∃ v : ℕ, value = bmStart + v := ⟨(value - bmStart).toNat, by omega⟩
      rw [if_pos ⟨not_lt.1 hgap, hs.after c (by simp)⟩,
        seekUpInCe_seeks_iff h hr.min hs (by omega) rfl]

/-- A position that is on no row. -/
def BmPos.start : BmPos := ⟨0, 0, 0, .single, false, false, false⟩

/-- Seeks from below all members, to the single CE, to a bit of the array and beyond
all of them. -/
theorem plSetAtBit_seeks_array :
    EntriesOk [.single 5, .array 8192 [0, 1]] ∧ RowInt64 0 [.single 5, .array 8192 [0, 1]] ∧
      ∀ value ∈ [-7, 5, 8193, 8194, bitnoMax], Seeks [.single 5, .array 8192 [0, 1]] 0 value
        (plSetAtBit .start (encodeRow [.single 5, .array 8192 [0, 1]]) 0 value false) := by
  have hr : RowInt64 0 [.single 5, .array 8192 [0, 1]] := ⟨by decide, by decide⟩
  refine ⟨entriesOk_array, hr, fun value hvalue => ?_⟩
  have hmax : value ≤ bitnoMax := by
    revert value
    decide
  refine (plSetAtBit_seeks_iff entriesOk_array (by simp) hr hmax .start).2 ?_
  rintro ⟨before, c, d, rest, heq, hle, hlt, hbits, -⟩
  -- only the single CE has one after it
  obtain ⟨rfl, rfl⟩ : before = [] ∧ c = .single 5 := by
    match before, heq with
    | [], heq => exact ⟨rfl, (List.cons.inj heq).1.symm⟩
    | [_], heq => simp at heq
    | _ :: _ :: _, heq => simp at heq
  have h5 := hbits 5 (by decide)
  simp only [Ce.offset, ceNValues] at h5 hlt
  simp only [List.mem_cons, List.not_mem_nil, or_false] at hvalue
  rcases hvalue with rfl | rfl | rfl | rfl | rfl
  all_goals revert h5 hlt; decide

/-- The seek for 6 in the row of 5, 8192 and 8193, whose second CE is an array: it
ends on 8192 and says that there is no member. -/
theorem plSetAtBit_skips_array :
    EntriesOk [.single 5, .array 8192 [0, 1]] ∧ RowInt64 0 [.single 5, .array 8192 [0, 1]] ∧
      (plSetAtBit .start (encodeRow [.single 5, .array 8192 [0, 1]]) 0 6 false).map
        (fun bp => (bp.bpValue, bp.bpAtEnd)) = some (8192, true) ∧
      ¬ Seeks [.single 5, .array 8192 [0, 1]] 0 6
        (plSetAtBit .start (encodeRow [.single 5, .array 8192 [0, 1]]) 0 6 false) := by
  have h := entriesOk_array
  have heval : (plSetAtBit .start (encodeRow [.single 5, .array 8192 [0, 1]]) 0 6 false).map
      (fun bp => (bp.bpValue, bp.bpAtEnd)) = some (8192, true) := by decide +kernel
  refine ⟨h, ⟨by decide, by decide⟩, heval, fun hseeks => ?_⟩
  cases hres : plSetAtBit .start (encodeRow [.single 5, .array 8192 [0, 1]]) 0 6 false with
  | none =>
    rw [hres] at heval
    cases heval
  | some bp =>
    rw [hres] at heval hseeks
    have hend : bp.bpAtEnd = true := (Prod.mk.inj (Option.some_inj.1 heval)).2
    exact not_seeks_of_atEnd h (m := 8192) (by decide) (by decide) hend hseeks

end Virtuoso.Bitmap
