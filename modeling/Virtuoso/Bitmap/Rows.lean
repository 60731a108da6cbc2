import Virtuoso.Bitmap.Reading
import Virtuoso.Lib.Machine

/-!
# The rows of a bitmap index over whole runs

The state is the list of rows that one row has become.  A run starts with the
row that `itc_bm_insert_single` makes; its steps are the inserts that
`itc_bm_insert_in_row` passes to `bm_insert`, with the rows it makes of a split,
and the deletes of `itc_bm_delete`.

Rows stay well formed in every run that does not insert in front of the only CE
of a row that is full.
-/

namespace Virtuoso.Bitmap

open Lib

variable {ces before : List Ce}

/-- A row: its start and its bitmap string. -/
structure Row where
  bmStart : ℤ
  bm : List ℕ
deriving DecidableEq, Repr

/-- `CE_ROUND`. -/
def ceRound (n : ℤ) : ℤ := n / ceNValues * ceNValues

/-- The row that `itc_bm_insert_single` makes. -/
def itcBmInsertSingle (value : ℤ) : Row :=
  let bmStart := ceRound value
  ⟨bmStart, longSetNa (0x80000000 ||| (value - bmStart).toNat)⟩

/-- The loop of `itc_bm_insert_in_row` that sets the offsets of the right half of
a split to its new start.  `none` is a loop that does not end. -/
def rebaseLoop (delta : ℤ) : ℕ → ℕ → List ℕ → Option (List ℕ)
  | 0, _, _ => none
  | fuel + 1, pos, ext =>
    if pos < ext.length then
      let r := ((ceOffset (ext.drop pos) - delta) % 2 ^ 64).toNat
      let ext := ext.take pos ++ ceSetOffset (ext.drop pos) r
      rebaseLoop delta fuel (pos + ceLength (ext.drop pos)) ext
    else some ext

/-- `itc_bm_insert_in_row` for a value in the range of the row: the rows that the
row becomes. -/
def itcBmInsertInRow (row : Row) (value bytesAvailable : ℤ) : Option (List Row) := do
  match ← bmInsert row.bmStart row.bm value bytesAvailable with
  | .fits bm => return [⟨row.bmStart, bm⟩]
  | .extended ext => return [⟨row.bmStart, ext⟩]
  | .split left ext =>
    let rStart := row.bmStart + ceOffset ext
    let ext ← rebaseLoop (rStart - row.bmStart) (ext.length + 1) 0 ext
    return [⟨row.bmStart, left⟩, ⟨rStart, ext⟩]

/-- `itc_bm_delete`: a row that went empty is deleted. -/
def itcBmDelete (row : Row) (value : ℤ) : Option (List Row) := do
  match ← bmDelete row.bmStart row.bm value with
  | .less => return [row]
  | .matched bm => if bm = [] then return [] else return [⟨row.bmStart, bm⟩]

variable {value bmStart : ℤ} {delta v n : ℕ} {after : List Ce}

theorem itcBmInsertInRow_split {row : Row} {bytesAvailable : ℤ} {left right ext : List ℕ}
    (h : bmInsert row.bmStart row.bm value bytesAvailable = some (.split left right))
    (hext : rebaseLoop (row.bmStart + ceOffset right - row.bmStart) (right.length + 1) 0 right =
      some ext) :
    itcBmInsertInRow row value bytesAvailable =
      some [⟨row.bmStart, left⟩, ⟨row.bmStart + ceOffset right, ext⟩] := by
  rw [itcBmInsertInRow, h]
  simp only [Option.bind_eq_bind, Option.bind_some, hext, Option.pure_def]

theorem itcBmDelete_matched {row : Row} {value : ℤ} {bm : List ℕ}
    (h : bmDelete row.bmStart row.bm value = some (.matched bm)) :
    itcBmDelete row value = some (if bm = [] then [] else [⟨row.bmStart, bm⟩]) := by
  rw [itcBmDelete, h]
  simp only [Option.bind_eq_bind, Option.bind_some]
  split_ifs <;> rfl

def Row.Has (row : Row) (value : ℤ) : Prop :=
  ∃ m ∈ rowMembers row.bm, value = row.bmStart + m

instance (row : Row) (value : ℤ) : Decidable (row.Has value) :=
  inferInstanceAs (Decidable (∃ m ∈ rowMembers row.bm, value = row.bmStart + m))

/-- What happens to the rows: an insert in the row `i` or a delete from it. -/
inductive Action where
  | insert (i : ℕ) (value bytesAvailable : ℤ)
  | delete (i : ℕ) (value : ℤ)
deriving DecidableEq, Repr

def IsInt64 (value : ℤ) : Prop := -2 ^ 63 ≤ value ∧ value < 2 ^ 63

instance : DecidablePred IsInt64 := fun _ => inferInstanceAs (Decidable (_ ∧ _))

/-- A row that an action may be performed on: a value that is inserted is in the
range of the row, and a value that is deleted is there. -/
def Enabled (row : Row) : Action → Prop
  | .insert _ value _ =>
    IsInt64 value ∧ row.bmStart ≤ value ∧ value < row.bmStart + 0x10000000
  | .delete _ value => row.Has value

instance (row : Row) : DecidablePred (Enabled row)
  | .insert _ _ _ => inferInstanceAs (Decidable (_ ∧ _))
  | .delete _ value => inferInstanceAs (Decidable (row.Has value))

def Action.row : Action → ℕ
  | .insert i _ _ => i
  | .delete i _ => i

/-- The rows that a row becomes. -/
def perform (row : Row) : Action → Option (List Row)
  | .insert _ value bytesAvailable => itcBmInsertInRow row value bytesAvailable
  | .delete _ value => itcBmDelete row value

def rowMachine : Machine (List Row) Action where
  Init s := ∃ value, IsInt64 value ∧ s = [itcBmInsertSingle value]
  Step s a s' := ∃ pre row post rows, s = pre ++ row :: post ∧ pre.length = a.row ∧
    Enabled row a ∧ perform row a = some rows ∧ s' = pre ++ (rows ++ post)

/-! ## The right half of a split -/

namespace Ce

/-- The entry in a row that starts `delta` bits further on. -/
def rebase (delta : ℕ) : Ce → Ce
  | .single value => .single (value - delta)
  | .array offset bits => .array (offset - delta) bits
  | .bitmap offset bytes => .bitmap (offset - delta) bytes

variable {c : Ce} {delta : ℕ}

@[simp] theorem length_rebase : (c.rebase delta).length = c.length := by
  cases c <;> rfl

theorem Dense.rebase (h : c.Dense) : (c.rebase delta).Dense := by
  cases c with
  | single value => trivial
  | array offset bits => trivial
  | bitmap offset bytes => exact h

theorem offset_rebase (hmod : delta % ceNValues = 0) :
    (c.rebase delta).offset = c.offset - delta := by
  cases c with
  | single value =>
    simp only [rebase, offset, ceNValues] at *
    omega
  | array offset bits => rfl
  | bitmap offset bytes => rfl

theorem Ok.rebase (h : c.Ok) (hmod : delta % ceNValues = 0) : (c.rebase delta).Ok := by
  cases c with
  | single value => exact (Nat.sub_le value delta).trans_lt h
  | array offset bits =>
    exact ⟨(Nat.sub_le offset delta).trans_lt h.1,
      Nat.sub_mod_eq_zero_of_mod_eq (h.2.1.trans hmod.symm), h.2.2⟩
  | bitmap offset bytes =>
    exact ⟨(Nat.sub_le offset delta).trans_lt h.1,
      Nat.sub_mod_eq_zero_of_mod_eq (h.2.1.trans hmod.symm), h.2.2⟩

/-- `CE_SET_OFFSET` rebases an entry. -/
theorem Ok.ceSetOffset_encode (h : c.Ok) (hmod : delta % ceNValues = 0) (hle : delta ≤ c.offset)
    (rest : List ℕ) :
    ceSetOffset (c.encode ++ rest) (c.offset - delta) = (c.rebase delta).encode ++ rest := by
  have hlt : c.offset - delta < 2 ^ 31 := (Nat.sub_le _ _).trans_lt h.offset_lt
  have hoff : (c.offset - delta) % 2 ^ 13 = 0 := by
    have := h.offset_mod
    simp only [ceNValues] at *
    omega
  cases c with
  | single value =>
    simp only [Ok] at h
    rw [encode, ceSetOffset_word32 (by omega) hlt hoff, Ce.rebase, encode]
    simp only [offset, ceNValues] at *
    congr 2
    omega
  | array offset bits =>
    have hlen : bits.length ≤ 512 := h.2.2.2.2
    obtain ⟨h₁, h₂, -⟩ := h
    simp only [Ce.offset, ceNValues] at *
    rw [encode, List.append_assoc, ceSetOffset_word32 (by simp only [ceArrayMask]; omega) hlt hoff,
      Ce.rebase, encode, List.append_assoc]
    congr 2
    simp only [ceArrayMask]
    omega
  | bitmap offset bytes =>
    obtain ⟨h₁, h₂, -⟩ := h
    simp only [Ce.offset, ceNValues] at *
    have hw : (offset + 0x1000 + ceMaxLength) / 2 ^ 31 * 2 ^ 31 + (offset - delta) +
        (offset + 0x1000 + ceMaxLength) % 2 ^ 13 = offset - delta + 0x1000 + ceMaxLength := by
      simp only [ceMaxLength]
      omega
    rw [encode, List.append_assoc, ceSetOffset_word32 (by simp only [ceMaxLength]; omega) hlt hoff,
      Ce.rebase, encode, List.append_assoc, hw]

end Ce

/-- The loop rebases the entries from its position on. -/
theorem rebaseLoop_spec (done : List Ce) {rest : List Ce} {fuel : ℕ} (hdone : ∀ c ∈ done, c.Ok)
    (hrest : ∀ c ∈ rest, c.Ok) (hmod : delta % ceNValues = 0) (hle : ∀ c ∈ rest, delta ≤ c.offset)
    (hfuel : rest.length < fuel) :
    rebaseLoop delta fuel (rowLength done) (encodeRow (done ++ rest)) =
      some (encodeRow (done ++ rest.map (Ce.rebase delta))) := by
  induction rest generalizing done fuel with
  | nil =>
    obtain ⟨fuel, rfl⟩ := Nat.exists_eq_succ_of_ne_zero (by omega : fuel ≠ 0)
    rw [rebaseLoop, List.append_nil, length_encodeRow_of_ok hdone, if_neg (lt_irrefl _),
      List.map_nil, List.append_nil]
  | cons c rest ih =>
    obtain ⟨fuel, rfl⟩ := Nat.exists_eq_succ_of_ne_zero (by omega : fuel ≠ 0)
    have hc := hrest c (by simp)
    have hcle := hle c (by simp)
    have hdlen := length_encodeRow_of_ok hdone
    have hlt : rowLength done < (encodeRow (done ++ c :: rest)).length := by
      have := (Ce.length_encode hc.fits).symm ▸ c.length_pos
      rw [encodeRow_append, encodeRow_cons, List.length_append, List.length_append, hdlen]
      omega
    have hdrop : (encodeRow (done ++ c :: rest)).drop (rowLength done) =
      c.encode ++ encodeRow rest := by
      rw [encodeRow_append, encodeRow_cons]
      exact List.drop_left' hdlen
    have htake : (encodeRow (done ++ c :: rest)).take (rowLength done) = encodeRow done := by
      rw [encodeRow_append]
      exact List.take_left' hdlen
    have hr : (((c.offset : ℤ) - delta) % 2 ^ 64).toNat = c.offset - delta := by
      have := hc.offset_lt
      rw [← Nat.cast_sub hcle, Int.emod_eq_of_lt (by omega) (by omega), Int.toNat_natCast]
    have hlen : ceLength ((c.rebase delta).encode ++ encodeRow rest) = c.length := by
      rw [Ce.ceLength_encode (hc.rebase hmod).fits, Ce.length_rebase]
    rw [rebaseLoop, if_pos hlt]
    simp only [hdrop, htake, Ce.ceOffset_encode hc.fits, hr, hc.ceSetOffset_encode hmod hcle]
    rw [List.drop_left' hdlen, hlen]
    have hdone' : ∀ d ∈ done ++ [c.rebase delta], d.Ok := fun d hd => by
      rcases List.mem_append.1 hd with hd | hd
      · exact hdone d hd
      · exact List.mem_singleton.1 hd ▸ hc.rebase hmod
    have := ih _ hdone' (fun d hd => hrest d (by simp [hd])) (fun d hd => hle d (by simp [hd]))
      (by simpa using hfuel)
    rw [rowLength_append, rowLength_cons, Ce.length_rebase, rowLength_nil, Nat.add_zero,
      List.append_assoc, List.singleton_append, encodeRow_append, encodeRow_cons] at this
    rw [this]
    simp

section

variable (h : EntriesOk ces) (hmod : delta % ceNValues = 0) (hle : ∀ c ∈ ces, delta ≤ c.offset)
include h hmod hle

theorem EntriesOk.rebaseLoop_eq :
    rebaseLoop delta ((encodeRow ces).length + 1) 0 (encodeRow ces) =
      some (encodeRow (ces.map (Ce.rebase delta))) := by
  refine rebaseLoop_spec [] (by simp) h.ok hmod hle (Nat.lt_succ_of_le ?_)
  rw [h.length_encodeRow]
  exact length_le_rowLength _

theorem EntriesOk.rebase : EntriesOk (ces.map (Ce.rebase delta)) := by
  refine ⟨fun c hc => ?_, List.pairwise_map.2 (h.asc.imp_of_mem fun {c d} hc hd hlt => ?_)⟩
  · obtain ⟨d, hd, rfl⟩ := List.mem_map.1 hc
    exact (h.ok d hd).rebase hmod
  · rw [Ce.offset_rebase hmod, Ce.offset_rebase hmod]
    exact Nat.sub_lt_sub_right (hle c hc) hlt

end

theorem rowLength_rebase (ces : List Ce) (delta : ℕ) :
    rowLength (ces.map (Ce.rebase delta)) = rowLength ces := by
  simp [rowLength, Function.comp_def]

/-! ## One step -/

/-- The entries of a row over runs: well formed, no sparse bitmap, and neither
none nor too many. -/
structure Row.Shape (row : Row) (ces : List Ce) : Prop where
  bm : row.bm = encodeRow ces
  ok : EntriesOk ces
  dense : ∀ c ∈ ces, c.Dense
  ne : ces ≠ []
  le : rowLength ces ≤ ceMaxLength

/-- The row is one CE with no room for another, and the value is below the CE. -/
def Row.Tight (row : Row) (value : ℤ) : Prop :=
  ceLength row.bm = row.bm.length ∧ ceMaxLength - 4 < row.bm.length ∧
    value < row.bmStart + ceOffset row.bm

instance (row : Row) (value : ℤ) : Decidable (row.Tight value) :=
  inferInstanceAs (Decidable (_ ∧ _))

/-- The value is not inserted in front of the only CE of a full row. -/
def Row.Allows (row : Row) : Action → Prop
  | .insert _ value _ => ¬ row.Tight value
  | .delete _ _ => True

instance (row : Row) : DecidablePred row.Allows
  | .insert _ _ _ => inferInstanceAs (Decidable (¬ _))
  | .delete _ _ => inferInstanceAs (Decidable True)

/-- The rows that are inserted into or deleted from allow it. -/
def Allowed (s : List Row) (a : Action) : Prop := ∀ row ∈ s[a.row]?, row.Allows a

theorem mem_insertAt (hl : Located ces v before after) {d : Ce} (hd : d ∈ insertAt before after v) :
    d ∈ ces ∨ d = .single v ∨
      ∃ c ∈ ces, c.offset ≤ v ∧ v < c.offset + ceNValues ∧ d = c.add (v - c.offset) := by
  obtain rfl := hl.eq
  match after, hl with
  | [], _ =>
    rcases List.mem_append.1 hd with hd | hd
    · exact .inl (by simp [hd])
    · exact .inr (.inl (by simpa using hd))
  | c :: rest, hl =>
    rw [insertAt] at hd
    split_ifs at hd with hlt
    · simp only [List.mem_append, List.mem_cons] at hd ⊢
      tauto
    · have hadd : c.offset ≤ v ∧ v < c.offset + ceNValues := ⟨not_lt.1 hlt, hl.after c (by simp)⟩
      rcases List.mem_append.1 hd with hd | hd
      · exact .inl (by simp [hd])
      · rcases List.mem_cons.1 hd with rfl | hd
        · exact .inr (.inr ⟨c, by simp, hadd.1, hadd.2, rfl⟩)
        · exact .inl (by simp [hd])

theorem insertAt_ne_nil (before after : List Ce) (v : ℕ) : insertAt before after v ≠ [] := by
  match after with
  | [] => simp [insertAt]
  | c :: rest =>
    rw [insertAt]
    split_ifs <;> simp

namespace Row.Shape

variable {row : Row} {ces : List Ce}

/-- A row whose entries are as they should be is well formed. -/
theorem rowWellFormed (h : row.Shape ces) : RowWellFormed row.bm := by
  rw [h.bm]
  exact h.ok.rowWellFormed h.ne h.le

/-- The part of the entries that stays in the row. -/
theorem left {l r : List Ce} (hok : EntriesOk (l ++ r)) (hd : ∀ c ∈ l ++ r, c.Dense) (hl : l ≠ [])
    (hlen : rowLength l ≤ ceMaxLength) : Row.Shape ⟨bmStart, encodeRow l⟩ l :=
  ⟨rfl, (EntriesOk.append_iff.1 hok).1, fun c hc => hd c (by simp [hc]), hl, hlen⟩

/-- The part of the entries that moves to a new row, rebased. -/
theorem right {l r : List Ce} (hok : EntriesOk (l ++ r)) (hd : ∀ c ∈ l ++ r, c.Dense) (hr : r ≠ [])
    (hlen : rowLength r ≤ ceMaxLength) :
    ∃ ext, rebaseLoop (bmStart + ceOffset (encodeRow r) - bmStart) ((encodeRow r).length + 1) 0
        (encodeRow r) = some ext ∧
      ∃ ces, Row.Shape ⟨bmStart + ceOffset (encodeRow r), ext⟩ ces := by
  obtain ⟨c, r, rfl⟩ := List.exists_cons_of_ne_nil hr
  have hrok := (EntriesOk.append_iff.1 hok).2.1
  have hc := hrok.ok c (by simp)
  have hoff : ceOffset (encodeRow (c :: r)) = c.offset := by
    rw [encodeRow_cons, Ce.ceOffset_encode hc.fits]
  have hle : ∀ d ∈ c :: r, c.offset ≤ d.offset := fun d hd => by
    rcases List.mem_cons.1 hd with rfl | hd
    · exact le_rfl
    · exact ((List.pairwise_cons.1 hrok.asc).1 d hd).le
  rw [hoff, add_sub_cancel_left]
  refine ⟨_, hrok.rebaseLoop_eq hc.offset_mod hle, _, rfl, hrok.rebase hc.offset_mod hle, ?_,
    by simp, ?_⟩
  · intro d hmem
    obtain ⟨e, he, rfl⟩ := List.mem_map.1 hmem
    exact (hd e (by simp [List.mem_cons.1 he])).rebase
  · exact (rowLength_rebase (c :: r) c.offset).trans_le hlen

section

variable (h : row.Shape ces)
include h

theorem not_cornered (htight : ¬ row.Tight (row.bmStart + v)) : ¬ Cornered ces v := by
  rintro ⟨c, rfl, hlong, hvc⟩
  have hc := h.ok.ok c (by simp)
  have hlen := h.ok.length_encodeRow
  rw [rowLength_cons, rowLength_nil, Nat.add_zero] at hlen
  refine htight ⟨?_, ?_, ?_⟩
  · rw [h.bm, hlen, encodeRow_cons, Ce.ceLength_encode hc.fits]
  · rwa [h.bm, hlen]
  · rw [h.bm, encodeRow_cons, Ce.ceOffset_encode hc.fits]
    omega

theorem dense_insertAt (hl : Located ces v before after) :
    ∀ d ∈ insertAt before after v, d.Dense := by
  intro d hd
  rcases mem_insertAt hl hd with hd | rfl | ⟨c, hc, hle, hlt, rfl⟩
  · exact h.dense d hd
  · trivial
  · exact (h.dense c hc).add (h.ok.ok c hc) (by omega)

/-- An insert that is allowed returns, and leaves well-formed rows. -/
theorem insert (hge : row.bmStart ≤ value) (hlt : value < row.bmStart + 0x10000000)
    (htight : ¬ row.Tight value) (bytesAvailable : ℤ) :
    ∃ rows, itcBmInsertInRow row value bytesAvailable = some rows ∧
      ∀ r ∈ rows, ∃ ces, r.Shape ces := by
  obtain ⟨v, rfl⟩ : ∃ v : ℕ, value = row.bmStart + v := ⟨(value - row.bmStart).toNat, by omega⟩
  obtain ⟨before, after, hl⟩ := exists_located ces v
  have hv31 : v < 2 ^ 31 := by omega
  obtain ⟨res, hres, hmakes⟩ :=
    bmInsert_makes h.ok h.le hv31 hl (h.not_cornered htight) row.bmStart bytesAvailable
  have hok := h.ok.insertAt hv31 hl
  have hdense := h.dense_insertAt hl
  have hwhole : rowLength (insertAt before after v) ≤ ceMaxLength →
      Row.Shape ⟨row.bmStart, encodeRow (insertAt before after v)⟩ (insertAt before after v) :=
    fun hlen => ⟨rfl, hok, hdense, insertAt_ne_nil before after v, hlen⟩
  rw [← h.bm] at hres
  cases hmakes with
  | fits hlen =>
    refine ⟨[⟨row.bmStart, encodeRow (insertAt before after v)⟩], ?_,
      fun r hr => ⟨_, List.mem_singleton.1 hr ▸ hwhole hlen⟩⟩
    rw [itcBmInsertInRow, hres]
    rfl
  | extended hlen =>
    refine ⟨[⟨row.bmStart, encodeRow (insertAt before after v)⟩], ?_,
      fun r hr => ⟨_, List.mem_singleton.1 hr ▸ hwhole hlen⟩⟩
    rw [itcBmInsertInRow, hres]
    rfl
  | @split l r _ heq hl hr hlenl hlenr =>
    rw [heq] at hok hdense
    obtain ⟨ext, hext, hshape⟩ := right hok hdense hr hlenr
    refine ⟨_, itcBmInsertInRow_split hres hext, fun r' hr' => ?_⟩
    rcases List.mem_cons.1 hr' with rfl | hr'
    · exact ⟨l, left hok hdense hl hlenl⟩
    · rw [List.mem_singleton.1 hr']
      exact hshape

/-- A delete of a member returns, and leaves a well-formed row or none. -/
theorem delete (hhas : row.Has value) :
    ∃ rows, itcBmDelete row value = some rows ∧ ∀ r ∈ rows, ∃ ces, r.Shape ces := by
  obtain ⟨v, hmem, rfl⟩ := hhas
  rw [h.bm, h.ok.mem_rowMembers] at hmem
  obtain ⟨c, hc, hle, hbit⟩ := hmem
  obtain ⟨before, rest, rfl⟩ := List.append_of_mem hc
  have hdc := h.dense c hc
  have hcok := h.ok.ok c hc
  have hdel := bmDelete_spec h.ok hle hbit row.bmStart
  have hok := h.ok.removeAt (hdc.not_lone _) hbit
  have hlen := (rowLength_removeAt hcok hbit).trans h.le
  rw [← h.bm] at hdel
  refine ⟨_, itcBmDelete_matched hdel, fun r hr => ⟨removeAt before c rest v, ?_⟩⟩
  split_ifs at hr with hnil
  · cases hr
  · rw [List.mem_singleton.1 hr]
    have hne : removeAt before c rest v ≠ [] := by
      rintro h0
      exact hnil (by rw [h0, encodeRow_nil])
    exact ⟨rfl, hok, dense_removeAt hcok h.dense hbit, hne, hlen⟩

/-- An action that is allowed returns, and leaves well-formed rows. -/
theorem perform {a : Action} (he : Enabled row a) (ha : row.Allows a) :
    ∃ rows, perform row a = some rows ∧ ∀ r ∈ rows, ∃ ces, r.Shape ces := by
  cases a with
  | insert i value bytesAvailable =>
    obtain ⟨-, hge, hlt⟩ := he
    exact h.insert hge hlt ha bytesAvailable
  | delete i value => exact h.delete he

end

end Row.Shape

/-- The first row. -/
theorem shape_itcBmInsertSingle (value : ℤ) : ∃ ces, (itcBmInsertSingle value).Shape ces := by
  obtain ⟨bmStart, hstart⟩ : ∃ bmStart, bmStart = ceRound value := ⟨_, rfl⟩
  obtain ⟨v, hvalue⟩ : ∃ v : ℕ, value = bmStart + v := by
    refine ⟨(value - bmStart).toNat, ?_⟩
    simp only [hstart, ceRound, ceNValues]
    omega
  have hlt : v < 2 ^ 31 := by
    simp only [ceRound, ceNValues] at *
    omega
  refine ⟨[.single v], ?_, ⟨?_, List.pairwise_singleton _ _⟩, ?_, by simp, ?_⟩
  · rw [itcBmInsertSingle, Nat.or_comm, ← hstart, hvalue, encodeRow_cons, encodeRow_nil,
      List.append_nil]
    exact newSingle_eq bmStart hlt
  · intro c hc
    rw [List.mem_singleton.1 hc]
    exact hlt
  · intro c hc
    rw [List.mem_singleton.1 hc]
    trivial
  · rw [rowLength_cons, rowLength_nil, Ce.length_single]
    decide

/-- The rows of a state that an allowed run reaches are as they should be. -/
theorem shape_of_reach {s : List Row} (h : rowMachine.Reach Allowed s) :
    ∀ row ∈ s, ∃ ces, row.Shape ces := by
  refine h.invariant (I := fun s => ∀ row ∈ s, ∃ ces, row.Shape ces) ?_ ?_
  · rintro s ⟨value, -, rfl⟩ row hrow
    rw [List.mem_singleton.1 hrow]
    exact shape_itcBmInsertSingle value
  · rintro s a s' hs hallowed ⟨pre, row, post, rows, rfl, hpre, he, hp, rfl⟩ r hr
    obtain ⟨ces, hshape⟩ := hs row (by simp)
    have ha : row.Allows a := hallowed row (by simp [← hpre])
    obtain ⟨rows', hrows', hall⟩ := hshape.perform he ha
    obtain rfl : rows = rows' := Option.some_inj.1 (hp.symm.trans hrows')
    rcases List.mem_append.1 hr with hr | hr
    · exact hs r (by simp [hr])
    · rcases List.mem_append.1 hr with hr | hr
      · exact hall r hr
      · exact hs r (by simp [hr])

/-- **Rows stay well formed.**  In every state that an allowed run reaches, every
row is well formed, and every action that is possible and allowed returns. -/
theorem rowWellFormed_of_reach {s : List Row} (h : rowMachine.Reach Allowed s) :
    (∀ row ∈ s, RowWellFormed row.bm) ∧
      ∀ a, Allowed s a → (∃ row ∈ s[a.row]?, Enabled row a) → ∃ s', rowMachine.Step s a s' := by
  have hshape := shape_of_reach h
  refine ⟨fun row hrow => ?_, ?_⟩
  · obtain ⟨ces, hrow⟩ := hshape row hrow
    exact hrow.rowWellFormed
  · rintro a ha ⟨row, hrow, he⟩
    obtain ⟨hlt, hget⟩ := List.getElem?_eq_some_iff.1 hrow
    obtain ⟨ces, hces⟩ := hshape row (List.mem_of_getElem? hrow)
    obtain ⟨rows, hrows, -⟩ := hces.perform he (ha row hrow)
    refine ⟨_, s.take a.row, row, s.drop (a.row + 1), rows, ?_, ?_, he, hrows, rfl⟩
    · rw [← hget, List.getElem_cons_drop, List.take_append_drop]
    · exact List.length_take_of_le hlt.le

/-! ## Runs on one row -/

/-- A step on the only row. -/
theorem reach_one {ok : List Row → Action → Prop} {row : Row} {rows : List Row} {a : Action}
    (h : rowMachine.Reach ok [row]) (hok : ok [row] a) (ha : a.row = 0) (he : Enabled row a)
    (hp : perform row a = some rows) : rowMachine.Reach ok rows :=
  h.step hok ⟨[], row, [], rows, rfl, ha.symm, he, hp, by simp⟩

/-- A run of an insert and a delete, whose row is then well formed. -/
theorem rowWellFormed_after_delete :
    rowMachine.Reach Allowed [⟨0, encodeRow [.single 9000]⟩] ∧
      RowWellFormed (encodeRow [.single 9000]) := by
  have h₀ : rowMachine.Reach Allowed [⟨0, encodeRow [.single 5]⟩] :=
    .init ⟨5, by decide, by decide⟩
  have h₁ : rowMachine.Reach Allowed [⟨0, encodeRow [.single 5, .single 9000]⟩] :=
    reach_one (a := .insert 0 9000 100) h₀ (by simp [Allowed, Action.row]; decide +kernel) rfl
      (by decide) (by decide +kernel)
  have h₂ : rowMachine.Reach Allowed [⟨0, encodeRow [.single 9000]⟩] :=
    reach_one (a := .delete 0 5) h₁ (by simp [Allowed, Action.row]; decide +kernel) rfl
      (by decide +kernel) (by decide +kernel)
  exact ⟨h₂, (rowWellFormed_of_reach h₂).1 ⟨0, encodeRow [.single 9000]⟩ (by simp)⟩

/-- An insert that does not split the only row. -/
theorem reachable_insert {after : List Ce} {v : ℕ} (h : rowMachine.Reachable [⟨0, encodeRow ces⟩])
    (hok : EntriesOk ces) (hlen : rowLength ces ≤ ceMaxLength) (hv : v < 0x10000000)
    (hl : Located ces v before after) (hc : ¬ Cornered ces v)
    (hlen' : rowLength (insertAt before after v) ≤ ceMaxLength) :
    rowMachine.Reachable [⟨0, encodeRow (insertAt before after v)⟩] := by
  obtain ⟨res, hres, hmakes⟩ := bmInsert_makes hok hlen (hv.trans (by decide)) hl hc 0 0
  refine reach_one (a := .insert 0 (0 + v) 0) h trivial rfl ⟨⟨?_, ?_⟩, ?_, ?_⟩ ?_
  · omega
  · omega
  · change (0 : ℤ) ≤ 0 + v
    omega
  · change (0 + v : ℤ) < 0 + 0x10000000
    omega
  · rw [perform, itcBmInsertInRow, hres]
    cases hmakes with
    | fits => rfl
    | extended => rfl
    | split hover => exact absurd hlen' (not_le.2 hover)

/-- The array of the first `n` bits of the second range. -/
def secondRange (n : ℕ) : Ce := .array ceNValues (List.range n)

theorem ok_secondRange (hpos : 0 < n) (hle : n ≤ 512) : (secondRange n).Ok := by
  refine ⟨by decide, by decide, ⟨List.pairwise_lt_range, fun b hb => ?_⟩, ?_, ?_⟩
  · exact (List.mem_range.1 hb).trans (hle.trans_lt (by decide))
  · simpa using hpos.ne'
  · rw [List.length_range]
    exact hle

theorem length_secondRange (n : ℕ) : (secondRange n).length = 4 + 2 * n := by
  rw [secondRange, Ce.length_array, List.length_range]

/-- Adding the next bit. -/
theorem add_secondRange (hle : n < 512) : (secondRange n).add n = secondRange (n + 1) := by
  have hadd : addBit (List.range n) n = List.range (n + 1) := by
    have : addBit (List.range n ++ []) n = List.range n ++ [n] :=
      addBit_of_notMem (by simpa using List.pairwise_lt_range) (by simp) (by simp)
    rwa [List.append_nil, ← List.range_succ] at this
  have hlen : (List.range (n + 1)).length ≤ ceNValues / 16 := by
    rw [List.length_range]
    exact hle
  rw [secondRange, Ce.add, hadd, if_pos hlen, secondRange]

theorem entriesOk_zero {c : Ce} (hc : c.Ok) (hpos : 0 < c.offset) : EntriesOk [.single 0, c] := by
  refine ⟨fun d hd => ?_, List.pairwise_pair.2 ?_⟩
  · rcases List.mem_cons.1 hd with rfl | hd
    · exact Nat.two_pow_pos 31
    · exact List.mem_singleton.1 hd ▸ hc
  · simpa [Ce.offset] using hpos

/-- Inserting the next value behind an array that is alone in its row. -/
theorem reachable_next (hpos : 0 < n) (hn : n < 512)
    (h : rowMachine.Reachable [⟨0, encodeRow [secondRange n]⟩]) :
    rowMachine.Reachable [⟨0, encodeRow [secondRange (n + 1)]⟩] := by
  have hok : EntriesOk [secondRange n] :=
    ⟨by simpa using ok_secondRange hpos hn.le, List.pairwise_singleton _ _⟩
  have hoff : (secondRange n).offset = ceNValues := rfl
  have hins : insertAt [] [secondRange n] (ceNValues + n) = [secondRange (n + 1)] := by
    rw [insertAt, hoff, if_neg (by omega), Nat.add_sub_cancel_left, add_secondRange hn,
      List.nil_append]
  have hlen (m : ℕ) (hm : m ≤ 512) : rowLength [secondRange m] ≤ ceMaxLength := by
    rw [rowLength_singleton, length_secondRange, ceMaxLength]
    omega
  rw [← hins]
  refine reachable_insert h hok (hlen n hn.le) (by rw [ceNValues]; omega)
    ⟨rfl, by simp, fun c hc => ?_⟩
    ?_ (hins ▸ hlen (n + 1) hn)
  · obtain rfl : secondRange n = c := by simpa using hc
    rw [ceNValues] at *
    omega
  · rintro ⟨c, hc, -, hlt⟩
    obtain rfl : secondRange n = c := by simpa using congrArg List.getLast? hc
    omega

/-- Once the first entry is deleted, ascending values fill an array in a row that starts below
it. -/
theorem reachable_secondRange (hn : n ≤ 510) :
    rowMachine.Reachable [⟨0, encodeRow [secondRange (n + 2)]⟩] := by
  induction n with
  | zero =>
    have h₀ : rowMachine.Reachable [⟨0, encodeRow [.single 0]⟩] := .init ⟨0, by decide, by decide⟩
    have h₁ : rowMachine.Reachable [⟨0, encodeRow [.single 0, .single 8192]⟩] :=
      reach_one (a := .insert 0 8192 0) h₀ trivial rfl (by decide) (by decide +kernel)
    have h₂ : rowMachine.Reachable [⟨0, encodeRow [.single 8192]⟩] :=
      reach_one (a := .delete 0 0) h₁ trivial rfl (by decide +kernel) (by decide +kernel)
    exact reach_one (a := .insert 0 8193 0) h₂ trivial rfl (by decide) (by decide +kernel)
  | succ n ih => exact reachable_next (n + 1).succ_pos (by omega) (ih (by omega))

/-- Inserting a value in front of the only CE of a full row leaves an empty row and
one that is too long. -/
theorem split_of_tight {c : Ce} (hc : c.Ok) (hlong : ceMaxLength - 4 < c.length)
    (hpos : 0 < c.offset)
    (h : rowMachine.Reachable [⟨0, encodeRow [c]⟩]) :
    ∃ ext, rowMachine.Reachable [⟨0, []⟩, ⟨0, ext⟩] ∧ ext.length = 4 + c.length := by
  have hok := entriesOk_zero hc hpos
  have hins := bmInsert_cornered 0 (v := 0) hc hlong hpos 0
  have hoff : ceOffset (encodeRow [.single 0, c]) = 0 := by
    rw [encodeRow_cons, Ce.ceOffset_encode (hok.ok (.single 0) (by simp)).fits]
    rfl
  have hle : ∀ d ∈ [.single 0, c], 0 ≤ d.offset := fun _ _ => Nat.zero_le _
  have hloop := hok.rebaseLoop_eq (Nat.zero_mod ceNValues) hle
  refine ⟨encodeRow ([.single 0, c].map (Ce.rebase 0)), ?_, ?_⟩
  · refine reach_one (a := .insert 0 (0 + (0 : ℕ)) 0) h trivial rfl
      ⟨by decide, le_rfl, show (0 : ℤ) + (0 : ℕ) < 0 + 0x10000000 by decide⟩ ?_
    refine (itcBmInsertInRow_split hins (by rw [hoff]; exact hloop)).trans ?_
    rw [hoff]
    rfl
  · rw [(hok.rebase (by decide) hle).length_encodeRow, rowLength_rebase, rowLength_cons,
      rowLength_cons, rowLength_nil, Ce.length_single, Nat.add_zero]

/-- A run after which a row is empty and another too long: a value is inserted in
front of the only CE of a row, an array of 511 entries. -/
theorem split_of_full_row :
    ∃ left right, rowMachine.Reachable [left, right] ∧ left.bm = [] ∧ right.bm.length = 1030 ∧
      ¬ RowWellFormed left.bm ∧ ¬ RowWellFormed right.bm := by
  have hfull : rowMachine.Reachable [⟨0, encodeRow [secondRange 511]⟩] :=
    reachable_secondRange (n := 509) (by decide)
  have hlong : ceMaxLength - 4 < (secondRange 511).length := by
    rw [length_secondRange]
    decide
  obtain ⟨ext, hreach, hlen⟩ :=
    split_of_tight (ok_secondRange (by decide) (by decide)) hlong
      (show 0 < ceNValues by decide) hfull
  rw [length_secondRange] at hlen
  refine ⟨_, _, hreach, rfl, hlen, fun h => lt_irrefl 0 h.pos, fun h => ?_⟩
  have hle := h.le
  rw [hlen] at hle
  exact absurd hle (by decide)

end Virtuoso.Bitmap
