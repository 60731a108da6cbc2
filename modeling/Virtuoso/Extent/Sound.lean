import Virtuoso.Lib.Machine
import Virtuoso.Extent.Free

/-!
# Runs of calls that get and free pages

Calls of `em_new_dp` and `em_free_dp` on any maps of a storage.  If there is always room for another
record of the system map, or a page of it for the records of others, then in every state the extents
of all maps are disjoint and every page that is allocated is in one of them, and no page is given
that is allocated.

If the system map needs another page of records, `em_sys_extend` takes a second extent for the page
of records, and puts its place into the record that it returns; `em_new_extent` overwrites that with
the place of the first extent, so that no record has the second one.
-/

namespace Virtuoso.Extent

open Lib

variable {env : Env} {s s' : Dbs}

/-- What is expected of a storage between calls. -/
structure Sound (s : Dbs) : Prop where
  disjoint : ∀ {e i r e' i' r'}, Live s e i r → Live s e' i' r' → (e, i) ≠ (e', i') →
    r.dp + extentSz ≤ r'.dp ∨ r'.dp + extentSz ≤ r.dp
  marked : ∀ {e i r}, Live s e i r → r.dp % extentSz = 0 ∧ s.extentSet (r.dp / extentSz) = true
  dpToExt : ∀ {e d i}, (s.maps e).dpToExt d = some i ↔ ∃ r, Live s e i r ∧ r.dp = d
  dpToEm : ∀ {d e}, s.dpToEm d = some e ↔ ∃ i r, Live s e i r ∧ r.dp = d
  alloc : ∀ {p}, s.freeSet p = true → ∃ e i r, Live s e i r ∧ r.Has p ∧
    ∀ {e' i' r'}, Live s e' i' r' → r'.dp ≤ p → p < r'.dp + extentSz → e' = e ∧ i' = i
  records : ∀ {e b}, b ∈ (s.maps e).bufs → s.freeSet b.1 = true
  count : ∀ e k, (s.maps e).nFree k = emFreeCount (s.maps e) k

theorem Good.sound (hs : Good s) : Sound s where
  disjoint := by
    intro e i r e' i' r' hl hl' hne
    have h₁ := hs.aligned hl
    have h₂ := hs.aligned hl'
    have hdp : r.dp ≠ r'.dp := by
      intro hd
      obtain ⟨rfl, rfl, -⟩ := hs.unique hl hl' hd
      exact hne rfl
    simp only [extentSz] at *
    omega
  marked hl := ⟨hs.aligned hl, (hs.marked hl).resolve_right (by simp)⟩
  dpToExt := by
    intro e d i
    constructor
    · exact hs.ofHash
    · rintro ⟨r, hl, rfl⟩
      exact (hs.hash hl).1
  dpToEm := by
    intro d e
    constructor
    · intro h
      obtain ⟨i, hi⟩ := hs.ofEm h
      obtain ⟨r, hl, hd⟩ := hs.ofHash hi
      exact ⟨i, r, hl, hd⟩
    · rintro ⟨i, r, hl, rfl⟩
      exact (hs.hash hl).2
  alloc := by
    intro p hp
    obtain ⟨e, i, r, hl, hhas⟩ := hs.alloc hp
    refine ⟨e, i, r, hl, hhas, fun hl' h₁ h₂ => ?_⟩
    obtain ⟨he, hi, -⟩ := hs.unique_of_has hl' hl ⟨h₁, h₂⟩ ⟨hhas.1, hhas.2.1⟩
    exact ⟨he, hi⟩
  records hb := (hs.bufs hb).resolve_right (by simp)
  count := hs.count

/-! ## Calls -/

/-- A call of `em_new_dp` or of `em_free_dp` on the map `e`. -/
inductive Call where
  | newDp (e : ℕ) (k : Kind) (near : Option ℕ) (hold : ℤ)
  | freeDp (e dp flags : ℕ)

def Call.run (env : Env) (s : Dbs) : Call → Option Dbs
  | .newDp e k near hold => (emNewDp env s e k near hold).map Prod.fst
  | .freeDp e dp flags => emFreeDp env s e dp flags

/-- The calls one after the other, from a storage that is consistent. -/
def calls (env : Env) : Machine Dbs Call where
  Init := Consistent
  Step s c s' := c.run env s = some s'

/-- What a call of `em_new_dp` may need is there, and what is freed is not a page of records and
frees its extent too. -/
def Call.Allowed (s : Dbs) : Call → Prop
  | .newDp e k near hold => Supplied s e k near hold
  | .freeDp _ dp flags => doNotFreeExt flags = false ∧ ∀ e, ∀ b ∈ (s.maps e).bufs, b.1 ≠ dp

theorem Consistent.freeDp {e dp flags : ℕ} (hs : Consistent s)
    (hok : Call.Allowed s (.freeDp e dp flags)) (h : emFreeDp env s e dp flags = some s') :
    Consistent s' := by
  rcases emFreeDp_spec hs.toGood hok.1 h with rfl | ⟨e', i, r, k, b, -, rfl, hfr⟩
  · exact hs
  · exact ⟨hfr.good hs.toGood hok.2, hfr.lastOk hs.last⟩

theorem consistent_of_reach (henv : env.Ok) (h : (calls env).Reach Call.Allowed s) :
    Consistent s := by
  refine h.invariant (fun _ hinit => hinit) fun s c s' hs hok hstep => ?_
  cases c with
  | newDp e k near hold =>
    obtain ⟨x, hnew, rfl⟩ := Option.map_eq_some_iff.1 hstep
    have hh := (emNewDp_spec henv hs.toGood hs.last hok).of_eq_some hnew
    exact ⟨hh.good, hh.last⟩
  | freeDp e dp flags => exact hs.freeDp hok hstep

/-- In every state of a run of allowed calls the storage is sound, and the next allowed call of
`em_new_dp` returns, and gives no page that is allocated. -/
theorem sound_after_calls (henv : env.Ok) (h : (calls env).Reach Call.Allowed s) :
    Sound s ∧ ∀ e k near hold, Call.Allowed s (.newDp e k near hold) →
      ∃ s' dp hold', emNewDp env s e k near hold = some (s', dp, hold') ∧
        (dp ≠ 0 → s.freeSet dp = false ∧ s'.freeSet dp = true) := by
  have hs := consistent_of_reach henv h
  refine ⟨hs.toGood.sound, fun e k near hold hok => ?_⟩
  obtain ⟨⟨s', dp, hold'⟩, hnew, hh⟩ := emNewDp_spec henv hs.toGood hs.last hok
  exact ⟨s', dp, hold', hnew, fun hdp => ⟨hh.fresh hdp, hh.allocated⟩⟩

/-! ## A storage with full extents -/

/-- A record of an index extent all of whose pages are taken. -/
def fullExt (i : ℕ) : Ext where
  kind := some .index
  full := true
  dp := extentSz * i
  prev := some 0
  next := 0
  pages _ := true

def emptyEm : Em where
  exts := []
  bufs := []
  dpToExt _ := none
  nFree _ := 0
  remapOnHold := 0
  last _ := none
  uninitialized _ := false

/-- A storage in which the first `n` extents are of the system map and full, and ten more are
free.  The system map has one page of records. -/
def packed (n : ℕ) : Dbs where
  nPages := extentSz * (n + 10)
  freeSet p := p < extentSz * n
  nFreePages := extentSz * 10
  extentSet i := i < n
  nPagesInSets := bitsOnPage
  nPagesInExtentSet := extentSz * bitsOnPage
  dpToEm d := if d % extentSz = 0 ∧ d < extentSz * n then some 0 else none
  unfreeable _ := false
  maps e :=
    if e = 0 then
      { emptyEm with
        exts := (List.range n).map fullExt
        bufs := [(1, n)]
        dpToExt := fun d => if d % extentSz = 0 ∧ d < extentSz * n then some (d / extentSz)
          else none }
    else emptyEm

theorem live_packed {n e i : ℕ} {r : Ext} :
    Live (packed n) e i r ↔ e = 0 ∧ i < n ∧ r = fullExt i := by
  by_cases he : e = 0
  · subst he
    simp only [Live, packed, if_true, List.getElem?_map, Option.map_eq_some_iff,
      List.getElem?_eq_some_iff, List.length_range, List.getElem_range, true_and]
    constructor
    · rintro ⟨⟨j, ⟨hj, rfl⟩, rfl⟩, -⟩
      exact ⟨hj, rfl⟩
    · rintro ⟨hi, rfl⟩
      exact ⟨⟨i, ⟨hi, rfl⟩, rfl⟩, by simp [fullExt]⟩
  · simp [Live, packed, emptyEm, he]

theorem free_fullExt (i : ℕ) (k : Kind) : (fullExt i).free k = 0 := by
  have h : extFreeCount (fullExt i) = 0 := extFreeCount_eq_zero.2 fun _ _ => rfl
  simp [Ext.free, h]

theorem consistent_packed {n : ℕ} (hpos : 0 < n) (hn : n ≤ 200) : Consistent (packed n) := by
  refine ⟨⟨⟨⟨?hash, ?ofHash, ?ofEm, ?marked, ?aligned, ?lt, ?marked_lt, ?nPages_mod, ?bufs, ?zero⟩,
    ?count, ?alloc⟩, ?full, ?sizes⟩, ?last⟩
  case hash =>
    intro e i r hl
    obtain ⟨rfl, hi, rfl⟩ := live_packed.1 hl
    have hlt : extentSz * i < extentSz * n := Nat.mul_lt_mul_of_pos_left hi (by decide)
    have hdiv : extentSz * i / extentSz = i := Nat.mul_div_cancel_left i (by decide)
    simp only [packed, fullExt, if_true, Nat.mul_mod_right, hlt, and_self, hdiv]
  case ofHash =>
    intro e d i h
    by_cases he : e = 0
    · subst he
      simp only [packed, if_true, Option.ite_none_right_eq_some, Option.some.injEq] at h
      obtain ⟨⟨hmod, hlt⟩, rfl⟩ := h
      refine ⟨fullExt (d / extentSz), live_packed.2 ⟨rfl, Nat.div_lt_of_lt_mul hlt, rfl⟩, ?_⟩
      exact Nat.mul_div_cancel' (Nat.dvd_of_mod_eq_zero hmod)
    · simp [packed, emptyEm, he] at h
  case ofEm =>
    intro d e h
    simp only [packed, Option.ite_none_right_eq_some, Option.some.injEq] at h
    obtain ⟨hd, rfl⟩ := h
    exact ⟨d / extentSz, by simp only [packed, if_true, hd, and_self]⟩
  case marked =>
    intro e i r hl
    obtain ⟨rfl, hi, rfl⟩ := live_packed.1 hl
    left
    have hdiv : extentSz * i / extentSz = i := Nat.mul_div_cancel_left i (by decide)
    simp only [packed, fullExt, hdiv, hi, decide_true]
  case aligned =>
    intro e i r hl
    obtain ⟨rfl, hi, rfl⟩ := live_packed.1 hl
    exact Nat.mul_mod_right _ _
  case lt =>
    intro e i r hl
    obtain ⟨rfl, hi, rfl⟩ := live_packed.1 hl
    exact Nat.mul_lt_mul_of_pos_left (by omega) (by decide)
  case marked_lt =>
    intro i hi
    have hi : i < n := by simpa [packed] using hi
    exact Nat.mul_lt_mul_of_pos_left (by omega) (by decide)
  case nPages_mod => exact Nat.mul_mod_right _ _
  case bufs =>
    intro e b hb
    by_cases he : e = 0
    · subst he
      obtain rfl : b = (1, n) := by simpa [packed] using hb
      left
      apply decide_eq_true
      simp only [extentSz]
      omega
    · simp [packed, emptyEm, he] at hb
  case zero =>
    apply decide_eq_true
    simp only [extentSz]
    omega
  case count =>
    intro e k
    rw [emFreeCount_eq]
    by_cases he : e = 0
    · subst he
      simp [packed, emptyEm, free_fullExt, Function.comp_def]
    · simp [packed, emptyEm, he]
  case alloc =>
    intro p hp
    have hp : p < extentSz * n := by simpa [packed] using hp
    refine ⟨0, p / extentSz, fullExt (p / extentSz),
      live_packed.2 ⟨rfl, Nat.div_lt_of_lt_mul hp, rfl⟩, Nat.mul_div_le _ _, ?_, rfl⟩
    exact Nat.lt_mul_div_succ p (by decide)
  case full =>
    intro e i r hl _ b _
    obtain ⟨rfl, hi, rfl⟩ := live_packed.1 hl
    rfl
  case sizes =>
    simp only [packed, extentSz, bitsOnPage]
    exact ⟨by omega, by omega, by omega⟩
  case last =>
    intro e k i h
    by_cases he : e = 0
    · simp [packed, emptyEm, he] at h
    · simp [packed, emptyEm, he] at h

/-- Records that are full are passed over. -/
theorem tryLoop_of_full {e : ℕ} {k : Kind} {is : List ℕ}
    (h : ∀ i ∈ is, ∃ r, (s.maps e).exts[i]? = some r ∧ r.full = true) :
    tryLoop e k is s = some (s, 0) := by
  induction is with
  | nil => rfl
  | cons i is ih =>
    obtain ⟨r, hr, hfull⟩ := h i List.mem_cons_self
    have hget : extGetDpAt s e i 0 = some (s, 0) := by
      simp only [extGetDpAt, hr, Option.bind_some, extGetDp, hfull, if_true, Option.map_some,
        setExt_self hr]
    rw [tryLoop, hr, hget]
    simp only [ne_eq, not_true_eq_false, ih fun j hj => h j (List.mem_cons_of_mem _ hj),
      ite_self]

theorem emTryGetAny_packed (n : ℕ) : emTryGetAny (packed n) 0 .index = some (packed n, 0) := by
  rw [emTryGetAny, if_neg (by simp)]
  refine tryLoop_of_full fun i hi => ⟨fullExt i, ?_, rfl⟩
  have hi : i < n := by simpa [packed] using hi
  exact (live_packed.2 ⟨rfl, hi, rfl⟩).1

/-- Files that can become longer. -/
def growing : Env where
  canGrow n := decide (n + 2 ^ 25 ≤ 2 ^ 32)
  quota := extentSz
  checkFreePages := false
  dense := false
  checkpointAtomic := false

theorem growing_ok :
    growing.Ok := ⟨by decide, by decide, by decide, fun n h => by simpa [growing] using h⟩

theorem emNewDp_packed {env : Env} (henv : env.dense = false) (n : ℕ) :
    emNewDp env (packed n) 0 .index none 0 =
      (emNewExtentDp env (packed n) 0 .index none).bind fun x =>
        (dbsPageAllocated x.1 x.2).map fun s => (s, x.2, 0) := by
  simp only [emNewDp, emNewDpIn, henv, emNewDp1, reduceCtorEq, or_self, if_false, emTryGetDp,
    emTryGetAny_packed, ne_eq, not_true_eq_false, Option.map_eq_bind, Option.bind_assoc]
  rfl

/-- The system map has room for the record of another extent. -/
theorem room_packed_one : Room (packed 1) := .inr (by decide)

/-- A run of one call, which puts another extent into the system map. -/
theorem sound_after_newDp :
    ∃ s, (calls growing).Step (packed 1) (.newDp 0 .index none 0) s ∧ Sound s := by
  have hok : Call.Allowed (packed 1) (.newDp 0 .index none 0) :=
    ⟨.inl room_packed_one, by rintro - n ⟨⟩, by rintro ⟨⟩⟩
  have hinit : (calls growing).Init (packed 1) := consistent_packed (by decide) (by decide)
  obtain ⟨-, hnew⟩ := sound_after_calls growing_ok (.init hinit)
  obtain ⟨s, dp, hold, hrun, -⟩ := hnew 0 .index none 0 hok
  have hstep : (calls growing).Step (packed 1) (.newDp 0 .index none 0) s := by
    simp only [calls, Call.run, hrun, Option.map_some]
  exact ⟨s, hstep, (sound_after_calls growing_ok (.step (.init hinit) hok hstep)).1⟩

theorem emNewDp_packed_full :
    ((emNewDp growing (packed extsOnPage) 0 .index none 0).any fun x =>
      x.1.freeSet (extentSz * 171) && x.1.dpToEm (extentSz * 171) == none) = true := by
  rw [emNewDp_packed rfl]
  decide +kernel

/-- The page of records of the system map is full, and so are its extents.  The call takes the
extents 170 and 171, and then no map has the second one, the first page of which is the new page of
records. -/
theorem not_sound_after_newDp : Consistent (packed extsOnPage) ∧
    ∃ s, (calls growing).Step (packed extsOnPage) (.newDp 0 .index none 0) s ∧
      s.freeSet (extentSz * 171) = true ∧ ¬ Sound s := by
  refine ⟨consistent_packed (by decide) (by decide), ?_⟩
  obtain ⟨⟨s, x⟩, hx, heval⟩ := (Option.any_eq_true _ _).1 emNewDp_packed_full
  rw [Bool.and_eq_true, beq_iff_eq] at heval
  obtain ⟨hset, hnone⟩ := heval
  refine ⟨s, by simp only [calls, Call.run, hx, Option.map_some], hset, fun hs => ?_⟩
  obtain ⟨e, i, r, hl, ⟨hle, hlt, -⟩, -⟩ := hs.alloc hset
  have halign := (hs.marked hl).1
  have hdp : r.dp = extentSz * 171 := by
    simp only [extentSz] at *
    omega
  rw [hs.dpToEm.2 ⟨i, r, hl, hdp⟩] at hnone
  cases hnone

end Virtuoso.Extent
