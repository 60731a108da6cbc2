import Virtuoso.Extent.Invariant
import Mathlib.Algebra.Order.BigOperators.Group.List

/-!
# Longer files

`dbs_file_extend` keeps a storage consistent.  `Grows` says what a storage keeps besides, while a
call of `em_new_dp` gets the extents it needs.  There are always index pages of the system map left
afterwards, so that the next call finds pages for the page sets.
-/

namespace Virtuoso.Extent

open Function Lib

variable {s : Dbs}

/-! ## Growing -/

variable {s' : Dbs} {e i p dp n b near : ℕ} {r : Ext} {k : Kind} {x y : Option ℕ}

/-- The extents a map takes pages from stay of their kinds. -/
theorem lastOk_of_eq (hlast : ∀ e, (s'.maps e).last = (s.maps e).last)
    (hlive : ∀ {e i r}, Live s e i r → ∃ r', Live s' e i r' ∧ r'.kind = r.kind) (h : LastOk s) :
    LastOk s' := by
  intro e k i hi hk
  rw [hlast] at hi
  obtain ⟨r, hl, hkind⟩ := h e k i hi hk
  obtain ⟨r', hl', hkind'⟩ := hlive hl
  exact ⟨r', hl', hkind'.trans hkind⟩

/-- What a storage keeps while it gets extents and pages for them. -/
structure Grows (s s' : Dbs) : Prop where
  freeSet : ∀ {p}, s.freeSet p = true → s'.freeSet p = true
  bufs : ∀ {e b}, b ∈ (s'.maps e).bufs → (∃ b' ∈ (s.maps e).bufs, b'.1 = b.1) ∨
    s.freeSet b.1 = false
  onHold : ∀ e, (s'.maps e).remapOnHold = (s.maps e).remapOnHold
  remap : ∀ e, (s.maps e).nFree .remap ≤ (s'.maps e).nFree .remap
  last : LastOk s → LastOk s'
  live : ∀ {e i r}, Live s e i r → ∃ r', Live s' e i r' ∧ r'.kind = r.kind ∧ r'.dp = r.dp ∧
    ∀ b, r.pages b = true → r'.pages b = true
  nPages : s.nPages ≤ s'.nPages
  extentSet : ∀ {n}, s.extentSet n = true → s'.extentSet n = true
  dpToEm : ∀ {d}, d % extentSz = 0 → s.extentSet (d / extentSz) = true → s'.dpToEm d = s.dpToEm d

namespace Grows

variable {s s' s'' : Dbs}

theorem refl (s : Dbs) : Grows s s :=
  ⟨id, fun hb => .inl ⟨_, hb, rfl⟩, fun _ => rfl, fun _ => le_rfl, id,
    fun hl => ⟨_, hl, rfl, rfl, fun _ => id⟩, le_rfl, id, fun _ _ => rfl⟩

theorem trans (h : Grows s s') (h' : Grows s' s'') : Grows s s'' where
  freeSet hp := h'.freeSet (h.freeSet hp)
  bufs := by
    intro e b hb
    rcases h'.bufs hb with ⟨b', hb', heq⟩ | hb'
    · rcases h.bufs hb' with ⟨b'', hb'', heq'⟩ | hb''
      · exact .inl ⟨b'', hb'', heq'.trans heq⟩
      · exact .inr (heq ▸ hb'')
    · refine .inr (Bool.eq_false_iff.2 fun hset => ?_)
      rw [h.freeSet hset] at hb'
      cases hb'
  onHold e := (h'.onHold e).trans (h.onHold e)
  remap e := (h.remap e).trans (h'.remap e)
  last := h'.last ∘ h.last
  live hl := by
    obtain ⟨r', hl', hk, hd, hp⟩ := h.live hl
    obtain ⟨r'', hl'', hk', hd', hp'⟩ := h'.live hl'
    exact ⟨r'', hl'', hk'.trans hk, hd'.trans hd, fun b hb => hp' b (hp b hb)⟩
  nPages := h.nPages.trans h'.nPages
  extentSet hn := h'.extentSet (h.extentSet hn)
  dpToEm hd hn := (h'.dpToEm hd (h.extentSet hn)).trans (h.dpToEm hd hn)

/-- A page that has its bit set still has. -/
theorem has (h : Grows s s') (hl : Live s e i r) (hp : r.Has p) :
    ∃ r', Live s' e i r' ∧ r'.kind = r.kind ∧ r'.Has p := by
  obtain ⟨r', hl', hk, hd, hpages⟩ := h.live hl
  refine ⟨r', hl', hk, ?_⟩
  rw [Ext.Has, hd]
  exact ⟨hp.1, hp.2.1, hpages _ hp.2.2⟩

end Grows

theorem SamePlaces.grows (h : SamePlaces s s')
    (hlive : ∀ {e i r}, Live s e i r → ∃ r', Live s' e i r' ∧ r'.kind = r.kind ∧ r'.dp = r.dp ∧
      ∀ b, r.pages b = true → r'.pages b = true)
    (hbufs : ∀ e, (s'.maps e).bufs = (s.maps e).bufs)
    (honHold : ∀ e, (s'.maps e).remapOnHold = (s.maps e).remapOnHold)
    (hremap : ∀ e, (s.maps e).nFree .remap ≤ (s'.maps e).nFree .remap)
    (hlast : ∀ e, (s'.maps e).last = (s.maps e).last) : Grows s s' where
  freeSet hp := by rwa [h.freeSet]
  bufs hb := .inl ⟨_, by rwa [hbufs] at hb, rfl⟩
  onHold := honHold
  remap := hremap
  last := lastOk_of_eq hlast fun hl => by
    obtain ⟨r', hl', hk, -⟩ := hlive hl
    exact ⟨r', hl', hk⟩
  live := hlive
  nPages := h.nPages.ge
  extentSet hn := by rwa [h.extentSet]
  dpToEm _ _ := by rw [h.dpToEm]

theorem Hinted.grows (h : Hinted s s') : Grows s s' :=
  h.alike.samePlaces.grows
    (fun hl => by
      obtain ⟨r', hl', hk, hd, hp⟩ := h.alike.live hl
      exact ⟨r', hl', hk, hd, fun b hb => by rwa [hp]⟩)
    h.alike.bufs h.alike.onHold (fun e => by rw [h.alike.nFree]) h.alike.last

theorem Gets.grows (h : Gets s e k dp s') (hk : k ≠ .remap) : Grows s s' := by
  refine h.samePlaces.grows (fun hl => ?_) h.bufs h.onHold (fun e' => ?_) h.last
  · obtain ⟨i, r, b, hlr, -, -, -, -, htake⟩ := h.take
    obtain ⟨r₁, hl₁, hk₁, hd₁, -, hp₁⟩ := @live_take s e i r k b hlr _ _ _ hl
    obtain ⟨r₂, hl₂, hk₂, hd₂, hp₂⟩ := htake.live hl₁
    exact ⟨r₂, hl₂, hk₂.trans hk₁, hd₂.trans hd₁, fun c hc => by rw [hp₂]; exact hp₁ c hc⟩
  · rw [h.nFree, if_neg (fun hc => hk hc.2.symm), add_zero]

/-! ## Looking in all extents -/

theorem extFreeCount_eq_zero : extFreeCount r = 0 ↔ ∀ b < extentSz, r.pages b = true := by
  rw [extFreeCount, List.countP_eq_zero]
  simp

theorem emFreeCount_nonneg (em : Em) (k : Kind) : 0 ≤ emFreeCount em k := by
  refine List.sum_nonneg fun n hn => ?_
  obtain ⟨r, -, rfl⟩ := List.mem_map.1 hn
  exact r.free_nonneg k

/-- A count that is not 0 counts a page. -/
theorem exists_of_emFreeCount_pos (h : 0 < emFreeCount (s.maps e) k) :
    ∃ i r b, Live s e i r ∧ r.kind = some k ∧ b < extentSz ∧ r.pages b = false := by
  by_contra hall
  push Not at hall
  have hzero : emFreeCount (s.maps e) k = 0 := by
    rw [emFreeCount_eq]
    refine List.sum_eq_zero fun n hn => ?_
    obtain ⟨r, hr, rfl⟩ := List.mem_map.1 hn
    obtain ⟨i, hi⟩ := List.mem_iff_getElem?.1 hr
    rw [Ext.free]
    split_ifs with hk
    · rw [Int.natCast_eq_zero, extFreeCount_eq_zero]
      intro b hb
      exact Bool.not_eq_false _ ▸ hall i r b ⟨hi, by simp [hk]⟩ hk hb
    · rfl
  omega

section Try

variable {x y : Option ℕ} {s s' : Dbs} {e dp : ℕ} {k : Kind} (hi : Inv x y s) (hf : FullOk s)
include hi hf

/-- A page of the kind is found if the map has one. -/
theorem emTryGetAny_cases (h : emTryGetAny s e k = some (s', dp)) :
    (dp = 0 ∧ Hinted s s' ∧ (s.maps e).nFree k = 0) ∨
      dp ≠ 0 ∧ Gets s e k dp (s'.addFree e k (-1)) := by
  rw [emTryGetAny] at h
  split_ifs at h with hblob
  · obtain ⟨rfl, rfl⟩ : s = s' ∧ 0 = dp := by simpa using h
    exact .inl ⟨rfl, .refl _, by rw [hblob.1]; exact hblob.2⟩
  · rcases tryLoop_cases hi hf h with ⟨hdp, hh, hall⟩ | hget
    · refine .inl ⟨hdp, hh, ?_⟩
      rw [hi.count]
      by_contra hne
      have hpos : 0 < emFreeCount (s.maps e) k :=
        lt_of_le_of_ne (emFreeCount_nonneg _ _) (Ne.symm hne)
      obtain ⟨i, r, b, hl, hk, hb, hp⟩ := exists_of_emFreeCount_pos hpos
      have hmem : i ∈ List.range (s.maps e).exts.length :=
        List.mem_range.2 hl.lt
      rw [hall i hmem r hl hk b hb] at hp
      cases hp
    · exact .inr hget

omit hf hi in
theorem extGetDpAt_isSome (h : i < (s.maps e).exts.length) : (extGetDpAt s e i 0).isSome := by
  rw [extGetDpAt, List.getElem?_eq_getElem h, Option.bind_some, Option.isSome_map, extGetDp]
  split_ifs with hfull hnear
  · rfl
  · exact absurd rfl hnear.1
  · split <;> rfl

omit hf hi in
theorem tryLoop_isSome {is : List ℕ} (h : ∀ i ∈ is, i < (s.maps e).exts.length) :
    (tryLoop e k is s).isSome := by
  induction is generalizing s with
  | nil => rfl
  | cons i is ih =>
    have hlt := h i List.mem_cons_self
    have hrest := fun j hj => h j (List.mem_cons_of_mem i hj)
    rw [tryLoop, List.getElem?_eq_getElem hlt]
    dsimp only
    split_ifs
    · exact ih hrest
    · obtain ⟨⟨s₁, dp⟩, hget⟩ := Option.isSome_iff_exists.1 (extGetDpAt_isSome hlt)
      rw [hget]
      dsimp only
      split_ifs
      · rfl
      · refine ih fun j hj => ?_
        simp only [extGetDpAt, List.getElem?_eq_getElem hlt, Option.bind_some,
          Option.map_eq_some_iff, Prod.mk.injEq] at hget
        obtain ⟨r, -, rfl, -⟩ := hget
        simpa [Dbs.setExt] using hrest j hj

/-- A page of the kind is found exactly if the map has one. -/
theorem emTryGetAny_spec : Gives (emTryGetAny s e k) fun x =>
    Tried s e k x.2 x.1 ∧ (x.2 = 0 → (s.maps e).nFree k = 0) := by
  have hsome : (emTryGetAny s e k).isSome := by
    rw [emTryGetAny]
    split_ifs
    · rfl
    · exact tryLoop_isSome fun i hi => List.mem_range.1 hi
  obtain ⟨⟨s', dp⟩, h⟩ := Option.isSome_iff_exists.1 hsome
  refine ⟨_, h, ?_⟩
  rcases emTryGetAny_cases hi hf h with ⟨hdp, hh, hzero⟩ | hget
  · exact ⟨.inl ⟨hdp, hh⟩, fun _ => hzero⟩
  · exact ⟨.inr hget, fun hdp => absurd hdp hget.1⟩

end Try

/-! ## The records of the system map -/

/-- The free index pages of the system map. -/
abbrev Dbs.stock (s : Dbs) : ℤ := (s.maps 0).nFree .index

/-- The system map has a record that is not in use, or room for one on its last page of records. -/
def Room (s : Dbs) : Prop :=
  none ∈ (s.maps 0).exts.map Ext.kind ∨ (s.maps 0).lastFull = false

/-- The system map has the same pages of records, and the same records are in use. -/
structure SameRecords (s s' : Dbs) : Prop where
  kinds : (s'.maps 0).exts.map Ext.kind = (s.maps 0).exts.map Ext.kind
  bufs : (s'.maps 0).bufs = (s.maps 0).bufs

theorem SameRecords.refl (s : Dbs) : SameRecords s s := ⟨rfl, rfl⟩

theorem SameRecords.trans {s'' : Dbs} (h : SameRecords s s') (h' : SameRecords s' s'') :
    SameRecords s s'' :=
  ⟨h'.kinds.trans h.kinds, h'.bufs.trans h.bufs⟩

theorem SameRecords.room (h : SameRecords s s') (hs : Room s) : Room s' := by
  rwa [Room, Em.lastFull, h.kinds, h.bufs]

theorem Alike.sameRecords (h : Alike s s') : SameRecords s s' := by
  refine ⟨?_, h.bufs 0⟩
  have := congrArg (fun em : Em => em.exts.map Ext.kind) (h.maps 0)
  simpa [Dbs.forget, Function.comp_def, Ext.forget] using this

theorem Gets.sameRecords (h : Gets s e k dp s') : SameRecords s s' := by
  obtain ⟨i, r, b, hl, -, -, -, -, htake⟩ := h.take
  have hrec : SameRecords s (s.take e i r k b) → SameRecords s s' := (·.trans htake.sameRecords)
  refine hrec ⟨?_, proj_recount Em.bufs fun _ _ _ => rfl⟩
  rw [Dbs.take, exts_addFree]
  refine List.ext_getElem? fun j => ?_
  rw [List.getElem?_map, List.getElem?_map, Dbs.getElem?_setExt]
  split_ifs with hc
  · obtain ⟨rfl, rfl, -⟩ := hc
    rw [hl.1]
    rfl
  · rfl

/-- A page for a page set. -/
theorem pageForSet_spec (hi : Inv x y s) (hf : FullOk s) (hpos : 0 < s.stock) :
    Gives (pageForSet s) fun s' => ∃ dp, Gets s 0 .index dp s' := by
  obtain ⟨⟨s₁, dp⟩, htry, htried, hzero⟩ := @emTryGetAny_spec x y s 0 .index hi hf
  rw [pageForSet, htry]
  rcases htried with ⟨hdp, -⟩ | ⟨hne, hget⟩
  · exact absurd (hzero hdp) (ne_of_gt hpos)
  · dsimp only at hne hget ⊢
    rw [if_neg hne]
    exact .some ⟨dp, hget⟩

/-- What a storage keeps while page sets are stretched, for which `n` index pages of the system map
are taken. -/
structure Settles (s s' : Dbs) (n : ℕ) : Prop where
  grows : Grows s s'
  nPages : s'.nPages = s.nPages
  dpToEm : s'.dpToEm = s.dpToEm
  records : SameRecords s s'
  stock : s.stock - n ≤ s'.stock
  free : ∀ {e i r}, Live s e i r →
    ∃ r', Live s' e i r' ∧ r'.kind = r.kind ∧ extFreeCount r ≤ extFreeCount r' + n

theorem Settles.refl (s : Dbs) (n : ℕ) : Settles s s n where
  grows := .refl _
  nPages := rfl
  dpToEm := rfl
  records := .refl _
  stock := Int.sub_le_self _ (Int.natCast_nonneg n)
  free hl := ⟨_, hl, rfl, Nat.le_add_right _ _⟩

theorem Settles.trans {s'' : Dbs} {m : ℕ} (h : Settles s s' n) (h' : Settles s' s'' m) :
    Settles s s'' (n + m) where
  grows := h.grows.trans h'.grows
  nPages := h'.nPages.trans h.nPages
  dpToEm := h'.dpToEm.trans h.dpToEm
  records := h.records.trans h'.records
  stock := by
    have h₁ := h.stock
    have h₂ := h'.stock
    push_cast
    omega
  free hl := by
    obtain ⟨r₁, hl₁, hk₁, hle₁⟩ := h.free hl
    obtain ⟨r₂, hl₂, hk₂, hle₂⟩ := h'.free hl₁
    exact ⟨r₂, hl₂, hk₂.trans hk₁, by omega⟩

theorem Gets.settles (h : Gets s 0 .index dp s') : Settles s s' 1 where
  grows := h.grows (by decide)
  nPages := h.samePlaces.nPages
  dpToEm := h.samePlaces.dpToEm
  records := h.sameRecords
  stock := by
    rw [Dbs.stock, Dbs.stock, h.nFree, if_pos ⟨rfl, rfl⟩]
    rfl
  free := by
    obtain ⟨i, r, b, hlr, -, hb, hp, -, htake⟩ := h.take
    intro e' j r' hl
    have hpages {r₁ r₂ : Ext} (h : r₂.pages = r₁.pages) : extFreeCount r₂ = extFreeCount r₁ := by
      rw [extFreeCount, extFreeCount, h]
    by_cases hc : e' = 0 ∧ j = i
    · obtain ⟨rfl, rfl⟩ := hc
      obtain rfl := hlr.unique hl
      obtain ⟨r₂, hl₂, hk₂, -, hp₂⟩ := htake.live (live_recount hlr hlr.2)
      exact ⟨r₂, hl₂, hk₂, by rw [hpages hp₂, extFreeCount_taken hb hp]⟩
    · obtain ⟨r₂, hl₂, hk₂, -, hp₂⟩ := htake.live ((live_recount_of_ne hc).2 hl)
      exact ⟨r₂, hl₂, hk₂, by rw [hpages hp₂]; omega⟩

/-! ## Putting an extent into a record -/

/-- An extent with no record gets one, of which the counts know. -/
theorem Inv.register {x' y' : Option ℕ} {d : ℕ} {r' : Ext} (hi : Inv x y s)
    (hfree : ∀ r, ¬ Live s e i r) (hd : s.dpToEm d = none)
    (hlive : ∀ {e' j r}, Live s' e' j r ↔ (e' = e ∧ j = i ∧ r = r') ∨ Live s e' j r)
    (hdp : r'.dp = d)
    (hdpToExt : ∀ e', (s'.maps e').dpToExt = if e' = e then update (s.maps e).dpToExt d (some i)
      else (s.maps e').dpToExt)
    (hdpToEm : s'.dpToEm = update s.dpToEm d (some e)) (hext : s'.extentSet = s.extentSet)
    (hset : s'.freeSet = s.freeSet) (hn : s'.nPages = s.nPages)
    (hmark : s.extentSet (d / extentSz) = true ∨ x' = some d) (hx : ∀ a, x = some a → x' = some a)
    (halign : d % extentSz = 0) (hlt : d < s.nPages)
    (hbufs : ∀ {e b}, b ∈ (s'.maps e).bufs → s.freeSet b.1 = true ∨ y' = some b.1)
    (hcount : ∀ e k, (s'.maps e).nFree k = emFreeCount (s'.maps e) k) : Inv x' y' s' := by
  -- no record in use has the place of the new one
  have hne {e' j : ℕ} {r : Ext} (hl : Live s e' j r) : r.dp ≠ d := by
    intro heq
    have := (hi.hash hl).2
    rw [heq, hd] at this
    cases this
  constructor
  case count => exact hcount
  case alloc =>
    intro p hp
    rw [hset] at hp
    obtain ⟨e', j, r, hl, hp⟩ := hi.alloc hp
    exact ⟨e', j, r, hlive.2 (.inr hl), hp⟩
  constructor
  case hash =>
    intro e' j r hl
    rw [hdpToExt, hdpToEm]
    rcases hlive.1 hl with ⟨rfl, rfl, rfl⟩ | hl
    · simp [hdp]
    · obtain ⟨h₁, h₂⟩ := hi.hash hl
      rw [update_of_ne (hne hl)]
      refine ⟨?_, h₂⟩
      split_ifs with he
      · rw [update_of_ne (hne hl), ← he]
        exact h₁
      · exact h₁
  case ofHash =>
    intro e' d' j hh
    rw [hdpToExt] at hh
    have hold : (s.maps e').dpToExt d' = some j → ∃ r, Live s' e' j r ∧ r.dp = d' := by
      intro hh
      obtain ⟨r, hl, hr⟩ := hi.ofHash hh
      exact ⟨r, hlive.2 (.inr hl), hr⟩
    split_ifs at hh with he
    · by_cases hdd : d' = d
      · subst he hdd
        rw [update_self] at hh
        cases hh
        exact ⟨r', hlive.2 (.inl ⟨rfl, rfl, rfl⟩), hdp⟩
      · rw [update_of_ne hdd, ← he] at hh
        exact hold hh
    · exact hold hh
  case ofEm =>
    intro d' e' hh
    rw [hdpToEm] at hh
    rw [hdpToExt]
    by_cases hdd : d' = d
    · subst hdd
      rw [update_self] at hh
      cases hh
      exact ⟨i, by simp⟩
    · rw [update_of_ne hdd] at hh
      obtain ⟨j, hj⟩ := hi.ofEm hh
      refine ⟨j, ?_⟩
      split_ifs with he
      · rw [update_of_ne hdd, ← he]
        exact hj
      · exact hj
  case marked =>
    intro e' j r hl
    rw [hext]
    rcases hlive.1 hl with ⟨-, -, rfl⟩ | hl
    · rw [hdp]
      exact hmark
    · exact (hi.marked hl).imp id (hx _)
  case aligned =>
    intro e' j r hl
    rcases hlive.1 hl with ⟨-, -, rfl⟩ | hl
    · rw [hdp]
      exact halign
    · exact hi.aligned hl
  case lt =>
    intro e' j r hl
    rw [hn]
    rcases hlive.1 hl with ⟨-, -, rfl⟩ | hl
    · rw [hdp]
      exact hlt
    · exact hi.lt hl
  case marked_lt =>
    intro n hm
    rw [hext] at hm
    rw [hn]
    exact hi.marked_lt hm
  case nPages_mod =>
    rw [hn]
    exact hi.nPages_mod
  case bufs =>
    intro e' b hb
    rw [hset]
    exact hbufs hb
  case zero =>
    rw [hset]
    exact hi.zero

/-- The records of a map that has got one more. -/
theorem getElem?_append_singleton {l : List Ext} {r' : Ext} {j : ℕ} :
    (l ++ [r])[j]? = some r' ↔ l[j]? = some r' ∨ j = l.length ∧ r' = r := by
  rw [List.getElem?_append]
  split_ifs with hj
  · constructor
    · exact .inl
    · rintro (h | ⟨rfl, -⟩)
      · exact h
      · exact absurd hj (lt_irrefl _)
  · rw [List.getElem?_eq_none (not_lt.1 hj), List.getElem?_singleton]
    constructor
    · intro h
      split_ifs at h with hzero
      exact .inr ⟨by omega, (Option.some.inj h).symm⟩
    · rintro (h | ⟨rfl, rfl⟩)
      · cases h
      · simp

theorem mem_oneMore {bufs : List (ℕ × ℕ)} {b : ℕ × ℕ} (h : b ∈ oneMore bufs) :
    ∃ b' ∈ bufs, b'.1 = b.1 := by
  rcases List.mem_append.1 h with h | h
  · exact ⟨b, (List.dropLast_sublist _).subset h, rfl⟩
  · rw [Option.mem_toList, Option.map_eq_some_iff] at h
    obtain ⟨b', hb', rfl⟩ := h
    exact ⟨b', List.mem_of_getLast? hb', rfl⟩

theorem extFreeCount_of_empty (h : ∀ b, r.pages b = false) : extFreeCount r = extentSz := by
  simp [extFreeCount, h]

theorem extFreeCount_sysExt (dp : ℕ) (paged : Bool) :
    (extFreeCount (sysExt dp paged) : ℤ) = extentSz - if paged then 1 else 0 := by
  have hempty : extFreeCount (sysExt dp false) = extentSz := extFreeCount_of_empty fun b => rfl
  cases paged
  · simp [hempty]
  · have htaken : sysExt dp true = (sysExt dp false).taken 0 := by
      simp only [sysExt, Ext.taken, Ext.mk.injEq, true_and]
      funext b
      by_cases hb : b = 0 <;> simp [hb]
    have := extFreeCount_taken (show 0 < extentSz by decide)
      (show (sysExt dp false).pages 0 = false from rfl)
    rw [htaken]
    simp only [if_true]
    omega

/-- The first page of an extent without a record is not allocated. -/
theorem Inv.freeSet_of_dpToEm (hi : Inv x y s) (hd : s.dpToEm dp = none)
    (halign : dp % extentSz = 0) : s.freeSet dp = false := by
  by_contra hset
  rw [Bool.not_eq_false] at hset
  obtain ⟨e, i, r, hl, h₁, h₂, -⟩ := hi.alloc hset
  have hr := hi.aligned hl
  obtain rfl : r.dp = dp := by
    simp only [extentSz] at *
    omega
  rw [(hi.hash hl).2] at hd
  cases hd

/-- The file and the page sets are as long as before. -/
structure Dbs.SameSizes (s s' : Dbs) : Prop where
  nPages : s'.nPages = s.nPages
  nPagesInSets : s'.nPagesInSets = s.nPagesInSets
  nPagesInExtentSet : s'.nPagesInExtentSet = s.nPagesInExtentSet

section

variable {x y : Option ℕ} {s s' : Dbs} {dp i : ℕ} {paged : Bool}

theorem newSysExt_eq (h : newSysExt s dp = some (s', i, paged)) :
    s.dpToEm dp = none ∧ i = (s.maps 0).exts.length ∧ paged = (s.maps 0).lastFull ∧
      s'.maps 0 = (s.maps 0).addSysExt dp ∧ (∀ e, e ≠ 0 → s'.maps e = s.maps e) ∧
      s' = { s with dpToEm := update s.dpToEm dp (some 0),
                    maps := (s.modEm 0 fun em => em.addSysExt dp).maps } := by
  rw [newSysExt] at h
  split_ifs at h with hd
  cases h
  exact ⟨not_not.1 hd, rfl, rfl, (Dbs.maps_modEm s 0 fun em => em.addSysExt dp :),
    fun e he => (Dbs.maps_modEm_of_ne s 0 (fun em => em.addSysExt dp) he :), rfl⟩

/-- The extent that `dbs_file_extend` gives to the system map. -/
theorem newSysExt_spec (hi : Inv none none s) (hf : FullOk s) (halign : dp % extentSz = 0)
    (hlt : dp < s.nPages) (hun : s.extentSet (dp / extentSz) = false)
    (h : newSysExt s dp = some (s', i, paged)) :
    Inv (some dp) (if paged then some dp else none) s' ∧ FullOk s' ∧ Grows s s' ∧
      s.SameSizes s' ∧ s.stock + 255 ≤ s'.stock ∧ Live s' 0 i (sysExt dp paged) := by
  obtain ⟨hd, rfl, hpaged, hmap, hother, hs'⟩ := newSysExt_eq h
  have hexts : (s'.maps 0).exts = (s.maps 0).exts ++ [sysExt dp paged] := by
    rw [hmap, Em.addSysExt, hpaged]
  have hlive {e' j : ℕ} {r : Ext} : Live s' e' j r ↔
      (e' = 0 ∧ j = (s.maps 0).exts.length ∧ r = sysExt dp paged) ∨ Live s e' j r := by
    by_cases he : e' = 0
    · subst he
      rw [Live, Live, hexts, getElem?_append_singleton]
      constructor
      · rintro ⟨h | ⟨rfl, rfl⟩, hk⟩
        · exact .inr ⟨h, hk⟩
        · exact .inl ⟨rfl, rfl, rfl⟩
      · rintro (⟨-, rfl, rfl⟩ | ⟨h, hk⟩)
        · exact ⟨.inr ⟨rfl, rfl⟩, by simp [sysExt]⟩
        · exact ⟨.inl h, hk⟩
    · rw [Live, Live, hother e' he]
      simp [he]
  have hset : s'.freeSet = s.freeSet := by rw [hs']
  have hmaps : s'.maps = (s.modEm 0 fun em => em.addSysExt dp).maps := by rw [hs']
  have hbufs {e' : ℕ} {b : ℕ × ℕ} (hb : b ∈ (s'.maps e').bufs) :
      (∃ b' ∈ (s.maps e').bufs, b'.1 = b.1) ∨ paged = true ∧ b.1 = dp := by
    by_cases he : e' = 0
    · subst he
      rw [hmap] at hb
      simp only [Em.addSysExt, ← hpaged] at hb
      split_ifs at hb with hp
      · rcases List.mem_append.1 hb with hb | hb
        · exact .inl ⟨b, hb, rfl⟩
        · exact .inr ⟨hp, by rw [List.mem_singleton.1 hb]⟩
      · exact .inl (mem_oneMore hb)
    · rw [hother e' he] at hb
      exact .inl ⟨b, hb, rfl⟩
  refine ⟨?_, ?_, ?_, ⟨by rw [hs'], by rw [hs'], by rw [hs']⟩, ?_, hlive.2 (.inl ⟨rfl, rfl, rfl⟩)⟩
  · refine hi.register (fun r hl => ?_) hd hlive rfl (fun e' => ?_) (by rw [hs']) (by rw [hs']) hset
      (by rw [hs']) (.inr rfl) (by simp) halign hlt (fun hb => ?_) fun e' k => ?_
    · exact absurd hl.lt (lt_irrefl _)
    · split_ifs with he
      · subst he
        rw [hmap]
        rfl
      · rw [hother e' he]
    · rcases hbufs hb with ⟨b', hb', heq⟩ | ⟨rfl, heq⟩
      · rw [← heq]
        exact (hi.bufs hb').imp id (by simp)
      · exact .inr (by rw [if_pos rfl, heq])
    · by_cases he : e' = 0
      · subst he
        rw [emFreeCount_eq, hexts, List.map_append, List.sum_append, List.map_singleton,
          List.sum_singleton, ← emFreeCount_eq, ← hi.count, Ext.free_of_kind (k := .index) rfl,
          extFreeCount_sysExt, hmap]
        by_cases hk : k = .index
        · subst hk
          simp only [Em.addSysExt, update_self, ← hpaged, if_true]
          ring
        · simp only [Em.addSysExt, update_of_ne hk, if_neg hk, add_zero]
      · rw [hother e' he]
        exact hi.count e' k
  · intro e' j r hl hfull
    rcases hlive.1 hl with ⟨-, -, rfl⟩ | hl
    · cases hfull
    · exact hf e' j r hl hfull
  · constructor
    case freeSet =>
      intro p hp
      rwa [hset]
    case bufs =>
      intro e' b hb
      rcases hbufs hb with hb | ⟨-, heq⟩
      · exact .inl hb
      · rw [heq]
        exact .inr (hi.freeSet_of_dpToEm hd halign)
    case onHold =>
      rw [hmaps]
      exact fun _ => s.proj_modEm 0 Em.remapOnHold rfl
    case remap =>
      rw [hmaps]
      exact fun _ => (s.proj_modEm 0 (Em.nFree · .remap) (by simp [Em.addSysExt])).ge
    case last =>
      refine lastOk_of_eq (fun e' => ?_) fun hl => ⟨_, hlive.2 (.inr hl), rfl⟩
      rw [hmaps]
      exact s.proj_modEm 0 Em.last rfl
    case live =>
      intro e' j r hl
      exact ⟨r, hlive.2 (.inr hl), rfl, rfl, fun _ => id⟩
    case nPages => rw [hs']
    case extentSet =>
      intro n hn
      rwa [hs']
    case dpToEm =>
      intro d _ hm
      have hne : d ≠ dp := by
        rintro rfl
        rw [hun] at hm
        cases hm
      rw [hs']
      dsimp only
      rw [update_of_ne hne]
  · rw [Dbs.stock, Dbs.stock, hmap]
    simp only [Em.addSysExt, update_self, extentSz]
    split_ifs <;> omega

end

/-! ## Marks -/

section

variable {x x' y y' : Option ℕ} {s s' : Dbs}

/-- An extent is marked. -/
theorem Inv.mark (hi : Inv x y s) (hlt : extentSz * n < s.nPages)
    (hx : ∀ a, x = some a → x' = some a ∨ a / extentSz = n) : Inv x' y (s.markExtent n) where
  hash := hi.hash
  ofHash := hi.ofHash
  ofEm := hi.ofEm
  marked := by
    intro e i r hl
    by_cases hn : r.dp / extentSz = n
    · simp [Dbs.markExtent, hn]
    · rcases hi.marked hl with hm | hm
      · left
        simpa [Dbs.markExtent, hn] using hm
      · exact .inr ((hx _ hm).resolve_right hn)
  aligned := hi.aligned
  lt := hi.lt
  marked_lt := by
    intro m hm
    by_cases hmn : m = n
    · subst hmn
      exact hlt
    · rw [Dbs.markExtent] at hm
      dsimp only at hm
      rw [update_of_ne hmn] at hm
      exact hi.marked_lt hm
  nPages_mod := hi.nPages_mod
  bufs := hi.bufs
  zero := hi.zero
  count := hi.count
  alloc := hi.alloc

/-- The extent after the file is not marked. -/
theorem Inv.extentSet_nPages (hi : Inv x y s) : s.extentSet (s.nPages / extentSz) = false := by
  have hmod := hi.nPages_mod
  by_contra hset
  have := hi.marked_lt (Bool.not_eq_false _ ▸ hset)
  simp only [extentSz] at *
  omega

/-- A page that has its bit set is marked in the free set. -/
theorem Inv.allocate (hi : Inv x y s) {n : ℤ} (hhas : ∃ e i r, Live s e i r ∧ r.Has p)
    (hy : ∀ a, y = some a → y' = some a ∨ a = p) :
    Inv x y' { s with freeSet := update s.freeSet p true, nFreePages := n } where
  hash := hi.hash
  ofHash := hi.ofHash
  ofEm := hi.ofEm
  marked := hi.marked
  aligned := hi.aligned
  lt := hi.lt
  marked_lt := hi.marked_lt
  nPages_mod := hi.nPages_mod
  bufs := by
    intro e b hb
    by_cases hbp : b.1 = p
    · simp [hbp]
    · rcases hi.bufs hb with hset | hset
      · left
        simpa [hbp] using hset
      · exact .inr ((hy _ hset).resolve_right hbp)
  zero := by
    by_cases hp : 0 = p
    · simp [← hp]
    · simpa [hp] using hi.zero
  count := hi.count
  alloc := by
    intro q hq
    by_cases hqp : q = p
    · subst hqp
      exact hhas
    · dsimp only at hq
      rw [update_of_ne hqp] at hq
      exact hi.alloc hq

/-- The sizes of the sets and the count of pages in them do not matter. -/
theorem Inv.sets (hi : Inv x y s) (n : ℤ) (a b : ℕ) :
    Inv x y { s with nFreePages := n, nPagesInSets := a, nPagesInExtentSet := b } :=
  ⟨⟨hi.hash, hi.ofHash, hi.ofEm, hi.marked, hi.aligned, hi.lt, hi.marked_lt, hi.nPages_mod, hi.bufs,
    hi.zero⟩, hi.count, hi.alloc⟩

theorem dbsPageAllocated_eq (h : dbsPageAllocated s p = some s') :
    ∃ n, s' = { s with freeSet := update s.freeSet p true, nFreePages := n } := by
  rw [dbsPageAllocated] at h
  split_ifs at h with _ hset
  · refine ⟨s.nFreePages, ?_⟩
    cases h
    rw [← hset, update_eq_self]
  · exact ⟨_, (Option.some.inj h).symm⟩

/-- Changes of the sets that do not take anything back. -/
theorem grows_sets {freeSet extentSet : ℕ → Bool} {nFreePages : ℤ} {nPages nPagesInSets : ℕ}
    (hset : ∀ p, s.freeSet p = true → freeSet p = true) (hn : s.nPages ≤ nPages)
    (hext : ∀ n, s.extentSet n = true → extentSet n = true) :
    Grows s { s with freeSet := freeSet, extentSet := extentSet, nFreePages := nFreePages,
                     nPages := nPages, nPagesInSets := nPagesInSets, nPagesInExtentSet := n } :=
  ⟨hset _, fun hb => .inl ⟨_, hb, rfl⟩, fun _ => rfl, fun _ => le_rfl, id,
    fun hl => ⟨_, hl, rfl, rfl, fun _ => id⟩, hn, hext _, fun _ _ => rfl⟩

/-- The sets may get larger and longer, and the file does not. -/
theorem settles_sets {freeSet extentSet : ℕ → Bool} {nFreePages : ℤ} {nPagesInSets : ℕ}
    (hset : ∀ p, s.freeSet p = true → freeSet p = true)
    (hext : ∀ n, s.extentSet n = true → extentSet n = true) :
    Settles s { s with freeSet := freeSet, extentSet := extentSet, nFreePages := nFreePages,
                       nPagesInSets := nPagesInSets, nPagesInExtentSet := n } 0 where
  grows := grows_sets hset le_rfl hext
  nPages := rfl
  dpToEm := rfl
  records := ⟨rfl, rfl⟩
  stock := Int.sub_le_self _ le_rfl
  free hl := ⟨_, hl, rfl, le_rfl⟩

theorem extentSet_markExtent {m : ℕ} (h : s.extentSet m = true) :
    (s.markExtent n).extentSet m = true := by
  by_cases hm : m = n
  · simp [Dbs.markExtent, hm]
  · simpa [Dbs.markExtent, hm] using h

end

/-! ## Longer files -/

/-- The file grows by whole extents, and by no more pages than a page of a set has bits.  It is not
made longer when the numbers of pages come near to `2 ^ 32`. -/
structure Env.Ok (env : Env) : Prop where
  quota_pos : 0 < env.quota
  quota_mod : env.quota % extentSz = 0
  quota_le : env.quota ≤ bitsOnPage
  canGrow_le : ∀ n, env.canGrow n = true → n + 2 ^ 25 ≤ 2 ^ 32

/-- The sets have a bit for every page and every extent, and numbers of pages have 32 bits. -/
structure Sizes (nPages nPagesInSets nPagesInExtentSet : ℕ) : Prop where
  inSets : nPages ≤ nPagesInSets
  inExtentSet : nPages ≤ nPagesInExtentSet
  lt : nPages < 2 ^ 32

/-- A storage on which calls can be made, but for `LastOk`. -/
structure Good (s : Dbs) : Prop extends Inv none none s where
  full : FullOk s
  sizes : Sizes s.nPages s.nPagesInSets s.nPagesInExtentSet

/-- A storage as it is between calls. -/
structure Consistent (s : Dbs) : Prop extends Good s where
  last : LastOk s

section

variable {env : Env} {x y : Option ℕ} {s s' : Dbs}

theorem longer_eq (henv : env.Ok) (hi : Inv x y s) (hgrow : env.canGrow s.nPages = true) :
    longer env s = { s with nPages := s.nPages + env.quota,
                            nFreePages := s.nFreePages + env.quota } := by
  have hmod : (s.nPages + env.quota) % 2 ^ 32 = s.nPages + env.quota := by
    have h₁ := henv.canGrow_le _ hgrow
    have h₂ := henv.quota_le
    rw [bitsOnPage] at h₂
    exact Nat.mod_eq_of_lt (by omega)
  rw [longer, hmod]
  split_ifs
  · rw [Dbs.modEm]
    rw [← hi.count, update_eq_self, update_eq_self]
  · rfl

theorem Inv.longer (henv : env.Ok) (hi : Inv x y s) (hgrow : env.canGrow s.nPages = true) :
    Inv x y (longer env s) := by
  rw [longer_eq henv hi hgrow]
  refine ⟨⟨hi.hash, hi.ofHash, hi.ofEm, hi.marked, hi.aligned, fun hl => ?_, fun hm => ?_, ?_,
    hi.bufs, hi.zero⟩, hi.count, hi.alloc⟩
  · exact (hi.lt hl).trans_le (Nat.le_add_right _ _)
  · exact (hi.marked_lt hm).trans_le (Nat.le_add_right _ _)
  · have h₁ := hi.nPages_mod
    have h₂ := henv.quota_mod
    rw [Nat.add_mod, h₁, h₂]
    rfl

/-- Pages for the free set and the backup set. -/
theorem stretchSets_spec (hi : Inv x y s) (hf : FullOk s) (hstock : 2 ≤ s.stock)
    (hsmall : s.nPages + 2 ^ 24 ≤ 2 ^ 32) :
    Gives (stretchSets s) fun s' => Inv x y s' ∧ FullOk s' ∧ Settles s s' 2 ∧
      s'.nPagesInExtentSet = s.nPagesInExtentSet ∧
      (s.nPages ≤ s.nPagesInSets + bitsOnPage → s'.nPages ≤ s'.nPagesInSets) := by
  rw [stretchSets]
  split_ifs with hn
  · refine (pageForSet_spec hi hf (by omega)).bind fun s₁ ⟨dp₁, hg₁⟩ => ?_
    have hstock₁ := hg₁.settles.stock
    push_cast at hstock₁
    refine (pageForSet_spec (hg₁.inv hi) (hg₁.full hf) (by omega)).map fun s₂ ⟨dp₂, hg₂⟩ => ?_
    have hset := hg₁.settles.trans hg₂.settles
    have hpages := hset.nPages
    have hsets : s₂.nPagesInSets = s.nPagesInSets :=
      hg₂.samePlaces.nPagesInSets.trans hg₁.samePlaces.nPagesInSets
    have hmod : (s₂.nPagesInSets + bitsOnPage) % 2 ^ 32 = s.nPagesInSets + bitsOnPage := by
      rw [hsets]
      exact Nat.mod_eq_of_lt (by rw [bitsOnPage]; omega)
    rw [hmod]
    exact ⟨(hg₂.inv (hg₁.inv hi)).sets _ _ _, hg₂.full (hg₁.full hf),
      hset.trans (settles_sets (fun _ => id) fun _ => id),
      hg₂.samePlaces.nPagesInExtentSet.trans hg₁.samePlaces.nPagesInExtentSet, hpages.trans_le⟩
  · exact .some ⟨hi, hf, .refl s 2, rfl, fun _ => not_lt.1 hn⟩

/-- A page for the extent set. -/
theorem stretchExtentSet_spec (hi : Inv x y s) (hf : FullOk s) (hstock : 1 ≤ s.stock)
    (hsmall : s.nPages + 2 ^ 24 ≤ 2 ^ 32) :
    Gives (stretchExtentSet s) fun s' => Inv x y s' ∧ FullOk s' ∧ Settles s s' 1 ∧
      s'.nPagesInSets = s.nPagesInSets ∧
      s'.nPagesInExtentSet = s.nPagesInExtentSet +
        if s.nPagesInExtentSet < s.nPages then extentSz * bitsOnPage else 0 := by
  rw [stretchExtentSet]
  split_ifs with hn
  · refine (pageForSet_spec hi hf (by omega)).map fun s₁ ⟨dp₁, hg₁⟩ => ?_
    have hmark : extentSz * (s₁.nPagesInExtentSet / extentSz) < s₁.nPages :=
      (Nat.mul_div_le _ _).trans_lt
        (by rwa [hg₁.samePlaces.nPages, hg₁.samePlaces.nPagesInExtentSet])
    have hmod : (s₁.nPagesInExtentSet + extentSz * bitsOnPage) % 2 ^ 32 =
        s.nPagesInExtentSet + extentSz * bitsOnPage := by
      rw [hg₁.samePlaces.nPagesInExtentSet]
      exact Nat.mod_eq_of_lt (by rw [extentSz, bitsOnPage]; omega)
    rw [hmod]
    exact ⟨((hg₁.inv hi).mark hmark fun _ => .inl).sets _ _ _, hg₁.full hf,
      hg₁.settles.trans (settles_sets (fun _ => id) fun _ => extentSet_markExtent),
      hg₁.samePlaces.nPagesInSets, rfl⟩
  · exact .some ⟨hi, hf, .refl s 1, rfl, rfl⟩

/-- The new extent goes to the system map if that has less than 16 pages left. -/
theorem sysExtIfLow_spec (hi : Inv none none s) (hf : FullOk s) (hd : s.dpToEm dp = none)
    (halign : dp % extentSz = 0) (hlt : dp < s.nPages)
    (hun : s.extentSet (dp / extentSz) = false) :
    Gives (sysExtIfLow s dp) fun (s', newExt, paged) =>
      Inv (if newExt.isSome then some dp else none) (if paged then some dp else none) s' ∧
        FullOk s' ∧ Grows s s' ∧ s.SameSizes s' ∧
        (newExt = none → paged = false ∧ s' = s ∧ 16 ≤ s.stock) ∧
        ∀ i, newExt = some i →
          s.stock < 16 ∧ s.stock + 255 ≤ s'.stock ∧ Live s' 0 i (sysExt dp paged) := by
  rw [sysExtIfLow]
  split_ifs with hlow
  · obtain ⟨x, hnew⟩ : ∃ x, newSysExt s dp = some x := by
      rw [newSysExt, if_neg (not_not.2 hd)]
      exact ⟨_, rfl⟩
    obtain ⟨h₁, h₂, h₃, h₄, h₅, h₆⟩ := newSysExt_spec hi hf halign hlt hun hnew
    rw [hnew]
    refine .some ⟨h₁, h₂, h₃, h₄, by simp, fun i hi => ?_⟩
    cases hi
    exact ⟨hlow, h₅, h₆⟩
  · exact .some ⟨hi, hf, .refl _, ⟨rfl, rfl, rfl⟩, fun _ => ⟨rfl, rfl, not_lt.1 hlow⟩, by simp⟩

theorem sysExt_has (dp : ℕ) : (sysExt dp true).Has dp := by
  refine ⟨le_rfl, Nat.lt_add_of_pos_right (by decide), ?_⟩
  rw [show (sysExt dp true).dp = dp from rfl, Nat.sub_self]
  rfl

theorem dbsPageAllocated_of_lt (h : p < s.nPagesInSets) :
    ∃ n, dbsPageAllocated s p =
      some { s with freeSet := update s.freeSet p true, nFreePages := n } := by
  have hsome : ∃ s', dbsPageAllocated s p = some s' := by
    rw [dbsPageAllocated, if_neg (not_le.2 h)]
    split_ifs
    · exact ⟨_, rfl⟩
    · exact ⟨_, rfl⟩
  obtain ⟨s', hs'⟩ := hsome
  obtain ⟨n, rfl⟩ := dbsPageAllocated_eq hs'
  exact ⟨n, hs'⟩

/-- No map has an extent that is not marked. -/
theorem Good.dpToEm_of_unmarked (hs : Good s) {d : ℕ} (h : s.extentSet (d / extentSz) = false) :
    s.dpToEm d = none := by
  by_contra hne
  obtain ⟨e, he⟩ := Option.ne_none_iff_exists'.1 hne
  obtain ⟨i, hi⟩ := hs.ofEm he
  obtain ⟨r, hl, rfl⟩ := hs.ofHash hi
  rcases hs.marked hl with hm | hm
  · rw [h] at hm
    cases hm
  · cases hm

section

variable {newExt : Option ℕ} {paged : Bool} {d : ℕ}

/-- The new page of records is marked in the free set. -/
theorem allocate_paged (hi : Inv x (if paged then some d else none) s) (hf : FullOk s)
    (hhas : paged = true → ∃ e i r, Live s e i r ∧ r.Has d) (hlt : d < s.nPagesInSets) :
    Gives (if paged then dbsPageAllocated s d else some s) fun s' =>
      Inv x none s' ∧ FullOk s' ∧ Settles s s' 0 ∧ s.SameSizes s' := by
  cases paged with
  | false => exact .some ⟨hi, hf, .refl s 0, rfl, rfl, rfl⟩
  | true =>
    obtain ⟨n, halloc⟩ := dbsPageAllocated_of_lt hlt
    rw [if_pos rfl, halloc]
    refine .some ⟨hi.allocate (hhas rfl) fun a ha => .inr (Option.some.inj ha).symm, hf,
      settles_sets (fun p hp => ?_) fun _ => id, rfl, rfl, rfl⟩
    by_cases hpd : p = d
    · simp [hpd]
    · simpa [hpd] using hp

/-- The extent of the system map is marked in the extent set. -/
theorem mark_newExt (hi : Inv (if newExt.isSome then some d else none) none s) (hf : FullOk s)
    (hmod : d % extentSz = 0) (hlt : d < s.nPages) (hin : d < s.nPagesInExtentSet) :
    Gives (if newExt.isSome then dbsExtentAllocated s d else some s) fun s' =>
      Inv none none s' ∧ FullOk s' ∧ Settles s s' 0 ∧ s.SameSizes s' := by
  cases newExt with
  | none => exact .some ⟨hi, hf, .refl s 0, rfl, rfl, rfl⟩
  | some i =>
    rw [Option.isSome_some, if_pos rfl, dbsExtentAllocated, if_neg (by omega)]
    refine .some ⟨hi.mark ((Nat.mul_div_le _ _).trans_lt hlt) fun a ha => .inr ?_, hf,
      settles_sets (fun _ => id) fun _ => extentSet_markExtent, rfl, rfl, rfl⟩
    rw [Option.isSome_some, if_pos rfl, Option.some.injEq] at ha
    rw [ha]

end

/-- What `dbs_file_extend` does to the storage if the file can become longer. -/
structure Lengthens (s : Dbs) (newExt : Option ℕ) (s' : Dbs) : Prop where
  good : Good s'
  grows : Grows s s'
  nPages : s.nPages + extentSz ≤ s'.nPages
  stock : 13 ≤ s'.stock
  kept : newExt = none → 16 ≤ s.stock ∧ s.stock - 3 ≤ s'.stock ∧ s'.dpToEm = s.dpToEm ∧
    SameRecords s s'
  made : ∀ i, newExt = some i → s.stock < 16 ∧ 19 ≤ s'.stock ∧
    ∃ r, Live s' 0 i r ∧ r.kind = some .index ∧ 0 < extFreeCount r
  set : s'.nPagesInExtentSet = s.nPagesInExtentSet ∨ s'.nPages + extentSz ≤ s'.nPagesInExtentSet

/-- `dbs_file_extend` fails and changes nothing, or makes the file longer. -/
theorem dbsFileExtend_spec (henv : env.Ok) (hs : Good s) :
    Gives (dbsFileExtend env s) fun x =>
      (x.2 = .failed ∧ x.1 = s) ∨ ∃ newExt, x.2 = .grew newExt ∧ Lengthens s newExt x.1 := by
  rw [dbsFileExtend]
  split_ifs with hgrow
  · exact .some (.inl ⟨rfl, rfl⟩)
  have hgrow : env.canGrow s.nPages = true := by simpa using hgrow
  have hlonger := longer_eq henv hs.toInv hgrow
  have hi₁ := hs.toInv.longer henv hgrow
  have hf₁ : FullOk (longer env s) := hlonger ▸ hs.full
  have hg₁ : Grows s (longer env s) :=
    hlonger ▸ grows_sets (fun _ => id) (Nat.le_add_right _ _) fun _ => id
  have hn₁ : (longer env s).nPages = s.nPages + env.quota := by rw [hlonger]
  have hstock₁ : (longer env s).stock = s.stock := by rw [hlonger]
  have hzero : 0 ≤ s.stock := by
    rw [Dbs.stock, hs.count]
    exact emFreeCount_nonneg _ _
  have hun := hs.toInv.extentSet_nPages
  -- the quota is an extent at least, and the sums are small
  have hpos := henv.quota_pos
  have hquota : extentSz ≤ env.quota :=
    Nat.le_of_dvd henv.quota_pos (Nat.dvd_of_mod_eq_zero henv.quota_mod)
  have hsmall : s.nPages + env.quota + 2 ^ 24 ≤ 2 ^ 32 := by
    have h₁ := henv.canGrow_le _ hgrow
    have h₂ := henv.quota_le
    rw [bitsOnPage] at h₂
    omega
  refine (sysExtIfLow_spec hi₁ hf₁ (by rw [hlonger]; exact hs.dpToEm_of_unmarked hun)
    hs.nPages_mod (by omega) (by rw [hlonger]; exact hun)).bind ?_
  rintro ⟨s₂, newExt, paged⟩ ⟨hi₂, hf₂, hg₂, hsizes, hnone, hsome⟩
  have hstock₂ : 16 ≤ s₂.stock := by
    cases newExt with
    | none =>
      obtain ⟨-, rfl, hle⟩ := hnone rfl
      exact hle
    | some i =>
      have := (hsome i rfl).2.1
      omega
  have hn₂ := hsizes.nPages.trans hn₁
  refine (stretchSets_spec hi₂ hf₂ (by omega) (by omega)).bind ?_
  rintro s₃ ⟨hi₃, hf₃, hset₃, hext₃, hsets₃⟩
  have hn₃ := hset₃.nPages.trans hn₂
  have hin₃ : s₃.nPages ≤ s₃.nPagesInSets := by
    refine hsets₃ ?_
    rw [hn₂, hsizes.nPagesInSets, hlonger]
    exact Nat.add_le_add hs.sizes.inSets henv.quota_le
  have hhas (hpaged : paged = true) : ∃ e i r, Live s₃ e i r ∧ r.Has s.nPages := by
    obtain ⟨i, hi⟩ := Option.ne_none_iff_exists'.1 fun h => by simp [(hnone h).1] at hpaged
    obtain ⟨r, hr, -, hhas⟩ := hset₃.grows.has (hsome i hi).2.2 (hpaged ▸ sysExt_has _)
    exact ⟨0, i, r, hr, hhas⟩
  refine (allocate_paged hi₃ hf₃ hhas (by omega)).bind ?_
  rintro s₄ ⟨hi₄, hf₄, hset₄, hsizes₄⟩
  have hset₃₄ := hset₃.trans hset₄
  have hstock₄ := hset₃₄.stock
  push_cast at hstock₄
  refine (stretchExtentSet_spec hi₄ hf₄ (by omega) (by rw [hsizes₄.nPages]; omega)).bind ?_
  rintro s₅ ⟨hi₅, hf₅, hset₅, hsets₅, hext₅⟩
  have hset := hset₃₄.trans hset₅
  have hn₅ := hset.nPages.trans hn₂
  have hext : s₅.nPagesInExtentSet = s.nPagesInExtentSet +
      if s.nPagesInExtentSet < s.nPages + env.quota then extentSz * bitsOnPage else 0 := by
    rw [hext₅, hsizes₄.nPages, hn₃, hsizes₄.nPagesInExtentSet, hext₃, hsizes.nPagesInExtentSet,
      hlonger]
  have hbits : env.quota + extentSz ≤ extentSz * bitsOnPage := by
    have := henv.quota_le
    simp only [extentSz, bitsOnPage] at *
    omega
  have hin := hs.sizes.inExtentSet
  have hin₅ : s₅.nPages ≤ s₅.nPagesInExtentSet := by
    rw [hn₅, hext]
    split_ifs <;> omega
  refine (mark_newExt hi₅ hf₅ hs.nPages_mod (by omega) (by omega)).map ?_
  rintro s₆ ⟨hi₆, hf₆, hset₆, hsizes₆⟩
  refine .inr ⟨newExt, rfl, ?_⟩
  change Lengthens s newExt s₆
  have hall := hset.trans hset₆
  have hstock₆ := hall.stock
  push_cast at hstock₆
  have hn₆ := hall.nPages.trans hn₂
  have hext₆ := hsizes₆.nPagesInExtentSet.trans hext
  refine ⟨⟨hi₆, hf₆, ⟨?_, ?_, by omega⟩⟩, (hg₁.trans hg₂).trans hall.grows,
    hn₆ ▸ Nat.add_le_add_left hquota _, by omega, fun hnew => ?_, fun i hi => ?_, ?_⟩
  · rw [hn₆, hsizes₆.nPagesInSets, hsets₅, hsizes₄.nPagesInSets, ← hn₃]
    exact hin₃
  · rw [hsizes₆.nPages, hsizes₆.nPagesInExtentSet]
    exact hin₅
  · obtain ⟨-, rfl, hle⟩ := hnone hnew
    refine ⟨hstock₁ ▸ hle, hstock₁ ▸ ?_, ?_, ?_⟩
    · omega
    · rw [hall.dpToEm, hlonger]
    · have hrec : SameRecords s (longer env s) := hlonger ▸ ⟨rfl, rfl⟩
      exact hrec.trans hall.records
  · obtain ⟨hlow, hle, hl⟩ := hsome i hi
    obtain ⟨r, hr, hk, hfree⟩ := hall.free hl
    refine ⟨hstock₁ ▸ hlow, by omega, r, hr, hk, ?_⟩
    have := extFreeCount_sysExt s.nPages paged
    rw [extentSz] at this
    split_ifs at this <;> omega
  · rw [hn₆, hext₆]
    split_ifs
    · right
      omega
    · exact .inl (Nat.add_zero _)

end

end Virtuoso.Extent
