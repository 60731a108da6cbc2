import Virtuoso.Extent.NewDp

/-!
# Freeing a page

`em_free_dp` clears the bit of the page, and if that was the last page of its extent it gives the
extent back.
-/

namespace Virtuoso.Extent

open Function

variable {env : Env} {s s' : Dbs} {e i dp : ℕ} {r : Ext} {k : Kind}

/-! ## The bit of a page -/

/-- A page that is not for records is taken out of the free set. -/
theorem Good.deallocate (hs : Good s) (hne : dp ≠ 0) (hbufs : ∀ e, ∀ b ∈ (s.maps e).bufs, b.1 ≠ dp)
    (n : ℤ) : Good { s with freeSet := update s.freeSet dp false, nFreePages := n } := by
  refine ⟨⟨⟨hs.hash, hs.ofHash, hs.ofEm, hs.marked, hs.aligned, hs.lt, hs.marked_lt, hs.nPages_mod,
    fun {e b} hb => .inl ?_, ?_⟩, hs.count, fun {p} hp => ?_⟩, hs.full, hs.sizes⟩
  · dsimp only
    rw [update_of_ne (hbufs e b hb)]
    exact (hs.bufs hb).resolve_right (by simp)
  · dsimp only
    rw [update_of_ne hne.symm]
    exact hs.zero
  · by_cases hpd : p = dp
    · simp [hpd] at hp
    · dsimp only at hp
      rw [update_of_ne hpd] at hp
      exact hs.alloc hp

/-- The record with the page of bit `b` free. -/
def Ext.cleared (r : Ext) (b : ℕ) : Ext :=
  { r with pages := Function.update r.pages b false, full := false }

theorem extFreeCount_cleared {b : ℕ} (hb : b < extentSz) (hp : r.pages b = true) :
    extFreeCount (r.cleared b) = extFreeCount r + 1 := by
  have hclear : (update r.pages b false) b = false := update_self _ _ _
  have h := countP_update hb hclear
  rwa [update_idem, ← hp, update_eq_self] at h

/-- The storage after the bit of a page was cleared, and the page counted. -/
def Dbs.giveBack (s : Dbs) (e i : ℕ) (r : Ext) (k : Kind) (b : ℕ) : Dbs :=
  (s.setExt e i (r.cleared b)).addFree e k 1

section GiveBack

variable {b : ℕ} (hl : Live s e i r)
include hl

theorem samePlaces_giveBack : SamePlaces s (s.giveBack e i r k b) := samePlaces_recount hl rfl rfl

theorem live_giveBack : Live (s.giveBack e i r k b) e i (r.cleared b) := live_recount hl hl.2

omit hl in
/-- What a map has besides its records and counts. -/
theorem maps_giveBack (e' : ℕ) : ((s.giveBack e i r k b).maps e').bufs = (s.maps e').bufs ∧
    ((s.giveBack e i r k b).maps e').last = (s.maps e').last ∧
    ((s.giveBack e i r k b).maps e').remapOnHold = (s.maps e').remapOnHold ∧
    ∀ k', ((s.giveBack e i r k b).maps e').nFree k' =
      (s.maps e').nFree k' + if e' = e ∧ k' = k then 1 else 0 :=
  ⟨proj_recount Em.bufs fun _ _ _ => rfl, proj_recount Em.last fun _ _ _ => rfl,
    proj_recount Em.remapOnHold fun _ _ _ => rfl, nFree_recount⟩

theorem Good.giveBack (hk : r.kind = some k) (hb : b < extentSz) (hp : r.pages b = true)
    (hs : Good s) (hfree : s.freeSet (r.dp + b) = false) : Good (s.giveBack e i r k b) := by
  refine ⟨⟨hs.toPlaced.congr (samePlaces_giveBack hl) fun {e' b'} hb' => ?_, ?_,
    fun {p} hset => ?_⟩, ?_, hs.sizes⟩
  · rw [(maps_giveBack e').1] at hb'
    exact hs.bufs hb'
  · exact count_recount hl hs.count hk hk (by rw [extFreeCount_cleared hb hp]; rfl)
  · rw [(samePlaces_giveBack hl).freeSet] at hset
    obtain ⟨e', j, r', hl', h₁, h₂, h₃⟩ := hs.alloc hset
    by_cases hc : e' = e ∧ j = i
    · obtain ⟨rfl, rfl⟩ := hc
      obtain rfl := hl.unique hl'
      refine ⟨e', j, r.cleared b, live_giveBack hl, h₁, h₂, ?_⟩
      -- another page of the extent
      have hne : p - r.dp ≠ b := by
        rintro rfl
        rw [Nat.add_sub_cancel' h₁, hset] at hfree
        cases hfree
      rw [Ext.cleared]
      dsimp only
      rw [update_of_ne hne]
      exact h₃
    · exact ⟨e', j, r', (live_recount_of_ne hc).2 hl', h₁, h₂, h₃⟩
  · rw [Dbs.giveBack, fullOk_addFree]
    exact fullOk_setExt hs.full fun _ hfull => Bool.noConfusion hfull

end GiveBack

/-! ## An extent that is given back -/

/-- The storage after the extent of the record `i`, which is `r`, was given back. -/
def Dbs.dropExt (s : Dbs) (e i : ℕ) (r : Ext) (k : Kind) : Dbs :=
  { s.modEm e fun em =>
      { em with
        dpToExt := Function.update em.dpToExt r.dp none
        nFree := Function.update em.nFree k (em.nFree k - extentSz)
        exts := em.exts.set i { r with kind := none, full := false }
        last := fun k => if k ≠ .index ∧ em.last k = some i then none else em.last k } with
    extentSet := Function.update s.extentSet (r.dp / extentSz) false
    dpToEm := Function.update s.dpToEm r.dp none }

theorem dbsExtentFree_eq {b : Bool} (he : s.dpToEm r.dp = some e)
    (hi : (s.maps e).dpToExt r.dp = some i) (hr : (s.maps e).exts[i]? = some r)
    (hk : r.kind = some k)
    (h : dbsExtentFree s r.dp b = some s') : s' = s.dropExt e i r k := by
  simp only [dbsExtentFree, he] at h
  split_ifs at h
  simp only [hi, hr, hk, Option.map_some, Option.some.injEq] at h
  exact h.symm

/-- The pages of the extent are no longer counted. -/
theorem maps_dropExt (e' : ℕ) :
    ((s.dropExt e i r k).maps e').remapOnHold = (s.maps e').remapOnHold ∧
      ∀ k', ((s.dropExt e i r k).maps e').nFree k' =
        (s.maps e').nFree k' - if e' = e ∧ k' = k then (extentSz : ℤ) else 0 := by
  by_cases he : e' = e
  · subst he
    refine ⟨by simp [Dbs.dropExt], fun k' => ?_⟩
    by_cases hk : k' = k
    · subst hk
      simp [Dbs.dropExt]
    · simp [Dbs.dropExt, hk]
  · simp [Dbs.dropExt, Dbs.maps_modEm_of_ne _ _ _ he, he]

/-- It makes no difference whether a page is counted before or after. -/
theorem dropExt_addFree (n : ℤ) :
    (s.dropExt e i r k).addFree e k n = (s.addFree e k n).dropExt e i r k := by
  simp only [Dbs.dropExt, Dbs.addFree, Dbs.modEm, update_self, update_idem,
    sub_add_eq_add_sub]

section Drop

variable (hs : Good s) (hl : Live s e i r)
include hl

theorem live_dropExt {e' j : ℕ} {r' : Ext} :
    Live (s.dropExt e i r k) e' j r' ↔ Live s e' j r' ∧ ¬ (e' = e ∧ j = i) := by
  have hlt := hl.lt
  by_cases he : e' = e
  · subst he
    by_cases hj : j = i
    · subst hj
      simp only [Live, Dbs.dropExt, Dbs.maps_modEm, List.getElem?_set_self hlt, Option.some.injEq,
        and_self, not_true_eq_false, and_false, iff_false, not_and, not_not]
      rintro rfl
      rfl
    · simp only [Live, Dbs.dropExt, Dbs.maps_modEm, List.getElem?_set_ne (Ne.symm hj), hj,
        and_false, not_false_eq_true, and_true]
  · simp only [Live, Dbs.dropExt, Dbs.maps_modEm_of_ne _ _ _ he, he, false_and, not_false_eq_true,
      and_true]

include hs

/-- A record that stays is of another extent. -/
theorem dp_ne_of_live_dropExt {e' j : ℕ} {r' : Ext} (hl' : Live (s.dropExt e i r k) e' j r') :
    r'.dp ≠ r.dp := by
  intro hd
  obtain ⟨hl', hne⟩ := (live_dropExt hl).1 hl'
  obtain ⟨rfl, rfl, -⟩ := hs.unique hl' hl hd
  exact hne ⟨rfl, rfl⟩

/-- An extent without pages is given back. -/
theorem Good.dropExt (hk : r.kind = some k) (hempty : ∀ b < extentSz, r.pages b = false) :
    Good (s.dropExt e i r k) := by
  have hlt := hl.lt
  have hdpToExt (e' : ℕ) : ((s.dropExt e i r k).maps e').dpToExt =
      if e' = e then update (s.maps e).dpToExt r.dp none else (s.maps e').dpToExt := by
    split_ifs with he
    · subst he
      simp [Dbs.dropExt]
    · simp only [Dbs.dropExt, Dbs.maps_modEm_of_ne _ _ _ he]
  refine ⟨⟨⟨?hash, ?ofHash, ?ofEm, ?marked, ?aligned, ?lt, ?marked_lt, hs.nPages_mod, ?bufs,
    hs.zero⟩, ?count, ?alloc⟩, ?full, hs.sizes⟩
  case hash =>
    intro e' j r' hl'
    have hne := dp_ne_of_live_dropExt hs hl hl'
    obtain ⟨h₁, h₂⟩ := hs.hash ((live_dropExt hl).1 hl').1
    constructor
    · rw [hdpToExt]
      split_ifs with he
      · subst he
        rw [update_of_ne hne]
        exact h₁
      · exact h₁
    · rw [Dbs.dropExt]
      dsimp only
      rw [update_of_ne hne]
      exact h₂
  case ofHash =>
    intro e' d j hh
    have hold : (s.maps e').dpToExt d = some j ∧ (e' = e → d ≠ r.dp) := by
      rw [hdpToExt] at hh
      split_ifs at hh with he
      · subst he
        by_cases hd : d = r.dp
        · simp [hd] at hh
        · rw [update_of_ne hd] at hh
          exact ⟨hh, fun _ => hd⟩
      · exact ⟨hh, fun h => absurd h he⟩
    obtain ⟨r', hl', rfl⟩ := hs.ofHash hold.1
    refine ⟨r', (live_dropExt hl).2 ⟨hl', ?_⟩, rfl⟩
    rintro ⟨rfl, rfl⟩
    obtain rfl := hl.unique hl'
    exact hold.2 rfl rfl
  case ofEm =>
    intro d e' hh
    rw [Dbs.dropExt] at hh
    dsimp only at hh
    by_cases hd : d = r.dp
    · simp [hd] at hh
    · rw [update_of_ne hd] at hh
      obtain ⟨j, hj⟩ := hs.ofEm hh
      refine ⟨j, ?_⟩
      rw [hdpToExt]
      split_ifs with he
      · rw [update_of_ne hd, ← he]
        exact hj
      · exact hj
  case marked =>
    intro e' j r' hl'
    have hne := dp_ne_of_live_dropExt hs hl hl'
    have hl' := ((live_dropExt hl).1 hl').1
    have h₁ := hs.aligned hl
    have h₂ := hs.aligned hl'
    have hdiv : r'.dp / extentSz ≠ r.dp / extentSz := by
      simp only [extentSz] at *
      omega
    rw [Dbs.dropExt]
    dsimp only
    rw [update_of_ne hdiv]
    exact hs.marked hl'
  case aligned =>
    intro e' j r' hl'
    exact hs.aligned ((live_dropExt hl).1 hl').1
  case lt =>
    intro e' j r' hl'
    exact hs.lt ((live_dropExt hl).1 hl').1
  case marked_lt =>
    intro n hm
    rw [Dbs.dropExt] at hm
    dsimp only at hm
    by_cases hn : n = r.dp / extentSz
    · simp [hn] at hm
    · rw [update_of_ne hn] at hm
      exact hs.marked_lt hm
  case bufs =>
    intro e' b hb
    refine hs.bufs (e := e') ?_
    by_cases he : e' = e
    · subst he
      simpa [Dbs.dropExt] using hb
    · simpa only [Dbs.dropExt, Dbs.maps_modEm_of_ne _ _ _ he] using hb
  case count =>
    intro e' k'
    by_cases he : e' = e
    · subst he
      have hcount := emFreeCount_set hl.1 { r with kind := none, full := false } k'
      have hnone : ({ r with kind := none, full := false } : Ext).free k' = 0 := by simp [Ext.free]
      have hall : extFreeCount r = extentSz := by
        rw [extFreeCount, List.countP_eq_length.2 fun b hb => ?_, List.length_range]
        simpa using hempty b (List.mem_range.1 hb)
      rw [hnone, add_zero, ← hs.count, Ext.free_of_kind hk, hall] at hcount
      simp only [Dbs.dropExt, Dbs.maps_modEm]
      rw [emFreeCount_eq] at hcount ⊢
      rw [hcount]
      by_cases hk' : k' = k
      · subst hk'
        rw [update_self, if_pos rfl]
      · rw [update_of_ne hk', if_neg hk', sub_zero]
    · simp only [Dbs.dropExt, Dbs.maps_modEm_of_ne _ _ _ he]
      exact hs.count e' k'
  case alloc =>
    intro p hp
    obtain ⟨e', j, r', hl', h₁, h₂, h₃⟩ := hs.alloc hp
    refine ⟨e', j, r', (live_dropExt hl).2 ⟨hl', ?_⟩, h₁, h₂, h₃⟩
    rintro ⟨rfl, rfl⟩
    obtain rfl := hl.unique hl'
    rw [hempty _ (by omega)] at h₃
    cases h₃
  case full =>
    intro e' j r' hl'
    exact hs.full e' j r' ((live_dropExt hl).1 hl').1

omit hs in
theorem LastOk.dropExt (h : LastOk s) : LastOk (s.dropExt e i r k) := by
  intro e' k' j hj hk'
  have hold : (s.maps e').last k' = some j ∧ ¬ (e' = e ∧ j = i) := by
    by_cases he : e' = e
    · subst he
      simp only [Dbs.dropExt, Dbs.maps_modEm] at hj
      split_ifs at hj with hc
      refine ⟨hj, ?_⟩
      rintro ⟨-, rfl⟩
      exact hc ⟨hk', hj⟩
    · simp only [Dbs.dropExt, Dbs.maps_modEm_of_ne _ _ _ he] at hj
      exact ⟨hj, fun hc => he hc.1⟩
  obtain ⟨r', hl', hkind⟩ := h e' k' j hold.1 hk'
  exact ⟨r', (live_dropExt hl).2 ⟨hl', hold.2⟩, hkind⟩

end Drop

/-! ## `em_free_dp` -/

theorem hinted_emExtUnlink (h : emExtUnlink s e i = some s') : Hinted s s' := by
  simp only [emExtUnlink, Option.bind_eq_some_iff] at h
  obtain ⟨r, -, s₁, h₁, s₂, h₂, s₃, h₃, h₄⟩ := h
  have hh₁ : Hinted s s₁ := by
    split at h₁
    · cases h₁
      exact .refl _
    · split_ifs at h₁
      · cases h₁
        exact .refl _
      · split at h₁
        · cases h₁
          exact .refl _
        · exact hinted_setNext h₁
  have hh₂ : Hinted s₁ s₂ := by
    split_ifs at h₂
    · cases h₂
      exact .refl _
    · split at h₂
      · cases h₂
        exact .refl _
      · exact hinted_setPrev h₂
  exact ((hh₁.trans hh₂).trans (hinted_setNext h₃)).trans (hinted_setPrev h₄)

/-- The storage with a page taken out of the free set. -/
def Dbs.deallocate (s : Dbs) (dp : ℕ) : Dbs :=
  { s with freeSet := Function.update s.freeSet dp false, nFreePages := s.nFreePages + 1 }

/-- The page of bit `b` of a record was freed, and maybe the extent given back. -/
structure Frees (s : Dbs) (e i : ℕ) (r : Ext) (k : Kind) (b : ℕ) (s' : Dbs) : Prop where
  live : Live s e i r
  kind : r.kind = some k
  lt : b < extentSz
  page : r.pages b = true
  ne_zero : r.dp + b ≠ 0
  result : Hinted ((s.deallocate (r.dp + b)).giveBack e i r k b) s' ∨
    (∀ c < extentSz, c ≠ b → r.pages c = false) ∧
      Hinted (((s.deallocate (r.dp + b)).giveBack e i r k b).dropExt e i (r.cleared b) k) s'

theorem emClearBit_spec {b flags : ℕ} (hs : Good s) (hl : Live s e i r) (hk : r.kind = some k)
    (hflags : doNotFreeExt flags = false)
    (h : emClearBit (s.deallocate (r.dp + b)) e i r b flags = some s') :
    Hinted ((s.deallocate (r.dp + b)).giveBack e i r k b) s' ∨
      (∀ c < extentSz, c ≠ b → r.pages c = false) ∧
        Hinted (((s.deallocate (r.dp + b)).giveBack e i r k b).dropExt e i (r.cleared b) k) s' := by
  have hl₁ : Live (s.deallocate (r.dp + b)) e i r := hl
  simp only [emClearBit, hflags, Bool.false_eq_true, if_false, hk, Option.getD_some,
    Option.map_eq_some_iff] at h
  obtain ⟨s₂, h, rfl⟩ := h
  have hcleared : ({ r with kind := some k, full := false,
                            pages := update r.pages b false } : Ext) = r.cleared b := by
    rw [← hk]
    rfl
  rw [hcleared] at h
  split at h
  · next hnone =>
    right
    obtain ⟨s₃, hfree, h⟩ := Option.bind_eq_some_iff.1 h
    have hsame : SamePlaces (s.deallocate (r.dp + b))
        ((s.deallocate (r.dp + b)).setExt e i (r.cleared b)) := samePlaces_setExt hl₁.1 rfl rfl
    obtain ⟨hi, he⟩ := hs.hash hl
    have hlt := hl.lt
    obtain rfl := dbsExtentFree_eq (r := r.cleared b) (k := k) (e := e) (i := i)
      (by rw [hsame.dpToEm]; exact he) (by rw [hsame.dpToExt]; exact hi)
      (by rw [Dbs.getElem?_setExt, if_pos ⟨rfl, rfl, hlt⟩]) hk hfree
    refine ⟨fun c hc hcb => ?_, ?_⟩
    · have := firstClear_eq_none.1 (Option.isNone_iff_eq_none.1 hnone) c (Nat.zero_le _) (by omega)
      rw [update_of_ne hcb] at this
      simpa using this
    · rw [Dbs.giveBack, ← dropExt_addFree]
      refine Hinted.addFree ?_ 1
      split_ifs at h
      · exact hinted_emExtUnlink h
      · cases h
        exact .refl _
  · cases h
    exact .inl (.refl _)

theorem emFreeDpAt_spec {flags : ℕ} (hs : Good s) (hl : Live s e i r)
    (hflags : doNotFreeExt flags = false) (h : emFreeDpAt env s e i dp flags = some s') :
    s' = s ∨ ∃ k b, dp = r.dp + b ∧ Frees s e i r k b s' := by
  obtain ⟨k, hk⟩ := Option.ne_none_iff_exists'.1 hl.2
  simp only [emFreeDpAt, hl.1, Option.bind_some] at h
  split at h
  · split_ifs at h
    exact .inl (Option.some.inj h).symm
  right
  obtain ⟨s₁, hfree, h⟩ := Option.bind_eq_some_iff.1 h
  split_ifs at h with hrange hbit
  obtain ⟨b, rfl⟩ := Nat.exists_eq_add_of_le hrange.1
  rw [Nat.add_sub_cancel_left] at h hbit
  have hb : b < extentSz := by omega
  -- the page is in the file
  have hfile : ¬ s.nPages < r.dp + b := by
    have h₁ := hs.lt hl
    have h₂ := hs.aligned hl
    have h₃ := hs.nPages_mod
    simp only [extentSz] at *
    omega
  rw [dbsFreeDiskPage] at hfree
  split_ifs at hfree with hzero
  cases hfree
  exact ⟨k, b, rfl, hl, hk, hb, by simpa using hbit, hzero, emClearBit_spec hs hl hk hflags h⟩

/-- What a call of `em_free_dp` did: nothing, or it freed the page from the record of its extent,
which is one of this map or of the system map. -/
theorem emFreeDp_spec {flags : ℕ} (hs : Good s) (hflags : doNotFreeExt flags = false)
    (h : emFreeDp env s e dp flags = some s') :
    s' = s ∨ ∃ e' i r k b, (e' = e ∨ e' = 0) ∧ dp = r.dp + b ∧ Frees s e' i r k b s' := by
  have hat {e' i : ℕ} (he' : e' = e ∨ e' = 0) (hi : (s.maps e').dpToExt (extRound dp) = some i)
      (h : emFreeDpAt env s e' i dp flags = some s') :
      s' = s ∨ ∃ e' i r k b, (e' = e ∨ e' = 0) ∧ dp = r.dp + b ∧ Frees s e' i r k b s' := by
    obtain ⟨r, hl, -⟩ := hs.ofHash hi
    rcases emFreeDpAt_spec hs hl hflags h with rfl | ⟨k, b, hdp, hfrees⟩
    · exact .inl rfl
    · exact .inr ⟨e', i, r, k, b, he', hdp, hfrees⟩
  rw [emFreeDp] at h
  split at h
  · next i hi => exact hat (.inl rfl) hi h
  · split_ifs at h
    split at h
    · next i hi => exact hat (.inr rfl) hi h
    · cases h

namespace Frees

variable {b : ℕ} (hfr : Frees s e i r k b s')
include hfr

theorem good (hs : Good s) (hbufs : ∀ e, ∀ c ∈ (s.maps e).bufs, c.1 ≠ r.dp + b) : Good s' := by
  have hs₁ : Good (s.deallocate (r.dp + b)) := hs.deallocate hfr.ne_zero hbufs _
  have hl₁ : Live (s.deallocate (r.dp + b)) e i r := hfr.live
  have hs₂ : Good ((s.deallocate (r.dp + b)).giveBack e i r k b) :=
    hs₁.giveBack hl₁ hfr.kind hfr.lt hfr.page (by simp [Dbs.deallocate])
  rcases hfr.result with hh | ⟨hempty, hh⟩
  · exact hh.good hs₂
  · refine hh.good (hs₂.dropExt (live_giveBack hl₁) hfr.kind fun c hc => ?_)
    by_cases hcb : c = b
    · simp [Ext.cleared, hcb]
    · rw [Ext.cleared]
      dsimp only
      rw [update_of_ne hcb]
      exact hempty c hc hcb

theorem lastOk (h : LastOk s) : LastOk s' := by
  have hl₁ : Live (s.deallocate (r.dp + b)) e i r := hfr.live
  have h₂ : LastOk ((s.deallocate (r.dp + b)).giveBack e i r k b) :=
    lastOk_of_eq (s := s) (fun e' => (maps_giveBack e').2.1)
      (fun hl => by
        obtain ⟨r', hl', hk', -⟩ := (samePlaces_giveBack hl₁).live hl
        exact ⟨r', hl', hk'⟩) h
  rcases hfr.result with hh | ⟨-, hh⟩
  · exact hh.grows.last h₂
  · exact hh.grows.last (h₂.dropExt (live_giveBack hl₁))

end Frees

end Virtuoso.Extent
