import Virtuoso.Extent.Sound

/-!
# Pages on hold

`em_hold_remap` makes sure that a number of remap pages is free, and counts them as on hold.  A call
of `em_new_dp` with a hold takes one of them; one without must leave them free.

What breaks this is `em_free_dp`: when it frees the last page of a remap extent, all pages of the
extent are no longer counted as free, also if some are on hold.
-/

namespace Virtuoso.Extent

open Lib

variable {env : Env} {s s₁ s' : Dbs} {e dp : ℕ} {k : Kind}

/-! ## What calls do to the counts -/

theorem maps_dbsPageAllocated (h : dbsPageAllocated s dp = some s') : s'.maps = s.maps := by
  obtain ⟨n, rfl⟩ := dbsPageAllocated_eq h
  rfl

/-- A page of another kind leaves as many remap pages. -/
theorem Page.remap_le (h : Page s e k dp s') (hk : k ≠ .remap) :
    (s'.maps e).remapOnHold = (s.maps e).remapOnHold ∧
      (s.maps e).nFree .remap ≤ (s'.maps e).nFree .remap := by
  have hgrows : Grows s s' := by
    rcases h with ⟨-, -, hg⟩ | ⟨s₀, -, hg, hget⟩
    · exact hg
    · exact hg.trans (hget.grows hk)
  exact ⟨hgrows.onHold e, hgrows.remap e⟩

/-- A remap page is one less, if there is one. -/
theorem Page.remap_sub_one_le (h : Page s e .remap dp s') :
    (s'.maps e).remapOnHold = (s.maps e).remapOnHold ∧
      ((dp = 0 ∧ (s.maps e).nFree .remap ≤ (s'.maps e).nFree .remap) ∨
        dp ≠ 0 ∧ (s.maps e).nFree .remap - 1 ≤ (s'.maps e).nFree .remap) := by
  rcases h with ⟨hdp, -, hg⟩ | ⟨s₀, hs₀, hg, hget⟩
  · exact ⟨hg.onHold e, .inl ⟨hdp, hg.remap e⟩⟩
  · refine ⟨(hget.onHold e).trans (hg.onHold e), .inr ⟨hget.ne_zero hs₀.toInv, ?_⟩⟩
    have := hg.remap e
    rw [hget.nFree, if_pos ⟨rfl, rfl⟩]
    omega

variable {near : Option ℕ} {i : ℕ}

/-- Enough pages for the holds are left, and the hold of the call is counted. -/
theorem emNewDp_onHold (henv : env.Ok) {hold : ℤ} (hs : Good s) (hlast : LastOk s)
    (hsup : Supplied s e k near hold) (hle : (s.maps e).remapOnHold ≤ (s.maps e).nFree .remap)
    (hlt : (s.maps e).remapOnHold < 2 ^ 31) (hhold : 0 ≤ hold)
    (hsum : hold ≤ (s.maps e).remapOnHold) :
    Gives (emNewDp env s e k near hold) fun x =>
      (x.1.maps e).remapOnHold ≤ (x.1.maps e).nFree .remap ∧ 0 ≤ x.2.2 ∧ x.2.2 ≤ hold ∧
        (x.1.maps e).remapOnHold - x.2.2 = (s.maps e).remapOnHold - hold := by
  refine (emNewDp_cases henv hs hlast hsup).mono ?_
  rintro ⟨s', dp, hold'⟩ (⟨-, -, hg, rfl⟩ | ⟨s₀, s₁, f, hg, hp, hf, halloc, hcase⟩)
  · dsimp only at hg ⊢
    rw [hg.onHold]
    exact ⟨hle.trans (hg.remap e), hhold, le_rfl, rfl⟩
  dsimp only at hp halloc ⊢
  rw [maps_dbsPageAllocated halloc, Dbs.maps_modEm, hf.nFree]
  have hle₀ := hle.trans (hg.remap e)
  have honHold := hg.onHold e
  rcases hcase with ⟨rfl, hkeep, hmore⟩ | ⟨rfl, hne, rfl, hdp, htake⟩
  · rw [hkeep]
    by_cases hk : k = .remap
    · -- one page more than is on hold
      subst hk
      obtain ⟨h₁, h₂⟩ := hp.remap_sub_one_le
      have hlt := hmore rfl
      rw [h₁, honHold]
      refine ⟨?_, hhold, le_rfl, rfl⟩
      rcases h₂ with ⟨-, h₂⟩ | ⟨-, h₂⟩ <;> omega
    · obtain ⟨h₁, h₂⟩ := hp.remap_le hk
      rw [h₁, honHold]
      exact ⟨hle₀.trans h₂, hhold, le_rfl, rfl⟩
  · obtain ⟨h₁, h₂⟩ := hp.remap_sub_one_le
    have hpos : 0 < (s₁.maps e).remapOnHold := by
      rw [h₁, honHold]
      omega
    rw [htake, if_pos hpos, h₁, honHold]
    rcases h₂ with ⟨hz, -⟩ | ⟨-, h₂⟩
    · exact absurd hz hdp
    · refine ⟨?_, ?_, ?_, ?_⟩ <;> omega

/-- Freeing a page leaves the holds, and more remap pages unless an extent of them is given
back. -/
theorem Frees.remap {b : ℕ} {r : Ext} (hfr : Frees s e i r k b s') (e' : ℕ) :
    (s'.maps e').remapOnHold = (s.maps e').remapOnHold ∧
      ((s.maps e').nFree .remap ≤ (s'.maps e').nFree .remap ∨
        e' = e ∧ k = .remap ∧ (∀ c < extentSz, c ≠ b → r.pages c = false) ∧
          (s'.maps e').nFree .remap = (s.maps e').nFree .remap - 255) := by
  obtain ⟨-, -, hold, hfree⟩ := @maps_giveBack (s.deallocate (r.dp + b)) e i r k b e'
  have hmaps : (s.deallocate (r.dp + b)).maps = s.maps := rfl
  rw [hmaps] at hold
  simp only [hmaps] at hfree
  rcases hfr.result with hh | ⟨hempty, hh⟩
  · rw [hh.alike.onHold, hh.alike.nFree, hold, hfree]
    refine ⟨rfl, .inl ?_⟩
    split_ifs <;> omega
  · obtain ⟨hold', hfree'⟩ :=
      @maps_dropExt ((s.deallocate (r.dp + b)).giveBack e i r k b) e i (r.cleared b) k e'
    rw [hh.alike.onHold, hh.alike.nFree, hold', hfree', hold, hfree]
    refine ⟨rfl, ?_⟩
    by_cases hc : e' = e ∧ .remap = k
    · refine .inr ⟨hc.1, hc.2.symm, hempty, ?_⟩
      rw [if_pos hc, if_pos hc, extentSz]
      omega
    · left
      rw [if_neg hc, if_neg hc]
      omega

/-! ## A page that is on hold is there -/

/-- The file is as long as before, and has the same extents. -/
structure SameFile (s s' : Dbs) : Prop where
  nPages : s'.nPages = s.nPages
  extentSet : s'.extentSet = s.extentSet
  dpToEm : s'.dpToEm = s.dpToEm
  dpToExt : ∀ e, (s'.maps e).dpToExt = (s.maps e).dpToExt

/-- With a hold, and a free page for it, `em_new_dp` gives a page and needs no extent. -/
theorem emNewDp_of_pos (henv : env.Ok) {hold : ℤ} (hs : Good s) (hlast : LastOk s)
    (hhold : hold ≠ 0)
    (hpos : 0 < (s.maps e).nFree .remap) :
    ∃ s' dp, emNewDp env s e .remap near hold = some (s', dp, hold - 1) ∧ dp ≠ 0 ∧
      s.freeSet dp = false ∧ SameFile s s' := by
  obtain ⟨⟨s₁, dp⟩, hnew, -, hget⟩ :=
    @emNewOf_spec env s e .remap henv (by decide) hs hlast (.inl hpos)
  obtain ⟨s₀, hs₀, hsame, hget⟩ := hget hpos
  dsimp only at hget
  have hne := hget.ne_zero hs₀.toInv
  have hin : emNewDpIn env s e .remap near hold =
      some (s₁.modEm e Em.takeHold, dp, hold - 1, true) := by
    simp only [emNewDpIn, hhold, if_false, emNewRemap, hnew, Option.map_some, hne]
  obtain ⟨n, halloc⟩ :=
    @dbsPageAllocated_of_lt dp (s₁.modEm e Em.takeHold) (hget.lt_nPagesInSets hs₀)
  have hsame₁ := hsame.trans hget.samePlaces
  refine ⟨{ s₁.modEm e Em.takeHold with freeSet := Function.update s₁.freeSet dp true,
                                        nFreePages := n },
    dp, ?_, hne, ?_, hsame₁.nPages, hsame₁.extentSet, hsame₁.dpToEm, fun e' => ?_⟩
  · simp only [emNewDp, hin, Option.bind_some, Bool.true_eq_false, if_false, reduceCtorEq,
      false_and, halloc, Option.map_some]
    rfl
  · rw [← hsame.freeSet]
    exact hget.fresh hs₀.toInv
  · exact (s₁.proj_modEm e Em.dpToExt rfl).trans (hsame₁.dpToExt e')

/-! ## Free pages are pages of the file -/

theorem extFreeCount_le (r : Ext) : extFreeCount r ≤ extentSz := by
  rw [extFreeCount]
  exact List.countP_le_length.trans_eq List.length_range

theorem sum_free_le (exts : List Ext) (k : Kind) : (exts.map fun r => r.free k).sum ≤
    extentSz * (exts.filter fun r => r.kind = some k).length := by
  induction exts with
  | nil => simp
  | cons r exts ih =>
    have hle := extFreeCount_le r
    rw [List.map_cons, List.sum_cons, List.filter_cons, Ext.free]
    by_cases hk : r.kind = some k
    · rw [if_pos hk, if_pos (decide_eq_true hk), List.length_cons]
      push_cast
      rw [mul_add, mul_one]
      omega
    · rw [if_neg hk, if_neg (by simpa using hk), zero_add]
      exact ih

/-- The free pages of a map are pages of the file, for its extents are apart. -/
theorem Good.nFree_le (hs : Good s) (e : ℕ) (k : Kind) : (s.maps e).nFree k ≤ s.nPages := by
  have hlive {i : ℕ} (hi : i < (s.maps e).exts.length) (hk : (s.maps e).exts[i].kind = some k) :
      Live s e i (s.maps e).exts[i] := ⟨List.getElem?_eq_getElem hi, by simp [hk]⟩
  have hnodup : (((s.maps e).exts.filter fun r => r.kind = some k).map
      fun r => r.dp / extentSz).Nodup := by
    refine List.pairwise_map.2 (List.pairwise_filter.2 (List.pairwise_iff_getElem.2 ?_))
    intro i j hi hj hij hk hk' heq
    have hl := hlive hi (of_decide_eq_true hk)
    have hl' := hlive hj (of_decide_eq_true hk')
    have h₁ := hs.aligned hl
    have h₂ := hs.aligned hl'
    refine hij.ne (hs.unique hl hl' ?_).2.1
    simp only [extentSz] at *
    omega
  have hrange : ((s.maps e).exts.filter fun r => r.kind = some k).length ≤ s.nPages / extentSz := by
    rw [← List.length_map, ← @List.length_range (s.nPages / extentSz)]
    refine (List.subperm_of_subset hnodup fun d hd => ?_).length_le
    obtain ⟨r, hr, rfl⟩ := List.mem_map.1 hd
    obtain ⟨hmem, hk⟩ := List.mem_filter.1 hr
    obtain ⟨i, hi, rfl⟩ := List.mem_iff_getElem.1 hmem
    have hl := hlive hi (of_decide_eq_true hk)
    have h₁ := hs.lt hl
    have h₂ := hs.aligned hl
    have h₃ := hs.nPages_mod
    rw [List.mem_range]
    simp only [extentSz] at *
    omega
  have hsum := sum_free_le (s.maps e).exts k
  rw [← emFreeCount_eq, ← hs.count] at hsum
  have := Nat.mul_div_le s.nPages extentSz
  have := Nat.mul_le_mul_left extentSz hrange
  omega

/-! ## Runs -/

/-- A storage, and the holds on one of its maps: what the callers of `em_hold_remap` have left. -/
structure Holding where
  dbs : Dbs
  holds : List ℤ

/-- A call on the map.  `em_new_dp` is called with one of the holds or with none. -/
inductive HoldCall where
  | hold (n : ℕ)
  | freeHold (i : ℕ)
  | newDp (k : Kind) (near i : Option ℕ)
  | freeDp (dp flags : ℕ)

/-- The hold a call of `em_new_dp` is made with. -/
def Holding.holdAt (st : Holding) : Option ℕ → Option ℤ
  | none => some 0
  | some i => st.holds[i]?

/-- The storage and the holds after the call. -/
def HoldCall.run (env : Env) (e : ℕ) (st : Holding) : HoldCall → Option Holding
  | .hold n => (emHoldRemap env st.dbs e n).map fun (s, h, _) => ⟨s, st.holds ++ [h]⟩
  | .freeHold i => st.holds[i]?.map fun h => ⟨emFreeRemapHold st.dbs e h, st.holds.set i 0⟩
  | .newDp k near i =>
    (st.holdAt i).bind fun h => (emNewDp env st.dbs e k near h).map fun (s, _, h') =>
      ⟨s, match i with
        | none => st.holds
        | some i => st.holds.set i h'⟩
  | .freeDp dp flags => (emFreeDp env st.dbs e dp flags).map fun s => ⟨s, st.holds⟩

/-- Enough remap pages are free for the holds.  What is on hold is an `int32`. -/
structure Holding.Covered (e : ℕ) (st : Holding) : Prop where
  consistent : Consistent st.dbs
  nonneg : ∀ h ∈ st.holds, 0 ≤ h
  sum : (st.dbs.maps e).remapOnHold = st.holds.sum
  le : (st.dbs.maps e).remapOnHold ≤ (st.dbs.maps e).nFree .remap
  lt : (st.dbs.maps e).remapOnHold < 2 ^ 31

/-- The calls one after the other, from a storage in which enough pages are free. -/
def holdCalls (env : Env) (e : ℕ) : Machine Holding HoldCall where
  Init := Holding.Covered e
  Step st c st' := c.run env e st = some st'

/-- The page is the only one of a remap extent that is taken. -/
def LastRemapPage (s : Dbs) (e dp : ℕ) : Prop :=
  ∃ i r, Live s e i r ∧ r.kind = some .remap ∧ r.Has dp ∧
    ∀ c < extentSz, r.dp + c ≠ dp → r.pages c = false

/-- What is asked of a call: as for `Call.Allowed`; a hold needs one extent at most, and does not
make the sum too large for an `int32`; and no remap extent is given back while pages are on hold. -/
def HoldCall.Allowed (e : ℕ) (st : Holding) : HoldCall → Prop
  | .hold n => (Room st.dbs ∨ 0 < st.dbs.stock) ∧
      (st.dbs.maps e).remapOnHold + n ≤ (st.dbs.maps e).nFree .remap + extentSz ∧
      (st.dbs.maps e).remapOnHold + n < 2 ^ 31
  | .freeHold _ => True
  | .newDp k near i => ∀ h, st.holdAt i = some h → Call.Allowed st.dbs (.newDp e k near h)
  | .freeDp dp flags => Call.Allowed st.dbs (.freeDp e dp flags) ∧
      (LastRemapPage st.dbs e dp → (st.dbs.maps e).remapOnHold = 0)

section Step

variable {st st' : Holding}

/-- Changing what is on hold keeps the storage consistent. -/
theorem Consistent.setOnHold (hs : Consistent s) {f : Em → Em}
    (hf : SameExts (s.maps e) (f (s.maps e))) : Consistent (s.modEm e f) :=
  ⟨hs.toGood.modEm hf.exts hf.bufs hf.dpToExt hf.nFree, hs.last.modEm hf⟩

variable {l : List ℤ}

theorem le_sum_of_getElem? (hl : ∀ h ∈ l, 0 ≤ h) {h : ℤ} (hi : l[i]? = some h) : h ≤ l.sum :=
  List.single_le_sum hl h (List.mem_of_getElem? hi)

theorem sum_set_of_getElem? {h : ℤ} (hi : l[i]? = some h) (h' : ℤ) :
    (l.set i h').sum = l.sum - h + h' := by
  obtain ⟨hlt, rfl⟩ := List.getElem?_eq_some_iff.1 hi
  rw [List.sum_set', dif_pos hlt]
  ring

theorem nonneg_set (hl : ∀ h ∈ l, 0 ≤ h) {h' : ℤ} (hpos : 0 ≤ h') (i : ℕ) :
    ∀ h ∈ l.set i h', 0 ≤ h := by
  intro h hmem
  rcases List.mem_or_eq_of_mem_set hmem with hmem | rfl
  · exact hl h hmem
  · exact hpos

/-- `em_hold_remap` makes an extent if there are not enough pages. -/
theorem Holding.Covered.hold (henv : env.Ok) (hc : st.Covered e) {n : ℕ}
    (hok : HoldCall.Allowed e st (.hold n)) (h : (HoldCall.hold n).run env e st = some st') :
    st'.Covered e := by
  obtain ⟨hroom, hone, hlt⟩ := hok
  have hpos : 0 ≤ (st.dbs.maps e).remapOnHold := hc.sum ▸ List.sum_nonneg hc.nonneg
  have hn : (n : ℤ) % 2 ^ 32 = n := Int.emod_eq_of_lt (by omega) (by omega)
  obtain ⟨⟨s₁, h₁, ok₁⟩, hrun, rfl⟩ := Option.map_eq_some_iff.1 h
  obtain ⟨⟨s₂, ok⟩, hloop, hs₂, hg, hmore⟩ := @remapLoop_spec env st.dbs e henv (needsForHold n)
    (n % 2 ^ 32 : ℤ).toNat hc.consistent.toGood hroom
    (fun h => by
      simp only [needsForHold, decide_eq_true_eq] at h
      omega)
    (fun {s'} hs' hg hle => by
      -- the number of free pages has 32 bits
      have h₁ := hs'.nFree_le e .remap
      have h₂ := hs'.sizes.lt
      simp only [needsForHold, decide_eq_false_iff_not, hg.onHold]
      omega)
  rw [emHoldRemap, hloop, Option.bind_some] at hrun
  dsimp only at hs₂ hg hmore hrun
  have hs : Consistent s₂ := ⟨hs₂, hg.last hc.consistent.last⟩
  have honHold := hg.onHold e
  have hle : (s₂.maps e).remapOnHold ≤ (s₂.maps e).nFree .remap :=
    honHold ▸ hc.le.trans (hg.remap e)
  have hsum (h : ℤ) : (st.holds ++ [h]).sum = (st.dbs.maps e).remapOnHold + h := by
    rw [List.sum_append, List.sum_singleton, hc.sum]
  have hnonneg {h : ℤ} (hh : 0 ≤ h) : ∀ h' ∈ st.holds ++ [h], 0 ≤ h' := by
    simpa [or_imp, forall_and, hh] using hc.nonneg
  cases ok with
  | false =>
    cases hrun
    refine ⟨hs, hnonneg le_rfl, ?_, hle, honHold ▸ hc.lt⟩
    rw [hsum, add_zero]
    exact honHold
  | true =>
    rw [if_neg (by simp), if_neg (by omega)] at hrun
    cases hrun
    -- the pages that are not on hold are as many as are wanted
    have henough : (n : ℤ) ≤ (s₂.maps e).nFree .remap - (s₂.maps e).remapOnHold := by
      have hmore := hmore rfl
      simp only [needsForHold, decide_eq_false_iff_not, not_lt] at hmore
      omega
    have hcons : Consistent (s₂.modEm e fun em => { em with remapOnHold := em.remapOnHold + n }) :=
      hs.setOnHold ⟨rfl, rfl, rfl, rfl, rfl⟩
    refine ⟨hcons, hnonneg (Int.natCast_nonneg n), ?_, ?_, ?_⟩
    · rw [hsum]
      simp [honHold]
    · simp only [Dbs.maps_modEm]
      omega
    · simp only [Dbs.maps_modEm]
      omega

theorem Holding.Covered.freeHold (hc : st.Covered e)
    (h : (HoldCall.freeHold i).run env e st = some st') : st'.Covered e := by
  obtain ⟨hold, hi, rfl⟩ := Option.map_eq_some_iff.1 h
  have hle := le_sum_of_getElem? hc.nonneg hi
  have hpos : 0 ≤ hold := hc.nonneg hold (List.mem_of_getElem? hi)
  have hlt : ¬ (st.dbs.maps e).remapOnHold < hold := by
    rw [hc.sum]
    exact not_lt.2 hle
  have hem : (emFreeRemapHold st.dbs e hold).maps e =
      { st.dbs.maps e with remapOnHold := (st.dbs.maps e).remapOnHold - hold } := by
    rw [emFreeRemapHold, Dbs.maps_modEm, if_neg hlt]
  refine ⟨?_, nonneg_set hc.nonneg le_rfl i, ?_, ?_, ?_⟩
  · dsimp only
    rw [emFreeRemapHold]
    exact hc.consistent.setOnHold ⟨rfl, rfl, rfl, rfl, rfl⟩
  · dsimp only
    rw [hem, sum_set_of_getElem? hi, ← hc.sum, add_zero]
  · dsimp only
    rw [hem]
    have := hc.le
    dsimp only
    omega
  · dsimp only
    rw [hem]
    exact (sub_le_self _ hpos).trans_lt hc.lt

theorem Holding.Covered.newDp (henv : env.Ok) (hc : st.Covered e) {k : Kind} {i : Option ℕ}
    (hok : HoldCall.Allowed e st (.newDp k near i))
    (h : (HoldCall.newDp k near i).run env e st = some st') : st'.Covered e := by
  obtain ⟨hold, hhold, h⟩ := Option.bind_eq_some_iff.1 h
  obtain ⟨⟨s₁, dp, hold'⟩, hnew, rfl⟩ := Option.map_eq_some_iff.1 h
  have hs := hc.consistent
  have hhanded := (emNewDp_spec henv hs.toGood hs.last (hok hold hhold)).of_eq_some hnew
  have hbounds : 0 ≤ hold ∧ hold ≤ (st.dbs.maps e).remapOnHold := by
    rw [hc.sum]
    cases i with
    | none =>
      obtain rfl : 0 = hold := Option.some.inj hhold
      exact ⟨le_rfl, List.sum_nonneg hc.nonneg⟩
    | some i =>
      exact ⟨hc.nonneg hold (List.mem_of_getElem? hhold), le_sum_of_getElem? hc.nonneg hhold⟩
  obtain ⟨h₁, h₂, h₃, h₄⟩ := (emNewDp_onHold henv hs.toGood hs.last (hok hold hhold) hc.le hc.lt
    hbounds.1 hbounds.2).of_eq_some hnew
  dsimp only at h₁ h₂ h₃ h₄
  have hlt := hc.lt
  refine ⟨⟨hhanded.good, hhanded.last⟩, ?_, ?_, h₁, by dsimp only; omega⟩
  · cases i with
    | none => exact hc.nonneg
    | some i => exact nonneg_set hc.nonneg h₂ i
  · cases i with
    | none =>
      -- there was no hold, so that none is left
      obtain rfl : 0 = hold := Option.some.inj hhold
      have hsum := hc.sum
      dsimp only
      omega
    | some i =>
      dsimp only
      rw [sum_set_of_getElem? hhold, ← hc.sum]
      omega

theorem Holding.Covered.freeDp (hc : st.Covered e) {dp flags : ℕ}
    (hok : HoldCall.Allowed e st (.freeDp dp flags))
    (h : (HoldCall.freeDp dp flags).run env e st = some st') : st'.Covered e := by
  obtain ⟨s₁, hfree, rfl⟩ := Option.map_eq_some_iff.1 h
  have hcons := hc.consistent.freeDp hok.1 hfree
  rcases emFreeDp_spec hc.consistent.toGood hok.1.1 hfree with rfl | ⟨e', i, r, k, b, -, rfl, hfr⟩
  · exact ⟨hcons, hc.nonneg, hc.sum, hc.le, hc.lt⟩
  · obtain ⟨hold, hremap⟩ := hfr.remap e
    refine ⟨hcons, hc.nonneg, hold.trans hc.sum, ?_, hold.trans_lt hc.lt⟩
    dsimp only
    rw [hold]
    rcases hremap with hge | ⟨rfl, rfl, hempty, heq⟩
    · exact hc.le.trans hge
    · -- a remap extent was given back
      have hlast : LastRemapPage st.dbs e (r.dp + b) := by
        refine ⟨i, r, hfr.live, hfr.kind, ⟨Nat.le_add_right _ _, Nat.add_lt_add_left hfr.lt _, ?_⟩,
          fun c hc hne => hempty c hc fun hcb => hne (by rw [hcb])⟩
        rw [Nat.add_sub_cancel_left]
        exact hfr.page
      rw [hok.2 hlast, hcons.count]
      exact emFreeCount_nonneg _ _

theorem covered_of_reach (henv : env.Ok)
    (h : (holdCalls env e).Reach (HoldCall.Allowed e) st) : st.Covered e := by
  refine h.invariant (fun _ hinit => hinit) fun st c st' hc hok hstep => ?_
  cases c with
  | hold n => exact hc.hold henv hok hstep
  | freeHold i => exact hc.freeHold hstep
  | newDp k near i => exact hc.newDp henv hok hstep
  | freeDp dp flags => exact hc.freeDp hok hstep

/-- In every state of a run of allowed calls as many remap pages are free as are on hold, which are
as many as the holds sum up to, and a call of `em_new_dp` with a hold gives a page and needs no
extent. -/
theorem holds_covered_of_reach (henv : env.Ok)
    (h : (holdCalls env e).Reach (HoldCall.Allowed e) st) :
    (st.dbs.maps e).remapOnHold ≤ (st.dbs.maps e).nFree .remap ∧
      (st.dbs.maps e).remapOnHold = st.holds.sum ∧
      ∀ (i : ℕ) (hold : ℤ) near, st.holds[i]? = some hold → 0 < hold →
        ∃ s' dp, emNewDp env st.dbs e .remap near hold = some (s', dp, hold - 1) ∧ dp ≠ 0 ∧
          st.dbs.freeSet dp = false ∧ SameFile st.dbs s' := by
  have hc := covered_of_reach henv h
  refine ⟨hc.le, hc.sum, fun i hold near hi hpos => ?_⟩
  have hfree : 0 < (st.dbs.maps e).nFree .remap := by
    have h₁ := hc.le
    have h₂ := le_sum_of_getElem? hc.nonneg hi
    rw [hc.sum] at h₁
    omega
  exact emNewDp_of_pos henv hc.consistent.toGood hc.consistent.last (ne_of_gt hpos) hfree

end Step

/-! ## A hold that is lost -/

theorem covered_packed : (Holding.mk (packed 1) []).Covered 0 :=
  ⟨consistent_packed (by decide) (by decide), by simp, rfl, le_rfl, by decide⟩

theorem emHoldRemap_packed :
    ((emHoldRemap growing (packed 1) 0 100).any fun x => x.2.1 == 100) = true := by
  decide +kernel

/-- A hold of 100 pages, for which an extent is made, and a page of it. -/
theorem holds_covered_after_hold :
    ∃ st, (holdCalls growing 0).Step ⟨packed 1, []⟩ (.hold 100) st ∧
      ∃ s' dp, emNewDp growing st.dbs 0 .remap none 100 = some (s', dp, 99) ∧ dp ≠ 0 := by
  obtain ⟨⟨s, h, ok⟩, hx, heq⟩ := (Option.any_eq_true _ _).1 emHoldRemap_packed
  obtain rfl : h = 100 := by simpa using heq
  have hstep : (holdCalls growing 0).Step ⟨packed 1, []⟩ (.hold 100) ⟨s, [100]⟩ := by
    simp only [holdCalls, HoldCall.run, Nat.cast_ofNat, hx, Option.map_some, List.nil_append]
  have hok : HoldCall.Allowed 0 ⟨packed 1, []⟩ (.hold 100) :=
    ⟨.inl room_packed_one, by decide, by decide⟩
  obtain ⟨-, -, hnew⟩ :=
    holds_covered_of_reach growing_ok (.step (.init covered_packed) hok hstep)
  obtain ⟨s', dp, hrun, hne, -⟩ := hnew 0 100 none rfl (by decide)
  exact ⟨_, hstep, s', dp, hrun, hne⟩

def runAll (env : Env) (e : ℕ) (st : Holding) : List HoldCall → Option Holding
  | [] => some st
  | c :: cs => (c.run env e st).bind fun st => runAll env e st cs

theorem reachable_of_runAll {st st' : Holding} {cs : List HoldCall}
    (hst : (holdCalls env e).Reachable st) (h : runAll env e st cs = some st') :
    (holdCalls env e).Reachable st' := by
  induction cs generalizing st with
  | nil =>
    cases h
    exact hst
  | cons c cs ih =>
    obtain ⟨st₁, hrun, h⟩ := Option.bind_eq_some_iff.1 h
    exact ih (.step hst trivial hrun) h

theorem runAll_packed :
    ((runAll growing 0 ⟨packed 1, []⟩
      [.hold 100, .newDp .remap none none, .freeDp 256 2]).any fun st =>
        (st.dbs.maps 0).nFree .remap < (st.dbs.maps 0).remapOnHold) = true := by
  decide +kernel

/-- A hold of 100 pages, a page without a hold, which is freed again: the extent is given back, and
there is no page for the hold. -/
theorem not_holds_covered : ∃ st, (holdCalls growing 0).Reachable st ∧
    (st.dbs.maps 0).nFree .remap < (st.dbs.maps 0).remapOnHold := by
  obtain ⟨st, hrun, hlt⟩ := (Option.any_eq_true _ _).1 runAll_packed
  exact ⟨st, reachable_of_runAll (.init covered_packed) hrun, by simpa using hlt⟩

end Virtuoso.Extent
