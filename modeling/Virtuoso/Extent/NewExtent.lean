import Virtuoso.Extent.Growth

/-!
# An extent for a map

`em_new_extent` gets an extent from `em_get_extent` and a record for it.  The record may need a page
of records, which `em_extend` gets from the system map, which may need an extent itself.  If there
is no page of the system map left for that, then there has to be room for the record of the extent
(`Ready`): a page of records that `em_sys_extend` makes for the system map is the one case that is
left out here.
-/

namespace Virtuoso.Extent

open Function Lib

variable {env : Env} {s s' : Dbs} {e i dp near b : ℕ} {k : Kind}

/-! ## Getting an extent -/

theorem firstClear_le {bits : ℕ → Bool} {o m n b : ℕ} (h : firstClear bits o n = some b)
    (hm : bits m = false) (ho : o ≤ m) : b ≤ m := by
  by_contra hlt
  have := (List.find?_range'_eq_some.1 h).2.2 m ho (not_le.1 hlt)
  simp [hm] at this

/-- The extent that is found is in the file, or it is the first one after it. -/
theorem freeExtent_le (hs : Good s) (hnear : near < s.nPages) (h : freeExtent s near = some b) :
    extentSz * b ≤ s.nPages := by
  have hclear := hs.toInv.extentSet_nPages
  have hle : b ≤ s.nPages / extentSz := by
    rw [freeExtent, Option.or_eq_some_iff] at h
    rcases h with h | ⟨-, h⟩
    · refine firstClear_le h hclear ?_
      simp only [extentSz] at *
      omega
    · exact firstClear_le h hclear (Nat.zero_le _)
  simp only [extentSz] at *
  omega

theorem freeExtent_unmarked (h : freeExtent s near = some b) : s.extentSet b = false := by
  rw [freeExtent, Option.or_eq_some_iff] at h
  rcases h with h | ⟨-, h⟩ <;> exact (firstClear_eq_some h).2.2

theorem Hinted.good (h : Hinted s s') (hs : Good s) : Good s' := by
  have hsame := h.alike.samePlaces
  refine ⟨h.alike.inv hs.toInv, h.full hs.full, ?_⟩
  rw [hsame.nPages, hsame.nPagesInSets, hsame.nPagesInExtentSet]
  exact hs.sizes

theorem Gets.good (h : Gets s e k dp s') (hs : Good s) : Good s' := by
  refine ⟨h.inv hs.toInv, h.full hs.full, ?_⟩
  rw [h.samePlaces.nPages, h.samePlaces.nPagesInSets, h.samePlaces.nPagesInExtentSet]
  exact hs.sizes

theorem Good.mark {n : ℕ} (hs : Good s) (hlt : extentSz * n < s.nPages) : Good (s.markExtent n) :=
  ⟨hs.toInv.mark hlt fun _ => .inl, hs.full, hs.sizes⟩

theorem grows_markExtent (s : Dbs) (n : ℕ) : Grows s (s.markExtent n) :=
  grows_sets (fun _ => id) le_rfl fun _ => extentSet_markExtent

/-- An extent no map has, which is now marked. -/
structure Got (s s' : Dbs) (dp : ℕ) : Prop where
  aligned : dp % extentSz = 0
  lt : dp < s'.nPages
  marked : s'.extentSet (dp / extentSz) = true
  dpToEm : s'.dpToEm dp = none
  unmarked : s.extentSet (dp / extentSz) = false

theorem Got.of_grows {s₁ : Dbs} (h : Got s₁ s' dp) (hg : Grows s s₁) : Got s s' dp := by
  refine ⟨h.aligned, h.lt, h.marked, h.dpToEm, Bool.eq_false_iff.2 fun hm => ?_⟩
  have := h.unmarked
  rw [hg.extentSet hm] at this
  cases this

/-- What `em_get_extent` gives: an extent that no map has and that it has marked, or the record of
one that was put into the system map while the file was made longer. -/
structure Obtains (s s' : Dbs) (e : ℕ) (k : Kind) (res : Option (ℕ × Option ℕ)) : Prop where
  good : Good s'
  grows : Grows s s'
  got : ∀ dp, res = some (dp, none) → Got s s' dp
  made : ∀ dp i, res = some (dp, some i) →
    k = .index ∧ e = 0 ∧ ∃ r, Live s' 0 i r ∧ r.kind = some .index ∧ 0 < extFreeCount r
  kept : k = .index → e = 0 → ∀ dp, res = some (dp, none) → SameRecords s s'
  stock : 0 < s'.stock ∨ SameRecords s s' ∧ s'.stock = s.stock

/-- The file has become longer, and `em_get_extent` calls itself. -/
structure Again (s s₁ : Dbs) (e : ℕ) (k : Kind) : Prop where
  good : Good s₁
  grows : Grows s s₁
  stock : 13 ≤ s₁.stock
  kept : k = .index → e = 0 → SameRecords s s₁
  why : s.stock < 16 ∧ 19 ≤ s₁.stock ∨ 16 ≤ s.stock ∧ s.stock - 3 ≤ s₁.stock ∧
    s.nPagesInExtentSet < s.nPages + extentSz ∧ s₁.nPages + extentSz ≤ s₁.nPagesInExtentSet

theorem Obtains.of_again {s₁ : Dbs} {res : Option (ℕ × Option ℕ)} (h : Obtains s₁ s' e k res)
    (ha : Again s s₁ e k) : Obtains s s' e k res where
  good := h.good
  grows := ha.grows.trans h.grows
  got dp hdp := (h.got dp hdp).of_grows ha.grows
  made := h.made
  kept hk he dp hdp := (ha.kept hk he).trans (h.kept hk he dp hdp)
  stock := by
    have := ha.stock
    rcases h.stock with hpos | ⟨-, heq⟩
    · exact .inl hpos
    · exact .inl (by omega)

/-- An extent of the file that is not marked is marked. -/
theorem Good.obtains {s₁ : Dbs} (hs : Good s) (hs₁ : Good s₁) (hg : Grows s s₁)
    (hem : s₁.dpToEm = s.dpToEm) (hrec : SameRecords s s₁)
    (hstock : 0 < s₁.stock ∨ s₁.stock = s.stock) (hb : freeExtent s near = some b)
    (hlt : extentSz * b < s₁.nPages) :
    Obtains s (s₁.markExtent b) e k (some (extentSz * b, none)) := by
  have hdiv : extentSz * b / extentSz = b := Nat.mul_div_cancel_left b (by decide)
  have hun : s.extentSet (extentSz * b / extentSz) = false := by
    rw [hdiv]
    exact freeExtent_unmarked hb
  have hrec' : SameRecords s (s₁.markExtent b) := ⟨hrec.kinds, hrec.bufs⟩
  refine ⟨hs₁.mark hlt, hg.trans (grows_markExtent _ _), fun dp hdp => ?_, by simp,
    fun _ _ _ _ => hrec', hstock.imp id fun h => ⟨hrec', h⟩⟩
  simp only [Option.some.injEq, Prod.mk.injEq, and_true] at hdp
  subst hdp
  refine ⟨Nat.mul_mod_right _ _, hlt, ?_, ?_, hun⟩
  · rw [hdiv]
    simp [Dbs.markExtent]
  · rw [show (s₁.markExtent b).dpToEm = s₁.dpToEm from rfl, hem]
    exact hs.dpToEm_of_unmarked hun

/-- If no extent is free then the extent set ends with the file. -/
theorem Good.lt_of_freeExtent_eq_none (hs : Good s) (h : freeExtent s near = none) :
    s.nPagesInExtentSet < s.nPages + extentSz := by
  by_contra hle
  rw [freeExtent, Option.or_eq_none_iff] at h
  have := firstClear_eq_none.1 h.2 (s.nPages / extentSz) (Nat.zero_le _) (by
    simp only [extentSz] at *
    omega)
  rw [hs.toInv.extentSet_nPages] at this
  cases this

/-- One round of `em_get_extent`, near to the first page of an extent. -/
theorem emGetExtent_round (henv : env.Ok) (hs : Good s) (hmod : near % extentSz = 0)
    (hnear : near < s.nPages) (fuel : ℕ) :
    Gives (emGetExtent env (fuel + 1) s e k near) (fun x => Obtains s x.1 e k x.2) ∨
      ∃ s₁, emGetExtent env (fuel + 1) s e k near = emGetExtent env fuel s₁ e k 0 ∧
        Again s s₁ e k := by
  simp only [emGetExtent]
  generalize hnear' : (if s.nPagesInExtentSet < near + extentSz ∧ extentSz < near then
    near - extentSz else near) = near'
  have hlt' : near' % extentSz = 0 ∧ near' < s.nPages := by
    subst hnear'
    split_ifs
    · simp only [extentSz] at *
      omega
    · exact ⟨hmod, hnear⟩
  have hin := hs.sizes.inExtentSet
  rw [if_neg (by omega)]
  by_cases hall : (freeExtent s near').all fun b => decide (s.nPages ≤ extentSz * b)
  · rw [if_pos hall]
    obtain ⟨⟨s₁, g⟩, hext, ⟨hg, hsame⟩ | ⟨newExt, hg, hlen⟩⟩ := dbsFileExtend_spec henv hs
    · -- no disk
      obtain rfl : g = .failed := hg
      obtain rfl : s₁ = s := hsame
      rw [hext]
      exact .inl (.some ⟨hs, .refl _, by simp, by simp, by simp, .inr ⟨.refl _, rfl⟩⟩)
    obtain rfl : g = .grew newExt := hg
    change Lengthens s newExt s₁ at hlen
    rw [hext]
    have hpos : 0 < s₁.stock := lt_of_lt_of_le (by decide) hlen.stock
    cases newExt with
    | some i =>
      obtain ⟨hlow, hstock, r, hl, hkind, hfree⟩ := hlen.made i rfl
      dsimp only
      split_ifs with hsys
      · rw [hl.1]
        refine .inl (.some ⟨hlen.good, hlen.grows, by simp, fun dp j hj => ?_, by simp, .inl hpos⟩)
        cases hj
        exact ⟨hsys.1, hsys.2, r, hl, hkind, hfree⟩
      · exact .inr ⟨s₁, rfl, hlen.good, hlen.grows, hlen.stock,
          fun hk he => absurd ⟨hk, he⟩ hsys, .inl ⟨hlow, hstock⟩⟩
    | none =>
      obtain ⟨hhigh, hstock, hem, hrec⟩ := hlen.kept rfl
      cases hb : freeExtent s near' with
      | none =>
        have htight := hs.lt_of_freeExtent_eq_none hb
        have hn := hlen.nPages
        have hin₁ := hlen.good.sizes.inExtentSet
        refine .inr ⟨s₁, rfl, hlen.good, hlen.grows, hlen.stock, fun _ _ => hrec,
          .inr ⟨hhigh, hstock, htight, hlen.set.resolve_left (by omega)⟩⟩
      | some b =>
        have hle := freeExtent_le hs hlt'.2 hb
        have hn : s.nPages < s₁.nPages :=
          (Nat.lt_add_of_pos_right (by decide)).trans_le hlen.nPages
        exact .inl (.some (hs.obtains hlen.good hlen.grows hem hrec (.inl hpos) hb
          (hle.trans_lt hn)))
  · rw [if_neg hall]
    cases hb : freeExtent s near' with
    | none => simp [hb] at hall
    | some b =>
      rw [hb] at hall
      exact .inl (.some (hs.obtains hs (.refl _) rfl (.refl _) (.inr rfl) hb (by simpa using hall)))

/-- How many rounds `em_get_extent` can take: it may make the file longer for the system map, and
for the extent set. -/
def rounds (s : Dbs) : ℕ :=
  if s.stock < 16 then 3
  else if s.nPages + extentSz ≤ s.nPagesInExtentSet then 1
  else if s.stock < 19 then 4
  else 2

theorem Again.rounds_lt {s₁ : Dbs} (h : Again s s₁ e k) : rounds s₁ < rounds s := by
  rw [rounds, rounds]
  rcases h.why with ⟨h₁, h₂⟩ | ⟨h₁, h₂, h₃, h₄⟩
  · rw [if_pos h₁]
    split_ifs <;> omega
  · split_ifs <;> omega

theorem Good.nPages_pos (hs : Good s) : 0 < s.nPages := by
  obtain ⟨e, i, r, hl, -⟩ := hs.alloc hs.zero
  exact (Nat.zero_le _).trans_lt (hs.lt hl)

/-- `em_get_extent` returns. -/
theorem emGetExtent_spec (henv : env.Ok) (hs : Good s) (hmod : near % extentSz = 0)
    (hnear : near < s.nPages) :
    Gives (emGetExtent env getExtentFuel s e k near) fun x => Obtains s x.1 e k x.2 := by
  have haux (fuel : ℕ) : ∀ (s : Dbs) (near : ℕ), Good s → near % extentSz = 0 → near < s.nPages →
      rounds s ≤ fuel → Gives (emGetExtent env fuel s e k near) fun x => Obtains s x.1 e k x.2 := by
    induction fuel with
    | zero =>
      intro s near _ _ _ hle
      rw [rounds] at hle
      split_ifs at hle <;> omega
    | succ fuel ih =>
      intro s near hs hmod hnear hle
      rcases emGetExtent_round henv hs hmod hnear fuel with h | ⟨s₁, heq, ha⟩
      · exact h
      · rw [heq]
        have hrest := ih s₁ 0 ha.good rfl ha.good.nPages_pos (by have := ha.rounds_lt; omega)
        exact hrest.mono fun x hx => hx.of_again ha
  refine haux _ s near hs hmod hnear ?_
  rw [rounds, getExtentFuel]
  split_ifs <;> omega

/-! ## Records -/

/-- Setting a record twice. -/
theorem registerExt_setExt (r r' : Ext) :
    (s.setExt e i r).registerExt e i r' dp k = s.registerExt e i r' dp k := by
  simp only [Dbs.registerExt, Dbs.setExt, Dbs.modEm, update_self, update_idem,
    List.set_set]

/-- Setting a record to what it is. -/
theorem setExt_self {r : Ext} (h : (s.maps e).exts[i]? = some r) : s.setExt e i r = s := by
  have hset : (s.maps e).exts.set i r = (s.maps e).exts := by
    obtain ⟨hi, rfl⟩ := List.getElem?_eq_some_iff.1 h
    exact List.set_getElem_self hi
  rw [Dbs.setExt, Dbs.modEm]
  simp only [hset, update_eq_self]

/-- The map `e` has a record `i` that is not in use, in a storage that has grown, and this is
that storage but for the record, which has no page. -/
def Extended (s : Dbs) (e i : ℕ) (s' : Dbs) : Prop :=
  ∃ s₀ r r', Good s₀ ∧ Grows s s₀ ∧ (s₀.maps e).exts[i]? = some r ∧ r.kind = none ∧
    (∀ b, r'.pages b = false) ∧ s' = s₀.setExt e i r'

/-- There is room for what the map needs to get an extent of the kind. -/
def Ready (e : ℕ) (k : Kind) (s : Dbs) : Prop := Room s ∨ 0 < s.stock ∧ ¬ (k = .index ∧ e = 0)

theorem Ready.of_same (h : Ready e k s) (hrec : SameRecords s s') (hstock : s'.stock = s.stock) :
    Ready e k s' :=
  h.imp hrec.room fun ⟨hpos, hsys⟩ => ⟨hstock ▸ hpos, hsys⟩

theorem Obtains.ready {dp : ℕ} (h : Obtains s s' e k (some (dp, none))) (hs : Ready e k s) :
    Ready e k s' := by
  by_cases hsys : k = .index ∧ e = 0
  · exact .inl ((h.kept hsys.1 hsys.2 dp rfl).room (hs.resolve_right fun h => h.2 hsys))
  · rcases h.stock with hpos | ⟨hrec, heq⟩
    · exact .inr ⟨hpos, hsys⟩
    · exact hs.of_same hrec heq

/-- What a function that extends a map does: it fails, or it gives a record that is not in use. -/
def ExtendOk (extend : Dbs → Option (Dbs × Option ℕ)) (e : ℕ) (k : Kind) : Prop :=
  ∀ {s}, Good s → Ready e k s → Gives (extend s) fun x =>
    (x.2 = none → Good x.1 ∧ Grows s x.1) ∧ ∀ i, x.2 = some i → Extended s e i x.1

theorem emAllocExt_spec (hs : Good s) (h : emAllocExt s e k = some (s', i)) :
    Extended s e i s' := by
  simp only [emAllocExt, Option.map_eq_some_iff, Prod.mk.injEq] at h
  obtain ⟨j, hfind, rfl, rfl⟩ := h
  have hj := List.find?_some hfind
  simp only [decide_eq_true_eq] at hj
  obtain ⟨r, hr, hk⟩ := hj
  exact ⟨s, r, _, hs, .refl s, hr, hk, fun _ => rfl, rfl⟩

/-- Every record is in use. -/
theorem notMem_kinds_of_emAllocExt (h : emAllocExt s e k = none) :
    none ∉ (s.maps e).exts.map Ext.kind := by
  intro hmem
  obtain ⟨i, hi⟩ := List.mem_iff_getElem?.1 hmem
  rw [List.getElem?_map] at hi
  obtain ⟨r, hr, -⟩ := Option.map_eq_some_iff.1 hi
  have hlt := (List.getElem?_eq_some_iff.1 hr).1
  rw [emAllocExt, Option.map_eq_none_iff, List.find?_eq_none] at h
  exact h i (List.mem_range.2 hlt) (decide_eq_true hi)

/-! ### A record more -/

section Append

variable {bufs : List (ℕ × ℕ)}

/-- The storage with a record that is not in use after the others of a map. -/
def Dbs.withRecord (s : Dbs) (e : ℕ) (bufs : List (ℕ × ℕ)) : Dbs :=
  s.modEm e fun em => { em with exts := em.exts ++ [Ext.blank], bufs := bufs }

theorem live_withRecord {e' j : ℕ} {r : Ext} :
    Live (s.withRecord e bufs) e' j r ↔ Live s e' j r := by
  by_cases he : e' = e
  · subst he
    rw [Live, Live, Dbs.withRecord, Dbs.maps_modEm, getElem?_append_singleton]
    constructor
    · rintro ⟨h | ⟨-, rfl⟩, hk⟩
      · exact ⟨h, hk⟩
      · exact absurd rfl hk
    · rintro ⟨h, hk⟩
      exact ⟨.inl h, hk⟩
  · rw [Live, Live, Dbs.withRecord, Dbs.maps_modEm_of_ne _ _ _ he]

theorem samePlaces_withRecord : SamePlaces s (s.withRecord e bufs) where
  live hl := ⟨_, live_withRecord.2 hl, rfl, rfl⟩
  live' hl := ⟨_, live_withRecord.1 hl, rfl, rfl⟩
  dpToExt _ := s.proj_modEm e Em.dpToExt rfl
  dpToEm := rfl
  extentSet := rfl
  freeSet := rfl
  nPages := rfl
  nPagesInSets := rfl
  nPagesInExtentSet := rfl

theorem Good.withRecord (hs : Good s) (hbufs : ∀ b ∈ bufs, s.freeSet b.1 = true) :
    Good (s.withRecord e bufs) := by
  refine ⟨⟨?_, fun e' k => ?_, ?_⟩, ?_, hs.sizes⟩
  · refine hs.toPlaced.congr samePlaces_withRecord fun {e' b} hb => ?_
    by_cases he : e' = e
    · subst he
      rw [Dbs.withRecord, Dbs.maps_modEm] at hb
      exact .inl (hbufs b hb)
    · rw [Dbs.withRecord, Dbs.maps_modEm_of_ne _ _ _ he] at hb
      exact hs.bufs hb
  · by_cases he : e' = e
    · subst he
      have hblank : Ext.blank.free k = 0 := rfl
      rw [Dbs.withRecord, Dbs.maps_modEm, emFreeCount_eq, List.map_append, List.sum_append,
        List.map_singleton, List.sum_singleton, hblank, add_zero]
      exact hs.count e' k
    · rw [Dbs.withRecord, Dbs.maps_modEm_of_ne _ _ _ he]
      exact hs.count e' k
  · intro p hp
    obtain ⟨e', j, r, hl, hhas⟩ := hs.alloc hp
    exact ⟨e', j, r, live_withRecord.2 hl, hhas⟩
  · intro e' j r hl
    exact hs.full e' j r (live_withRecord.1 hl)

theorem Grows.withRecord {s₀ : Dbs} (hg : Grows s s₀)
    (hbufs : ∀ b ∈ bufs, (∃ b' ∈ (s₀.maps e).bufs, b'.1 = b.1) ∨ s.freeSet b.1 = false) :
    Grows s (s₀.withRecord e bufs) := by
  have hold {e' : ℕ} {b : ℕ × ℕ} (h : ∃ b' ∈ (s₀.maps e').bufs, b'.1 = b.1) :
      (∃ b' ∈ (s.maps e').bufs, b'.1 = b.1) ∨ s.freeSet b.1 = false := by
    obtain ⟨b', hb', heq⟩ := h
    rw [← heq]
    exact hg.bufs hb'
  refine ⟨hg.freeSet, fun {e' b} hb => ?_,
    fun e' => (s₀.proj_modEm e Em.remapOnHold rfl).trans (hg.onHold e'),
    fun e' => (hg.remap e').trans_eq (s₀.proj_modEm e (Em.nFree · .remap) rfl).symm,
    fun hlast => lastOk_of_eq (fun e' => s₀.proj_modEm e Em.last rfl)
      (fun hl => ⟨_, live_withRecord.2 hl, rfl⟩) (hg.last hlast), fun hl => ?_, hg.nPages,
    hg.extentSet, hg.dpToEm⟩
  · by_cases he : e' = e
    · subst he
      rw [Dbs.withRecord, Dbs.maps_modEm] at hb
      rcases hbufs b hb with hb | hb
      · exact hold hb
      · exact .inr hb
    · rw [Dbs.withRecord, Dbs.maps_modEm_of_ne _ _ _ he] at hb
      exact hold ⟨b, hb, rfl⟩
  · obtain ⟨r, hl', hrest⟩ := hg.live hl
    exact ⟨r, live_withRecord.2 hl', hrest⟩

/-- The record that was added is not in use. -/
theorem extended_withRecord {s₀ : Dbs} (hs : Good (s₀.withRecord e bufs))
    (hg : Grows s (s₀.withRecord e bufs)) :
    Extended s e (s₀.maps e).exts.length (s₀.withRecord e bufs) := by
  have hget : ((s₀.withRecord e bufs).maps e).exts[(s₀.maps e).exts.length]? = some Ext.blank := by
    rw [Dbs.withRecord, Dbs.maps_modEm, getElem?_append_singleton]
    exact .inr ⟨rfl, rfl⟩
  exact ⟨_, Ext.blank, Ext.blank, hs, hg, hget, rfl, fun _ => rfl, (setExt_self hget).symm⟩

theorem appendExt_spec (hs : Good s) :
    Extended s e (s.maps e).exts.length (s.appendExt e Ext.blank) := by
  refine extended_withRecord (hs.withRecord fun b hb => ?_)
    ((Grows.refl s).withRecord fun b hb => ?_)
  · obtain ⟨b', hb', heq⟩ := mem_oneMore hb
    rw [← heq]
    exact (hs.bufs hb').resolve_right (by simp)
  · exact .inl (mem_oneMore hb)

end Append

/-! ## Putting the extent into the record -/

section Register

variable {s₀ : Dbs} {r r' : Ext} (hget : (s₀.maps e).exts[i]? = some r) (hk : r.kind = none)
include hget hk

theorem live_registerExt {e' j : ℕ} {r₁ : Ext} : Live (s₀.registerExt e i r' dp k) e' j r₁ ↔
    (e' = e ∧ j = i ∧ r₁ = { r' with dp := dp, kind := some k, full := false }) ∨
    Live s₀ e' j r₁ := by
  have hlt : i < (s₀.maps e).exts.length := (List.getElem?_eq_some_iff.1 hget).1
  by_cases he : e' = e
  · subst he
    by_cases hj : j = i
    · subst hj
      simp only [Live, Dbs.registerExt, Dbs.maps_modEm, List.getElem?_set_self hlt, hget,
        Option.some.injEq, true_and]
      constructor
      · rintro ⟨rfl, -⟩
        exact .inl rfl
      · rintro (rfl | ⟨rfl, hne⟩)
        · exact ⟨rfl, by simp⟩
        · exact absurd hk hne
    · simp only [Live, Dbs.registerExt, Dbs.maps_modEm, List.getElem?_set_ne (Ne.symm hj), hj,
        false_and, and_false, false_or]
  · simp only [Live, Dbs.registerExt, Dbs.maps_modEm_of_ne _ _ _ he, he, false_and, false_or]

theorem Good.registerExt (hs : Good s₀) (hfree : s₀.dpToEm dp = none)
    (hm : s₀.extentSet (dp / extentSz) = true) (halign : dp % extentSz = 0) (hlt : dp < s₀.nPages) :
    Good (s₀.registerExt e i r' dp k) := by
  refine ⟨hs.toInv.register (fun r₁ hl => ?_) hfree (live_registerExt hget hk) rfl
    (fun e' => ?_) rfl rfl rfl rfl (.inl hm) (by simp) halign hlt (fun {e' b} hb => ?_) fun e' k' =>
      ?_, ?_, hs.sizes⟩
  · obtain rfl : r = r₁ := Option.some.inj (hget.symm.trans hl.1)
    exact hl.2 hk
  · split_ifs with he
    · subst he
      simp [Dbs.registerExt]
    · simp only [Dbs.registerExt, Dbs.maps_modEm_of_ne _ _ _ he]
  · rw [Dbs.registerExt, s₀.proj_modEm e Em.bufs rfl] at hb
    exact hs.bufs hb
  · by_cases he : e' = e
    · subst he
      have hcount := emFreeCount_set hget { r' with dp := dp, kind := some k, full := false } k'
      have hfree' : r.free k' = 0 := by simp [Ext.free, hk]
      rw [hfree', sub_zero, ← hs.count, Ext.free_of_kind (k := k) rfl] at hcount
      simp only [Dbs.registerExt, Dbs.maps_modEm]
      rw [emFreeCount_eq] at hcount ⊢
      rw [hcount]
      by_cases hk' : k' = k
      · subst hk'
        rw [update_self, if_pos rfl]
        rfl
      · rw [update_of_ne hk', if_neg hk', add_zero]
    · simp only [Dbs.registerExt, Dbs.maps_modEm_of_ne _ _ _ he]
      exact hs.count e' k'
  · intro e' j r₁ hl hfull
    rcases (live_registerExt hget hk).1 hl with ⟨-, -, rfl⟩ | hl
    · cases hfull
    · exact hs.full e' j r₁ hl hfull

theorem Grows.registerExt (hg : Grows s s₀) (hun : s.extentSet (dp / extentSz) = false) :
    Grows s (s₀.registerExt e i r' dp k) := by
  refine ⟨hg.freeSet, fun {e' b} hb => ?_,
    fun e' => by rw [Dbs.registerExt, s₀.proj_modEm e Em.remapOnHold rfl, hg.onHold],
    fun e' => (hg.remap e').trans ?_,
    fun hlast => lastOk_of_eq (fun e' => by rw [Dbs.registerExt, s₀.proj_modEm e Em.last rfl])
      (fun hl => ⟨_, (live_registerExt hget hk).2 (.inr hl), rfl⟩) (hg.last hlast), fun hl => ?_,
    hg.nPages, hg.extentSet, fun {d} hd hm => ?_⟩
  · rw [Dbs.registerExt, s₀.proj_modEm e Em.bufs rfl] at hb
    exact hg.bufs hb
  · by_cases he : e' = e
    · subst he
      simp only [Dbs.registerExt, Dbs.maps_modEm]
      by_cases hk' : Kind.remap = k
      · subst hk'
        rw [update_self]
        omega
      · rw [update_of_ne hk']
    · simp only [Dbs.registerExt, Dbs.maps_modEm_of_ne _ _ _ he, le_refl]
  · obtain ⟨r₁, hl₁, hrest⟩ := hg.live hl
    exact ⟨r₁, (live_registerExt hget hk).2 (.inr hl₁), hrest⟩
  · have hne : d ≠ dp := by
      rintro rfl
      rw [hun] at hm
      cases hm
    rw [Dbs.registerExt]
    dsimp only
    rw [update_of_ne hne]
    exact hg.dpToEm hd hm

end Register

/-! ## `em_new_extent` -/

/-- An extent that was marked for a map is given back. -/
theorem dbsExtentFree_spec (hs : Good s) (hfree : s.dpToEm dp = none) (hmod : dp % extentSz = 0)
    (hlt : dp < s.nPages) (hmark : s.extentSet (dp / extentSz) = true) :
    dbsExtentFree s dp false =
        some { s with extentSet := update s.extentSet (dp / extentSz) false } ∧
      Good { s with extentSet := update s.extentSet (dp / extentSz) false } := by
  have hin := hs.sizes.inExtentSet
  refine ⟨?_, ⟨⟨hs.hash, hs.ofHash, hs.ofEm, fun {e i r} hl => ?_, hs.aligned, hs.lt,
    fun {n} hm => ?_, hs.nPages_mod, hs.bufs, hs.zero⟩, hs.count, hs.alloc⟩, hs.full, hs.sizes⟩
  · rw [dbsExtentFree, if_neg (by omega), if_neg (by simp [hmark])]
    simp [hfree]
  · -- the record of another extent
    have hne : r.dp / extentSz ≠ dp / extentSz := by
      intro heq
      have halign := hs.aligned hl
      have hdp : r.dp = dp := by
        simp only [extentSz] at *
        omega
      rw [← hdp, (hs.hash hl).2] at hfree
      cases hfree
    dsimp only
    rw [update_of_ne hne]
    exact hs.marked hl
  · by_cases hn : n = dp / extentSz
    · simp [hn] at hm
    · dsimp only at hm
      rw [update_of_ne hn] at hm
      exact hs.marked_lt hm

/-- Marks that were not there before are taken back. -/
theorem Grows.unmark (hg : Grows s s') {n : ℕ} (hun : s.extentSet n = false) :
    Grows s { s' with extentSet := update s'.extentSet n false } := by
  refine ⟨hg.freeSet, hg.bufs, hg.onHold, hg.remap, hg.last, hg.live, hg.nPages, fun {m} hm => ?_,
    hg.dpToEm⟩
  have hne : m ≠ n := by
    rintro rfl
    rw [hun] at hm
    cases hm
  dsimp only
  rw [update_of_ne hne]
  exact hg.extentSet hm

/-- What `em_new_extent` gives: nothing, or the record of an extent of the kind with free pages. -/
structure Makes (s s' : Dbs) (e : ℕ) (k : Kind) (res : Option ℕ) : Prop where
  good : Good s'
  grows : Grows s s'
  live : ∀ i, res = some i → ∃ r, Live s' e i r ∧ r.kind = some k ∧ 0 < extFreeCount r
  more : res ≠ none → k = .remap →
    (s.maps e).nFree .remap + extentSz ≤ (s'.maps e).nFree .remap

/-- The extent is put into the record. -/
theorem makes_registerExt {s₀ : Dbs} {r r' : Ext} (hs₀ : Good s₀) (hg : Grows s s₀)
    (hget : (s₀.maps e).exts[i]? = some r) (hk : r.kind = none) (hempty : ∀ b, r'.pages b = false)
    (hgot : Got s s₀ dp) : Makes s (s₀.registerExt e i r' dp k) e k (some i) := by
  have hcount : extFreeCount r' = extentSz := extFreeCount_of_empty hempty
  refine ⟨hs₀.registerExt hget hk hgot.dpToEm hgot.marked hgot.aligned hgot.lt,
    hg.registerExt hget hk hgot.unmarked, fun j hj => ?_, fun _ hremap => ?_⟩
  · cases hj
    refine ⟨_, (live_registerExt hget hk).2 (.inl ⟨rfl, rfl, rfl⟩), rfl, ?_⟩
    change 0 < extFreeCount r'
    rw [hcount]
    decide
  · subst hremap
    simp only [Dbs.registerExt, Dbs.maps_modEm, update_self, hcount]
    exact Int.add_le_add_right (hg.remap e) _

theorem Makes.hinted {s₁ : Dbs} {res : Option ℕ} (h : Makes s s₁ e k res) (hh : Hinted s₁ s') :
    Makes s s' e k res where
  good := hh.good h.good
  grows := h.grows.trans hh.grows
  live i hi := by
    obtain ⟨r, hl, hk, hfree⟩ := h.live i hi
    obtain ⟨r', hl', hk', -, hpages⟩ := hh.alike.live hl
    refine ⟨r', hl', hk'.trans hk, ?_⟩
    rwa [extFreeCount, hpages]
  more hres hk := by
    rw [hh.alike.nFree]
    exact h.more hres hk

/-- `em_new_extent` returns, if the two functions it calls for the record and its links do. -/
theorem emNewExtentWith_spec (henv : env.Ok) {extend : Dbs → Option (Dbs × Option ℕ)}
    {insAfter : Dbs → ℕ → Option Dbs} {extends' : Option ℕ} (hextend : ExtendOk extend e k)
    (hins : extends' ≠ none → k = .index → ∀ {s₁ i r}, Good s₁ → Grows s s₁ → Live s₁ e i r →
      Gives (insAfter s₁ i) (Hinted s₁))
    (hs : Good s) (hready : Ready e k s)
    (hnear : ∀ d, extends' = some d → d % extentSz = 0 ∧ d < s.nPages) :
    Gives (emNewExtentWith env extend s e k extends' insAfter) fun x => Makes s x.1 e k x.2 := by
  have hnear' : extends'.getD 0 % extentSz = 0 ∧ extends'.getD 0 < s.nPages := by
    cases extends' with
    | none => exact ⟨rfl, hs.nPages_pos⟩
    | some d => exact hnear d rfl
  obtain ⟨⟨s₁, res⟩, hget, ho⟩ := @emGetExtent_spec env s e _ k henv hs hnear'.1 hnear'.2
  change Obtains s s₁ e k res at ho
  rw [emNewExtentWith, hget]
  rcases res with - | ⟨dp, - | i⟩
  · exact .some ⟨ho.good, ho.grows, by simp, by simp⟩
  · have hgot := ho.got dp rfl
    obtain ⟨⟨s₂, res⟩, hext, hnone, hsome⟩ := hextend ho.good (ho.ready hready)
    dsimp only at hnone hsome ⊢
    rw [hext]
    cases res with
    | none =>
      -- no record, so that the extent is given back
      obtain ⟨hs₂, hg₂⟩ := hnone rfl
      obtain ⟨hfree, hs₃⟩ := dbsExtentFree_spec hs₂
        ((hg₂.dpToEm hgot.aligned hgot.marked).trans hgot.dpToEm) hgot.aligned
        (hgot.lt.trans_le hg₂.nPages) (hg₂.extentSet hgot.marked)
      dsimp only
      rw [hfree]
      exact .some ⟨hs₃, (ho.grows.trans hg₂).unmark hgot.unmarked, by simp, by simp⟩
    | some i =>
      obtain ⟨s₀, r, r', hs₀, hg₀, hr, hk, hempty, rfl⟩ := hsome i rfl
      have hlt := (List.getElem?_eq_some_iff.1 hr).1
      have hget : ((s₀.setExt e i r').maps e).exts[i]? = some r' := by
        rw [Dbs.getElem?_setExt, if_pos ⟨rfl, rfl, hlt⟩]
      have hem : (s₀.setExt e i r').dpToEm dp = none :=
        (hg₀.dpToEm hgot.aligned hgot.marked).trans hgot.dpToEm
      dsimp only
      rw [hget, Option.bind_some, if_neg (not_not.2 hem), registerExt_setExt]
      have hmakes := makes_registerExt (k := k) hs₀ (ho.grows.trans hg₀) hr hk hempty
        ⟨hgot.aligned, hgot.lt.trans_le hg₀.nPages, hg₀.extentSet hgot.marked, hem, hgot.unmarked⟩
      obtain ⟨r₁, hl₁, -⟩ := hmakes.live i rfl
      -- the links of the new record
      refine Gives.map (P := Hinted (s₀.registerExt e i r' dp k)) ?_ fun s₃ hh => hmakes.hinted hh
      split_ifs with hindex hnone
      · exact .some (.refl _)
      · exact setPrev_gives hl₁.lt
      · exact hins hnone (not_not.1 hindex) hmakes.good hmakes.grows hl₁
  · obtain ⟨rfl, rfl, hlive⟩ := ho.made dp i rfl
    refine .some ⟨ho.good, ho.grows, fun j hj => ?_, by simp⟩
    cases hj
    exact hlive

/-! ## Pages of records -/

theorem extendOk_sys :
    ExtendOk (fun s => match emAllocExt s 0 .index with
      | some (s, i) => some (s, some i)
      | none => emSysExtend env s) 0 .index := by
  intro s hs hready
  dsimp only
  cases halloc : emAllocExt s 0 .index with
  | some x =>
    refine .some ⟨by simp, fun j hj => ?_⟩
    cases hj
    exact emAllocExt_spec hs halloc
  | none =>
    have hlast : (s.maps 0).lastFull = false :=
      (hready.resolve_right (by simp)).resolve_left (notMem_kinds_of_emAllocExt halloc)
    simp only [emSysExtend, hlast, Bool.false_eq_true, if_false]
    refine .some ⟨by simp, fun j hj => ?_⟩
    cases hj
    exact appendExt_spec hs

/-- No page, or one that was taken after the storage had grown. -/
def Page (s : Dbs) (e : ℕ) (k : Kind) (dp : ℕ) (s' : Dbs) : Prop :=
  (dp = 0 ∧ Good s' ∧ Grows s s') ∨ ∃ s₁, Good s₁ ∧ Grows s s₁ ∧ Gets s₁ e k dp s'

theorem Page.of_grows {s₁ : Dbs} (h : Page s₁ e k dp s') (hg : Grows s s₁) : Page s e k dp s' := by
  rcases h with ⟨hdp, hs', hg'⟩ | ⟨s₂, hs₂, hg₂, hget⟩
  · exact .inl ⟨hdp, hs', hg.trans hg'⟩
  · exact .inr ⟨s₂, hs₂, hg.trans hg₂, hget⟩

/-- A page of an extent, maybe near to another. -/
theorem extGetDpAt_tried {r : Ext} (hs : Good s) (hl : Live s e i r) (hk : r.kind = some k)
    (hnear : near = 0 ∨ r.dp ≤ near ∧ near < r.dp + extentSz) :
    Gives (extGetDpAt s e i near) fun x =>
      Tried s e k x.2 x.1 ∧ (0 < extFreeCount r → x.2 ≠ 0) ∧ ∃ r', x.1 = s.setExt e i r' := by
  have hsome : (extGetDpAt s e i near).isSome := by
    rw [extGetDpAt, hl.1, Option.bind_some, Option.isSome_map, extGetDp]
    split_ifs with hfull hout
    · rfl
    · exact absurd (hnear.resolve_left hout.1) hout.2
    · split <;> rfl
  obtain ⟨⟨s', dp⟩, hget⟩ := Option.isSome_iff_exists.1 hsome
  have hset : ∃ r', s' = s.setExt e i r' := by
    rw [extGetDpAt, hl.1, Option.bind_some] at hget
    obtain ⟨⟨r', d⟩, -, heq⟩ := Option.map_eq_some_iff.1 hget
    exact ⟨r', (congrArg Prod.fst heq).symm⟩
  refine ⟨_, hget, ?_⟩
  rcases extGetDpAt_cases hs.toInv hs.full hl hk hget with ⟨hdp, hh, hall⟩ | hget
  · refine ⟨.inl ⟨hdp, hh⟩, fun hfree => ?_, hset⟩
    rw [extFreeCount_eq_zero.2 hall] at hfree
    exact absurd hfree (lt_irrefl _)
  · exact ⟨.inr hget, fun _ => hget.1, hset⟩

/-- A page of an extent that has one. -/
theorem extGetDpAt_page {r : Ext} (hs : Good s) (hl : Live s e i r) (hk : r.kind = some k)
    (hfree : 0 < extFreeCount r) :
    Gives ((extGetDpAt s e i 0).bind fun x =>
      if x.2 = 0 then none else some (x.1.addFree e k (-1), x.2)) fun x => Page s e k x.2 x.1 := by
  refine (extGetDpAt_tried hs hl hk (.inl rfl)).bind fun x ⟨htried, hne, _⟩ => ?_
  rw [if_neg (hne hfree)]
  exact .some (.inr ⟨s, hs, .refl s, (htried.resolve_left fun h => hne hfree h.1).2⟩)

/-- An index page of the system map, maybe of an extent that was made for it. -/
theorem emNewSysDp_spec (henv : env.Ok) (hs : Good s) (hready : Room s ∨ 0 < s.stock) :
    Gives (emNewSysDp env s) fun x => Page s 0 .index x.2 x.1 := by
  obtain ⟨⟨s₁, dp⟩, htry, htried, hzero⟩ := @emTryGetAny_spec _ _ s 0 .index hs.toInv hs.full
  rw [emNewSysDp, htry]
  dsimp only at htried hzero ⊢
  rcases htried with ⟨rfl, hh⟩ | ⟨hne, hget⟩
  · have hroom : Room s₁ := hh.alike.sameRecords.room
      (hready.resolve_right fun hpos => (ne_of_gt hpos) (hzero rfl))
    obtain ⟨⟨s₂, res⟩, hnew, hmakes⟩ := @emNewExtentWith_spec env s₁ 0 .index henv _
      (fun _ _ => none) none (@extendOk_sys env) (by simp) (hh.good hs) (.inl hroom) (by simp)
    replace hnew : emNewSysExtent env s₁ = some (s₂, res) := hnew
    change Makes s₁ s₂ 0 .index res at hmakes
    rw [if_neg (not_not.2 rfl), hnew]
    have hg := hh.grows.trans hmakes.grows
    cases res with
    | none => exact .some (.inl ⟨rfl, hmakes.good, hg⟩)
    | some i =>
      obtain ⟨r, hl, hk, hfree⟩ := hmakes.live i rfl
      obtain ⟨x, hx, hpage⟩ := extGetDpAt_page hmakes.good hl hk hfree
      refine ⟨x, ?_, hpage.of_grows hg⟩
      rw [← hx]
      dsimp only
      split
      · next h => rw [h]; rfl
      · next h => rw [h]; rfl
  · rw [if_pos hne]
    exact .some (.inr ⟨s, hs, .refl s, hget⟩)

/-- A page that has its bit set is marked in the free set. -/
theorem Good.allocate (hs : Good s) (hhas : ∃ e i r, Live s e i r ∧ r.Has dp)
    (h : dbsPageAllocated s dp = some s') : Good s' := by
  obtain ⟨n, rfl⟩ := dbsPageAllocated_eq h
  exact ⟨hs.toInv.allocate hhas (by simp), hs.full, hs.sizes⟩

theorem grows_dbsPageAllocated (h : dbsPageAllocated s dp = some s') : Grows s s' := by
  obtain ⟨n, rfl⟩ := dbsPageAllocated_eq h
  refine grows_sets (fun p hp => ?_) le_rfl fun _ => id
  by_cases hps : p = dp
  · simp [hps]
  · simpa [hps] using hp

/-- The page has a bit in the sets. -/
theorem Gets.lt_nPagesInSets {s₀ : Dbs} (hg : Gets s₀ e k dp s) (hs₀ : Good s₀) :
    dp < s.nPagesInSets := by
  have hs := hg.good hs₀
  obtain ⟨i, r, hl, -, hle, hlt, -⟩ := hg.has
  have h₁ := hs.lt hl
  have h₂ := hs.aligned hl
  have h₃ := hs.nPages_mod
  have h₄ := hs.sizes.inSets
  simp only [extentSz] at *
  omega

/-- A new page of records for a map. -/
theorem extended_appendPage {s₀ s₁ s₂ : Dbs} (hs₀ : Good s₀) (hg₀ : Grows s s₀)
    (hg : Gets s₀ 0 .index dp s₁) (halloc : dbsPageAllocated s₁ dp = some s₂) :
    Extended s e (s₁.maps e).exts.length (s₂.appendPage e dp Ext.blank) := by
  obtain ⟨i, r, hl, -, hhas⟩ := hg.has
  have hs₂ := (hg.good hs₀).allocate ⟨0, i, r, hl, hhas⟩ halloc
  have hg₂ : Grows s s₂ :=
    (hg₀.trans (hg.grows (by decide))).trans (grows_dbsPageAllocated halloc)
  obtain ⟨n, rfl⟩ := dbsPageAllocated_eq halloc
  refine extended_withRecord (hs₂.withRecord fun b hb => ?_) (hg₂.withRecord fun b hb => ?_)
  · rcases List.mem_append.1 hb with hb | hb
    · exact (hs₂.bufs hb).resolve_right (by simp)
    · rw [List.mem_singleton.1 hb]
      simp
  · rcases List.mem_append.1 hb with hb | hb
    · exact .inl ⟨b, hb, rfl⟩
    · -- the page was not allocated
      rw [List.mem_singleton.1 hb]
      refine .inr (Bool.eq_false_iff.2 fun hset => ?_)
      have := hg.fresh hs₀.toInv
      rw [hg₀.freeSet hset] at this
      cases this

theorem extendOk_emExtend (henv : env.Ok) (e : ℕ) (k : Kind) :
    ExtendOk (fun s => emExtend env s e k) e k := by
  intro s hs hready
  dsimp only
  by_cases hsys : e = 0 ∧ k = .index
  · obtain ⟨rfl, rfl⟩ := hsys
    exact @extendOk_sys env s hs hready
  rw [emExtend]
  cases halloc : emAllocExt s e k with
  | some x =>
    refine .some ⟨by simp, fun j hj => ?_⟩
    cases hj
    exact emAllocExt_spec hs halloc
  | none =>
    dsimp only
    rw [if_neg hsys]
    split_ifs with hfull
    · obtain ⟨⟨s₁, dp⟩, hdp, hpage⟩ := emNewSysDp_spec henv hs (hready.imp id And.left)
      rw [hdp]
      rcases hpage with ⟨rfl, hs₁, hg₁⟩ | ⟨s₀, hs₀, hg₀, hg⟩
      · exact .some ⟨fun _ => ⟨hs₁, hg₁⟩, by simp⟩
      · obtain ⟨n, halloc⟩ := dbsPageAllocated_of_lt (hg.lt_nPagesInSets hs₀)
        dsimp only at halloc ⊢
        rw [if_neg (hg.ne_zero hs₀.toInv), halloc]
        refine .some ⟨by simp, fun j hj => ?_⟩
        cases hj
        exact extended_appendPage hs₀ hg₀ hg halloc
    · refine .some ⟨by simp, fun j hj => ?_⟩
      cases hj
      exact appendExt_spec hs

/-- `em_new_extent` for an extent that may extend one of the map. -/
theorem emNewExtent_spec (henv : env.Ok) {extends' : Option ℕ} (hs : Good s)
    (hready : Ready e k s) (hzero : k ≠ .index → extends' = some 0)
    (hnear : ∀ d, extends' = some d → k = .index → ∃ j r, Live s e j r ∧ r.dp = d) :
    Gives (emNewExtent env s e k extends') fun x => Makes s x.1 e k x.2 := by
  refine emNewExtentWith_spec henv (extendOk_emExtend henv e k)
    (fun hne hk s₁ i r hs₁ hg hl => ?_) hs
    hready fun d hd => ?_
  · obtain ⟨d, rfl⟩ := Option.ne_none_iff_exists'.1 hne
    obtain ⟨j, r₀, hl₀, rfl⟩ := hnear d rfl hk
    obtain ⟨r₁, hl₁, -, hd₁, -⟩ := hg.live hl₀
    have hpoint :=
      hs₁.dpToExt_extRound hl₁ ⟨hd₁.le, by rw [hd₁]; exact Nat.lt_add_of_pos_right (by decide)⟩
    rw [Option.getD_some, hpoint, Option.bind_some]
    exact emInsAfter_gives hs₁.lt_of_dpToExt hl₁.lt hl.lt
  · by_cases hk : k = .index
    · obtain ⟨j, r₀, hl₀, rfl⟩ := hnear d hd hk
      exact ⟨hs.aligned hl₀, hs.lt hl₀⟩
    · obtain rfl : 0 = d := Option.some.inj ((hzero hk).symm.trans hd)
      exact ⟨rfl, hs.nPages_pos⟩

end Virtuoso.Extent
