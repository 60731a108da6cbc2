import Virtuoso.Extent.NewExtent

/-!
# A page for a map

`em_new_dp` gives 0, or a page that was not allocated and that is of the map and the kind it was
asked for.  What the ways to a page have in common is `Page`: the storage grows first, and then a
page of it is taken.  It comes to an end with neither a fatal error nor an overflow if what it may
need is there (`Supplied`).
-/

namespace Virtuoso.Extent

open Function Lib

variable {env : Env} {s s₁ s₂ s' : Dbs} {e i dp : ℕ} {k : Kind}

/-! ## Changes of hints and of counts -/

theorem Hinted.addFree (h : Hinted s s') (n : ℤ) : Hinted (s.addFree e k n) (s'.addFree e k n) := by
  refine ⟨?_, fun hf => fullOk_addFree.2 (h.full (fullOk_addFree.1 hf))⟩
  rw [Alike, forget_addFree, forget_addFree, show s'.forget = s.forget from h.alike]

variable {f : Em → Em} {r : Ext} {near : Option ℕ}

/-- Neither the extents of a map nor its counts and hash table are changed. -/
theorem Good.modEm (hs : Good s) (hexts : (f (s.maps e)).exts = (s.maps e).exts)
    (hbufs : (f (s.maps e)).bufs = (s.maps e).bufs)
    (hdp : (f (s.maps e)).dpToExt = (s.maps e).dpToExt)
    (hfree : (f (s.maps e)).nFree = (s.maps e).nFree) : Good (s.modEm e f) := by
  refine ⟨⟨hs.toPlaced.congr (samePlaces_modEm hexts hdp) fun {e' b} hb => ?_, fun e' k' => ?_, ?_⟩,
    ?_, hs.sizes⟩
  · rw [s.proj_modEm e Em.bufs hbufs] at hb
    exact hs.bufs hb
  · rw [s.proj_modEm e Em.nFree hfree, emFreeCount_eq, s.proj_modEm e Em.exts hexts,
      ← emFreeCount_eq]
    exact hs.count e' k'
  · intro p hp
    obtain ⟨e', i', r, hl, hhas⟩ := hs.alloc hp
    exact ⟨e', i', r, (live_modEm hexts).2 hl, hhas⟩
  · intro e' i' r hl
    exact hs.full e' i' r ((live_modEm hexts).1 hl)

section Last

variable {j : Option ℕ}

theorem forget_setLast (s : Dbs) (e : ℕ) (k : Kind) (j : Option ℕ) :
    (s.setLast e k j).forget = s.forget.setLast e k j :=
  forget_modEm _ _ _ _ rfl

theorem live_setLast {e' i' : ℕ} : Live (s.setLast e k j) e' i' r ↔ Live s e' i' r :=
  live_modEm rfl

/-- The map takes pages from another extent of the kind, or from none. -/
theorem grows_setLast (hj : ∀ i, j = some i → ∃ r, Live s e i r ∧ r.kind = some k) :
    Grows s (s.setLast e k j) := by
  refine ⟨id, fun {e' b} hb => .inl ⟨b, by rwa [Dbs.setLast, s.proj_modEm e Em.bufs rfl] at hb,
    rfl⟩, fun e' => s.proj_modEm e Em.remapOnHold rfl,
    fun e' => (s.proj_modEm e (Em.nFree · .remap) rfl).ge, fun hlast e' k' i' hi' hk' => ?_,
    fun hl => ⟨_, live_setLast.2 hl, rfl, rfl, fun _ => id⟩, le_rfl, id, fun _ _ => rfl⟩
  simp only [live_setLast]
  by_cases he : e' = e
  · subst he
    rw [Dbs.setLast, Dbs.maps_modEm] at hi'
    dsimp only at hi'
    by_cases hkk : k' = k
    · subst hkk
      rw [update_self] at hi'
      exact hj i' hi'
    · rw [update_of_ne hkk] at hi'
      exact hlast e' k' i' hi' hk'
  · rw [Dbs.setLast, Dbs.maps_modEm_of_ne _ _ _ he] at hi'
    exact hlast e' k' i' hi' hk'

theorem Good.setLast (hs : Good s) : Good (s.setLast e k j) :=
  hs.modEm rfl rfl rfl rfl

/-- It makes no difference whether the map takes pages from another extent before or after the
page. -/
theorem Gets.setLast (hg : Gets s e k dp s') :
    Gets (s.setLast e k j) e k dp (s'.setLast e k j) := by
  obtain ⟨i, r, b, hl, hk, hb, hp, hdp, htake⟩ := hg.take
  refine ⟨⟨i, r, b, live_setLast.2 hl, hk, hb, hp, hdp, ?_⟩, fun hf e' i' r hl => ?_⟩
  · have hcomm : (s.setLast e k j).take e i r k b = (s.take e i r k b).setLast e k j := by
      simp only [Dbs.take, Dbs.setExt, Dbs.addFree, Dbs.setLast, Dbs.modEm, update_self,
        update_idem]
    rw [Alike, hcomm, forget_setLast, forget_setLast, show s'.forget = _ from htake]
  · have hfull : FullOk s := fun e' i' r hl => hf e' i' r (live_setLast.2 hl)
    exact hg.full hfull e' i' r (live_setLast.1 hl)

theorem setLast_addFree (n : ℤ) :
    (s.setLast e k j).addFree e k n = (s.addFree e k n).setLast e k j := by
  simp only [Dbs.addFree, Dbs.setLast, Dbs.modEm, update_self, update_idem]

end Last

/-! ## Ways to a page -/

theorem Tried.hinted (h : Tried s e k dp s₁) (hh : Hinted s₁ s') : Tried s e k dp s' := by
  rcases h with ⟨hdp, h⟩ | ⟨hne, hget⟩
  · exact .inl ⟨hdp, h.trans hh⟩
  · exact .inr ⟨hne, hget.hinted (hh.addFree _)⟩

/-- A page that was found is counted; otherwise it goes on. -/
theorem Tried.page (h : Tried s e k dp s₁) (hs : Good s) {rest : Option (Dbs × ℕ)}
    (hrest : dp = 0 → Hinted s s₁ → Gives rest fun x => Page s₁ e k x.2 x.1) :
    Gives (if dp ≠ 0 then some (s₁.addFree e k (-1), dp) else rest) fun x =>
      Page s e k x.2 x.1 := by
  rcases h with ⟨rfl, hh⟩ | ⟨hne, hget⟩
  · rw [if_neg (not_not.2 rfl)]
    exact (hrest rfl hh).mono fun x hx => hx.of_grows hh.grows
  · rw [if_pos hne]
    exact .some (.inr ⟨s, hs, .refl s, hget⟩)

theorem Ready.hinted (h : Ready e k s) (hh : Hinted s s') : Ready e k s' :=
  h.of_same hh.alike.sameRecords (congrFun (hh.alike.nFree 0) _)

/-- The page to be near to, if there is one, is in an index extent of the map. -/
def NearOk (s : Dbs) (e : ℕ) (near : Option ℕ) : Prop :=
  ∀ n, near = some n → n ≠ 0 → ∃ i r, Live s e i r ∧ r.kind = some .index ∧
    r.dp ≤ n ∧ n < r.dp + extentSz

variable {nearExt : ℕ}

theorem emFindFreeExtender_spec (hs : Good s) (hnear : nearExt < (s.maps e).exts.length) :
    Gives (emFindFreeExtender s e nearExt) fun x => Tried s e .index x.2 x.1 := by
  rw [emFindFreeExtender]
  split
  · exact .some (.inl ⟨rfl, .refl s⟩)
  · next i hfind =>
    have hi := List.find?_some hfind
    simp only [decide_eq_true_eq, Option.any_eq_true] at hi
    obtain ⟨-, r, hr, hk, -⟩ := hi
    have hl : Live s e i r := ⟨hr, by simp [hk]⟩
    refine (extGetDpAt_tried hs hl hk (.inl rfl)).bind ?_
    rintro ⟨s₁, dp⟩ ⟨htried, -, r', rfl⟩
    have hlen : ((s.setExt e i r').maps e).exts.length = (s.maps e).exts.length := by
      simp [Dbs.setExt]
    have hhash : ((s.setExt e i r').maps e).dpToExt = (s.maps e).dpToExt := by simp [Dbs.setExt]
    refine (emInsAfter_gives (fun d j hj => ?_) (by rwa [hlen]) (by rw [hlen]; exact hl.lt)).map
      fun s₂ hh => htried.hinted hh
    rw [hhash] at hj
    rw [hlen]
    exact hs.lt_of_dpToExt d j hj

theorem emNextDp_spec (hs : Good s) (hl : Live s e nearExt r) :
    Gives (emNextDp s e nearExt) fun x => Tried s e .index x.2 x.1 := by
  rw [emNextDp, hl.1, Option.bind_some]
  split_ifs
  · exact .some (.inl ⟨rfl, .refl s⟩)
  · split
    · exact .some (.inl ⟨rfl, .refl s⟩)
    · next j hj =>
      obtain ⟨next, hnext, -⟩ := hs.ofHash hj
      rw [hnext.1, Option.bind_some]
      split_ifs with hkind
      · exact (setNext_gives hl.lt).map fun s₁ hh => .inl ⟨rfl, hh⟩
      · exact (extGetDpAt_tried hs hnext (not_not.1 hkind) (.inl rfl)).mono fun _ h => h.1

section NewDp

variable (henv : env.Ok)
include henv

theorem emNewExtentDp_spec {nearExt : Option ℕ} (hs : Good s) (hready : Ready e .index s)
    (hnear : ∀ i, nearExt = some i → ∃ r, Live s e i r) :
    Gives (emNewExtentDp env s e .index nearExt) fun x => Page s e .index x.2 x.1 := by
  have hext : ∀ d, (nearExt.bind fun i => (s.maps e).exts[i]?.map Ext.dp) = some d →
      Kind.index = .index → ∃ j r, Live s e j r ∧ r.dp = d := by
    intro d hd _
    obtain ⟨i, hi, hd⟩ := Option.bind_eq_some_iff.1 hd
    obtain ⟨r, hl⟩ := hnear i hi
    rw [hl.1, Option.map_some, Option.some.injEq] at hd
    exact ⟨i, r, hl, hd⟩
  obtain ⟨⟨s₁, res⟩, hnew, hmakes⟩ := emNewExtent_spec henv hs hready (by simp) hext
  change Makes s s₁ e .index res at hmakes
  rw [emNewExtentDp]
  dsimp only
  rw [hnew]
  cases res with
  | none => exact .some (.inl ⟨rfl, hmakes.good, hmakes.grows⟩)
  | some i =>
    obtain ⟨r, hl, -⟩ := hmakes.live i rfl
    dsimp only
    rw [hl.1, Option.bind_some]
    -- the extent may have to be linked to the near one
    refine Gives.bind (P := Hinted s₁) ?_ fun s₂ hh => ?_
    · split
      · next near =>
        obtain ⟨r₀, hl₀⟩ := hnear near rfl
        obtain ⟨r₁, hl₁, -⟩ := hmakes.grows.live hl₀
        split_ifs
        · refine (setPrev_gives hl.lt).bind fun s₂ hh => ?_
          exact (emInsAfter_gives (hh.good hmakes.good).lt_of_dpToExt
            (by rw [hh.length]; exact hl₁.lt) (by rw [hh.length]; exact hl.lt)).mono fun s₃ hh' =>
              hh.trans hh'
        · exact .some (.refl _)
      · exact .some (.refl _)
    · have hm := hmakes.hinted hh
      obtain ⟨r₂, hl₂, hk₂, hfree₂⟩ := hm.live i rfl
      exact (extGetDpAt_page hm.good hl₂ hk₂ hfree₂).mono fun x hx => hx.of_grows hm.grows

theorem emNewDpFrom_spec (hs : Good s) (hl : Live s e nearExt r) (hready : Ready e .index s) :
    Gives (emNewDpFrom env s e .index nearExt) fun x => Page s e .index x.2 x.1 := by
  simp only [emNewDpFrom, if_true]
  refine (emNextDp_spec hs hl).bind fun ⟨s₁, dp₁⟩ htried => htried.page hs fun _ hh₁ => ?_
  obtain ⟨r₁, hl₁, -⟩ := hh₁.alike.live hl
  have hs₁ := hh₁.good hs
  refine (emFindFreeExtender_spec hs₁ hl₁.lt).bind fun ⟨s₂, dp₂⟩ htried =>
    htried.page hs₁ fun _ hh₂ => ?_
  obtain ⟨r₂, hl₂, -⟩ := hh₂.alike.live hl₁
  refine emNewExtentDp_spec henv (hh₂.good hs₁) (hready.hinted (hh₁.trans hh₂)) fun i hi => ?_
  cases hi
  exact ⟨r₂, hl₂⟩

/-- `em_new_dp_1`.  The system map needs no extent if it has a page that need not be near to
another. -/
theorem emNewDp1_spec (hs : Good s) (hnear : NearOk s e near)
    (hroom : Room s ∨ 0 < s.stock ∧ (e = 0 → near = none)) :
    Gives (emNewDp1 env s e .index near) fun x => Page s e .index x.2 x.1 := by
  simp only [emNewDp1]
  generalize hn : (if near = some 0 ∨ Kind.index = .blob then none else near) = near'
  cases near' with
  | none =>
    obtain ⟨⟨s₁, dp⟩, htry, htried, hzero⟩ := @emTryGetAny_spec _ _ s e .index hs.toInv hs.full
    rw [emTryGetDp, htry]
    refine htried.page hs fun hdp hh =>
      emNewExtentDp_spec henv (hh.good hs) (Ready.hinted ?_ hh) (by simp)
    by_cases he : e = 0
    · subst he
      exact .inl (hroom.resolve_right fun h => absurd (hzero hdp) (ne_of_gt h.1))
    · exact hroom.imp id fun h => ⟨h.1, fun hsys => he hsys.2⟩
  | some n =>
    have hzero : ¬ (near = some 0 ∨ Kind.index = .blob) := fun h => by
      rw [if_pos h] at hn
      cases hn
    rw [if_neg hzero] at hn
    subst hn
    obtain ⟨i, r, hl, hk, hp⟩ := hnear n rfl fun h => hzero (.inl (congrArg some h))
    have hi := hs.dpToExt_extRound hl hp
    obtain ⟨⟨s₁, dp⟩, htry, htried, -⟩ := extGetDpAt_tried hs hl hk (.inr hp)
    simp only [emTryGetDp, hi, htry]
    refine htried.page hs fun _ (hh : Hinted s s₁) => ?_
    obtain ⟨r₁, hl₁, -⟩ := hh.alike.live hl
    simp only [hh.alike.samePlaces.dpToExt, hi]
    refine emNewDpFrom_spec henv (hh.good hs) hl₁ (Ready.hinted ?_ hh)
    exact hroom.imp id fun h => ⟨h.1, fun hsys => Option.some_ne_none n (h.2 hsys.2)⟩

/-- `em_new_remap` and `em_new_blob`.  If there is a free page of the kind then they take one and
need no extent. -/
theorem emNewOf_spec (hk : k ≠ .index) (hs : Good s) (hlast : LastOk s)
    (hready : 0 < (s.maps e).nFree k ∨ Ready e k s) :
    Gives (emNewOf k env s e) fun x => Page s e k x.2 x.1 ∧
      (0 < (s.maps e).nFree k → ∃ s₀, Good s₀ ∧ SamePlaces s s₀ ∧ Gets s₀ e k x.2 x.1) := by
  have hfirst : Gives (emLastDp s e k) fun x => Tried s e k x.2 x.1 := by
    rw [emLastDp]
    split
    · exact .some (.inl ⟨rfl, .refl s⟩)
    · next i hi =>
      obtain ⟨r, hl, hkind⟩ := hlast e k i hi hk
      exact (extGetDpAt_tried hs hl hkind (.inl rfl)).mono fun _ h => h.1
  rw [emNewOf]
  refine hfirst.bind ?_
  rintro ⟨s₁, dp₁⟩ (⟨rfl, hh⟩ | ⟨hne, hget⟩)
  · have hs₁ := hh.good hs
    obtain ⟨⟨s₂, dp₂⟩, htry, htried, hzero⟩ := @emTryGetAny_spec _ _ s₁ e k hs₁.toInv hs₁.full
    dsimp only at hh htried hzero ⊢
    rw [if_neg (not_not.2 rfl), htry, Option.bind_some]
    dsimp only
    rcases htried with ⟨rfl, hh₂⟩ | ⟨hne, hget⟩
    · -- there is none
      have hnone : ¬ 0 < (s.maps e).nFree k := by
        rw [← hh.alike.nFree, hzero rfl]
        exact lt_irrefl _
      have hh₁ := hh.trans hh₂
      obtain ⟨⟨s₃, res⟩, hnew, hmakes⟩ := @emNewExtent_spec env s₂ e k henv (some 0) (hh₁.good hs)
        ((hready.resolve_left hnone).hinted hh₁) (fun _ => rfl) fun _ _ h => absurd h hk
      change Makes s₂ s₃ e k res at hmakes
      rw [if_neg (not_not.2 rfl), hnew, Option.bind_some]
      have hg := hh₁.grows.trans hmakes.grows
      cases res with
      | none =>
        exact .some ⟨.inl ⟨rfl, hmakes.good.setLast, hg.trans (grows_setLast (by simp))⟩,
          fun hpos => absurd hpos hnone⟩
      | some i =>
        obtain ⟨r, hl, hkind, hfree⟩ := hmakes.live i rfl
        refine (extGetDpAt_page hmakes.good.setLast (live_setLast.2 hl) hkind hfree).mono
          fun x hx =>
          ⟨hx.of_grows (hg.trans (grows_setLast fun j hj => ?_)), fun hpos => absurd hpos hnone⟩
        cases hj
        exact ⟨r, hl, hkind⟩
    · rw [if_pos hne, setLast_addFree]
      refine .some
        ⟨.inr ⟨_, hs₁.setLast, hh.grows.trans (grows_setLast fun i hi => ?_), hget.setLast⟩,
        fun _ => ⟨_, hs₁.setLast, hh.alike.samePlaces.trans (samePlaces_modEm rfl rfl),
          hget.setLast⟩⟩
      -- the extent the page was taken from
      obtain ⟨j, r, b, hl, hkind, hb, -, rfl, htake⟩ := hget.take
      have hhash : (s₂.maps e).dpToExt = (s₁.maps e).dpToExt := by
        have := hget.samePlaces.dpToExt e
        rwa [Dbs.addFree, Dbs.maps_modEm] at this
      rw [hhash, hs₁.dpToExt_extRound hl ⟨Nat.le_add_right _ _, Nat.add_lt_add_left hb _⟩] at hi
      cases hi
      exact ⟨r, hl, hkind⟩
  · dsimp only at hne ⊢
    rw [if_pos hne]
    exact .some ⟨.inr ⟨s, hs, .refl s, hget⟩, fun _ => ⟨s, hs, (Alike.refl s).samePlaces, hget⟩⟩

variable {more : Em → Bool} {fuel : ℕ}

omit henv in
theorem remapLoop_of_enough (h : more (s.maps e) = false) :
    remapLoop env e more fuel s = some (s, true) := by
  cases fuel <;> simp [remapLoop, h]

/-- A remap extent is made if there are not enough, and then there are. -/
theorem remapLoop_spec (hs : Good s) (hroom : Room s ∨ 0 < s.stock)
    (hfuel : more (s.maps e) = true → 0 < fuel)
    (hone : ∀ {s'}, Good s' → Grows s s' →
      (s.maps e).nFree .remap + extentSz ≤ (s'.maps e).nFree .remap → more (s'.maps e) = false) :
    Gives (remapLoop env e more fuel s) fun x =>
      Good x.1 ∧ Grows s x.1 ∧ (x.2 = true → more (x.1.maps e) = false) := by
  cases hmore : more (s.maps e) with
  | false =>
    rw [remapLoop_of_enough hmore]
    exact .some ⟨hs, .refl s, fun _ => hmore⟩
  | true =>
    obtain ⟨fuel, rfl⟩ := Nat.exists_eq_succ_of_ne_zero (hfuel hmore).ne'
    obtain ⟨⟨s₁, res⟩, hnew, hmakes⟩ := @emNewExtent_spec env s e .remap henv (some 0) hs
      (hroom.imp id fun h => ⟨h, by simp⟩) (fun _ => rfl) (by simp)
    change Makes s s₁ e .remap res at hmakes
    rw [remapLoop, if_pos hmore, hnew]
    cases res with
    | none => exact .some ⟨hmakes.good, hmakes.grows, by simp⟩
    | some i =>
      have henough := hone hmakes.good hmakes.grows (hmakes.more (by simp) rfl)
      dsimp only
      rw [remapLoop_of_enough henough]
      exact .some ⟨hmakes.good, hmakes.grows, fun _ => henough⟩

end NewDp

/-! ## `em_new_dp` -/

/-- What a call of `em_new_dp` that gave `dp` did to the storage. -/
structure Handed (s : Dbs) (dp : ℕ) (s' : Dbs) : Prop where
  good : Good s'
  last : LastOk s'
  fresh : dp ≠ 0 → s.freeSet dp = false
  allocated : s'.freeSet dp = true
  freeSet : ∀ {p}, s.freeSet p = true → s'.freeSet p = true
  bufs : ∀ {e b}, b ∈ (s'.maps e).bufs →
    (∃ b' ∈ (s.maps e).bufs, b'.1 = b.1) ∨ s.freeSet b.1 = false ∧ b.1 ≠ dp

/-- A map with what its extents depend on unchanged. -/
structure SameExts (em em' : Em) : Prop where
  exts : em'.exts = em.exts
  bufs : em'.bufs = em.bufs
  dpToExt : em'.dpToExt = em.dpToExt
  nFree : em'.nFree = em.nFree
  last : em'.last = em.last

theorem LastOk.modEm (h : LastOk s) (hf : SameExts (s.maps e) (f (s.maps e))) :
    LastOk (s.modEm e f) :=
  lastOk_of_eq (fun _ => s.proj_modEm e Em.last hf.last)
    (fun hl => ⟨_, (live_modEm hf.exts).2 hl, rfl⟩) h

theorem Page.handed (hp : Page s e k dp s₁) (hs : Good s) (hlast : LastOk s)
    (hf : SameExts (s₁.maps e) (f (s₁.maps e))) (h : dbsPageAllocated (s₁.modEm e f) dp = some s') :
    Handed s dp s' := by
  have hlive {e' i : ℕ} {r : Ext} : Live (s₁.modEm e f) e' i r ↔ Live s₁ e' i r :=
    live_modEm hf.exts
  have hgood (h₁ : Good s₁) : Good (s₁.modEm e f) :=
    h₁.modEm hf.exts hf.bufs hf.dpToExt hf.nFree
  have hset : s'.freeSet dp = true := by
    obtain ⟨n, rfl⟩ := dbsPageAllocated_eq h
    simp
  have hmono {p : ℕ} (hp : s₁.freeSet p = true) : s'.freeSet p = true :=
    (grows_dbsPageAllocated h).freeSet (s := s₁.modEm e f) hp
  have hmaps : s'.maps = (s₁.modEm e f).maps := by
    obtain ⟨n, rfl⟩ := dbsPageAllocated_eq h
    rfl
  rcases hp with ⟨rfl, hs₁, hg⟩ | ⟨s₀, hs₀, hg₀, hget⟩
  · -- page 0 is allocated always
    obtain ⟨e₀, i₀, r₀, hl₀, hhas⟩ := hs₁.alloc hs₁.zero
    refine ⟨(hgood hs₁).allocate ⟨e₀, i₀, r₀, hlive.2 hl₀, hhas⟩ h,
      (grows_dbsPageAllocated h).last ((hg.last hlast).modEm hf), by simp, hset,
      fun hp => hmono (hg.freeSet hp), fun {e' b} hb => ?_⟩
    rw [hmaps, s₁.proj_modEm e Em.bufs hf.bufs] at hb
    refine (hg.bufs hb).imp id fun hclear => ⟨hclear, fun hb₀ => ?_⟩
    rw [hb₀, hs.zero] at hclear
    cases hclear
  · have hs₁ := hget.good hs₀
    obtain ⟨i, r, hl, -, hhas⟩ := hget.has
    have hfresh := hget.fresh hs₀.toInv
    have hlast' : LastOk s₁ := lastOk_of_eq hget.last
      (fun hl => by
        obtain ⟨r', hl', hk, -⟩ := hget.samePlaces.live hl
        exact ⟨r', hl', hk⟩) (hg₀.last hlast)
    refine ⟨(hgood hs₁).allocate ⟨e, i, r, hlive.2 hl, hhas⟩ h,
      (grows_dbsPageAllocated h).last (hlast'.modEm hf),
      fun _ => Bool.eq_false_iff.2 fun hp => ?_, hset, fun hp => hmono ?_, fun {e' b} hb => ?_⟩
    · rw [hg₀.freeSet hp] at hfresh
      cases hfresh
    · rw [hget.samePlaces.freeSet]
      exact hg₀.freeSet hp
    · rw [hmaps, s₁.proj_modEm e Em.bufs hf.bufs, hget.bufs] at hb
      refine (hg₀.bufs hb).imp id fun hclear => ⟨hclear, fun hb₀ => ?_⟩
      -- the pages of records were allocated when the page was not
      rw [← hb₀, (hs₀.bufs hb).resolve_right (by simp)] at hfresh
      cases hfresh

theorem modEm_id (s : Dbs) (e : ℕ) : s.modEm e id = s := by
  simp only [Dbs.modEm, id, update_eq_self]

/-- No page was given, and the storage may have grown. -/
theorem Good.handed_zero (hs : Good s) (hlast : LastOk s) (hs' : Good s') (hg : Grows s s') :
    Handed s 0 s' := by
  refine ⟨hs', hg.last hlast, by simp, hs'.zero, hg.freeSet, fun hb => ?_⟩
  refine (hg.bufs hb).imp id fun hclear => ⟨hclear, fun hb₀ => ?_⟩
  rw [hb₀, hs.zero] at hclear
  cases hclear

theorem Page.lt_nPagesInSets (hp : Page s e k dp s') : dp < s'.nPagesInSets := by
  rcases hp with ⟨rfl, hs', -⟩ | ⟨s₀, hs₀, -, hget⟩
  · exact hs'.nPages_pos.trans_le hs'.sizes.inSets
  · exact hget.lt_nPagesInSets hs₀

/-- What a call of `em_new_dp` may need: room for a record, or a page of the system map; a page of
the map and the kind to be near to; and not more than one remap extent. -/
structure Supplied (s : Dbs) (e : ℕ) (k : Kind) (near : Option ℕ) (hold : ℤ) : Prop where
  room : Room s ∨ 0 < s.stock ∧ (e = 0 → k = .index → near = none)
  near : k = .index → NearOk s e near
  hold : k = .remap → hold = 0 →
    (s.maps e).remapOnHold % 2 ^ 32 < (s.maps e).nFree .remap + extentSz

/-- What is done to the holds: nothing, or a page on hold is given out. -/
def Charges (s₀ s₁ : Dbs) (e : ℕ) (k : Kind) (dp : ℕ) (hold hold' : ℤ) (f : Em → Em) : Prop :=
  (hold' = hold ∧ (f (s₁.maps e)).remapOnHold = (s₁.maps e).remapOnHold ∧
      (k = .remap → (s₀.maps e).remapOnHold % 2 ^ 32 < (s₀.maps e).nFree .remap)) ∨
    k = .remap ∧ hold ≠ 0 ∧ hold' = hold - 1 ∧ dp ≠ 0 ∧ (f (s₁.maps e)).remapOnHold =
      if 0 < (s₁.maps e).remapOnHold then (s₁.maps e).remapOnHold - 1 else 0

/-- The ways through `em_new_dp`: it returns early without a page, or gets a page, or the 0 that
stands for none, and goes on to mark it as allocated.  The storage may have got a remap extent
before. -/
def Outcome (s : Dbs) (e : ℕ) (k : Kind) (hold : ℤ) (x : Dbs × ℕ × ℤ) : Prop :=
  (x.2.1 = 0 ∧ Good x.1 ∧ Grows s x.1 ∧ x.2.2 = hold) ∨
    ∃ s₀ s₁ f, Grows s s₀ ∧ Page s₀ e k x.2.1 s₁ ∧ SameExts (s₁.maps e) (f (s₁.maps e)) ∧
      dbsPageAllocated (s₁.modEm e f) x.2.1 = some x.1 ∧ Charges s₀ s₁ e k x.2.1 hold x.2.2 f

/-- The second half of `em_new_dp`. -/
theorem Page.outcome {s₀ : Dbs} (hp : Page s₀ e k dp s₁) (hg : Grows s s₀) {hold hold' : ℤ}
    (hf : SameExts (s₁.maps e) (f (s₁.maps e))) (hc : Charges s₀ s₁ e k dp hold hold' f) :
    Gives ((dbsPageAllocated (s₁.modEm e f) dp).map fun s => (s, dp, hold'))
      (Outcome s e k hold) := by
  obtain ⟨n, halloc⟩ := @dbsPageAllocated_of_lt dp (s₁.modEm e f) hp.lt_nPagesInSets
  exact ⟨_, by rw [halloc]; rfl, .inr ⟨s₀, s₁, f, hg, hp, hf, halloc, hc⟩⟩

theorem emNewDp_cases (henv : env.Ok) {hold : ℤ} (hs : Good s) (hlast : LastOk s)
    (hsup : Supplied s e k near hold) :
    Gives (emNewDp env s e k near hold) (Outcome s e k hold) := by
  have hid (em : Em) : SameExts em (id em) := ⟨rfl, rfl, rfl, rfl, rfl⟩
  have hroom : Room s ∨ 0 < s.stock := hsup.room.imp id And.left
  rw [emNewDp]
  cases k with
  | index =>
    have hdense : NearOk s e (if env.dense then none else near) ∧
        (Room s ∨ 0 < s.stock ∧ (e = 0 → (if env.dense then none else near) = none)) := by
      split_ifs
      · exact ⟨by rintro n ⟨⟩, hroom.imp id fun h => ⟨h, fun _ => rfl⟩⟩
      · exact ⟨hsup.near rfl, hsup.room.imp id fun h => ⟨h.1, fun he => h.2 he rfl⟩⟩
    obtain ⟨⟨s₁, dp⟩, hnew, hp⟩ := emNewDp1_spec henv hs hdense.1 hdense.2
    simp only [emNewDpIn, hnew, Option.map_some, Option.bind_some, Bool.true_eq_false, if_false]
    split_ifs
    · exact hp.outcome (.refl s) ⟨rfl, rfl, rfl, rfl, rfl⟩ (.inl ⟨rfl, rfl, by simp⟩)
    · rw [← modEm_id s₁ e]
      exact hp.outcome (.refl s) (hid _) (.inl ⟨rfl, rfl, by simp⟩)
  | blob =>
    obtain ⟨⟨s₁, dp⟩, hnew, hp, -⟩ := @emNewOf_spec env s e .blob henv (by decide) hs hlast
      (.inr (hroom.imp id fun h => ⟨h, by simp⟩))
    simp only [emNewDpIn, emNewBlob, hnew, Option.map_some, Option.bind_some, Bool.true_eq_false,
      if_false, reduceCtorEq, false_and]
    rw [← modEm_id s₁ e]
    exact hp.outcome (.refl s) (hid _) (.inl ⟨rfl, rfl, by simp⟩)
  | remap =>
    by_cases hzero : hold = 0
    · -- without a hold an extent may be made first
      subst hzero
      obtain ⟨⟨s₁, ok⟩, hloop, hs₁, hg₁, hmore⟩ := @remapLoop_spec env s e henv needsForRemap
        ((s.maps e).remapOnHold % 2 ^ 32 + 1 - (s.maps e).nFree .remap).toNat hs hroom
        (fun h => by
          simp only [needsForRemap, decide_eq_true_eq] at h
          omega)
        (fun {s'} _ hg hle => by
          have := hsup.hold rfl rfl
          simp only [needsForRemap, decide_eq_false_iff_not, hg.onHold]
          omega)
      simp only [emNewDpIn, if_true, hloop, Option.bind_some]
      cases ok with
      | false => exact .some (.inl ⟨rfl, hs₁, hg₁, rfl⟩)
      | true =>
        have hlt : (s₁.maps e).remapOnHold % 2 ^ 32 < (s₁.maps e).nFree .remap := by
          simpa [needsForRemap] using hmore rfl
        obtain ⟨⟨s₂, dp⟩, hnew, hp, -⟩ := @emNewOf_spec env s₁ e .remap henv (by decide) hs₁
          (hg₁.last hlast) (.inl (by omega))
        simp only [if_true, emNewRemap, hnew, Option.map_some, Option.bind_some, Bool.true_eq_false,
          if_false, reduceCtorEq, false_and]
        rw [← modEm_id s₂ e]
        exact hp.outcome hg₁ (hid _) (.inl ⟨rfl, rfl, fun _ => hlt⟩)
    · obtain ⟨⟨s₁, dp⟩, hnew, hp, -⟩ := @emNewOf_spec env s e .remap henv (by decide) hs hlast
        (.inr (hroom.imp id fun h => ⟨h, by simp⟩))
      simp only [emNewDpIn, hzero, if_false, emNewRemap, hnew, Option.map_some, Option.bind_some]
      by_cases hdp : dp = 0
      · rcases hp with ⟨-, hs₁, hg₁⟩ | ⟨s₀, hs₀, -, hget⟩
        · simp only [hdp, if_true]
          exact .some (.inl ⟨rfl, hs₁, hg₁, rfl⟩)
        · exact absurd hdp (hget.ne_zero hs₀.toInv)
      · simp only [hdp, if_false, Bool.true_eq_false, reduceCtorEq, false_and]
        exact hp.outcome (.refl s) ⟨rfl, rfl, rfl, rfl, rfl⟩ (.inr ⟨rfl, hzero, rfl, hdp, rfl⟩)

/-- `em_new_dp` gives 0, or a page that was not allocated. -/
theorem emNewDp_spec (henv : env.Ok) {hold : ℤ} (hs : Good s) (hlast : LastOk s)
    (hsup : Supplied s e k near hold) :
    Gives (emNewDp env s e k near hold) fun x => Handed s x.2.1 x.1 := by
  refine (emNewDp_cases henv hs hlast hsup).mono ?_
  rintro ⟨s', dp, hold'⟩ (⟨rfl, hs', hg, -⟩ | ⟨s₀, s₁, f, hg, hp, hf, halloc, -⟩)
  · exact hs.handed_zero hlast hs' hg
  · exact (hp.of_grows hg).handed hs hlast hf halloc

end Virtuoso.Extent
