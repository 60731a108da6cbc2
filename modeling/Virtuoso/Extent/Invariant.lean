import Virtuoso.Lib.Gives
import Virtuoso.Extent.Calls
import Mathlib.Tactic.Ring

/-!
# Consistent storages

What holds of a storage between calls: the records of the extent maps agree with the hash
tables and the sets of the storage, the counts of free pages are right, every allocated page has its
bit set in the record of its extent, and the hints in records and maps are true.

Most changes are of a few kinds, for each of which there is a lemma here: a page of an extent is
taken or a hint changed, an extent is marked, a record is added, an extent is put into a record.
-/

namespace Virtuoso.Extent

open Ext Lib

variable {s : Dbs} {e i : ℕ} {r : Ext}

/-! ## Changing a map -/

variable {e' n b dp : ℕ} {f : Em → Em} {r' : Ext} {x y : Option ℕ} {s' : Dbs} {k : Kind}

namespace Dbs

variable (s : Dbs) (e i : ℕ)

@[simp] theorem maps_modEm (f : Em → Em) : (s.modEm e f).maps e = f (s.maps e) := by
  simp [modEm]

theorem maps_modEm_of_ne (f : Em → Em) (h : e' ≠ e) : (s.modEm e f).maps e' = s.maps e' := by
  simp [modEm, h]

/-- A change of a map leaves what it does not touch, in every map. -/
theorem proj_modEm {α : Type} (p : Em → α) (h : p (f (s.maps e)) = p (s.maps e)) :
    p ((s.modEm e f).maps e') = p (s.maps e') := by
  by_cases he : e' = e
  · subst he
    rwa [maps_modEm]
  · rw [maps_modEm_of_ne _ _ _ he]

theorem getElem?_setExt (ext : Ext) (e' j : ℕ) :
    ((s.setExt e i ext).maps e').exts[j]? =
      if e' = e ∧ j = i ∧ i < (s.maps e).exts.length then some ext else (s.maps e').exts[j]? := by
  by_cases he : e' = e
  · subst he
    simp only [setExt, maps_modEm, List.getElem?_set, true_and]
    by_cases hj : i = j
    · subst hj
      by_cases hi : i < (s.maps e').exts.length
      · simp [hi]
      · simp [hi]
    · simp [hj, Ne.symm hj]
  · simp [setExt, maps_modEm_of_ne _ _ _ he, he]

end Dbs

/-! ## Records in use -/

/-- The map `e` has `r` as its record `i`, and it is in use. -/
def Live (s : Dbs) (e i : ℕ) (r : Ext) : Prop := (s.maps e).exts[i]? = some r ∧ r.kind ≠ none

theorem Live.lt (h : Live s e i r) : i < (s.maps e).exts.length :=
  (List.getElem?_eq_some_iff.1 h.1).1

theorem Live.unique (h : Live s e i r) (h' : Live s e i r') : r = r' :=
  Option.some.inj (h.1.symm.trans h'.1)

/-- The page `p` is in the extent of `r` and its bit is set. -/
def Ext.Has (r : Ext) (p : ℕ) : Prop := r.dp ≤ p ∧ p < r.dp + extentSz ∧ r.pages (p - r.dp) = true

/-- A full extent has no page left. -/
def FullOk (s : Dbs) : Prop := ∀ e i r, Live s e i r → r.full → ∀ b < extentSz, r.pages b = true

/-- The extent a map takes pages of a kind from is of that kind. -/
def LastOk (s : Dbs) : Prop :=
  ∀ e k i, (s.maps e).last k = some i → k ≠ .index → ∃ r, Live s e i r ∧ r.kind = some k

/-- Records, hash tables and sets agree.  A record that is being made may not be marked in the
extent set yet: the one at `x`; and the page of records at `y` may not be marked in the free set
yet. -/
structure Placed (x y : Option ℕ) (s : Dbs) : Prop where
  hash : ∀ {e i r}, Live s e i r → (s.maps e).dpToExt r.dp = some i ∧ s.dpToEm r.dp = some e
  ofHash : ∀ {e d i}, (s.maps e).dpToExt d = some i → ∃ r, Live s e i r ∧ r.dp = d
  ofEm : ∀ {d e}, s.dpToEm d = some e → ∃ i, (s.maps e).dpToExt d = some i
  marked : ∀ {e i r}, Live s e i r → s.extentSet (r.dp / extentSz) = true ∨ x = some r.dp
  aligned : ∀ {e i r}, Live s e i r → r.dp % extentSz = 0
  lt : ∀ {e i r}, Live s e i r → r.dp < s.nPages
  marked_lt : ∀ {n}, s.extentSet n = true → extentSz * n < s.nPages
  nPages_mod : s.nPages % extentSz = 0
  bufs : ∀ {e b}, b ∈ (s.maps e).bufs → s.freeSet b.1 = true ∨ y = some b.1
  zero : s.freeSet 0 = true

/-- Moreover the counts of free pages are right, and allocated pages have their bits set. -/
structure Inv (x y : Option ℕ) (s : Dbs) : Prop extends Placed x y s where
  count : ∀ e k, (s.maps e).nFree k = emFreeCount (s.maps e) k
  alloc : ∀ {p}, s.freeSet p = true → ∃ e i r, Live s e i r ∧ r.Has p

/-- An extent has one record only. -/
theorem Placed.unique (h : Placed x y s) {i' : ℕ} (hl : Live s e i r) (hl' : Live s e' i' r')
    (hd : r.dp = r'.dp) : e = e' ∧ i = i' ∧ r = r' := by
  obtain ⟨hi, he⟩ := h.hash hl
  obtain ⟨hi', he'⟩ := h.hash hl'
  rw [hd, he'] at he
  cases he
  rw [hd, hi'] at hi
  cases hi
  exact ⟨rfl, rfl, hl.unique hl'⟩

/-- A page is in one extent only. -/
theorem Placed.unique_of_has (h : Placed x y s) {i' p : ℕ} (hl : Live s e i r)
    (hl' : Live s e' i' r') (hp : r.dp ≤ p ∧ p < r.dp + extentSz)
    (hp' : r'.dp ≤ p ∧ p < r'.dp + extentSz) : e = e' ∧ i = i' ∧ r = r' := by
  apply h.unique hl hl'
  have h₁ := h.aligned hl
  have h₂ := h.aligned hl'
  simp only [extentSz] at *
  omega

/-- A page of an extent leads to its record. -/
theorem Placed.dpToExt_extRound (h : Placed x y s) {p : ℕ} (hl : Live s e i r)
    (hp : r.dp ≤ p ∧ p < r.dp + extentSz) : (s.maps e).dpToExt (extRound p) = some i := by
  have hround : extRound p = r.dp := by
    have := h.aligned hl
    simp only [extRound, extentSz] at *
    omega
  rw [hround]
  exact (h.hash hl).1

/-! ## What decides the places -/

/-- The two storages have the same extents in the same places. -/
structure SamePlaces (s s' : Dbs) : Prop where
  live : ∀ {e i r}, Live s e i r → ∃ r', Live s' e i r' ∧ r'.kind = r.kind ∧ r'.dp = r.dp
  live' : ∀ {e i r'}, Live s' e i r' → ∃ r, Live s e i r ∧ r.kind = r'.kind ∧ r.dp = r'.dp
  dpToExt : ∀ e, (s'.maps e).dpToExt = (s.maps e).dpToExt
  dpToEm : s'.dpToEm = s.dpToEm
  extentSet : s'.extentSet = s.extentSet
  freeSet : s'.freeSet = s.freeSet
  nPages : s'.nPages = s.nPages
  nPagesInSets : s'.nPagesInSets = s.nPagesInSets
  nPagesInExtentSet : s'.nPagesInExtentSet = s.nPagesInExtentSet

theorem SamePlaces.trans {s₁ s₂ s₃ : Dbs} (h : SamePlaces s₁ s₂) (h' : SamePlaces s₂ s₃) :
    SamePlaces s₁ s₃ where
  live hl := by
    obtain ⟨r₂, hl₂, hk, hd⟩ := h.live hl
    obtain ⟨r₃, hl₃, hk', hd'⟩ := h'.live hl₂
    exact ⟨r₃, hl₃, hk'.trans hk, hd'.trans hd⟩
  live' hl := by
    obtain ⟨r₂, hl₂, hk, hd⟩ := h'.live' hl
    obtain ⟨r₁, hl₁, hk', hd'⟩ := h.live' hl₂
    exact ⟨r₁, hl₁, hk'.trans hk, hd'.trans hd⟩
  dpToExt e := (h'.dpToExt e).trans (h.dpToExt e)
  dpToEm := h'.dpToEm.trans h.dpToEm
  extentSet := h'.extentSet.trans h.extentSet
  freeSet := h'.freeSet.trans h.freeSet
  nPages := h'.nPages.trans h.nPages
  nPagesInSets := h'.nPagesInSets.trans h.nPagesInSets
  nPagesInExtentSet := h'.nPagesInExtentSet.trans h.nPagesInExtentSet

theorem Placed.congr (hp : Placed x y s) (h : SamePlaces s s')
    (hbufs : ∀ {e b}, b ∈ (s'.maps e).bufs → s.freeSet b.1 = true ∨ y = some b.1) :
    Placed x y s' where
  hash hl := by
    obtain ⟨r₀, hl₀, -, hd⟩ := h.live' hl
    rw [h.dpToExt, h.dpToEm, ← hd]
    exact hp.hash hl₀
  ofHash hh := by
    rw [h.dpToExt] at hh
    obtain ⟨r, hl, rfl⟩ := hp.ofHash hh
    obtain ⟨r', hl', -, hd⟩ := h.live hl
    exact ⟨r', hl', hd⟩
  ofEm hh := by
    rw [h.dpToEm] at hh
    rw [h.dpToExt]
    exact hp.ofEm hh
  marked hl := by
    obtain ⟨r₀, hl₀, -, hd⟩ := h.live' hl
    rw [h.extentSet, ← hd]
    exact hp.marked hl₀
  aligned hl := by
    obtain ⟨r₀, hl₀, -, hd⟩ := h.live' hl
    rw [← hd]
    exact hp.aligned hl₀
  lt hl := by
    obtain ⟨r₀, hl₀, -, hd⟩ := h.live' hl
    rw [h.nPages, ← hd]
    exact hp.lt hl₀
  marked_lt hm := by
    rw [h.extentSet] at hm
    rw [h.nPages]
    exact hp.marked_lt hm
  nPages_mod := h.nPages ▸ hp.nPages_mod
  bufs hb := h.freeSet ▸ hbufs hb
  zero := h.freeSet ▸ hp.zero

/-! ## Changing one record -/

/-- What a record adds to a count of free pages. -/
def Ext.free (r : Ext) (k : Kind) : ℤ := if r.kind = some k then (extFreeCount r : ℤ) else 0

theorem emFreeCount_eq (em : Em) (k : Kind) :
    emFreeCount em k = (em.exts.map fun r => r.free k).sum := rfl

theorem emFreeCount_set {em : Em} (h : em.exts[i]? = some r) (r' : Ext) (k : Kind) :
    emFreeCount { em with exts := em.exts.set i r' } k =
      emFreeCount em k - r.free k + r'.free k := by
  obtain ⟨hi, hr⟩ := List.getElem?_eq_some_iff.1 h
  rw [emFreeCount_eq, emFreeCount_eq, List.map_set, List.sum_set']
  rw [dif_pos (by simpa using hi), List.getElem_map, hr]
  ring

theorem Ext.free_nonneg (r : Ext) (k : Kind) : 0 ≤ r.free k := by
  rw [free]
  split_ifs
  · exact Int.natCast_nonneg _
  · exact le_rfl

theorem Ext.free_of_kind (h : r.kind = some k) (k' : Kind) :
    r.free k' = if k' = k then (extFreeCount r : ℤ) else 0 := by
  simp only [free, h, Option.some.injEq, eq_comm]

theorem countP_update {p : ℕ → Bool} (hb : b < n) (hp : p b = false) :
    (List.range n).countP (fun i => !p i) =
      (List.range n).countP (fun i => !Function.update p b true i) + 1 := by
  induction n with
  | zero => omega
  | succ n ih =>
    rw [List.range_succ, List.countP_append, List.countP_append]
    rcases Nat.lt_succ_iff_lt_or_eq.1 hb with hlt | rfl
    · simp [Function.update_of_ne (Nat.ne_of_gt hlt)]
      omega
    · have : (List.range b).countP (fun i => !Function.update p b true i) =
          (List.range b).countP (fun i => !p i) := by
        refine List.countP_congr fun i hi => ?_
        rw [Function.update_of_ne (Nat.ne_of_lt (List.mem_range.1 hi))]
      simp [this, hp]

/-- Setting a record of the same kind and place. -/
theorem samePlaces_setExt (h : (s.maps e).exts[i]? = some r) (hk : r'.kind = r.kind)
    (hd : r'.dp = r.dp) : SamePlaces s (s.setExt e i r') := by
  have hlt : i < (s.maps e).exts.length := (List.getElem?_eq_some_iff.1 h).1
  constructor
  case live =>
    intro e' j r₀ hl
    by_cases hc : e' = e ∧ j = i
    · obtain ⟨rfl, rfl⟩ := hc
      obtain rfl : r = r₀ := Option.some.inj (h.symm.trans hl.1)
      refine ⟨r', ⟨?_, hk ▸ hl.2⟩, hk, hd⟩
      rw [Dbs.getElem?_setExt, if_pos ⟨rfl, rfl, hlt⟩]
    · refine ⟨r₀, ⟨?_, hl.2⟩, rfl, rfl⟩
      rw [Dbs.getElem?_setExt, if_neg (by tauto)]
      exact hl.1
  case live' =>
    intro e' j r₀ hl
    have hget := hl.1
    rw [Dbs.getElem?_setExt] at hget
    split_ifs at hget with hc
    · obtain ⟨rfl, rfl, -⟩ := hc
      cases hget
      exact ⟨r, ⟨h, hk ▸ hl.2⟩, hk.symm, hd.symm⟩
    · exact ⟨r₀, ⟨hget, hl.2⟩, rfl, rfl⟩
  case dpToExt => exact fun _ => s.proj_modEm e Em.dpToExt rfl
  all_goals rfl

theorem live_modEm (hexts : (f (s.maps e)).exts = (s.maps e).exts) :
    Live (s.modEm e f) e' i r ↔ Live s e' i r := by
  rw [Live, Live, s.proj_modEm e Em.exts hexts]

/-- Changing a map but not its extents. -/
theorem samePlaces_modEm (hexts : (f (s.maps e)).exts = (s.maps e).exts)
    (hdp : (f (s.maps e)).dpToExt = (s.maps e).dpToExt) : SamePlaces s (s.modEm e f) := by
  have hlive {e' i : ℕ} {r : Ext} : Live (s.modEm e f) e' i r ↔ Live s e' i r := live_modEm hexts
  exact ⟨fun hl => ⟨_, hlive.2 hl, rfl, rfl⟩, fun hl => ⟨_, hlive.1 hl, rfl, rfl⟩,
    fun _ => s.proj_modEm e Em.dpToExt hdp, rfl, rfl, rfl, rfl, rfl, rfl⟩

/-! ## Hints and links -/

/-- The record without hint and links. -/
def Ext.forget (r : Ext) : Ext := { r with full := false, prev := none, next := 0 }

/-- The storage without hints and links in the records. -/
def Dbs.forget (s : Dbs) : Dbs :=
  { s with maps := fun e => { s.maps e with exts := (s.maps e).exts.map Ext.forget } }

/-- The storages differ in hints and links only. -/
def Alike (s s' : Dbs) : Prop := s'.forget = s.forget

namespace Alike

variable {s s' s'' : Dbs}

theorem refl (s : Dbs) : Alike s s := rfl

theorem symm (h : Alike s s') : Alike s' s := Eq.symm h

theorem trans (h : Alike s s') (h' : Alike s' s'') : Alike s s'' := Eq.trans h' h

theorem maps (h : Alike s s') (e : ℕ) : s'.forget.maps e = s.forget.maps e :=
  congrFun (congrArg Dbs.maps h) e

theorem nFree (h : Alike s s') (e : ℕ) : (s'.maps e).nFree = (s.maps e).nFree :=
  (congrArg Em.nFree (h.maps e) :)

theorem last (h : Alike s s') (e : ℕ) : (s'.maps e).last = (s.maps e).last :=
  (congrArg Em.last (h.maps e) :)

section

variable (h : Alike s s')
include h

theorem onHold (e : ℕ) : (s'.maps e).remapOnHold = (s.maps e).remapOnHold :=
  (congrArg Em.remapOnHold (h.maps e) :)

theorem getElem? (e i : ℕ) :
    (s'.maps e).exts[i]?.map forget = (s.maps e).exts[i]?.map forget := by
  have := congrArg (fun em : Em => em.exts[i]?) (h.maps e)
  simpa [Dbs.forget] using this

theorem bufs (e : ℕ) : (s'.maps e).bufs = (s.maps e).bufs :=
  (congrArg Em.bufs (h.maps e) :)

/-- A record keeps its kind, its place and its pages. -/
theorem live (hl : Live s e i r) :
    ∃ r', Live s' e i r' ∧ r'.kind = r.kind ∧ r'.dp = r.dp ∧ r'.pages = r.pages := by
  have := h.getElem? e i
  rw [hl.1, Option.map_some, Option.map_eq_some_iff] at this
  obtain ⟨r', hr', heq⟩ := this
  have hkind : r'.kind = r.kind := (congrArg kind heq :)
  exact ⟨r', ⟨hr', hkind ▸ hl.2⟩, hkind, (congrArg dp heq :), (congrArg pages heq :)⟩

theorem samePlaces : SamePlaces s s' where
  live hl := by
    obtain ⟨r', hl', hk, hd, -⟩ := h.live hl
    exact ⟨r', hl', hk, hd⟩
  live' hl := by
    obtain ⟨r', hl', hk, hd, -⟩ := h.symm.live hl
    exact ⟨r', hl', hk, hd⟩
  dpToExt e := (congrArg Em.dpToExt (h.maps e) :)
  dpToEm := (congrArg Dbs.dpToEm h :)
  extentSet := (congrArg Dbs.extentSet h :)
  freeSet := (congrArg Dbs.freeSet h :)
  nPages := (congrArg Dbs.nPages h :)
  nPagesInSets := (congrArg Dbs.nPagesInSets h :)
  nPagesInExtentSet := (congrArg Dbs.nPagesInExtentSet h :)

theorem emFreeCount_eq (e : ℕ) (k : Kind) :
    emFreeCount (s'.maps e) k = emFreeCount (s.maps e) k := by
  have hforget (s : Dbs) : emFreeCount (s.forget.maps e) k = emFreeCount (s.maps e) k := by
    simp only [emFreeCount, Dbs.forget, List.map_map]
    rfl
  rw [← hforget, h.maps, hforget]

theorem inv (hi : Inv x y s) : Inv x y s' where
  toPlaced := hi.toPlaced.congr h.samePlaces fun hb => hi.bufs (by rwa [h.bufs] at hb)
  count e k := by rw [h.nFree, hi.count, h.emFreeCount_eq]
  alloc := by
    intro p hp
    rw [h.samePlaces.freeSet] at hp
    obtain ⟨e, i, r, hl, hp⟩ := hi.alloc hp
    obtain ⟨r', hl', -, hd, hpages⟩ := h.live hl
    refine ⟨e, i, r', hl', ?_⟩
    rw [Ext.Has, hd, hpages]
    exact hp

end

end Alike

theorem forget_modEm (s : Dbs) (e : ℕ) (f g : Em → Em)
    (h : ({ f (s.maps e) with exts := (f (s.maps e)).exts.map forget } : Em) =
      g { s.maps e with exts := (s.maps e).exts.map forget }) :
    (s.modEm e f).forget = s.forget.modEm e g := by
  have hmaps : (s.modEm e f).forget.maps = (s.forget.modEm e g).maps := by
    funext e'
    by_cases he : e' = e
    · subst he
      simp only [Dbs.forget, Dbs.maps_modEm]
      exact h
    · simp only [Dbs.forget, Dbs.maps_modEm_of_ne _ _ _ he]
  exact (congrArg (fun m => { s with maps := m }) hmaps :)

theorem forget_setExt (s : Dbs) (e i : ℕ) (r : Ext) :
    (s.setExt e i r).forget = s.forget.setExt e i r.forget :=
  forget_modEm _ _ _ _ (by rw [List.map_set])

theorem forget_addFree (s : Dbs) (e : ℕ) (k : Kind) (n : ℤ) :
    (s.addFree e k n).forget = s.forget.addFree e k n :=
  forget_modEm _ _ _ _ rfl

/-- Setting hint and links of a record. -/
theorem alike_setExt (h : (s.maps e).exts[i]? = some r) (hr : r'.forget = r.forget) :
    Alike s (s.setExt e i r') := by
  have hset : (s.forget.maps e).exts.set i r.forget = (s.forget.maps e).exts := by
    refine List.ext_getElem? fun j => ?_
    rw [List.getElem?_set]
    split_ifs with hj hi
    · subst hj
      simp [Dbs.forget, h]
    · subst hj
      rw [List.getElem?_eq_none (not_lt.1 hi)]
    · rfl
  rw [Alike, forget_setExt, hr]
  have hmaps : (s.forget.setExt e i r.forget).maps = s.forget.maps := by
    rw [Dbs.setExt, Dbs.modEm]
    simp only [hset]
    exact Function.update_eq_self _ _
  exact (congrArg (fun m => { s with maps := m }) hmaps :)

/-- Hints and links may have changed, and the hints are still true. -/
structure Hinted (s s' : Dbs) : Prop where
  alike : Alike s s'
  full : FullOk s → FullOk s'

theorem Hinted.refl (s : Dbs) : Hinted s s := ⟨.refl s, id⟩

theorem Hinted.trans {s'' : Dbs} (h : Hinted s s') (h' : Hinted s' s'') : Hinted s s'' :=
  ⟨h.alike.trans h'.alike, h'.full ∘ h.full⟩

theorem fullOk_setExt (hf : FullOk s)
    (hr : r'.kind ≠ none → r'.full → ∀ b < extentSz, r'.pages b = true) :
    FullOk (s.setExt e i r') := by
  intro e' j r hl hfull
  have h := hl.1
  rw [Dbs.getElem?_setExt] at h
  split_ifs at h with hc
  · cases h
    exact hr hl.2 hfull
  · exact hf e' j r ⟨h, hl.2⟩ hfull

theorem hinted_setExt (h : (s.maps e).exts[i]? = some r) (hr : r'.forget = r.forget)
    (hfull : r'.full = r.full) : Hinted s (s.setExt e i r') := by
  refine ⟨alike_setExt h hr, fun hf => fullOk_setExt hf fun hk hf' => ?_⟩
  have hkind : r'.kind = r.kind := (congrArg kind hr :)
  have hpages : r'.pages = r.pages := (congrArg pages hr :)
  rw [hpages]
  exact hf e i r ⟨h, hkind ▸ hk⟩ (hfull ▸ hf')

/-- A link of a record is changed. -/
theorem hinted_modExt {f : Ext → Ext} (hforget : ∀ r, (f r).forget = r.forget)
    (hfull : ∀ r, (f r).full = r.full)
    (h : ((s.maps e).exts[i]?.map fun r => s.setExt e i (f r)) = some s') : Hinted s s' := by
  obtain ⟨r, hr, rfl⟩ := Option.map_eq_some_iff.1 h
  exact hinted_setExt hr (hforget r) (hfull r)

theorem hinted_setNext (h : s.setNext e i dp = some s') : Hinted s s' :=
  @hinted_modExt s e i s' (fun r => { r with next := dp }) (fun _ => rfl) (fun _ => rfl) h

theorem hinted_setPrev {dp : Option ℕ} (h : s.setPrev e i dp = some s') : Hinted s s' :=
  @hinted_modExt s e i s' (fun r => { r with prev := dp }) (fun _ => rfl) (fun _ => rfl) h

theorem setNext_gives (h : i < (s.maps e).exts.length) : Gives (s.setNext e i dp) (Hinted s) := by
  have hsome : (s.setNext e i dp).isSome := by
    rw [Dbs.setNext, Option.isSome_map, List.getElem?_eq_getElem h]
    rfl
  obtain ⟨s', heq⟩ := Option.isSome_iff_exists.1 hsome
  exact ⟨s', heq, hinted_setNext heq⟩

theorem setPrev_gives {dp : Option ℕ} (h : i < (s.maps e).exts.length) :
    Gives (s.setPrev e i dp) (Hinted s) := by
  have hsome : (s.setPrev e i dp).isSome := by
    rw [Dbs.setPrev, Option.isSome_map, List.getElem?_eq_getElem h]
    rfl
  obtain ⟨s', heq⟩ := Option.isSome_iff_exists.1 hsome
  exact ⟨s', heq, hinted_setPrev heq⟩

theorem Hinted.length (h : Hinted s s') (e : ℕ) :
    (s'.maps e).exts.length = (s.maps e).exts.length := by
  have := congrArg (fun em : Em => em.exts.length) (h.alike.maps e)
  simpa [Dbs.forget] using this

/-- Putting a record after another one changes links only. -/
theorem emInsAfter_gives {point inserted : ℕ}
    (hhash : ∀ d j, (s.maps e).dpToExt d = some j → j < (s.maps e).exts.length)
    (hpoint : point < (s.maps e).exts.length) (hins : inserted < (s.maps e).exts.length) :
    Gives (emInsAfter s e point inserted) (Hinted s) := by
  rw [emInsAfter, List.getElem?_eq_getElem hpoint, List.getElem?_eq_getElem hins]
  refine (setNext_gives hins).bind fun s₁ h₁ => Gives.bind (P := Hinted s) ?_ fun s₂ h₂ =>
    (setNext_gives (by rwa [h₂.length])).bind fun s₃ h₃ =>
      (setPrev_gives (by rwa [h₃.length, h₂.length])).mono fun s₄ h₄ => (h₂.trans h₃).trans h₄
  -- the next record gets a new previous one
  split_ifs
  · exact .some h₁
  · split
    · exact .some h₁
    · next j hj =>
      rw [h₁.alike.samePlaces.dpToExt] at hj
      have hlt := hhash _ j hj
      exact (setPrev_gives (by rwa [h₁.length])).mono fun s₂ h₂ => h₁.trans h₂

theorem Placed.lt_of_dpToExt (hs : Placed x y s) (d j : ℕ) (h : (s.maps e).dpToExt d = some j) :
    j < (s.maps e).exts.length := by
  obtain ⟨r, hl, -⟩ := hs.ofHash h
  exact hl.lt

/-! ## Taking a page -/

/-- The record with the page of bit `b` taken. -/
def Ext.taken (r : Ext) (b : ℕ) : Ext := { r with pages := Function.update r.pages b true }

theorem extFreeCount_taken (hb : b < extentSz) (hp : r.pages b = false) :
    extFreeCount r = extFreeCount (r.taken b) + 1 :=
  countP_update hb hp

/-- The storage after the page of bit `b` was taken from the record `r`, and counted. -/
def Dbs.take (s : Dbs) (e i : ℕ) (r : Ext) (k : Kind) (b : ℕ) : Dbs :=
  (s.setExt e i (r.taken b)).addFree e k (-1)

theorem nFree_addFree (s : Dbs) (e : ℕ) (k : Kind) (n : ℤ) (e' : ℕ) (k' : Kind) :
    ((s.addFree e k n).maps e').nFree k' =
      (s.maps e').nFree k' + if e' = e ∧ k' = k then n else 0 := by
  by_cases he : e' = e
  · subst he
    by_cases hk : k' = k
    · subst hk
      simp [Dbs.addFree]
    · simp [Dbs.addFree, hk]
  · simp [Dbs.addFree, Dbs.maps_modEm_of_ne _ _ _ he, he]

theorem exts_addFree (s : Dbs) (e : ℕ) (k : Kind) (n : ℤ) (e' : ℕ) :
    ((s.addFree e k n).maps e').exts = (s.maps e').exts :=
  s.proj_modEm e Em.exts rfl

theorem emFreeCount_setExt (h : (s.maps e).exts[i]? = some r) (e' : ℕ) (k : Kind) :
    emFreeCount ((s.setExt e i r').maps e') k =
      emFreeCount (s.maps e') k + if e' = e then r'.free k - r.free k else 0 := by
  by_cases he : e' = e
  · subst he
    rw [Dbs.setExt, Dbs.maps_modEm, emFreeCount_set h, if_pos rfl]
    ring
  · rw [Dbs.setExt, Dbs.maps_modEm_of_ne _ _ _ he, if_neg he, add_zero]

theorem emFreeCount_addFree (s : Dbs) (e : ℕ) (k : Kind) (n : ℤ) (e' : ℕ) (k' : Kind) :
    emFreeCount ((s.addFree e k n).maps e') k' = emFreeCount (s.maps e') k' := by
  rw [emFreeCount, emFreeCount, exts_addFree]

section Recount

variable {s : Dbs} {e i e' j : ℕ} {r r' r₁ : Ext} {k : Kind} {n : ℤ}

theorem proj_recount {α : Type} (p : Em → α)
    (h : ∀ em exts nFree, p { em with exts := exts, nFree := nFree } = p em) :
    p (((s.setExt e i r').addFree e k n).maps e') = p (s.maps e') := by
  rw [Dbs.addFree, Dbs.proj_modEm _ e p (h _ _ _), Dbs.setExt, s.proj_modEm e p (h _ _ _)]

theorem nFree_recount (k' : Kind) : (((s.setExt e i r').addFree e k n).maps e').nFree k' =
    (s.maps e').nFree k' + if e' = e ∧ k' = k then n else 0 := by
  rw [nFree_addFree]
  exact congrArg (· + _) (s.proj_modEm e (·.nFree k') rfl)

theorem live_recount_of_ne (h : ¬ (e' = e ∧ j = i)) :
    Live ((s.setExt e i r').addFree e k n) e' j r₁ ↔ Live s e' j r₁ := by
  rw [Live, Live, exts_addFree, Dbs.getElem?_setExt, if_neg (by tauto)]

variable (hl : Live s e i r)
include hl

theorem live_recount (hk : r'.kind ≠ none) : Live ((s.setExt e i r').addFree e k n) e i r' := by
  refine ⟨?_, hk⟩
  rw [exts_addFree, Dbs.getElem?_setExt, if_pos ⟨rfl, rfl, hl.lt⟩]

theorem samePlaces_recount (hk : r'.kind = r.kind) (hd : r'.dp = r.dp) :
    SamePlaces s ((s.setExt e i r').addFree e k n) :=
  (samePlaces_setExt hl.1 hk hd).trans (samePlaces_modEm rfl rfl)

/-- The counts stay right if `n` is by how much the number of free pages changes. -/
theorem count_recount (hcount : ∀ e k, (s.maps e).nFree k = emFreeCount (s.maps e) k)
    (hk : r.kind = some k) (hk' : r'.kind = some k)
    (hn : (extFreeCount r' : ℤ) = extFreeCount r + n)
    (e' : ℕ) (k' : Kind) : (((s.setExt e i r').addFree e k n).maps e').nFree k' =
      emFreeCount (((s.setExt e i r').addFree e k n).maps e') k' := by
  rw [nFree_recount, emFreeCount_addFree, emFreeCount_setExt hl.1, hcount, free_of_kind hk',
    free_of_kind hk, hn]
  by_cases he : e' = e
  · by_cases hk' : k' = k <;> simp [he, hk']
  · simp [he]

end Recount

section Take

variable {s : Dbs} {e i : ℕ} {r : Ext} {k : Kind} {b : ℕ} (hl : Live s e i r)
  (hk : r.kind = some k) (hb : b < extentSz) (hp : r.pages b = false)
include hl

theorem samePlaces_take : SamePlaces s (s.take e i r k b) := samePlaces_recount hl rfl rfl

/-- The records are the same, but for the page that was taken. -/
theorem live_take {e' j : ℕ} {r' : Ext} (hl' : Live s e' j r') :
    ∃ r'', Live (s.take e i r k b) e' j r'' ∧ r''.kind = r'.kind ∧ r''.dp = r'.dp ∧
      r''.full = r'.full ∧ ∀ c, r'.pages c = true → r''.pages c = true := by
  by_cases hc : e' = e ∧ j = i
  · obtain ⟨rfl, rfl⟩ := hc
    obtain rfl := hl.unique hl'
    refine ⟨r.taken b, live_recount hl hl.2, rfl, rfl, rfl, fun c hc => ?_⟩
    by_cases hcb : c = b
    · simp [taken, hcb]
    · simpa [taken, hcb] using hc
  · exact ⟨r', (live_recount_of_ne hc).2 hl', rfl, rfl, rfl, fun _ => id⟩

include hk hb hp

theorem Inv.take (hi : Inv x y s) : Inv x y (s.take e i r k b) where
  toPlaced := hi.toPlaced.congr (samePlaces_take hl) fun hb =>
    hi.bufs (by rwa [Dbs.take, proj_recount Em.bufs fun _ _ _ => rfl] at hb)
  count := count_recount hl hi.count hk hk (by rw [extFreeCount_taken hb hp]; push_cast; ring)
  alloc := by
    intro p hp
    obtain ⟨e', j, r', hl', h₁, h₂, h₃⟩ := hi.alloc hp
    obtain ⟨r'', hl'', -, hd, -, hpages⟩ := @live_take s e i r k b hl e' j r' hl'
    refine ⟨e', j, r'', hl'', ?_⟩
    rw [Ext.Has, hd]
    exact ⟨h₁, h₂, hpages _ h₃⟩

end Take

/-- The page `dp` of kind `k` was taken from the map `e` and counted. -/
structure Gets (s : Dbs) (e : ℕ) (k : Kind) (dp : ℕ) (s' : Dbs) : Prop where
  take : ∃ i r b, Live s e i r ∧ r.kind = some k ∧ b < extentSz ∧ r.pages b = false ∧
    dp = r.dp + b ∧ Alike (s.take e i r k b) s'
  full : FullOk s → FullOk s'

/-- No page was found, or one that is not counted yet. -/
def Tried (s : Dbs) (e : ℕ) (k : Kind) (dp : ℕ) (s' : Dbs) : Prop :=
  (dp = 0 ∧ Hinted s s') ∨ dp ≠ 0 ∧ Gets s e k dp (s'.addFree e k (-1))

/-- Taking a page from a storage with other hints. -/
theorem Alike.take (h : Alike s s') (hl : Live s e i r) (hl' : Live s' e i r') (k : Kind) (b : ℕ) :
    Alike (s.take e i r k b) (s'.take e i r' k b) := by
  have hr : r'.forget = r.forget := by
    have := h.getElem? e i
    rwa [hl.1, hl'.1, Option.map_some, Option.map_some, Option.some.injEq] at this
  have htaken : (r'.taken b).forget = (r.taken b).forget := by
    have hkind : r'.kind = r.kind := (congrArg kind hr :)
    have hdp : r'.dp = r.dp := (congrArg dp hr :)
    have hpages : r'.pages = r.pages := (congrArg pages hr :)
    simp only [forget, taken, hkind, hdp, hpages]
  rw [Alike, Dbs.take, Dbs.take, forget_addFree, forget_addFree, forget_setExt,
    forget_setExt, htaken]
  rw [show s'.forget = s.forget from h]

theorem Hinted.gets {s₁ : Dbs} (h : Hinted s s₁) (hg : Gets s₁ e k dp s') : Gets s e k dp s' := by
  obtain ⟨i, r₁, b, hl₁, hk, hb, hp, rfl, htake⟩ := hg.take
  obtain ⟨r, hl, hkind, hdp, hpages⟩ := h.alike.symm.live hl₁
  refine ⟨⟨i, r, b, hl, hkind.trans hk, hb, by rw [hpages]; exact hp, by rw [hdp], ?_⟩,
    hg.full ∘ h.full⟩
  exact (h.alike.take hl hl₁ k b).trans htake

namespace Gets

variable {s s' : Dbs} {e dp : ℕ} {k : Kind} {x y : Option ℕ} (hg : Gets s e k dp s')
include hg

theorem hinted {s'' : Dbs} (h : Hinted s' s'') : Gets s e k dp s'' := by
  obtain ⟨i, r, b, hl, hk, hb, hp, hdp, htake⟩ := hg.take
  exact ⟨⟨i, r, b, hl, hk, hb, hp, hdp, htake.trans h.alike⟩, h.full ∘ hg.full⟩

theorem inv (hi : Inv x y s) : Inv x y s' := by
  obtain ⟨i, r, b, hl, hk, hb, hp, -, htake⟩ := hg.take
  exact htake.inv (hi.take hl hk hb hp)

theorem samePlaces : SamePlaces s s' := by
  obtain ⟨i, r, b, hl, -, -, -, -, htake⟩ := hg.take
  exact (samePlaces_take hl).trans htake.samePlaces

/-- The page was not allocated. -/
theorem fresh (hi : Inv x y s) : s.freeSet dp = false := by
  obtain ⟨i, r, b, hl, hk, hb, hp, rfl, -⟩ := hg.take
  by_contra hset
  rw [Bool.not_eq_false] at hset
  obtain ⟨e', i', r', hl', h₁, h₂, h₃⟩ := hi.alloc hset
  obtain ⟨-, -, rfl⟩ := hi.unique_of_has hl hl' ⟨Nat.le_add_right _ _, by omega⟩ ⟨h₁, h₂⟩
  rw [Nat.add_sub_cancel_left, hp] at h₃
  cases h₃

theorem ne_zero (hi : Inv x y s) : dp ≠ 0 := by
  rintro rfl
  have := hg.fresh hi
  rw [hi.zero] at this
  cases this

/-- The page's bit is set. -/
theorem has : ∃ i r, Live s' e i r ∧ r.kind = some k ∧ r.Has dp := by
  obtain ⟨i, r, b, hl, hk, hb, hp, rfl, htake⟩ := hg.take
  obtain ⟨r', hl'', hkind, hdp, hpages⟩ := htake.live (live_recount hl hl.2)
  refine ⟨i, r', hl'', hkind.trans hk, ?_⟩
  rw [Ext.Has, hdp, hpages]
  exact ⟨Nat.le_add_right _ _, Nat.add_lt_add_left hb _, by simp [taken]⟩

theorem bufs (e' : ℕ) : (s'.maps e').bufs = (s.maps e').bufs := by
  obtain ⟨i, r, b, -, -, -, -, -, htake⟩ := hg.take
  rw [htake.bufs, Dbs.take, proj_recount Em.bufs fun _ _ _ => rfl]

theorem nFree (e' : ℕ) (k' : Kind) : (s'.maps e').nFree k' =
    (s.maps e').nFree k' + if e' = e ∧ k' = k then -1 else 0 := by
  obtain ⟨i, r, b, hl, -, -, -, -, htake⟩ := hg.take
  rw [htake.nFree, Dbs.take, nFree_recount]

theorem last (e' : ℕ) : (s'.maps e').last = (s.maps e').last := by
  obtain ⟨i, r, b, hl, -, -, -, -, htake⟩ := hg.take
  rw [htake.last, Dbs.take, proj_recount Em.last fun _ _ _ => rfl]

theorem onHold (e' : ℕ) : (s'.maps e').remapOnHold = (s.maps e').remapOnHold := by
  obtain ⟨i, r, b, hl, -, -, -, -, htake⟩ := hg.take
  rw [htake.onHold, Dbs.take, proj_recount Em.remapOnHold fun _ _ _ => rfl]

end Gets

/-! ## Looking for a page -/

theorem firstClear_eq_some {bits : ℕ → Bool} {o : ℕ} (h : firstClear bits o n = some b) :
    o ≤ b ∧ b < o + n ∧ bits b = false := by
  have hmem := List.mem_of_find?_eq_some h
  have hb := List.find?_some h
  rw [List.mem_range'_1] at hmem
  exact ⟨hmem.1, hmem.2, by simpa using hb⟩

theorem firstClear_eq_none {bits : ℕ → Bool} {o : ℕ} :
    firstClear bits o n = none ↔ ∀ b, o ≤ b → b < o + n → bits b = true := by
  simp only [firstClear, List.find?_eq_none, List.mem_range'_1, and_imp]
  simp

/-- A page of the extent, or the extent has none. -/
theorem extGetDp_cases {near : ℕ} (h : extGetDp r near = some (r', dp)) :
    (dp = 0 ∧ r' = r ∧ r.full = true) ∨
      (dp = 0 ∧ r' = { r with full := true } ∧ ∀ b < extentSz, r.pages b = true) ∨
      ∃ b < extentSz, r.pages b = false ∧ r.full = false ∧ r' = r.taken b ∧ dp = r.dp + b := by
  rw [extGetDp] at h
  split_ifs at h with hfull hnear
  · obtain ⟨rfl, rfl⟩ : r = r' ∧ 0 = dp := by simpa using h
    exact .inl ⟨rfl, rfl, hfull⟩
  · split at h
    · next hnone =>
      obtain ⟨rfl, rfl⟩ : { r with full := true } = r' ∧ 0 = dp := by simpa using h
      rw [freePage, Option.or_eq_none_iff] at hnone
      exact .inr (.inl ⟨rfl, rfl, fun b hb => firstClear_eq_none.1 hnone.2 b (Nat.zero_le _)
        (by omega)⟩)
    · next b hsome =>
      obtain ⟨rfl, rfl⟩ : r.taken b = r' ∧ r.dp + b = dp := by simpa [taken] using h
      have hb : b < extentSz ∧ r.pages b = false := by
        rw [freePage, Option.or_eq_some_iff] at hsome
        rcases hsome with hb | ⟨-, hb⟩
        · split_ifs at hb with hzero
          obtain ⟨-, hlt, hclear⟩ := firstClear_eq_some hb
          refine ⟨?_, hclear⟩
          simp only [extentSz] at hnear ⊢
          omega
        · obtain ⟨-, hlt, hclear⟩ := firstClear_eq_some hb
          exact ⟨by omega, hclear⟩
      exact .inr (.inr ⟨b, hb.1, hb.2, Bool.eq_false_iff.2 hfull, rfl, rfl⟩)

theorem fullOk_addFree {n : ℤ} : FullOk (s.addFree e k n) ↔ FullOk s := by
  simp only [FullOk, Live, exts_addFree]

section Try

variable {x y : Option ℕ} {s s' : Dbs} {e dp : ℕ} {k : Kind} (hi : Inv x y s) (hf : FullOk s)
include hi hf

theorem extGetDpAt_cases {near : ℕ} (hl : Live s e i r) (hk : r.kind = some k)
    (h : extGetDpAt s e i near = some (s', dp)) :
    (dp = 0 ∧ Hinted s s' ∧ ∀ b < extentSz, r.pages b = true) ∨
      dp ≠ 0 ∧ Gets s e k dp (s'.addFree e k (-1)) := by
  simp only [extGetDpAt, hl.1, Option.bind_some, Option.map_eq_some_iff, Prod.mk.injEq] at h
  obtain ⟨⟨r', dp'⟩, hget, rfl, rfl⟩ := h
  obtain ⟨hdp, rfl, hfull⟩ | ⟨hdp, rfl, hfull⟩ | ⟨b, hb, hp, hfull, rfl, rfl⟩ := extGetDp_cases hget
  · exact .inl ⟨hdp, hinted_setExt hl.1 rfl rfl, hf e i r' hl hfull⟩
  · refine .inl ⟨hdp, ⟨alike_setExt hl.1 rfl, fun hf => fullOk_setExt hf fun _ _ => hfull⟩, hfull⟩
  · have hg : Gets s e k (r.dp + b) ((s.setExt e i (r.taken b)).addFree e k (-1)) := by
      refine ⟨⟨i, r, b, hl, hk, hb, hp, rfl, .refl _⟩, fun hf => ?_⟩
      rw [fullOk_addFree]
      refine fullOk_setExt hf fun _ hfull' => ?_
      rw [show (r.taken b).full = r.full from rfl, hfull] at hfull'
      cases hfull'
    exact .inr ⟨hg.ne_zero hi, hg⟩

theorem tryLoop_cases {is : List ℕ} (h : tryLoop e k is s = some (s', dp)) :
    (dp = 0 ∧ Hinted s s' ∧ ∀ i ∈ is, ∀ r, Live s e i r → r.kind = some k →
      ∀ b < extentSz, r.pages b = true) ∨
      dp ≠ 0 ∧ Gets s e k dp (s'.addFree e k (-1)) := by
  induction is generalizing s with
  | nil =>
    obtain ⟨rfl, rfl⟩ : s = s' ∧ 0 = dp := by simpa [tryLoop] using h
    exact .inl ⟨rfl, .refl _, by simp⟩
  | cons i is ih =>
    rw [tryLoop] at h
    split at h
    · cases h
    next r hr =>
      split_ifs at h with hkind
      · -- a record of another kind is passed over
        rcases ih hi hf h with ⟨hdp, hh, hall⟩ | hget
        · refine .inl ⟨hdp, hh, fun j hj r' hl' hk' => ?_⟩
          rcases List.mem_cons.1 hj with rfl | hj
          · obtain rfl : r = r' := Option.some.inj (hr.symm.trans hl'.1)
            exact absurd hk' hkind
          · exact hall j hj r' hl' hk'
        · exact .inr hget
      · have hk : r.kind = some k := not_not.1 hkind
        have hl : Live s e i r := ⟨hr, by simp [hk]⟩
        split at h
        · cases h
        next s₁ dp₁ hget =>
          rcases extGetDpAt_cases hi hf hl hk hget with ⟨rfl, hh, hfull⟩ | ⟨hne, hg⟩
          · rcases ih (hh.alike.inv hi) (hh.full hf) h with ⟨hdp, hh', hall⟩ | ⟨hne, hg⟩
            · refine .inl ⟨hdp, hh.trans hh', fun j hj r' hl' hk' => ?_⟩
              rcases List.mem_cons.1 hj with rfl | hj
              · obtain rfl : r = r' := Option.some.inj (hr.symm.trans hl'.1)
                exact hfull
              · obtain ⟨r'', hl'', hkind', -, hpages⟩ := hh.alike.live hl'
                rw [← hpages]
                exact hall j hj r'' hl'' (hkind'.trans hk')
            · exact .inr ⟨hne, hh.gets hg⟩
          · rw [if_pos hne] at h
            obtain ⟨rfl, rfl⟩ : s₁ = s' ∧ dp₁ = dp := by simpa using h
            exact .inr ⟨hne, hg⟩

end Try

end Virtuoso.Extent
