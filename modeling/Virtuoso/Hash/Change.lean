import Virtuoso.Hash.Holds
import Virtuoso.Lib.Fold
import Virtuoso.Lib.Outcome

/-!
# New and changed entries

`Holds` says that a table keeps a dictionary, `Became` that it keeps another one after a
function was called.  The heap is shared with other tables, so `Became` also says that the
function changed the records of its own table only, and that it took new ones from the free
part of the heap.

A new record adds an entry (`addRecord_sat`), and data written at the place of a key set it
(`became_put`).
-/

namespace Virtuoso.Hash

open Virtuoso.Lib Virtuoso.Lib.Dictionary Function

/-- A hash function and a comparison as the table needs them. -/
structure Consistent (hashFunc : List UInt8 → ℕ) (cmp : List UInt8 → List UInt8 → Bool) :
    Prop where
  keyEq : IsKeyEq cmp
  hash_eq : ∀ a b, cmp a b = true → hashFunc a = hashFunc b

/-- The table has the given cells and keeps a dictionary. -/
structure Holds (hashFunc : List UInt8 → ℕ) (cmp : List UInt8 → List UInt8 → Bool)
    (h : Heap Record) (t : IdHash) (c : Cells) : Prop where
  shape : Shape h t c
  split : Split cmp (fun k => t.home (hashFunc k)) t.buckets (entriesOf h t c)

/-- The table now keeps the dictionary `m`; the records of other tables are as before. -/
structure Became (hashFunc : List UInt8 → ℕ) (cmp : List UInt8 → List UInt8 → Bool)
    (h : Heap Record) (t : IdHash) (c : Cells) (m : List Entry)
    (h' : Heap Record) (t' : IdHash) (c' : Cells) : Prop where
  holds : Holds hashFunc cmp h' t' c'
  contents_perm : (contents h' t' c').Perm m
  keyLength : t'.keyLength = t.keyLength
  dataLength : t'.dataLength = t.dataLength
  keep : ∀ a, ¬ c.Owns t.buckets a → h.lookup a ≠ none → h'.lookup a = h.lookup a
  own : ∀ a, c'.Owns t'.buckets a → c.Owns t.buckets a ∨ h.lookup a = none

section

variable {hashFunc : List UInt8 → ℕ} {cmp : List UInt8 → List UInt8 → Bool}
variable {h h' : Heap Record} {t t' : IdHash} {c c' : Cells} {n : ℕ} {key data : List UInt8}

theorem Consistent.home_eq (hc : Consistent hashFunc cmp) (t : IdHash) (a b : List UInt8)
    (hab : cmp a b = true) : t.home (hashFunc a) = t.home (hashFunc b) := by
  rw [hc.hash_eq a b hab]

theorem Holds.distinct (hc : Consistent hashFunc cmp) (hh : Holds hashFunc cmp h t c) :
    Distinct cmp (contents h t c) :=
  hh.split.distinct_flat (hc.home_eq t) hc.keyEq

theorem Holds.lookup_home (hc : Consistent hashFunc cmp) (hh : Holds hashFunc cmp h t c)
    (key : List UInt8) :
    lookup cmp (contents h t c) key =
      lookup cmp (entriesOf h t c (t.home (hashFunc key))) key :=
  hh.split.lookup_flat (hc.home_eq t) hc.keyEq (hh.shape.home_lt _)

theorem Became.refl (hh : Holds hashFunc cmp h t c) :
    Became hashFunc cmp h t c (contents h t c) h t c :=
  ⟨hh, .refl _, rfl, rfl, fun _ _ _ => rfl, fun _ => Or.inl⟩

/-- Alike tables are those with the same places for keys. -/
theorem Alike.split (ha : Alike t t') {f : ℕ → List Entry}
    (hs : Split cmp (fun k => t.home (hashFunc k)) t.buckets f) :
    Split cmp (fun k => t'.home (hashFunc k)) t'.buckets f := by
  rw [ha.home, ha.buckets]
  exact hs

/-- Counters are no part of what a table keeps. -/
theorem Alike.entriesOf (ha : Alike t t') (harr : t'.array = t.array) :
    entriesOf h t' c = entriesOf h t c := by
  funext j
  exact entriesOf_congr ha rfl (congrFun harr j) fun _ _ _ _ => rfl

theorem Holds.counters (hh : Holds hashFunc cmp h t c) (ha : Alike t t')
    (harr : t'.array = t.array) : Holds hashFunc cmp h t' c := by
  have hs := hh.shape
  refine ⟨⟨ha.layout hs.layout, ha.buckets ▸ hs.pos, fun j hj => ?_, ha.buckets ▸ hs.apart,
    ha.buckets ▸ hs.valid⟩, ?_⟩
  · exact (hs.bucket j (ha.buckets ▸ hj)).congr ha (congrFun harr j) fun _ _ _ _ => rfl
  · rw [ha.entriesOf harr]
    exact ha.split hh.split

variable {m : List Entry} {u : IdHash}

section

variable (hb : Became hashFunc cmp h t c m h' t' c')
include hb

theorem Became.counters (ha : Alike t' u) (harr : u.array = t'.array) :
    Became hashFunc cmp h t c m h' u c' := by
  refine ⟨hb.holds.counters ha harr, ?_, ha.keyLength.trans hb.keyLength,
    ha.dataLength.trans hb.dataLength, hb.keep, ha.buckets ▸ hb.own⟩
  rw [contents, ha.entriesOf harr, ha.buckets]
  exact hb.contents_perm

theorem Became.trans {h₂ : Heap Record} {t₂ : IdHash} {c₂ : Cells} {m₂ : List Entry}
    (hb₂ : Became hashFunc cmp h' t' c' m₂ h₂ t₂ c₂) : Became hashFunc cmp h t c m₂ h₂ t₂ c₂ := by
  refine ⟨hb₂.holds, hb₂.contents_perm, hb₂.keyLength.trans hb.keyLength,
    hb₂.dataLength.trans hb.dataLength, fun a ha hlive => ?_, fun a ha => ?_⟩
  · have hfirst := hb.keep a ha hlive
    rw [← hfirst] at hlive ⊢
    refine hb₂.keep a (fun hown => ?_) hlive
    rcases hb.own a hown with hown | hnone
    · exact ha hown
    · rw [hfirst] at hlive
      exact hlive hnone
  · rcases hb₂.own a ha with hown | hnone
    · exact hb.own a hown
    · by_cases hown : c.Owns t.buckets a
      · exact Or.inl hown
      · by_cases hlive : h.lookup a = none
        · exact Or.inr hlive
        · rw [hb.keep a hown hlive] at hnone
          exact absurd hnone hlive

theorem Became.perm {m' : List Entry} (hp : m.Perm m') : Became hashFunc cmp h t c m' h' t' c' :=
  { hb with contents_perm := hb.contents_perm.trans hp }

end

/-! ## New records -/

theorem Alike.trans {t'' : IdHash} (ha : Alike t t') (ha' : Alike t' t'') : Alike t t'' :=
  ⟨ha'.keyLength.trans ha.keyLength, ha'.dataLength.trans ha.dataLength,
    ha'.dataInx.trans ha.dataInx, ha'.extInx.trans ha.extInx,
    ha'.bucketLength.trans ha.bucketLength, ha'.buckets.trans ha.buckets⟩

/-- The change of one bucket is a change of the dictionary. -/
theorem Holds.became (hh : Holds hashFunc cmp h t c) (ho : Shape.OnlyAt h t c h' t' c' n)
    (hlt : n < t.buckets) (hb : BucketIs h' t' n (c' n))
    (hnew : ∀ l a, c' n = some l → a ∈ l → (∃ l', c n = some l' ∧ a ∈ l') ∨
      h.lookup a = none ∧ a ≠ emptyMark)
    (hkeep : ∀ a, ¬ c.Owns t.buckets a → h.lookup a ≠ none → h'.lookup a = h.lookup a)
    (hm : Split cmp (fun k => t.home (hashFunc k)) t.buckets (entriesOf h' t' c') ∧
      (Split.flat t.buckets (entriesOf h' t' c')).Perm m) :
    Became hashFunc cmp h t c m h' t' c' := by
  obtain ⟨hs, hown⟩ := hh.shape.update ho hlt hb hnew
  refine ⟨⟨hs, ho.alike.split hm.1⟩, ?_, ho.alike.keyLength, ho.alike.dataLength, hkeep, hown⟩
  rw [contents, ho.alike.buckets]
  exact hm.2

/-- The record of bucket `n` changes. -/
theorem onlyAt_putHead (hu : Alike t u) (harr : u.array = t.array) (r : Record)
    (o : Option (List ℕ))
    (hlook : ∀ m < t.buckets, m ≠ n → ∀ l, c m = some l → ∀ a ∈ l, h'.lookup a = h.lookup a) :
    Shape.OnlyAt h t c h' (u.putHead n r) (update c n o) n :=
  ⟨hu.trans (alike_putHead u n r), fun _ _ hne => update_of_ne hne _ _,
    fun m _ hne => (update_of_ne hne _ _).trans (congrFun harr m), hlook⟩

/-! ## Places -/

theorem fetch_put_self (r : Record) (ref : Ref) :
    fetch (put h t r ref).1 (put h t r ref).2 ref = some r := by
  cases ref with
  | head m => exact congrArg some (update_self _ _ _)
  | ext a => exact AList.lookup_insert _

theorem fetch_put_of_ne {r : Record} {ref ref' : Ref} (hne : ref' ≠ ref) :
    fetch (put h t r ref).1 (put h t r ref).2 ref' = fetch h t ref' := by
  cases ref with
  | head m =>
    cases ref' with
    | head m' => exact congrArg some (update_of_ne (fun hm => hne (congrArg _ hm)) _ _)
    | ext a' => rfl
  | ext a =>
    cases ref' with
    | head m' => rfl
    | ext a' => exact AList.lookup_insert_ne fun ha => hne (congrArg _ ha)

theorem alike_put (r : Record) (ref : Ref) : Alike t (put h t r ref).2 := by
  cases ref with
  | head m => exact alike_putHead t m r
  | ext a => exact Alike.refl t

/-- Other buckets have other places. -/
theorem onlyAt_of_fetch (hs : Shape h t c) (hlt : n < t.buckets) (ha : Alike t t')
    (hcells : ∀ m < t.buckets, m ≠ n → c' m = c m)
    (hf : ∀ ref, ref ∉ refs n (c n) → (∀ m, ref = .head m → m ≠ n) →
      fetch h' t' ref = fetch h t ref) :
    Shape.OnlyAt h t c h' t' c' n := by
  refine ⟨ha, hcells, fun m hm hne => ?_, fun m hm hne l hl a hmem => ?_⟩
  · have := hf (.head m) (fun hmem => hne (mem_refs_head hmem)) fun m' hm' => by
      cases hm'
      exact hne
    exact Option.some.inj this
  · refine hf (.ext a) (fun hin => ?_) fun m' hm' => by cases hm'
    obtain ⟨l', hl', hmem'⟩ := mem_refs_ext.1 hin
    exact hne (hs.apart m hm n hlt l l' a hl hl' hmem hmem')

section Assign

variable (hc : Consistent hashFunc cmp) (hh : Holds hashFunc cmp h t c)
include hc hh

/-- A record in an empty bucket. -/
theorem became_first (hk : key.length = t.keyLength) (hd : data.length = t.dataLength)
    (hcell : c (t.home (hashFunc key)) = none) (hu : Alike t u) (harr : u.array = t.array) :
    Became hashFunc cmp h t c (assign cmp (contents h t c) key data) h
      (u.putHead (t.home (hashFunc key)) (t.fill (t.array (t.home (hashFunc key))) key data 0))
      (update c (t.home (hashFunc key)) (some [])) := by
  have hlt := hh.shape.home_lt (hashFunc key)
  set n := t.home (hashFunc key) with hn
  set r := t.fill (t.array n) key data 0 with hr
  have hhead : (u.putHead n r).array n = r := update_self _ _ _
  have hov : t.bucketOverflow r = 0 := Layout.bucketOverflow_fill (by norm_num)
  have ho : Shape.OnlyAt h t c h (u.putHead n r) (update c n (some [])) n :=
    onlyAt_putHead hu harr r _ fun _ _ _ _ _ _ _ => rfl
  refine hh.became ho hlt ?_ (fun l a hl ha => ?_) (fun _ _ _ => rfl)
    (hh.split.assign (hc.home_eq t) hc.keyEq hlt (fun j hj hne => ho.entriesOf hj hne) ?_)
  · rw [update_self, BucketIs, ho.alike.bucketOverflow, hhead, hov]
    exact ⟨by norm_num [emptyMark], rfl⟩
  · rw [update_self] at hl
    cases hl
    cases ha
  · have hnew : entriesOf h (u.putHead n r) (update c n (some [])) n = [(key, data)] := by
      rw [entriesOf, update_self, refs_some, List.map_cons, entryAt_head ho.alike, hhead,
        hh.shape.layout.entry_fill hk hd]
      rfl
    have hold : entriesOf h t c n = [] := by rw [entriesOf, hcell]; rfl
    rw [hnew, hold]
    exact .refl _

/-- A record at the start of the chain of a bucket in use. -/
theorem became_next (hk : key.length = t.keyLength) (hd : data.length = t.dataLength)
    (habs : Absent cmp (contents h t c) key) {l : List ℕ}
    (hcell : c (t.home (hashFunc key)) = some l) (hu : Alike t u) (harr : u.array = t.array) {a : ℕ}
    {g : Record} (hfresh : h.lookup a = none) (h0 : a ≠ 0) (ha64 : a < 2 ^ 64 - 1) :
    Became hashFunc cmp h t c (assign cmp (contents h t c) key data)
      (h.insert a (t.fill g key data (t.bucketOverflow (t.array (t.home (hashFunc key))))))
      (u.putHead (t.home (hashFunc key)) ((t.array (t.home (hashFunc key))).setWord t.extInx a))
      (update c (t.home (hashFunc key)) (some (a :: l))) := by
  have hlay := hh.shape.layout
  have hlt := hh.shape.home_lt (hashFunc key)
  set n := t.home (hashFunc key) with hn
  set g' := t.fill g key data (t.bucketOverflow (t.array n)) with hg'
  set r := (t.array n).setWord t.extInx a with hr
  have hhead : (u.putHead n r).array n = r := update_self _ _ _
  have hsame : ∀ b, h.lookup b ≠ none → (h.insert a g').lookup b = h.lookup b := fun b hb =>
    AList.lookup_insert_ne fun hba => hb (hba ▸ hfresh)
  have hlook : ∀ m < t.buckets, ∀ l', c m = some l' → ∀ b ∈ l',
      (h.insert a g').lookup b = h.lookup b := fun m hm l' hl' b hb =>
    hsame b (hh.shape.lookup_ne_none ⟨m, hm, l', hl', hb⟩)
  have ho := onlyAt_putHead (n := n) hu harr r (some (a :: l)) fun m hm _ => hlook m hm
  have hov : t.bucketOverflow r = a := Block.word_setWord (by omega)
  have hov' : t.bucketOverflow g' = t.bucketOverflow (t.array n) :=
    Layout.bucketOverflow_fill (Block.word_lt _ _)
  have hmark : a ≠ emptyMark := by
    rw [emptyMark]
    omega
  refine hh.became ho hlt ?_ (fun l' b hl' hb => ?_) (fun b _ hb => hsame b hb) (hh.split.assign
    (hc.home_eq t) hc.keyEq hlt (fun j hj hne => ho.entriesOf hj hne) ?_)
  · rw [update_self, BucketIs, ho.alike.bucketOverflow, hhead, hov]
    refine ⟨hmark, rfl, h0, g', AList.lookup_insert _, ?_⟩
    rw [hov']
    exact (hh.shape.chain hlt hcell).congr fun b hb => by rw [hlook n hlt l hcell b hb]
  · rw [update_self] at hl'
    cases hl'
    rcases List.mem_cons.1 hb with rfl | hb
    · exact Or.inr ⟨hfresh, hmark⟩
    · exact Or.inl ⟨l, hcell, hb⟩
  · have hold : entriesOf h t c n =
        t.entry (t.array n) :: l.map fun b => entryAt h t (.ext b) := by
      rw [entriesOf, hcell, refs_some, List.map_cons, List.map_map]
      rfl
    have hnew : entriesOf (h.insert a g') (u.putHead n r) (update c n (some (a :: l))) n =
        t.entry (t.array n) :: (key, data) :: l.map fun b => entryAt h t (.ext b) := by
      rw [entriesOf, update_self, refs_some, List.map_cons, List.map_cons, List.map_cons,
        List.map_map]
      refine congrArg₂ _ ?_ (congrArg₂ _ ?_ (List.map_congr_left fun b hb => ?_))
      · rw [entryAt_head ho.alike, hhead, hlay.entry_setWord]
      · rw [entryAt_ext (AList.lookup_insert _), ho.alike.entry, hlay.entry_fill hk hd]
      · exact entryAt_congr ho.alike (hlook n hlt l hcell b hb)
    have habsn : Absent cmp (entriesOf h t c n) key := fun e he =>
      habs e (List.mem_flatMap.2 ⟨n, List.mem_range.2 hlt, he⟩)
    rw [habsn.assign, hnew, hold]
    exact .swap _ _ _

/-- A new record adds its entry. -/
theorem addRecord_sat (al : Allocator) (hk : key.length = t.keyLength)
    (hd : data.length = t.dataLength) (habs : Absent cmp (contents h t c) key) :
    Sat Fault.Limit (addRecord al h t key data (t.home (hashFunc key))) fun s =>
      s.2.count = (t.count + 1) % 2 ^ 32 ∧ s.2.rehashThreshold = t.rehashThreshold ∧
      s.2.buckets = t.buckets ∧
      ∃ c', Became hashFunc cmp h t c (assign cmp (contents h t c) key data) s.1 s.2 c' := by
  have hlt := hh.shape.home_lt (hashFunc key)
  rw [addRecord]
  cases hcell : c (t.home (hashFunc key)) with
  | none =>
    rw [if_pos ((hh.shape.bucketIsEmpty_iff hlt).2 hcell)]
    have hu : Alike t t.inserted := ⟨rfl, rfl, rfl, rfl, rfl, rfl⟩
    exact .ok ⟨rfl, rfl, rfl, _, became_first hc hh hk hd hcell hu rfl⟩
  | some l =>
    rw [if_neg (hh.shape.not_bucketIsEmpty hlt hcell)]
    cases hal : al.alloc h with
    | none => exact .error rfl
    | some p =>
      obtain ⟨hfresh, h0, h64⟩ := al.fresh h p.1 p.2 hal
      have hu : Alike t t.inserted.overflowed := ⟨rfl, rfl, rfl, rfl, rfl, rfl⟩
      exact .ok ⟨rfl, rfl, rfl, _, became_next hc hh hk hd habs hcell hu rfl hfresh h0 h64⟩

/-- Data written at the place of a key. -/
theorem became_put (hd : data.length = t.dataLength) {ref : Ref} {r : Record}
    (href : ref ∈ refs (t.home (hashFunc key)) (c (t.home (hashFunc key))))
    (hcmp : cmp (entryAt h t ref).1 key = true) (hr : fetch h t ref = some r) :
    Became hashFunc cmp h t c (assign cmp (contents h t c) key data)
      (put h t (r.blit t.dataInx data) ref).1 (put h t (r.blit t.dataInx data) ref).2 c := by
  have hlay := hh.shape.layout
  have hlt := hh.shape.home_lt (hashFunc key)
  set n := t.home (hashFunc key) with hn
  set r' := r.blit t.dataInx data with hr'
  have halike := alike_put (h := h) (t := t) r' ref
  have hov : t.bucketOverflow r' = t.bucketOverflow r := hlay.bucketOverflow_blit hd
  have hfetch : ∀ x, (fetch (put h t r' ref).1 (put h t r' ref).2 x).map t.bucketOverflow =
      (fetch h t x).map t.bucketOverflow := by
    intro x
    by_cases hx : x = ref
    · rw [hx, fetch_put_self, hr, Option.map_some, Option.map_some, hov]
    · rw [fetch_put_of_ne hx]
  have ho : Shape.OnlyAt h t c (put h t r' ref).1 (put h t r' ref).2 c n :=
    onlyAt_of_fetch hh.shape hlt halike (fun _ _ _ => rfl) fun x hx _ =>
      fetch_put_of_ne fun hxr => hx (hxr ▸ href)
  refine hh.became ho hlt ?_ (fun l a hl ha => Or.inl ⟨l, hl, ha⟩) (fun a ha _ => ?_)
    (hh.split.assign (hc.home_eq t) hc.keyEq hlt (fun j hj hne => ho.entriesOf hj hne)
      (List.Perm.of_eq ?_))
  · have hhead : t.bucketOverflow ((put h t r' ref).2.array n) = t.bucketOverflow (t.array n) :=
      Option.some.inj (hfetch (.head n))
    have hb := hh.shape.bucket n hlt
    cases hcell : c n with
    | none =>
      rw [hcell] at hb
      rw [BucketIs, halike.bucketOverflow, hhead]
      exact hb
    | some l =>
      rw [hcell] at hb
      rw [BucketIs, halike.bucketOverflow, hhead]
      exact ⟨hb.1, hb.2.congr fun a _ => hfetch (.ext a)⟩
  · have hne : Ref.ext a ≠ ref := by
      rintro rfl
      obtain ⟨l, hl, hmem⟩ := mem_refs_ext.1 href
      exact ha ⟨n, hlt, l, hl, hmem⟩
    exact fetch_put_of_ne hne
  · rw [entriesOf, entriesOf, (hh.split.distinct n hlt).assign_map hc.keyEq href hcmp]
    refine List.map_congr_left fun x _ => ?_
    by_cases hx : x = ref
    · subst hx
      rw [if_pos rfl, entryAt, fetch_put_self, halike.entry]
      change t.entry r' = _
      rw [hlay.entry_blit hd, entryAt, hr]
      rfl
    · rw [if_neg hx, entryAt_congr halike (fetch_put_of_ne hx)]

end Assign

end

end Virtuoso.Hash
