import Virtuoso.Hash.Remove

/-!
# Scans and rehashing

`Pending` are the entries that an iterator still has to yield; `hit_next` yields the first
of them (`hitNext_sat`), so that a loop over `hit_next` visits the whole table
(`hitLoop_sat`), also when its body changes the heap outside of the table.

`hit_next` looks for the data right behind the unpadded key.  It finds them where the other
functions put them if the size of the keys is a multiple of eight or there are no data
(`DataPlaced`).  `id_hash_rehash` copies what `hit_next` gives it into the new array, and
so keeps the dictionary under the same condition (`idHashRehash_sat`).
-/

namespace Virtuoso.Hash

open Virtuoso.Lib Virtuoso.Lib.Dictionary

/-- The data are right behind the key. -/
def DataPlaced (t : IdHash) : Prop := 8 ∣ t.keyLength ∨ t.dataLength = 0

variable {i n : ℕ} {es : List Entry}

section Scan

variable {h h' : Heap Record} {t : IdHash} {c : Cells}

theorem hitPair_eq (hl : Layout t) (hd : DataPlaced t) (r : Record) : hitPair t r = t.entry r := by
  refine Prod.ext rfl ?_
  change r.slice _ _ = r.slice _ _
  rcases hd with hd | hd
  · rw [hl.dataInx_eq, next4_eq_self hd]
  · rw [hd]
    rfl

/-- The entries of the buckets from `i` on. -/
def entriesFrom (h : Heap Record) (t : IdHash) (c : Cells) (i : ℕ) : List Entry :=
  (List.range' i (t.buckets - i)).flatMap (entriesOf h t c)

theorem entriesFrom_zero : entriesFrom h t c 0 = contents h t c := by
  rw [entriesFrom, Nat.sub_zero, ← List.range_eq_range']

theorem entriesFrom_of_lt (hi : i < t.buckets) :
    entriesFrom h t c i = entriesOf h t c i ++ entriesFrom h t c (i + 1) := by
  rw [entriesFrom, show t.buckets - i = t.buckets - (i + 1) + 1 by omega, List.range'_succ,
    List.flatMap_cons, entriesFrom]

theorem entriesFrom_of_le (hi : t.buckets ≤ i) : entriesFrom h t c i = [] := by
  rw [entriesFrom, Nat.sub_eq_zero_of_le hi]
  rfl

/-- What an iterator still has to yield. -/
def Pending (h : Heap Record) (t : IdHash) (c : Cells) (hit : HashIterator) (es : List Entry) :
    Prop :=
  (hit.chilum = 0 ∧ es = entriesFrom h t c hit.bucket) ∨
    ∃ l l', hit.bucket < t.buckets ∧ c hit.bucket = some (l ++ l') ∧ hit.chilum ≠ 0 ∧
      IsChain t.bucketOverflow h hit.chilum l' ∧
      es = (l'.map fun a => entryAt h t (.ext a)) ++ entriesFrom h t c (hit.bucket + 1)

/-- An iterator that yields the first of the pending entries. -/
def Yields (h : Heap Record) (t : IdHash) (c : Cells) (es : List Entry)
    (o : Option (HashIterator × Entry)) : Prop :=
  (es = [] ∧ o = none) ∨
    ∃ e es' hit, es = e :: es' ∧ o = some (hit, e) ∧ Pending h t c hit es'

/-- After a record the iterator is at the next one of the chain or at the next bucket. -/
theorem pending_next {p : ℕ} {l l' : List ℕ} (hi : i < t.buckets) (hcell : c i = some (l ++ l'))
    (hl : IsChain t.bucketOverflow h p l') :
    Pending h t c ⟨if p = 0 then i + 1 else i, p⟩
      ((l'.map fun a => entryAt h t (.ext a)) ++ entriesFrom h t c (i + 1)) := by
  by_cases h0 : p = 0
  · refine Or.inl ⟨h0, ?_⟩
    cases l' with
    | nil => rw [if_pos h0]; rfl
    | cons a l' => exact absurd (hl.1.symm.trans h0) hl.2.1
  · rw [if_neg h0]
    exact Or.inr ⟨l, l', hi, hcell, h0, hl, rfl⟩

theorem contents_ne_nil {l : List ℕ} (hi : i < t.buckets) (hcell : c i = some l) :
    contents h t c ≠ [] := by
  intro hnil
  have := List.flatMap_eq_nil_iff.1 hnil i (List.mem_range.2 hi)
  rw [entriesOf, hcell] at this
  cases this

theorem mem_getD_cell {a : ℕ} : a ∈ (c n).getD [] ↔ ∃ l, c n = some l ∧ a ∈ l := by
  cases c n with
  | none => simp
  | some l => simp

variable {hit : HashIterator}

/-- `hit_next` looks at one record of the heap. -/
theorem hitNext_congr (hlook : hit.chilum ≠ 0 → h'.lookup hit.chilum = h.lookup hit.chilum) :
    hitNext h' t hit = hitNext h t hit := by
  rw [hitNext, hitNext]
  generalize t.buckets - hit.bucket = k
  induction k generalizing hit with
  | zero => rfl
  | succ k ih =>
    simp only [hitNextFrom]
    by_cases h0 : hit.chilum = 0
    · rw [if_pos h0, if_pos h0, ih fun hne => absurd rfl hne]
    · rw [if_neg h0, if_neg h0, hlook h0]

/-- The offsets of all buckets are an `int`, as `hit_next` computes them. -/
def Scannable (t : IdHash) : Prop := (t.buckets - 1) * t.bucketLength < 2 ^ 31

section Next

variable (hs : Shape h t c) (hd : contents h t c ≠ [] → DataPlaced t) (hscan : Scannable t)
include hs

/-- A table has not more entries than buckets and records in the heap. -/
theorem length_contents_lt : (contents h t c).length < scanFuel h t := by
  have hnodup : ((List.range t.buckets).flatMap fun n => (c n).getD []).Nodup := by
    refine List.nodup_flatMap.2 ⟨fun n hn => ?_, ?_⟩
    · cases hcell : c n with
      | none => exact List.nodup_nil
      | some l => exact (hs.chain (List.mem_range.1 hn) hcell).nodup
    · refine List.nodup_range.imp_of_mem fun {n m} hn hm hne a ha ha' => hne ?_
      obtain ⟨l, hcn, ha⟩ := mem_getD_cell.1 ha
      obtain ⟨l', hcm, ha'⟩ := mem_getD_cell.1 ha'
      exact hs.apart n (List.mem_range.1 hn) m (List.mem_range.1 hm) l l' a hcn hcm ha ha'
  have hsub : ((List.range t.buckets).flatMap fun n => (c n).getD []) ⊆ h.keys := by
    intro a ha
    obtain ⟨n, hn, ha⟩ := List.mem_flatMap.1 ha
    obtain ⟨l, hcell, ha⟩ := mem_getD_cell.1 ha
    obtain ⟨r, hr⟩ := (hs.chain (List.mem_range.1 hn) hcell).exists_lookup ha
    rw [← AList.mem_keys, ← AList.lookup_isSome, hr]
    rfl
  have hheap := (List.subperm_of_subset hnodup hsub).length_le
  have hlen : ∀ k, ((List.range k).flatMap (entriesOf h t c)).length ≤
      k + ((List.range k).flatMap fun n => (c n).getD []).length := by
    intro k
    induction k with
    | zero => exact le_rfl
    | succ k ih =>
      have hone : (entriesOf h t c k).length ≤ 1 + ((c k).getD []).length := by
        rw [entriesOf, List.length_map]
        cases c k with
        | none => exact Nat.zero_le _
        | some l => simp [refs, Nat.add_comm]
      simp only [List.range_succ, List.flatMap_append, List.flatMap_singleton, List.length_append]
      omega
  have htotal := hlen t.buckets
  have hkeys : h.keys.length = h.entries.length := by simp [AList.keys, List.keys]
  rw [scanFuel]
  change ((List.range t.buckets).flatMap (entriesOf h t c)).length < _
  omega
include hd hscan

theorem hitNextFrom_sat {k : ℕ} (hk : t.buckets - i = k) :
    Sat Fault.Limit (hitNextFrom h t k ⟨i, 0⟩) (Yields h t c (entriesFrom h t c i)) := by
  induction k generalizing i with
  | zero => exact .ok (Or.inl ⟨entriesFrom_of_le (by omega), rfl⟩)
  | succ k ih =>
    have hi : i < t.buckets := by omega
    simp only [hitNextFrom, if_pos hi, if_pos trivial]
    have hsmall : i * t.bucketLength ≤ (t.buckets - 1) * t.bucketLength :=
      Nat.mul_le_mul_right _ (by omega)
    rw [if_neg (not_le.2 (hsmall.trans_lt hscan)), entriesFrom_of_lt hi]
    have hb := hs.bucket i hi
    cases hcell : c i with
    | none =>
      rw [hcell] at hb
      rw [if_pos (show t.bucketOverflow (t.array i) = emptyMark from hb), entriesOf, hcell]
      exact ih (by omega)
    | some l =>
      rw [hcell] at hb
      rw [if_neg hb.1, entriesOf, hcell, refs_some, List.map_cons, List.map_map,
        hitPair_eq hs.layout (hd (contents_ne_nil hi hcell))]
      exact .ok (Or.inr ⟨_, _, _, rfl, rfl, pending_next (l := []) hi hcell hb.2⟩)

/-- `hit_next` yields the first of the pending entries. -/
theorem hitNext_sat (hp : Pending h t c hit es) :
    Sat Fault.Limit (hitNext h t hit) (Yields h t c es) := by
  rcases hp with ⟨h0, rfl⟩ | ⟨l, l', hi, hcell, h0, hl, rfl⟩
  · have hhit : hit = ⟨hit.bucket, 0⟩ := by rw [← h0]
    rw [hitNext, hhit]
    exact hitNextFrom_sat hs hd hscan rfl
  · cases l' with
    | nil => exact absurd hl h0
    | cons a l' =>
      obtain ⟨ha, -, r, hr, hrest⟩ := hl
      obtain ⟨k, hk⟩ : ∃ k, t.buckets - hit.bucket = k + 1 := ⟨t.buckets - hit.bucket - 1, by omega⟩
      rw [hitNext, hk]
      simp only [hitNextFrom, if_pos hi, if_neg h0]
      rw [ha, hr]
      have hcell' : c hit.bucket = some ((l ++ [a]) ++ l') := by
        rw [hcell, List.append_assoc]
        rfl
      refine .ok (Or.inr ⟨_, _, _, rfl, ?_, pending_next hi hcell' hrest⟩)
      rw [hitPair_eq hs.layout (hd (contents_ne_nil hi hcell)), ← entryAt_ext hr]

/-- A loop over `hit_next` visits every entry, if its body leaves the table alone. -/
theorem hitLoop_sat {σ : Type} {heap : σ → Heap Record} {body : σ → Entry → Except Fault σ}
    {J : List Entry → σ → Prop}
    (hkeep : ∀ es s, J es s → ∀ a, c.Owns t.buckets a → (heap s).lookup a = h.lookup a)
    (hstep : ∀ e es s, J (e :: es) s → Sat Fault.Limit (body s e) (J es)) {fuel : ℕ} {s : σ}
    (hfuel : es.length < fuel) (hp : Pending h t c hit es) (hJ : J es s) :
    Sat Fault.Limit (hitLoop t heap body fuel hit s) (J []) := by
  induction fuel generalizing hit es s with
  | zero => exact absurd hfuel (Nat.not_lt_zero _)
  | succ fuel ih =>
    have hlook : hit.chilum ≠ 0 → (heap s).lookup hit.chilum = h.lookup hit.chilum := by
      intro h0
      rcases hp with ⟨h0', -⟩ | ⟨l, l', hi, hcell, -, hl, -⟩
      · exact absurd h0' h0
      · cases l' with
        | nil => exact absurd hl h0
        | cons a l' =>
          rw [hl.1]
          exact hkeep es s hJ a ⟨_, hi, _, hcell, List.mem_append_right _ List.mem_cons_self⟩
    rw [hitLoop, hitNext_congr hlook]
    refine (hitNext_sat hs hd hscan hp).bind ?_
    rintro o (⟨rfl, rfl⟩ | ⟨e, es, hit', rfl, rfl, hp'⟩)
    · exact .ok hJ
    · exact (hstep e es s hJ).bind fun s' hJ' => ih (Nat.lt_of_succ_lt_succ hfuel) hp' hJ'

/-- A full scan yields the entries of the table. -/
theorem scan_sat : Sat Fault.Limit (scan h t) fun l => l = contents h t c := by
  have hstart : Pending h t c idHashIterator (contents h t c) := Or.inl ⟨rfl, entriesFrom_zero.symm⟩
  have hloop : Sat Fault.Limit (scan h t) fun l => l ++ [] = contents h t c :=
    hitLoop_sat (J := fun es l => l ++ es = contents h t c) hs hd hscan (fun _ _ _ _ _ => rfl)
      (fun e es l hl => .ok ((List.append_assoc l [e] es).trans hl))
      (length_contents_lt hs) hstart (List.nil_append _)
  exact hloop.mono fun l hl => (List.append_nil l).symm.trans hl

end Next

end Scan

/-! ## Table sizes -/

theorem primetable_last : primetable.getD (primetable.length - 1) 0 = htMaxSz := by decide +kernel

/-- Between a prime below `n` and one that is not, the second one is large enough. -/
theorem le_primetable (hi : i ≤ primetable.length) (hlow : ∀ j, j + 1 = i → primetable.getD j 0 < n)
    (hhigh : i < primetable.length → n ≤ primetable.getD i 0) (hn : n ≤ htMaxSz) :
    n ≤ primetable.getD i 0 := by
  rcases Nat.lt_or_ge i primetable.length with hlt | hge
  · exact hhigh hlt
  · have hpos : 0 < primetable.length := List.length_pos_of_ne_nil (List.cons_ne_nil _ _)
    have hlast := hlow (primetable.length - 1) (by omega)
    rw [primetable_last] at hlast
    exact absurd hlast (not_lt.2 hn)

/-- The search of `hash_nextprime` ends at a prime that is large enough. -/
theorem le_nextprimeFrom {fuel lo hi : ℕ} (hfuel : hi - lo ≤ fuel) (hle : lo ≤ hi)
    (hhi : hi ≤ primetable.length) (hlow : ∀ j, j + 1 = lo → primetable.getD j 0 < n)
    (hhigh : hi < primetable.length → n ≤ primetable.getD hi 0) (hn : n ≤ htMaxSz) :
    n ≤ nextprimeFrom n fuel lo hi := by
  induction fuel generalizing lo hi with
  | zero =>
    obtain rfl : lo = hi := by omega
    exact le_primetable hhi hlow hhigh hn
  | succ fuel ih =>
    simp only [nextprimeFrom]
    split_ifs with hlt heq hless
    · exact le_rfl
    · exact ih (by omega) (by omega) (by omega) hlow fun _ => hless.le
    · refine ih (by omega) (by omega) hhi (fun j hj => ?_) hhigh
      rw [Nat.add_right_cancel hj]
      omega
    · obtain rfl : lo = hi := by omega
      exact le_primetable hhi hlow hhigh hn

theorem le_hashNextprime (hn : n ≤ htMaxSz) : n ≤ hashNextprime n := by
  rw [hashNextprime, if_neg (not_lt.2 hn)]
  exact le_nextprimeFrom (Nat.sub_le _ _) (Nat.zero_le _) le_rfl
    (fun i hi => absurd hi (Nat.succ_ne_zero i)) (fun h => absurd h (lt_irrefl _)) hn

theorem hashNextprime_of_lt (hn : htMaxSz < n) : hashNextprime n = htMaxSz := if_pos hn

/-- All tables have buckets. -/
theorem hashNextprime_pos (n : ℕ) : 0 < hashNextprime n := by
  rcases Nat.lt_or_ge htMaxSz n with hlt | hge
  · rw [hashNextprime_of_lt hlt]
    decide
  · rcases Nat.eq_zero_or_pos n with rfl | hpos
    · decide +kernel
    · exact hpos.trans_le (le_hashNextprime hge)

/-! ## New arrays -/

section New

variable {hashFunc : List UInt8 → ℕ} {cmp : List UInt8 → List UInt8 → Bool}
variable {h h' : Heap Record} {t : IdHash} {c : Cells} {key data : List UInt8}

/-- A new array has all bytes set, so that each bucket is marked empty. -/
theorem word_set (o : ℕ) : Block.word (fun _ => 255) o = emptyMark := by
  rw [Block.word, Block.slice, List.map_const', List.length_range']
  rfl

/-- A table with a new array. -/
structure IsNew (buckets keybytes databytes : ℕ) (t : IdHash) : Prop where
  layout : Layout t
  buckets_eq : t.buckets = buckets
  keyLength_eq : t.keyLength = keybytes
  dataLength_eq : t.dataLength = databytes
  array_eq : t.array = fun _ _ => 255
  count_eq : t.count = 0

theorem idHashAllocateInternals_spec {buckets keybytes databytes : ℕ}
    (hfit : next4 keybytes + next4 databytes + 8 < 2 ^ 15)
    (hsize : buckets * (next4 keybytes + next4 databytes + 8) < 2 ^ 32) :
    ∃ t, idHashAllocateInternals buckets keybytes databytes = .ok t ∧
      IsNew buckets keybytes databytes t := by
  rw [idHashAllocateInternals, if_neg (not_le.2 hfit), if_neg (not_le.2 hsize)]
  exact ⟨_, rfl, ⟨rfl, rfl, rfl, hfit⟩, rfl, rfl, rfl, rfl, rfl⟩

/-- A new table keeps the empty dictionary. -/
theorem IsNew.holds {buckets keybytes databytes : ℕ} (ht : IsNew buckets keybytes databytes t)
    (hashFunc : List UInt8 → ℕ) (cmp : List UInt8 → List UInt8 → Bool) (hpos : 0 < buckets)
    (h : Heap Record) :
    Holds hashFunc cmp h t (fun _ => none) ∧ contents h t (fun _ => none) = [] := by
  refine ⟨⟨⟨ht.layout, ht.buckets_eq ▸ hpos, fun n _ => ?_, ?_, ?_⟩, ?_, ?_⟩, ?_⟩
  · change Block.word (t.array n) t.extInx = emptyMark
    rw [ht.array_eq]
    exact word_set _
  · intro n _ m _ l l' a hl
    cases hl
  · rintro a ⟨n, _, l, hl, _⟩
    cases hl
  · intro n _ e he
    cases he
  · intro n _
    exact List.Pairwise.nil
  · exact List.flatMap_eq_nil_iff.2 fun _ _ => rfl

end New

/-! ## Rehashing -/

section Rehash

variable {hashFunc : List UInt8 → ℕ} {cmp : List UInt8 → List UInt8 → Bool}
variable {h h' : Heap Record} {t t' : IdHash} {c c' : Cells} {key data : List UInt8}

/-- A table of `b` buckets that is filled with up to `n` keys is rehashed to `b'` buckets. -/
def GrowsTo (threshold : ℤ) (n b b' : ℕ) : Prop :=
  ∃ k ≤ n, dueAt threshold b k = true ∧ b' = hashNextprime (b * 2)

/-- Every array that is made while a table is rehashed with `n` keys, and the tables made for
that are rehashed themselves, has a size in 32 bits, and those that are scanned for it have
offsets that are an `int`. -/
def RoomToGrow (t : IdHash) (n : ℕ) : Prop :=
  ∀ b b', Relation.ReflTransGen (GrowsTo t.rehashThreshold n) t.buckets b →
    GrowsTo t.rehashThreshold n b b' →
    (b - 1) * t.bucketLength < 2 ^ 31 ∧ b' * t.bucketLength < 2 ^ 32

/-- A table that grew to another with the same settings leaves the rest of the room to that. -/
theorem RoomToGrow.of_grown {n : ℕ} (hroom : RoomToGrow t n)
    (hthr : t'.rehashThreshold = t.rehashThreshold) (hlen : t'.bucketLength = t.bucketLength)
    (hgrown : Relation.ReflTransGen (GrowsTo t.rehashThreshold n) t.buckets t'.buckets) :
    RoomToGrow t' n := by
  intro b b' hb hb'
  rw [hthr] at hb hb'
  rw [hlen]
  exact hroom b b' (hgrown.trans hb) hb'

/-- The table has grown and keeps its dictionary. -/
structure Rehashed (hashFunc : List UInt8 → ℕ) (cmp : List UInt8 → List UInt8 → Bool)
    (h : Heap Record) (t : IdHash) (c : Cells) (n : ℕ) (s : Heap Record × IdHash) : Prop where
  count_eq : s.2.count = t.count
  threshold_eq : s.2.rehashThreshold = t.rehashThreshold
  le_buckets : t.buckets ≤ s.2.buckets
  grown : Relation.ReflTransGen (GrowsTo t.rehashThreshold n) t.buckets s.2.buckets
  became : ∃ c', Became hashFunc cmp h t c (contents h t c) s.1 s.2 c'

/-- `rehash` keeps the dictionary of every table that it can double `depth` times, with up to `n`
keys and room to grow. -/
def Rehashes (hashFunc : List UInt8 → ℕ) (cmp : List UInt8 → List UInt8 → Bool) (depth n : ℕ)
    (rehash : Heap Record → IdHash → ℕ → Except Fault (Heap Record × IdHash)) : Prop :=
  ∀ h t c, Holds hashFunc cmp h t c → DataPlaced t → RoomToGrow t n →
    (contents h t c).length ≤ n → t.count ≤ n → rehashDue t = true →
    idHtMaxSz ≤ t.buckets * 2 ^ depth →
    Sat Fault.Limit (rehash h t (t.buckets * 2)) (Rehashed hashFunc cmp h t c n)

variable {rehash : Heap Record → IdHash → ℕ → Except Fault (Heap Record × IdHash)} {depth n : ℕ}

theorem idCheckRehash_sat (hr : Rehashes hashFunc cmp depth n rehash)
    (hh : Holds hashFunc cmp h t c)
    (hd : rehashDue t = true → DataPlaced t ∧ RoomToGrow t n) (hlen : (contents h t c).length ≤ n)
    (hcount : t.count ≤ n) (hdepth : idHtMaxSz ≤ t.buckets * 2 ^ depth) :
    Sat Fault.Limit (idCheckRehash rehash h t) (Rehashed hashFunc cmp h t c n) := by
  rw [idCheckRehash]
  split_ifs with hdue
  · exact hr h t c hh (hd hdue).1 (hd hdue).2 hlen hcount hdue hdepth
  · exact .ok ⟨rfl, rfl, le_rfl, .refl, c, .refl hh⟩

/-- A new entry was added, perhaps after the table has grown. -/
structure Added (hashFunc : List UInt8 → ℕ) (cmp : List UInt8 → List UInt8 → Bool)
    (h : Heap Record) (t : IdHash) (c : Cells) (n : ℕ) (key data : List UInt8)
    (s : Heap Record × IdHash) : Prop where
  count_eq : s.2.count = (t.count + 1) % 2 ^ 32
  threshold_eq : s.2.rehashThreshold = t.rehashThreshold
  le_buckets : t.buckets ≤ s.2.buckets
  grown : Relation.ReflTransGen (GrowsTo t.rehashThreshold n) t.buckets s.2.buckets
  became : ∃ c', Became hashFunc cmp h t c (assign cmp (contents h t c) key data) s.1 s.2 c'

section Add

variable (hc : Consistent hashFunc cmp) (al : Allocator) (hr : Rehashes hashFunc cmp depth n rehash)
  (hh : Holds hashFunc cmp h t c) (hk : key.length = t.keyLength) (hdl : data.length = t.dataLength)
  (habs : Absent cmp (contents h t c) key) (hlen : (contents h t c).length ≤ n)
  (hcount : t.count ≤ n) (hdepth : idHtMaxSz ≤ t.buckets * 2 ^ depth)
include hc hr hh hk hdl habs hlen hcount hdepth

/-- A new entry, after a rehash if one is due. -/
theorem checkedAdd_sat (hd : rehashDue t = true → DataPlaced t ∧ RoomToGrow t n) :
    Sat Fault.Limit ((idCheckRehash rehash h t).bind fun s =>
      addRecord al s.1 s.2 key data (s.2.home (hashFunc key)))
        (Added hashFunc cmp h t c n key data) := by
  refine (idCheckRehash_sat hr hh hd hlen hcount hdepth).bind fun s hs => ?_
  obtain ⟨c₁, hb⟩ := hs.became
  have habs' := habs.perm hb.contents_perm.symm
  refine (addRecord_sat hc hb.holds al (hk.trans hb.keyLength.symm)
    (hdl.trans hb.dataLength.symm) habs').mono ?_
  rintro s' ⟨hcount', hthr, hsize, c₂, hb'⟩
  refine ⟨by rw [hcount', hs.count_eq], hthr.trans hs.threshold_eq, hs.le_buckets.trans hsize.ge,
    hsize.symm ▸ hs.grown, c₂, (hb.trans hb').perm ?_⟩
  exact assign_perm hb.contents_perm

theorem idHashAddNew_sat (hd : DataPlaced t) (hroom : RoomToGrow t n) :
    Sat Fault.Limit (idHashAddNew hashFunc cmp al rehash h t key data)
      (Added hashFunc cmp h t c n key data) := by
  have hget : idHashGetWithHashNumber cmp h t key (hashFunc key) = .ok none := by
    rw [idHashGetWithHashNumber_eq hh.shape]
    refine congrArg _ (List.find?_eq_none.2 fun ref href => ?_)
    have := habs _ (List.mem_flatMap.2
      ⟨_, List.mem_range.2 (hh.shape.home_lt (hashFunc key)), List.mem_map_of_mem href⟩)
    rw [this]
    exact Bool.false_ne_true
  have hadd := checkedAdd_sat hc al hr hh hk hdl habs hlen hcount hdepth fun _ => ⟨hd, hroom⟩
  rw [idHashAddNew, hget]
  cases t.allowDups with
  | true => exact hadd
  | false => exact hadd

end Add

/-- The state of a rehash: the entries of the old table that are still to come and those in
the new table make up the dictionary; the heap has only grown by records of the new table. -/
structure Refilling (hashFunc : List UInt8 → ℕ) (cmp : List UInt8 → List UInt8 → Bool)
    (h : Heap Record) (t : IdHash) (c : Cells) (depth n : ℕ) (es : List Entry)
    (s : Heap Record × IdHash) (c' : Cells) : Prop where
  holds : Holds hashFunc cmp s.1 s.2 c'
  count_le : s.2.count + es.length ≤ n
  threshold_eq : s.2.rehashThreshold = t.rehashThreshold
  reached : Relation.ReflTransGen (GrowsTo t.rehashThreshold n) t.buckets s.2.buckets
  contents_perm : (contents s.1 s.2 c' ++ es).Perm (contents h t c)
  keyLength : s.2.keyLength = t.keyLength
  dataLength : s.2.dataLength = t.dataLength
  depth_le : idHtMaxSz ≤ s.2.buckets * 2 ^ depth
  grown : t.buckets ≤ s.2.buckets
  keep : ∀ a, h.lookup a ≠ none → s.1.lookup a = h.lookup a
  own : ∀ a, c'.Owns s.2.buckets a → h.lookup a = none

theorem mem_contents_length (hs : Shape h t c) {e : Entry} (he : e ∈ contents h t c) :
    e.1.length = t.keyLength ∧ e.2.length = t.dataLength := by
  obtain ⟨n, hn, he⟩ := List.mem_flatMap.1 he
  obtain ⟨ref, href, rfl⟩ := List.mem_map.1 he
  obtain ⟨r, hr⟩ := hs.exists_fetch (List.mem_range.1 hn) href
  rw [entryAt, hr]
  exact ⟨Block.length_slice _ _ _, Block.length_slice _ _ _⟩

theorem Refilling.step (hc : Consistent hashFunc cmp) (al : Allocator)
    (hr : Rehashes hashFunc cmp depth n rehash) (hh : Holds hashFunc cmp h t c) (hd : DataPlaced t)
    (hroom : RoomToGrow t n) (hlen : (contents h t c).length ≤ n) {e : Entry}
    {s : Heap Record × IdHash} (hf : Refilling hashFunc cmp h t c depth n (e :: es) s c') :
    Sat Fault.Limit (idHashAddNew hashFunc cmp al rehash s.1 s.2 e.1 e.2) fun s =>
      ∃ c', Refilling hashFunc cmp h t c depth n es s c' := by
  have hmem : e ∈ contents h t c :=
    hf.contents_perm.mem_iff.1 (List.mem_append_right _ List.mem_cons_self)
  obtain ⟨hk, hdl⟩ := mem_contents_length hh.shape hmem
  have hdist : Distinct cmp (contents s.1 s.2 c' ++ e :: es) :=
    (hh.distinct hc).perm hc.keyEq hf.contents_perm.symm
  have habs : Absent cmp (contents s.1 s.2 c') e.1 := fun x hx =>
    (List.pairwise_append.1 hdist).2.2 x hx e List.mem_cons_self
  have hd' : DataPlaced s.2 := by
    rw [DataPlaced, hf.keyLength, hf.dataLength]
    exact hd
  have hsize : s.2.bucketLength = t.bucketLength := by
    rw [hf.holds.shape.layout.bucketLength_eq, hh.shape.layout.bucketLength_eq, hf.keyLength,
      hf.dataLength]
  have hlen' : (contents s.1 s.2 c').length ≤ n := by
    have := hf.contents_perm.length_eq
    rw [List.length_append] at this
    omega
  have hcount := hf.count_le
  rw [List.length_cons] at hcount
  refine (idHashAddNew_sat hc al hr hf.holds (hk.trans hf.keyLength.symm)
    (hdl.trans hf.dataLength.symm) habs hlen' (by omega) hf.depth_le hd'
    (hroom.of_grown hf.threshold_eq hsize hf.reached)).mono ?_
  rintro s' ⟨hcount', hthr, hgrow, hreach, c₁, hb⟩
  rw [hf.threshold_eq] at hreach
  refine ⟨c₁, hb.holds, ?_, hthr.trans hf.threshold_eq, hf.reached.trans hreach, ?_,
    hb.keyLength.trans hf.keyLength, hb.dataLength.trans hf.dataLength,
    hf.depth_le.trans (Nat.mul_le_mul_right _ hgrow), hf.grown.trans hgrow, fun a ha => ?_,
    fun a ha => ?_⟩
  · have := Nat.mod_le (s.2.count + 1) (2 ^ 32)
    omega
  · refine List.Perm.trans ?_ hf.contents_perm
    have hb' := hb.contents_perm
    rw [habs.assign] at hb'
    exact (hb'.append_right es).trans (List.perm_middle.symm)
  · have hsame := hf.keep a ha
    rw [hb.keep a (fun hown => ha (hf.own a hown)) (hsame ▸ ha), hsame]
  · rcases hb.own a ha with hown | hnone
    · exact hf.own a hown
    · by_contra hlive
      rw [hf.keep a hlive] at hnone
      exact hlive hnone

/-- The next size doubles the table, as far as the table of primes goes. -/
theorem depth_le_hashNextprime {b : ℕ} (hb : b < idHtMaxSz)
    (hdepth : idHtMaxSz ≤ b * 2 ^ (depth + 1)) :
    idHtMaxSz ≤ hashNextprime (b * 2) * 2 ^ depth ∧ b ≤ hashNextprime (b * 2) := by
  have hpow : 1 ≤ 2 ^ depth := Nat.one_le_two_pow
  rcases Nat.lt_or_ge htMaxSz (b * 2) with hlt | hge
  · rw [hashNextprime_of_lt hlt]
    have hmax : idHtMaxSz ≤ htMaxSz := by decide
    exact ⟨hmax.trans (Nat.le_mul_of_pos_right _ hpow), hb.le.trans hmax⟩
  · have hle := le_hashNextprime hge
    constructor
    · calc idHtMaxSz ≤ b * 2 ^ (depth + 1) := hdepth
        _ = b * 2 * 2 ^ depth := by rw [pow_succ, Nat.mul_comm (2 ^ depth), Nat.mul_assoc]
        _ ≤ hashNextprime (b * 2) * 2 ^ depth := Nat.mul_le_mul_right _ hle
    · omega

/-- The old table is given up for the new one. -/
theorem Refilling.finish (hh : Holds hashFunc cmp h t c) {s : Heap Record × IdHash}
    (hf : Refilling hashFunc cmp h t c depth n [] s c') :
    Sat Fault.Limit ((idHashClear s.1 t).bind fun old =>
        .ok (old.1, { t with array := s.2.array, buckets := s.2.buckets }))
      (Rehashed hashFunc cmp h t c n) := by
  have hold : Shape s.1 t c := hh.shape.congr fun a ha => hf.keep a (hh.shape.lookup_ne_none ha)
  obtain ⟨old, hclear, -, -, -, hkeep⟩ := idHashClear_spec hold
  rw [hclear]
  have hsame : ∀ a, c'.Owns s.2.buckets a → old.1.lookup a = s.1.lookup a := fun a ha =>
    hkeep a fun hown => hh.shape.lookup_ne_none hown (hf.own a ha)
  have hnew : Holds hashFunc cmp old.1 s.2 c' := by
    refine ⟨hf.holds.shape.congr hsame, ?_⟩
    have hs := hf.holds.split
    refine ⟨fun n hn e he => hs.place_eq n hn e ?_, fun n hn => ?_⟩
    · rwa [← entriesOf_congr (Alike.refl s.2) rfl rfl
        fun l hl a ha => hsame a ⟨n, hn, l, hl, ha⟩]
    · rw [entriesOf_congr (Alike.refl s.2) rfl rfl fun l hl a ha => hsame a ⟨n, hn, l, hl, ha⟩]
      exact hs.distinct n hn
  have hlay := hh.shape.layout
  have hlay' := hf.holds.shape.layout
  have ha : Alike s.2 { t with array := s.2.array, buckets := s.2.buckets } := by
    refine ⟨hf.keyLength.symm, hf.dataLength.symm, ?_, ?_, ?_, rfl⟩
    · rw [hlay'.dataInx_eq, hf.keyLength, ← hlay.dataInx_eq]
    · rw [hlay'.extInx_eq, hf.keyLength, hf.dataLength, ← hlay.extInx_eq]
    · rw [hlay'.bucketLength_eq, hf.keyLength, hf.dataLength, ← hlay.bucketLength_eq]
  refine .ok ⟨rfl, rfl, hf.grown, hf.reached, c', hnew.counters ha rfl, ?_, rfl, rfl,
    fun a ha hl => ?_, fun a ha => ?_⟩
  · have hperm := hf.contents_perm
    rw [List.append_nil] at hperm
    rw [contents, ha.entriesOf rfl]
    refine List.Perm.trans (List.Perm.of_eq ?_) hperm
    exact Shape.contents_congr hsame
  · exact (hkeep a ha).trans (hf.keep a hl)
  · exact Or.inr (hf.own a ha)

/-- Rehashing keeps the dictionary. -/
theorem idHashRehash_sat (hc : Consistent hashFunc cmp) (al : Allocator) (depth n : ℕ) :
    Rehashes hashFunc cmp depth n (idHashRehash hashFunc cmp al depth) := by
  induction depth with
  | zero =>
    intro h t c _ _ _ _ _ hdue hdepth
    rw [pow_zero, mul_one] at hdepth
    exact absurd (of_decide_eq_true hdue).2.1 (not_lt.2 hdepth)
  | succ depth ih =>
    intro h t c hh hd hroom hlen hcount hdue hdepth
    have hlt := (of_decide_eq_true hdue).2.1
    obtain ⟨hdepth', hgrow⟩ := depth_le_hashNextprime hlt hdepth
    rw [idHashRehash, if_neg (not_le.2 hlt)]
    split_ifs with hsame
    · exact .ok ⟨rfl, rfl, le_rfl, .refl, c, .refl hh⟩
    have hgrows : GrowsTo t.rehashThreshold n t.buckets (hashNextprime (t.buckets * 2)) :=
      ⟨t.count, hcount, hdue, rfl⟩
    obtain ⟨hscan, hsize⟩ := hroom _ _ .refl hgrows
    rw [hh.shape.layout.bucketLength_eq] at hsize
    obtain ⟨buf, halloc, hnew⟩ := idHashAllocateInternals_spec hh.shape.layout.fits hsize
    rw [halloc, Except.bind]
    obtain ⟨hbuf, hempty⟩ := hnew.holds hashFunc cmp (hh.shape.pos.trans_le hgrow) h
    have ha : Alike buf { buf with
      rehashThreshold := t.rehashThreshold, allowDups := t.allowDups } :=
        ⟨rfl, rfl, rfl, rfl, rfl, rfl⟩
    have hstart : Pending h t c idHashIterator (contents h t c) :=
      Or.inl ⟨rfl, entriesFrom_zero.symm⟩
    refine Sat.bind (hitLoop_sat
      (J := fun es s => ∃ c', Refilling hashFunc cmp h t c depth n es s c') hh.shape (fun _ => hd)
      hscan ?_ ?_ (length_contents_lt hh.shape) hstart ?_) fun s ⟨c', hf⟩ => hf.finish hh
    · rintro es s ⟨c', hf⟩ a ha
      exact hf.keep a (hh.shape.lookup_ne_none ha)
    · rintro e es s ⟨c', hf⟩
      exact hf.step hc al ih hh hd hroom hlen
    · refine ⟨fun _ => none, hbuf.counters ha rfl, ?_, rfl, ?_, ?_, hnew.keyLength_eq,
        hnew.dataLength_eq, ?_, ?_, fun _ _ => rfl, ?_⟩
      · change buf.count + _ ≤ n
        rw [hnew.count_eq, Nat.zero_add]
        exact hlen
      · rw [show _ = buf.buckets from rfl, hnew.buckets_eq]
        exact .single hgrows
      · change (contents h buf _ ++ _).Perm _
        rw [hempty]
        exact .refl _
      · rw [show _ = buf.buckets from rfl, hnew.buckets_eq]
        exact hdepth'
      · rw [show _ = buf.buckets from rfl, hnew.buckets_eq]
        exact hgrow
      · rintro a ⟨n, _, l, hl, _⟩
        cases hl

end Rehash

/-! ## Setting a key -/

section Set

variable {hashFunc : List UInt8 → ℕ} {cmp : List UInt8 → List UInt8 → Bool}
variable {h : Heap Record} {t : IdHash} {c : Cells} {key data : List UInt8}

/-- `id_hash_set` sets the data of the key. -/
theorem idHashSet_sat (hc : Consistent hashFunc cmp) (al : Allocator)
    (hh : Holds hashFunc cmp h t c) (hk : key.length = t.keyLength)
    (hdl : data.length = t.dataLength)
    (hd : Absent cmp (contents h t c) key → rehashDue t = true →
      DataPlaced t ∧ RoomToGrow t (contents h t c).length)
    (hcount : t.count = (contents h t c).length) :
    Sat Fault.Limit (idHashSet hashFunc cmp al h t key data) fun s =>
      s.2.count = (if (lookup cmp (contents h t c) key).isSome then t.count
        else (t.count + 1) % 2 ^ 32) ∧
      ∃ c', Became hashFunc cmp h t c (assign cmp (contents h t c) key data) s.1 s.2 c' := by
  have hdepth : idHtMaxSz ≤ t.buckets * 2 ^ rehashDepth :=
    le_trans (by decide) (Nat.le_mul_of_pos_left _ hh.shape.pos)
  have hlt := hh.shape.home_lt (hashFunc key)
  have hlookup := hh.lookup_home hc key
  rw [idHashSet, idHashGetWithHashNumber_eq hh.shape]
  cases hfind : (refs (t.home (hashFunc key)) (c (t.home (hashFunc key)))).find?
      fun ref => cmp (entryAt h t ref).1 key with
  | none =>
    have hnone : lookup cmp (contents h t c) key = none := by
      rw [hlookup, lookup_eq_none]
      intro e he
      obtain ⟨ref, href, rfl⟩ := List.mem_map.1 he
      simpa using List.find?_eq_none.1 hfind ref href
    rw [hnone]
    have habs := lookup_eq_none.1 hnone
    exact (checkedAdd_sat hc al (idHashRehash_sat hc al rehashDepth _) hh hk hdl habs le_rfl
      hcount.le hdepth (hd habs)).mono fun s hs => ⟨hs.count_eq, hs.became⟩
  | some ref =>
    have href := List.mem_of_find?_eq_some hfind
    have hcmp : cmp (entryAt h t ref).1 key = true := by
      have := List.find?_some hfind
      exact this
    obtain ⟨r, hr⟩ := hh.shape.exists_fetch hlt href
    have hsome := (hh.split.distinct _ hlt).lookup_map hc.keyEq href hcmp
    have hb := became_put hc hh hdl href hcmp hr
    rw [hlookup, entriesOf, hsome]
    change Sat Fault.Limit (writeData h t data ref) _
    rw [writeData, hr]
    refine .ok ⟨?_, c, hb⟩
    cases ref with
    | head m => rfl
    | ext a => rfl

end Set

end Virtuoso.Hash
