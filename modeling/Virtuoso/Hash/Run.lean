import Virtuoso.Hash.Rehash
import Virtuoso.Lib.Machine

/-!
# Tables as dictionaries

A table that is used through `id_hash_set`, `id_hash_get`, `id_hash_remove`,
`id_hash_get_and_remove`, `id_hash_clear`, full scans with `hit_next` and
`id_hash_set_rehash_pct` answers every call as a dictionary does that starts empty and to
which the same calls are made (`serves_of_careful`), as long as

* a scan, or a call that rehashes the table, is made only if the data lie right behind the
  keys, and
* the record of a bucket itself is only removed if the overflow pointer that replaces its
  own one agrees with it in the bytes that are not copied, and
* the number of keys fits the `uint32` counter, the sizes of the arrays that are allocated
  fit `uint32`, and the offsets in an array that is scanned fit `int`.

If both sizes are multiples of eight then only the last condition remains
(`Careful.of_dvd`).  Otherwise the answers go wrong: a scan yields the padding
and a removal leaves a pointer to no record behind (`padded_sizes_fail`).
-/

namespace Virtuoso.Hash

open Virtuoso.Lib Virtuoso.Lib.Dictionary

/-- The calls to a table with keys of `kb` and data of `db` bytes. -/
inductive Op (kb db : ℕ)
  | set (key : List.Vector UInt8 kb) (data : List.Vector UInt8 db)
  | get (key : List.Vector UInt8 kb)
  | remove (key : List.Vector UInt8 kb)
  | getAndRemove (key : List.Vector UInt8 kb)
  | clear
  | scan
  | setRehashPct (pct : ℕ)

/-- What a call returns, with the bytes that a returned pointer points to. -/
inductive Response
  | done
  | data (d : Option (List UInt8))
  | removed (found : Bool)
  | found (e : Option Entry)
  | pairs (l : List Entry)
  deriving DecidableEq

section Run

variable {kb db : ℕ}

section Exec

variable (hashFunc : List UInt8 → ℕ) (cmp : List UInt8 → List UInt8 → Bool)

def exec (al : Allocator) (h : Heap Record) (t : IdHash) :
    Op kb db → Except Fault ((Heap Record × IdHash) × Response)
  | .set key data => (idHashSet hashFunc cmp al h t key.val data.val).bind fun s => .ok (s, .done)
  | .get key => (idHashGet hashFunc cmp h t key.val).bind fun place =>
      .ok ((h, t), .data (place.bind fun ref => (fetch h t ref).map t.data))
  | .remove key => (idHashRemove hashFunc cmp h t key.val).bind fun s => .ok (s.2, .removed s.1)
  | .getAndRemove key =>
    (idHashGetAndRemove hashFunc cmp h t key.val).bind fun s => .ok (s.2, .found s.1)
  | .clear => (idHashClear h t).bind fun s => .ok (s, .done)
  | .scan => (scan h t).bind fun l => .ok ((h, t), .pairs l)
  | .setRehashPct pct => .ok ((h, idHashSetRehashPct t pct), .done)

/-- What a call does to a dictionary. -/
def dictStep (m : List Entry) : Op kb db → List Entry
  | .set key data => assign cmp m key.val data.val
  | .remove key | .getAndRemove key => Dictionary.remove cmp m key.val
  | .clear => []
  | .get _ | .scan | .setRehashPct _ => m

/-- What a call has to return. -/
def Answers (m : List Entry) : Op kb db → Response → Prop
  | .get key, r => r = .data ((lookup cmp m key.val).map Prod.snd)
  | .remove key, r => r = .removed (lookup cmp m key.val).isSome
  | .getAndRemove key, r => r = .found (lookup cmp m key.val)
  | .scan, r => ∃ l, r = .pairs l ∧ l.Perm m
  | .set _ _, r | .clear, r | .setRehashPct _, r => r = .done

/-- A table in its heap, and the dictionary that the calls so far describe. -/
structure Session where
  heap : Heap Record
  ht : IdHash
  dict : List Entry

/-- The runs of calls to the table `t`, each call with an allocator of its own. -/
def machine (kb db : ℕ) (heap : Heap Record) (t : IdHash) :
    Machine Session (Op kb db × Allocator) where
  Init s := s = ⟨heap, t, []⟩
  Step s a s' := (∃ r, exec hashFunc cmp a.2 s.heap s.ht a.1 = .ok ((s'.heap, s'.ht), r)) ∧
    s'.dict = dictStep cmp s.dict a.1

/-- The condition under which a call is carried out right. -/
def Careful (s : Session) : Op kb db → Prop
  | .set key _ => lookup cmp s.dict key.val = none →
      s.dict.length + 1 < 2 ^ 32 ∧
        (rehashDue s.ht = true → DataPlaced s.ht ∧ RoomToGrow s.ht s.dict.length)
  | .remove key | .getAndRemove key => HeadSafe hashFunc cmp s.heap s.ht key.val
  | .scan => (s.dict = [] ∨ DataPlaced s.ht) ∧ Scannable s.ht
  | .get _ | .clear | .setRehashPct _ => True

/-- The table behaves as the dictionary. -/
structure Serves (kb db : ℕ) (s : Session) : Prop where
  count_eq : s.ht.count = s.dict.length
  distinct : Distinct cmp s.dict
  answers : ∀ (op : Op kb db) (al : Allocator), Careful hashFunc cmp s op →
    Sat Fault.Limit (exec hashFunc cmp al s.heap s.ht op) fun r => Answers cmp s.dict op r.2

/-- The table keeps the dictionary. -/
structure Keeps (kb db : ℕ) (h : Heap Record) (t : IdHash) (m : List Entry) (c : Cells) :
    Prop where
  holds : Holds hashFunc cmp h t c
  contents_perm : (contents h t c).Perm m
  keyLength_eq : t.keyLength = kb
  dataLength_eq : t.dataLength = db
  count_eq : t.count = m.length
  length_lt : m.length < 2 ^ 32

end Exec

variable {hashFunc : List UInt8 → ℕ} {cmp : List UInt8 → List UInt8 → Bool}
variable {h : Heap Record} {t : IdHash} {m : List Entry} {c : Cells}

namespace Keeps

variable (hk : Keeps hashFunc cmp kb db h t m c)
include hk

/-- Counters and settings do not matter. -/
theorem of_alike {u : IdHash} (ha : Alike t u) (harr : u.array = t.array)
    (hcount : u.count = t.count) : Keeps hashFunc cmp kb db h u m c := by
  refine ⟨hk.holds.counters ha harr, ?_, ha.keyLength.trans hk.keyLength_eq,
    ha.dataLength.trans hk.dataLength_eq, hcount.trans hk.count_eq, hk.length_lt⟩
  rw [contents, ha.entriesOf harr, ha.buckets]
  exact hk.contents_perm

theorem of_threshold (threshold : ℤ) :
    Keeps hashFunc cmp kb db h { t with rehashThreshold := threshold } m c :=
  hk.of_alike ⟨rfl, rfl, rfl, rfl, rfl, rfl⟩ rfl rfl

/-- The table keeps what a call made of the dictionary. -/
theorem of_became {h' : Heap Record} {t' : IdHash} {c' : Cells} {m₁ m' : List Entry}
    (hb : Became hashFunc cmp h t c m₁ h' t' c') (hperm : m₁.Perm m')
    (hcount : t'.count = m'.length) (hlt : m'.length < 2 ^ 32) :
    Keeps hashFunc cmp kb db h' t' m' c' :=
  ⟨hb.holds, hb.contents_perm.trans hperm, hb.keyLength.trans hk.keyLength_eq,
    hb.dataLength.trans hk.dataLength_eq, hcount, hlt⟩

theorem clear_spec :
    ∃ s, idHashClear h t = .ok s ∧ ∃ c', Keeps hashFunc cmp kb db s.1 s.2 [] c' := by
  obtain ⟨s, hs, ha, hcount, hshape, -⟩ := idHashClear_spec hk.holds.shape
  refine ⟨s, hs, fun _ => none, ⟨hshape, ?_, ?_⟩, ?_, ha.keyLength.trans hk.keyLength_eq,
    ha.dataLength.trans hk.dataLength_eq, hcount, Nat.two_pow_pos 32⟩
  · intro n _ e he
    cases he
  · intro n _
    exact List.Pairwise.nil
  · exact List.Perm.of_eq (List.flatMap_eq_nil_iff.2 fun _ _ => rfl)

variable (hc : Consistent hashFunc cmp)
include hc

theorem distinct : Distinct cmp m :=
  (hk.holds.distinct hc).perm hc.keyEq hk.contents_perm

theorem lookup_eq (key : List UInt8) :
    lookup cmp (contents h t c) key = lookup cmp m key :=
  lookup_perm hc.keyEq (hk.holds.distinct hc) hk.contents_perm

theorem set_sat (al : Allocator) (key : List.Vector UInt8 kb) (data : List.Vector UInt8 db)
    (hok : Careful hashFunc cmp ⟨h, t, m⟩ (.set key data)) :
    Sat Fault.Limit (idHashSet hashFunc cmp al h t key.val data.val) fun s =>
      ∃ c', Keeps hashFunc cmp kb db s.1 s.2 (assign cmp m key.val data.val) c' := by
  have hlook := hk.lookup_eq hc key.val
  have hokey : key.val.length = t.keyLength := key.property.trans hk.keyLength_eq.symm
  have hodata : data.val.length = t.dataLength := data.property.trans hk.dataLength_eq.symm
  have hlen := hk.contents_perm.length_eq
  have hplaced : Absent cmp (contents h t c) key.val → rehashDue t = true →
      DataPlaced t ∧ RoomToGrow t (contents h t c).length := by
    intro habs
    rw [hlen]
    exact (hok (hlook.symm.trans (lookup_eq_none.2 habs))).2
  refine (idHashSet_sat hc al hk.holds hokey hodata hplaced (hk.count_eq.trans hlen.symm)).mono ?_
  rintro s ⟨hcount, c', hb⟩
  have hperm : (assign cmp (contents h t c) key.val data.val).Perm
      (assign cmp m key.val data.val) := assign_perm hk.contents_perm
  have hlen : (assign cmp m key.val data.val).length =
    if (lookup cmp m key.val).isSome then m.length else m.length + 1 := length_assign
  rw [hlook] at hcount
  cases hl : lookup cmp m key.val with
  | none =>
    have hfit := (hok hl).1
    rw [hl, Option.isSome_none, if_neg Bool.false_ne_true] at hlen hcount
    refine ⟨c', hk.of_became hb hperm ?_ (hlen ▸ hfit)⟩
    rw [hcount, hlen, hk.count_eq]
    exact Nat.mod_eq_of_lt hfit
  | some e =>
    rw [hl, Option.isSome_some, if_pos rfl] at hlen hcount
    exact ⟨c', hk.of_became hb hperm (by rw [hcount, hlen, hk.count_eq]) (hlen ▸ hk.length_lt)⟩

theorem remove_spec {key : List UInt8} (hok : HeadSafe hashFunc cmp h t key) :
    ∃ s c', removeEntry hashFunc cmp h t key = .ok s ∧ s.1 = lookup cmp m key ∧
      Keeps hashFunc cmp kb db s.2.1 s.2.2 (Dictionary.remove cmp m key) c' := by
  obtain ⟨s, c', hs, hfound, hcount, hb⟩ := removeEntry_spec hc hk.holds hok
  rw [hk.lookup_eq hc] at hfound
  refine ⟨s, c', hs, hfound, ?_⟩
  have hlen := (hk.distinct hc).length_remove hc.keyEq (k := key)
  have hlt := hk.length_lt
  rw [hfound, hk.count_eq] at hcount
  refine hk.of_became hb (remove_perm hk.contents_perm) ?_ (by omega)
  rw [hcount]
  cases hl : lookup cmp m key with
  | none =>
    rw [hl, Option.isSome_none, if_neg Bool.false_ne_true] at hlen
    rw [Option.isSome_none, if_neg Bool.false_ne_true]
    omega
  | some e =>
    rw [hl, Option.isSome_some, if_pos rfl] at hlen
    rw [Option.isSome_some, if_pos rfl]
    omega

theorem get_eq (key : List UInt8) :
    ∃ place, idHashGet hashFunc cmp h t key = .ok place ∧
      (place.bind fun ref => (fetch h t ref).map t.data) = (lookup cmp m key).map Prod.snd := by
  have hlt := hk.holds.shape.home_lt (hashFunc key)
  have hlook := (hk.lookup_eq hc key).symm.trans (hk.holds.lookup_home hc key)
  refine ⟨_, idHashGetWithHashNumber_eq hk.holds.shape key (hashFunc key), ?_⟩
  rw [hlook, lookup, entriesOf, List.find?_map]
  cases hfind : (refs (t.home (hashFunc key)) (c (t.home (hashFunc key)))).find?
      fun ref => cmp (entryAt h t ref).1 key with
  | none =>
    rw [show List.find? ((fun e : Entry => cmp e.1 key) ∘ entryAt h t) _ = none from hfind]; rfl
  | some ref =>
    obtain ⟨r, hr⟩ := hk.holds.shape.exists_fetch hlt (List.mem_of_find?_eq_some hfind)
    rw [show List.find? ((fun e : Entry => cmp e.1 key) ∘ entryAt h t) _ = some ref from hfind,
      Option.bind_some, Option.map_some, Option.map_some, hr, entryAt, hr]
    rfl

/-- A call under its condition is answered right and keeps the dictionary. -/
theorem exec_sat (op : Op kb db) (al : Allocator) (hok : Careful hashFunc cmp ⟨h, t, m⟩ op) :
    Sat Fault.Limit (exec hashFunc cmp al h t op) fun r => Answers cmp m op r.2 ∧
      ∃ c', Keeps hashFunc cmp kb db r.1.1 r.1.2 (dictStep cmp m op) c' := by
  cases op with
  | set key data =>
    rw [exec]
    exact (hk.set_sat hc al key data hok).bind fun s hs => .ok ⟨rfl, hs⟩
  | get key =>
    obtain ⟨place, hplace, hdata⟩ := hk.get_eq hc key.val
    rw [exec, hplace]
    exact .ok ⟨congrArg _ hdata, c, hk⟩
  | remove key =>
    obtain ⟨s, c', hs, hfound, hk'⟩ := hk.remove_spec hc hok
    rw [exec, idHashRemove, hs]
    exact .ok ⟨congrArg (fun o : Option Entry => Response.removed o.isSome) hfound, c', hk'⟩
  | getAndRemove key =>
    obtain ⟨s, c', hs, hfound, hk'⟩ := hk.remove_spec hc hok
    rw [exec, idHashGetAndRemove, hs]
    exact .ok ⟨congrArg _ hfound, c', hk'⟩
  | clear =>
    obtain ⟨s, hs, c', hk'⟩ := hk.clear_spec
    rw [exec, hs]
    exact .ok ⟨rfl, c', hk'⟩
  | scan =>
    have hplaced : contents h t c ≠ [] → DataPlaced t := fun hne =>
      hok.1.resolve_left fun hnil => hne (List.perm_nil.1 (hnil ▸ hk.contents_perm))
    rw [exec]
    refine (scan_sat hk.holds.shape hplaced hok.2).bind fun l hl => .ok ⟨⟨l, rfl, ?_⟩, c, hk⟩
    rw [hl]
    exact hk.contents_perm
  | setRehashPct pct =>
    rw [exec]
    exact .ok ⟨rfl, c, hk.of_threshold _⟩

end Keeps

/-- What a run of careful calls keeps. -/
theorem keeps_of_careful (hc : Consistent hashFunc cmp) {heap : Heap Record}
    (hstart : ∃ c, Keeps hashFunc cmp kb db heap t [] c) {s : Session}
    (hs : (machine hashFunc cmp kb db heap t).Reach
      (fun s a => Careful hashFunc cmp s a.1) s) :
    ∃ c, Keeps hashFunc cmp kb db s.heap s.ht s.dict c := by
  refine Machine.Reach.invariant (I := fun s : Session =>
    ∃ c, Keeps hashFunc cmp kb db s.heap s.ht s.dict c) ?_ ?_ hs
  · rintro s rfl
    exact hstart
  · rintro s a s' ⟨c, hk⟩ hok ⟨⟨r, hr⟩, hdict⟩
    have hsat := hk.exec_sat hc a.1 a.2 hok
    rw [hr] at hsat
    rw [hdict]
    exact hsat.of_ok.2

/-- A new table keeps the empty dictionary. -/
theorem IsNew.keeps {buckets : ℕ} (ht : IsNew buckets kb db t) (hpos : 0 < buckets)
    (heap : Heap Record) : ∃ c, Keeps hashFunc cmp kb db heap t [] c := by
  obtain ⟨hh, hnil⟩ := ht.holds hashFunc cmp hpos heap
  exact ⟨_, hh, List.Perm.of_eq hnil, ht.keyLength_eq, ht.dataLength_eq, ht.count_eq,
    Nat.two_pow_pos 32⟩

/-- In every run of careful calls to a new table, every careful call is answered as by the
dictionary, or there is no memory for it. -/
theorem serves_of_careful (hc : Consistent hashFunc cmp) (buckets kb db : ℕ)
    (hfit : next4 kb + next4 db + 8 < 2 ^ 15)
    (hsize : min (hashNextprime buckets) idHtMaxSz * (next4 kb + next4 db + 8) < 2 ^ 32)
    (heap : Heap Record) :
    ∃ t, idHashAllocate buckets kb db = .ok t ∧ ∀ s,
      (machine hashFunc cmp kb db heap t).Reach (fun s a => Careful hashFunc cmp s a.1) s →
      Serves hashFunc cmp kb db s := by
  have hpos : 0 < min (hashNextprime buckets) idHtMaxSz :=
    lt_min (hashNextprime_pos buckets) (by decide)
  obtain ⟨t, halloc, hnew⟩ := idHashAllocateInternals_spec hfit hsize
  refine ⟨t, halloc, fun s hs => ?_⟩
  obtain ⟨c, hk⟩ := keeps_of_careful hc (hnew.keeps hpos heap) hs
  exact ⟨hk.count_eq, hk.distinct hc, fun op al hok =>
    (hk.exec_sat hc op al hok).mono fun r hr => hr.1⟩

/-- With sizes that are multiples of eight, only the numbers of keys and buckets matter. -/
theorem Careful.of_dvd {s : Session} (hk : 8 ∣ s.ht.keyLength) (hd : 8 ∣ s.ht.dataLength)
    (hext : s.ht.extInx = next4 s.ht.keyLength + next4 s.ht.dataLength)
    (hlen : s.dict.length + 1 < 2 ^ 32) (hscan : Scannable s.ht)
    (hroom : rehashDue s.ht = true → RoomToGrow s.ht s.dict.length) (op : Op kb db) :
    Careful hashFunc cmp s op := by
  have hsafe : ∀ key, HeadSafe hashFunc cmp s.heap s.ht key := by
    intro key _ _ r _
    have hcopied : s.ht.copiedOverflow = 8 := by
      rw [IdHash.copiedOverflow, hext, next4, next4]
      omega
    have hzero : ∀ r : Record, r.word s.ht.extInx / 256 ^ 8 = 0 := fun r =>
      Nat.div_eq_of_lt (Block.word_lt r s.ht.extInx)
    rw [hcopied, IdHash.bucketOverflow, IdHash.bucketOverflow, hzero, hzero]
  cases op with
  | set key data => exact fun _ => ⟨hlen, fun hdue => ⟨.inl hk, hroom hdue⟩⟩
  | remove key => exact hsafe key.val
  | getAndRemove key => exact hsafe key.val
  | scan => exact ⟨.inr (.inl hk), hscan⟩
  | get key => trivial
  | clear => trivial
  | setRehashPct pct => trivial

/-! ### A run of several calls -/

/-- Keys that are compared byte by byte, all in one bucket. -/
theorem consistent_beq : Consistent (fun _ => 0) (fun a b : List UInt8 => a == b) :=
  ⟨⟨fun a => beq_self_eq_true a, fun a b hab => by rw [eq_of_beq hab]; exact beq_self_eq_true b,
    fun a b c hab hbc => by rw [eq_of_beq hab]; exact hbc⟩, fun _ _ _ => rfl⟩

/-- A small table with sizes that are multiples of eight, which is not due to be rehashed. -/
def Calm (s : Session) : Prop :=
  8 ∣ s.ht.keyLength ∧ 8 ∣ s.ht.dataLength ∧
    s.ht.extInx = next4 s.ht.keyLength + next4 s.ht.dataLength ∧ s.dict.length + 1 < 2 ^ 32 ∧
    (s.ht.buckets - 1) * s.ht.bucketLength < 2 ^ 31 ∧ rehashDue s.ht = false

instance (s : Session) : Decidable (Calm s) := inferInstanceAs (Decidable (_ ∧ _))

theorem Calm.careful {s : Session} (h : Calm s) (op : Op kb db) : Careful hashFunc cmp s op := by
  obtain ⟨hk, hd, hext, hlen, hscan, hdue⟩ := h
  exact .of_dvd hk hd hext hlen hscan (fun h => absurd (hdue.symm.trans h) Bool.false_ne_true) op

/-- A call to a calm table, if it is carried out. -/
def calmCall (hashFunc : List UInt8 → ℕ) (cmp : List UInt8 → List UInt8 → Bool) (al : Allocator)
    (s : Session) (op : Op kb db) : Option Session :=
  if Calm s then
    match exec hashFunc cmp al s.heap s.ht op with
    | .ok r => some ⟨r.1.1, r.1.2, dictStep cmp s.dict op⟩
    | .error _ => none
  else none

/-- A run of calm calls is one of careful calls. -/
theorem reach_calmCalls {heap : Heap Record} {t : IdHash} (al : Allocator) (ops : List (Op kb db))
    {s s' : Session}
    (hs : (machine hashFunc cmp kb db heap t).Reach (fun s a => Careful hashFunc cmp s a.1) s)
    (hrun : ops.foldlM (calmCall hashFunc cmp al) s = some s') :
    (machine hashFunc cmp kb db heap t).Reach (fun s a => Careful hashFunc cmp s a.1) s' := by
  induction ops generalizing s with
  | nil =>
    obtain rfl : s = s' := Option.some.inj hrun
    exact hs
  | cons op ops ih =>
    obtain ⟨s₁, hcall, hrun⟩ := Option.bind_eq_some_iff.1 (List.foldlM_cons.symm.trans hrun)
    rw [calmCall] at hcall
    split_ifs at hcall with hcalm
    split at hcall
    next r hexec =>
      obtain rfl := Option.some.inj hcall
      exact ih (hs.step (a := (op, al)) (hcalm.careful op) ⟨⟨r.2, hexec⟩, rfl⟩) hrun
    next => cases hcall

end Run

/-! ## Sizes that are no multiples of eight -/

/-- An allocator that hands out records with all bytes zero, one after the other from `base`
on, as long as they have addresses in the lower half of the address space. -/
def bumpAllocator (base : ℕ) (hbase : 0 < base) : Allocator where
  alloc h :=
    if h.lookup (base + 32 * h.entries.length) = none ∧
        base + 32 * h.entries.length < 2 ^ 63 then
      some (base + 32 * h.entries.length, fun _ => 0)
    else none
  fresh h a r hr := by
    split_ifs at hr with hok
    obtain ⟨rfl, -⟩ := Prod.mk.inj (Option.some.inj hr)
    exact ⟨hok.1, by omega, by omega⟩

/-- Three keys in one bucket, one of which gets new data, and the removal of the bucket's own
record. -/
def threeKeys : List (Op 8 8) :=
  [.set ⟨[1, 0, 0, 0, 0, 0, 0, 0], rfl⟩ ⟨[1, 1, 1, 1, 1, 1, 1, 1], rfl⟩,
    .set ⟨[2, 0, 0, 0, 0, 0, 0, 0], rfl⟩ ⟨[2, 2, 2, 2, 2, 2, 2, 2], rfl⟩,
    .set ⟨[3, 0, 0, 0, 0, 0, 0, 0], rfl⟩ ⟨[3, 3, 3, 3, 3, 3, 3, 3], rfl⟩,
    .set ⟨[2, 0, 0, 0, 0, 0, 0, 0], rfl⟩ ⟨[9, 9, 9, 9, 9, 9, 9, 9], rfl⟩,
    .remove ⟨[1, 0, 0, 0, 0, 0, 0, 0], rfl⟩, .scan]

/-- The table after these calls behaves as the dictionary of the two keys that are left. -/
theorem serves_three_keys :
    ∃ t s, idHashAllocate 11 8 8 = .ok t ∧
      (machine (fun _ => 0) (fun a b => a == b) 8 8 ∅ t).Reach
        (fun s a => Careful (fun _ => 0) (fun a b => a == b) s a.1) s ∧
      s.dict = [([3, 0, 0, 0, 0, 0, 0, 0], [3, 3, 3, 3, 3, 3, 3, 3]),
        ([2, 0, 0, 0, 0, 0, 0, 0], [9, 9, 9, 9, 9, 9, 9, 9])] ∧
      Serves (fun _ => 0) (fun a b : List UInt8 => a == b) 8 8 s := by
  obtain ⟨t, halloc, hserves⟩ := serves_of_careful consistent_beq 11 8 8 (by decide)
    (by decide +kernel) ∅
  have hrun : ((idHashAllocate 11 8 8).toOption.bind fun t =>
      (threeKeys.foldlM (calmCall (fun _ => 0) (fun a b => a == b)
        (bumpAllocator 0x7f0000000010 (by decide))) ⟨∅, t, []⟩).map Session.dict) =
      some [([3, 0, 0, 0, 0, 0, 0, 0], [3, 3, 3, 3, 3, 3, 3, 3]),
        ([2, 0, 0, 0, 0, 0, 0, 0], [9, 9, 9, 9, 9, 9, 9, 9])] := by
    decide +kernel
  rw [halloc] at hrun
  obtain ⟨s, hs, hdict⟩ := Option.map_eq_some_iff.1 hrun
  have hreach := reach_calmCalls _ threeKeys (.init rfl) hs
  exact ⟨t, s, halloc, hreach, hdict, hserves s hreach⟩

def responses (hashFunc : List UInt8 → ℕ) (cmp : List UInt8 → List UInt8 → Bool) {kb db : ℕ}
    (al : Allocator) : Heap Record → IdHash → List (Op kb db) → Except Fault (List Response)
  | _, _, [] => .ok []
  | h, t, op :: ops => (exec hashFunc cmp al h t op).bind fun r =>
      (responses hashFunc cmp al r.1.1 r.1.2 ops).map (r.2 :: ·)

def faultOf {α : Type} : Except Fault α → Option Fault
  | .ok _ => none
  | .error e => some e

/-- One entry in a table for keys and data of four bytes. -/
def setThenScan : List (Op 4 4) := [.set ⟨[1, 2, 3, 4], rfl⟩ ⟨[5, 6, 7, 8], rfl⟩, .scan]

/-- Two keys of four bytes in one bucket, of which the first one is removed, and a lookup
of the removed key. -/
def removeThenGet : List (Op 4 8) :=
  [.set ⟨[1, 2, 3, 4], rfl⟩ ⟨[5, 6, 7, 8, 9, 10, 11, 12], rfl⟩,
    .set ⟨[1, 2, 3, 5], rfl⟩ ⟨[5, 6, 7, 8, 9, 10, 11, 12], rfl⟩,
    .remove ⟨[1, 2, 3, 4], rfl⟩, .get ⟨[1, 2, 3, 4], rfl⟩]

/-- The scan yields the padding behind the key for the data, and the lookup of a removed key
follows a pointer made of the bytes of two. -/
theorem padded_sizes_fail :
    ((idHashAllocate 11 4 4).bind fun t => responses (fun _ => 0) (fun a b => a == b)
        (bumpAllocator 0x7f0000000010 (by decide)) ∅ t setThenScan).toOption =
      some [.done, .pairs [([1, 2, 3, 4], [255, 255, 255, 255])]] ∧
    setThenScan.foldl (dictStep fun a b => a == b) [] = [([1, 2, 3, 4], [5, 6, 7, 8])] ∧
    faultOf ((idHashAllocate 11 4 8).bind fun t => responses (fun _ => 0) (fun a b => a == b)
        (bumpAllocator 0x7f0000000010 (by decide)) ∅ t removeThenGet) = some .wild ∧
    lookup (fun a b : List UInt8 => a == b)
      (removeThenGet.foldl (dictStep fun a b => a == b) []) [1, 2, 3, 4] = none := by
  decide +kernel

end Virtuoso.Hash
