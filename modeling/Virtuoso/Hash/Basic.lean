import Mathlib.Data.Vector.Basic
import Virtuoso.Lib.Bytes
import Virtuoso.Lib.Chain

/-!
# Hash tables of byte records

`id_hash_t` (`Dkhashext.c`, `Dkhashext_template.c`) keeps fixed size keys and data in an
array of buckets.  A bucket is one record of raw bytes: the key, the data, each padded to
the size of a pointer, and a pointer to the first overflow record.  An overflow pointer of
`-1` marks a bucket empty, a null pointer ends its chain.

The records are modelled as the bytes they are, since the functions compute the offsets in
them in different ways: `id_hash_get` and `id_hash_set` use the padded sizes (`ht_data_inx`,
`ht_ext_inx`), `hit_next` finds the data right behind the *unpadded* key, and the removal of
a bucket's own record copies the *unpadded* number of bytes over it.

The pointers are eight bytes, the lowest first.  The bucket array is a function of the
bucket's number, the overflow records lie in a heap shared with all other tables.  A pointer
to no record, a walk that never ends and a fatal error of the source are a `Fault`.

Not modelled are the fields that only the dictionary functions of the SQL runtime read
(reference counter, version, limits, lock, free hook) and the statistics output.
-/

namespace Virtuoso.Hash

open Virtuoso.Lib

/-- A record: padded key, padded data, overflow pointer. -/
abbrev Record := Block

/-- A key with its data. -/
abbrev Entry := List UInt8 × List UInt8

/-- What can go wrong. -/
inductive Fault
  /-- A pointer that points to no record is followed. -/
  | wild
  /-- A chain of overflow records does not end. -/
  | loop
  /-- `GPF_T1 ("id_hash_add_new with an existing key")`. -/
  | existingKey
  /-- The lengths do not fit the `short` members of the table. -/
  | short
  /-- More nested rehashes than there are sizes to grow to. -/
  | deep
  /-- The offset of a bucket or the size of the array exceeds the integers it is computed in. -/
  | tooLarge
  /-- The allocator has no memory left. -/
  | noMemory
  deriving DecidableEq

/-- The one fault that is not of the table's making. -/
def Fault.Limit (e : Fault) : Prop := e = .noMemory

/-- `id_hash_t`, without the prefix `ht_`. -/
structure IdHash where
  keyLength : ℕ
  dataLength : ℕ
  buckets : ℕ
  bucketLength : ℕ
  dataInx : ℕ
  extInx : ℕ
  allowDups : Bool
  /-- `ht_array`, by the number of the bucket. -/
  array : ℕ → Record
  inserts : ℕ
  deletes : ℕ
  overflows : ℕ
  /-- A `uint32`. -/
  count : ℕ
  /-- A `short`. -/
  rehashThreshold : ℤ

/-- `dk_alloc` for overflow records: from the records in use, the address and the bytes
found in a record that is not in use. -/
structure Allocator where
  alloc : Heap Record → Option (ℕ × Record)
  fresh : ∀ h a r, alloc h = some (a, r) → h.lookup a = none ∧ a ≠ 0 ∧ a < 2 ^ 64 - 1

/-- `NEXT4`: round up to the size of a pointer. -/
def next4 (x : ℕ) : ℕ := (x + 7) / 8 * 8

/-- The overflow pointer of an empty bucket, `(char *) -1L`. -/
def emptyMark : ℕ := 2 ^ 64 - 1

namespace IdHash

def key (t : IdHash) (r : Record) : List UInt8 := r.slice 0 t.keyLength

def data (t : IdHash) (r : Record) : List UInt8 := r.slice t.dataInx t.dataLength

/-- `BUCKET_OVERFLOW` -/
def bucketOverflow (t : IdHash) (r : Record) : ℕ := r.word t.extInx

/-- `BUCKET_IS_EMPTY` -/
def bucketIsEmpty (t : IdHash) (n : ℕ) : Bool := t.bucketOverflow (t.array n) = emptyMark

def putHead (t : IdHash) (n : ℕ) (r : Record) : IdHash :=
  { t with array := Function.update t.array n r }

/-- A record with its key, data and overflow pointer written. -/
def fill (t : IdHash) (r : Record) (key data : List UInt8) (ext : ℕ) : Record :=
  ((r.blit 0 key).blit t.dataInx data).setWord t.extInx ext

end IdHash

/-! ## Table sizes -/

/-- `primetable` -/
def primetable : List ℕ :=
  [11, 13, 17, 19, 23, 29, 31, 37, 41, 47, 53, 59, 67, 71, 79, 83, 89, 97, 103, 109, 127, 137, 149,
    157, 167, 179, 191, 211, 223, 239, 251, 269, 283, 307, 331, 349, 367, 389, 409, 431, 457, 487,
    521, 557, 587, 617, 653, 691, 727, 769, 809, 853, 907, 953, 1009, 1061, 1117, 1181, 1249, 1319,
    1399, 1471, 1549, 1627, 1709, 1801, 1901, 1997, 2099, 2207, 2333, 2459, 2591, 2729, 2879, 3023,
    3181, 3343, 3511, 3691, 3877, 4073, 4283, 4507, 4733, 4973, 5227, 5501, 5779, 6073, 6379, 6701,
    7039, 7393, 7789, 8179, 8597, 9029, 9491, 9967, 10477, 11003, 11579, 12161, 12781, 13421, 14107,
    14813, 15559, 16339, 17159, 18041, 18947, 19913, 20921, 21977, 23081, 24239, 25453, 26729,
    28069, 29473, 30949, 32497, 34123, 35831, 37633, 39521, 41507, 43591, 45779, 48073, 50497,
    53047, 55711, 58511, 61441, 64553, 67783, 71191, 74759, 78497, 82457, 86587, 90917, 95467,
    100267, 105319, 110587, 116131, 121949, 128047, 134471, 141199, 148279, 155693, 163481, 171659,
    180247, 189271, 198761, 208721, 219169, 230137, 241651, 253741, 266447, 279779, 293773, 308467,
    323899, 340103, 357109, 374977, 393727, 413417, 434107, 455827, 478627, 502591, 527729, 554117,
    581843, 610957, 641513, 673609, 707293, 742663, 779797, 818813, 859783, 902777, 947917, 995327,
    1045111, 1097377, 1152287, 1209931, 1270429, 1333963, 1400669, 1470709, 1544311, 1621537,
    1702627, 1787783, 1877177, 1971049]

/-- The biggest value `hash_nextprime` returns. -/
def htMaxSz : ℕ := 1971049

/-- The number of buckets from which on a table is not rehashed. -/
def idHtMaxSz : ℕ := 1045111

/-- The binary search of `hash_nextprime`; `last` is kept as the position behind it. -/
def nextprimeFrom (n : ℕ) : ℕ → ℕ → ℕ → ℕ
  | 0, _, hi => primetable.getD hi 0
  | fuel + 1, lo, hi =>
    if lo < hi then
      let p := lo + (hi - 1 - lo) / 2
      if n = primetable.getD p 0 then n
      else if n < primetable.getD p 0 then nextprimeFrom n fuel lo p
      else nextprimeFrom n fuel (p + 1) hi
    else primetable.getD hi 0

def hashNextprime (n : ℕ) : ℕ :=
  if htMaxSz < n then htMaxSz else nextprimeFrom n primetable.length 0 primetable.length

/-- `ID_HASH_ALLOCATE_INTERNALS`.  The size of the array is a `uint32`. -/
def idHashAllocateInternals (buckets keybytes databytes : ℕ) : Except Fault IdHash :=
  if 2 ^ 15 ≤ next4 keybytes + next4 databytes + 8 then .error .short
  else if 2 ^ 32 ≤ buckets * (next4 keybytes + next4 databytes + 8) then .error .tooLarge
  else .ok
    { keyLength := keybytes
      dataLength := databytes
      buckets := buckets
      bucketLength := next4 keybytes + next4 databytes + 8
      dataInx := next4 keybytes
      extInx := next4 keybytes + next4 databytes
      allowDups := false
      array := fun _ _ => 255
      inserts := 0
      deletes := 0
      overflows := 0
      count := 0
      rehashThreshold := 0 }

def idHashAllocate (buckets keybytes databytes : ℕ) : Except Fault IdHash :=
  idHashAllocateInternals (min (hashNextprime buckets) idHtMaxSz) keybytes databytes

/-! ## Lookup -/

/-- Where a record lies: in the bucket array or in the heap. -/
inductive Ref
  | head (n : ℕ)
  | ext (a : ℕ)
  deriving DecidableEq

def fetch (h : Heap Record) (t : IdHash) : Ref → Option Record
  | .head n => some (t.array n)
  | .ext a => h.lookup a

def put (h : Heap Record) (t : IdHash) (r : Record) : Ref → Heap Record × IdHash
  | .head n => (h, t.putHead n r)
  | .ext a => (h.insert a r, t)

section Functions

variable (hashFunc : List UInt8 → ℕ) (cmp : List UInt8 → List UInt8 → Bool)

/-- The number of a key's bucket. -/
def IdHash.home (t : IdHash) (inx : ℕ) : ℕ := inx % 2 ^ 31 % t.buckets

/-- The `while (ext)` loop of the lookups.  A walk longer than the number of records in use
is in a cycle. -/
def findExt (h : Heap Record) (t : IdHash) (key : List UInt8) : ℕ → ℕ → Except Fault (Option Ref)
  | 0, ext => if ext = 0 then .ok none else .error .loop
  | fuel + 1, ext =>
    if ext = 0 then .ok none
    else match h.lookup ext with
      | none => .error .wild
      | some r =>
        if cmp (t.key r) key then .ok (some (.ext ext))
        else findExt h t key fuel (t.bucketOverflow r)

/-- The place of a key's data is given by the place of its record. -/
def idHashGetWithHashNumber (h : Heap Record) (t : IdHash) (key : List UInt8) (inx : ℕ) :
    Except Fault (Option Ref) :=
  if t.bucketIsEmpty (t.home inx) then .ok none
  else if cmp (t.key (t.array (t.home inx))) key then .ok (some (.head (t.home inx)))
  else findExt cmp h t key (h.entries.length + 1) (t.bucketOverflow (t.array (t.home inx)))

def idHashGet (h : Heap Record) (t : IdHash) (key : List UInt8) : Except Fault (Option Ref) :=
  idHashGetWithHashNumber cmp h t key (hashFunc key)

/-! ## Scans -/

/-- `id_hash_iterator_t`; a null `hit_chilum` is `0`. -/
structure HashIterator where
  bucket : ℕ
  chilum : ℕ

/-- `id_hash_iterator` -/
def idHashIterator : HashIterator := ⟨0, 0⟩

/-- The key and the data that `hit_next` points to in a record. -/
def hitPair (t : IdHash) (r : Record) : Entry := (t.key r, r.slice t.keyLength t.dataLength)

/-- The `while` loop of `hit_next`, with the number of buckets to come.  The offset of a
bucket is computed in `int`. -/
def hitNextFrom (h : Heap Record) (t : IdHash) :
    ℕ → HashIterator → Except Fault (Option (HashIterator × Entry))
  | 0, _ => .ok none
  | fuel + 1, hit =>
    if hit.bucket < t.buckets then
      if hit.chilum = 0 then
        if 2 ^ 31 ≤ hit.bucket * t.bucketLength then .error .tooLarge
        else
          let ov := t.bucketOverflow (t.array hit.bucket)
          if ov = emptyMark then hitNextFrom h t fuel ⟨hit.bucket + 1, 0⟩
          else .ok (some (⟨if ov = 0 then hit.bucket + 1 else hit.bucket, ov⟩,
            hitPair t (t.array hit.bucket)))
      else match h.lookup hit.chilum with
        | none => .error .wild
        | some r =>
          .ok (some (⟨if t.bucketOverflow r = 0 then hit.bucket + 1 else hit.bucket,
            t.bucketOverflow r⟩, hitPair t r))
    else .ok none

def hitNext (h : Heap Record) (t : IdHash) (hit : HashIterator) :
    Except Fault (Option (HashIterator × Entry)) :=
  hitNextFrom h t (t.buckets - hit.bucket) hit

/-- `while (hit_next (&hit, &kp, &dp)) body`.  The heap may change in the body. -/
def hitLoop {σ : Type} (t : IdHash) (heap : σ → Heap Record) (body : σ → Entry → Except Fault σ) :
    ℕ → HashIterator → σ → Except Fault σ
  | 0, _, _ => .error .loop
  | fuel + 1, hit, s =>
    (hitNext (heap s) t hit).bind fun
      | none => .ok s
      | some r => (body s r.2).bind fun s => hitLoop t heap body fuel r.1 s

/-- More steps than a scan has that comes to its end. -/
def scanFuel (h : Heap Record) (t : IdHash) : ℕ := t.buckets + h.entries.length + 1

/-- A full scan that collects what it is given. -/
def scan (h : Heap Record) (t : IdHash) : Except Fault (List Entry) :=
  hitLoop t (fun _ => h) (fun l e => .ok (l ++ [e])) (scanFuel h t) idHashIterator []

/-! ## Clearing -/

def freeChain (t : IdHash) : ℕ → Heap Record → ℕ → Except Fault (Heap Record)
  | 0, h, ext => if ext = 0 then .ok h else .error .loop
  | fuel + 1, h, ext =>
    if ext = 0 then .ok h
    else match h.lookup ext with
      | none => .error .wild
      | some r => freeChain t fuel (h.erase ext) (t.bucketOverflow r)

/-- One turn of the loop of `id_hash_clear`. -/
def clearBucket (s : Heap Record × IdHash) (n : ℕ) : Except Fault (Heap Record × IdHash) :=
  if s.2.bucketIsEmpty n then .ok s
  else (freeChain s.2 (s.1.entries.length + 1) s.1 (s.2.bucketOverflow (s.2.array n))).bind fun h =>
    .ok (h, s.2.putHead n ((s.2.array n).setWord s.2.extInx emptyMark))

def idHashClear (h : Heap Record) (t : IdHash) : Except Fault (Heap Record × IdHash) :=
  ((List.range t.buckets).foldlM clearBucket (h, t)).bind fun s =>
    .ok (s.1, { s.2 with inserts := 0, deletes := 0, overflows := 0, count := 0 })

/-! ## Insertion and rehashing -/

/-- `ht_inserts++; ht_count++` -/
def IdHash.inserted (t : IdHash) : IdHash :=
  { t with inserts := t.inserts + 1, count := (t.count + 1) % 2 ^ 32 }

/-- `ht_overflows++` -/
def IdHash.overflowed (t : IdHash) : IdHash := { t with overflows := t.overflows + 1 }

/-- The new record that `id_hash_set` and `id_hash_add_new` make in bucket `n`. -/
def addRecord (al : Allocator) (h : Heap Record) (t : IdHash) (key data : List UInt8) (n : ℕ) :
    Except Fault (Heap Record × IdHash) :=
  if t.bucketIsEmpty n then .ok (h, t.inserted.putHead n (t.fill (t.array n) key data 0))
  else match al.alloc h with
    | none => .error .noMemory
    | some (a, r) =>
      .ok (h.insert a (t.fill r key data (t.bucketOverflow (t.array n))),
        t.inserted.overflowed.putHead n ((t.array n).setWord t.extInx a))

/-- The condition of `ID_CHECK_REHASH`, for a number of buckets and keys.  The threshold is a
`short` converted to `uint32`. -/
def dueAt (threshold : ℤ) (buckets count : ℕ) : Bool :=
  threshold ≠ 0 ∧ buckets < idHtMaxSz ∧
    (threshold % 2 ^ 32).toNat < count * 100 % 2 ^ 32 / buckets

def rehashDue (t : IdHash) : Bool := dueAt t.rehashThreshold t.buckets t.count

/-- `ID_CHECK_REHASH` -/
def idCheckRehash (rehash : Heap Record → IdHash → ℕ → Except Fault (Heap Record × IdHash))
    (h : Heap Record) (t : IdHash) : Except Fault (Heap Record × IdHash) :=
  if rehashDue t then rehash h t (t.buckets * 2) else .ok (h, t)

/-- `id_hash_add_new`; the new record's data are not returned. -/
def idHashAddNew (al : Allocator)
    (rehash : Heap Record → IdHash → ℕ → Except Fault (Heap Record × IdHash))
    (h : Heap Record) (t : IdHash) (key data : List UInt8) : Except Fault (Heap Record × IdHash) :=
  ((if t.allowDups then .ok none
    else idHashGetWithHashNumber cmp h t key (hashFunc key)).bind fun place =>
      if place.isSome then .error .existingKey
      else (idCheckRehash rehash h t).bind fun s =>
        addRecord al s.1 s.2 key data (s.2.home (hashFunc key)))

/-- `id_hash_rehash`.  The table that is filled can be due for a rehash itself, so the
function is recursive; the first argument bounds how deep. -/
def idHashRehash (al : Allocator) :
    ℕ → Heap Record → IdHash → ℕ → Except Fault (Heap Record × IdHash)
  | 0, _, _, _ => .error .deep
  | depth + 1, h, t, newSz =>
    if idHtMaxSz ≤ t.buckets then .ok (h, t)
    else if t.buckets = hashNextprime newSz then .ok (h, t)
    else (idHashAllocateInternals (hashNextprime newSz) t.keyLength t.dataLength).bind fun buf =>
      (hitLoop t Prod.fst
        (fun s e => idHashAddNew hashFunc cmp al (idHashRehash al depth) s.1 s.2 e.1 e.2)
        (scanFuel h t) idHashIterator
        (h, { buf with rehashThreshold := t.rehashThreshold, allowDups := t.allowDups })).bind
      fun s => (idHashClear s.1 t).bind fun old =>
        .ok (old.1, { t with array := s.2.array, buckets := s.2.buckets })

/-- A table doubles at least with each rehash and stops to be rehashed at `id_ht_max_sz`. -/
def rehashDepth : ℕ := 20

/-- `memcpy_8 (place, data, ht_data_length)`, for the data of the record at a place. -/
def writeData (h : Heap Record) (t : IdHash) (data : List UInt8) (place : Ref) :
    Except Fault (Heap Record × IdHash) :=
  match fetch h t place with
  | none => .error .wild
  | some r => .ok (put h t (r.blit t.dataInx data) place)

def idHashSet (al : Allocator) (h : Heap Record) (t : IdHash) (key data : List UInt8) :
    Except Fault (Heap Record × IdHash) :=
  (idHashGetWithHashNumber cmp h t key (hashFunc key)).bind fun
    | some place => writeData h t data place
    | none =>
      (idCheckRehash (idHashRehash hashFunc cmp al rehashDepth) h t).bind fun s =>
        addRecord al s.1 s.2 key data (s.2.home (hashFunc key))

/-- `id_hash_set_rehash_pct`; the percentage is converted to `short`. -/
def idHashSetRehashPct (t : IdHash) (pct : ℕ) : IdHash :=
  { t with rehashThreshold := Int.bmod pct (2 ^ 16) }

/-! ## Removal -/

/-- The `while (ext)` loop of the removals; `prev` is the record that points to `ext`. -/
def unlinkExt (t : IdHash) (key : List UInt8) (h : Heap Record) :
    ℕ → Ref → ℕ → Except Fault (Option (Entry × Heap Record × IdHash))
  | 0, _, ext => if ext = 0 then .ok none else .error .loop
  | fuel + 1, prev, ext =>
    if ext = 0 then .ok none
    else match h.lookup ext, fetch h t prev with
      | some r, some rp =>
        if cmp (t.key r) key then
          let s := put h t (rp.setWord t.extInx (t.bucketOverflow r)) prev
          .ok (some ((t.key r, t.data r), s.1.erase ext, s.2))
        else unlinkExt t key h fuel (.ext ext) (t.bucketOverflow r)
      | _, _ => .error .wild

/-- Take the record of bucket `n` itself out: pop the first overflow record in, or mark the
bucket empty. -/
def unlinkHead (h : Heap Record) (t : IdHash) (n : ℕ) : Except Fault (Heap Record × IdHash) :=
  if t.bucketOverflow (t.array n) = 0 then
    .ok (h, t.putHead n ((t.array n).setWord t.extInx emptyMark))
  else match h.lookup (t.bucketOverflow (t.array n)) with
    | none => .error .wild
    | some r =>
      .ok (h.erase (t.bucketOverflow (t.array n)),
        t.putHead n ((t.array n).blit 0 (r.slice 0 (t.dataLength + t.keyLength + 8))))

/-- `ht_deletes++; ht_count--` -/
def IdHash.deleted (t : IdHash) : IdHash :=
  { t with deletes := t.deletes + 1, count := (t.count + (2 ^ 32 - 1)) % 2 ^ 32 }

/-- The body of `id_hash_remove` and `id_hash_get_and_remove`: the entry that was taken out. -/
def removeEntry (h : Heap Record) (t : IdHash) (key : List UInt8) :
    Except Fault (Option Entry × Heap Record × IdHash) :=
  let n := t.home (hashFunc key)
  if t.bucketIsEmpty n then .ok (none, h, t)
  else if cmp (t.key (t.array n)) key then
    (unlinkHead h t n).bind fun s =>
      .ok (some (t.key (t.array n), t.data (t.array n)), s.1, s.2.deleted)
  else (unlinkExt cmp t key h (h.entries.length + 1) (.head n)
      (t.bucketOverflow (t.array n))).bind fun
    | none => .ok (none, h, t)
    | some s => .ok (some s.1, s.2.1, s.2.2.deleted)

def idHashRemove (h : Heap Record) (t : IdHash) (key : List UInt8) :
    Except Fault (Bool × Heap Record × IdHash) :=
  (removeEntry hashFunc cmp h t key).bind fun s => .ok (s.1.isSome, s.2)

def idHashGetAndRemove (h : Heap Record) (t : IdHash) (key : List UInt8) :
    Except Fault (Option Entry × Heap Record × IdHash) :=
  removeEntry hashFunc cmp h t key

end Functions

end Virtuoso.Hash
