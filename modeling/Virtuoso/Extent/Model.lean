import Mathlib.Algebra.Order.Ring.Int
import Mathlib.Algebra.BigOperators.Group.List.Basic

/-!
# Allocation of disk pages

The file of a storage is divided into extents of 256 pages.  An extent belongs to an extent
map, which has a record of it with a bit for every page, and holds pages of one kind: index
pages, blob pages, or pages for the remapping of changed pages between checkpoints.  One map,
the system extent map, is the storage's own; trees that grow get maps of their own.  The
records of a map are on pages too, which are allocated from the system extent map.

`em_new_dp` of `extent.c` gets a page from a map.  If there is none it gets the map another
extent, for which there may have to be another page of records, and, if no extent is free,
`dbs_file_extend` makes the file longer.

Fatal errors (`GPF_T1`), uses of a null pointer and signed overflows are `none`.  Numbers of pages
are of 32 bits, of which the sums take account that make the file longer.
-/

namespace Virtuoso.Extent

/-! ## The storage -/

/-- The kinds of extents in use, `EXT_INDEX`, `EXT_REMAP` and `EXT_BLOB`. -/
inductive Kind where
  | index
  | remap
  | blob
deriving DecidableEq

/-- The number a kind has in flags. -/
def Kind.code : Kind → ℕ
  | .index => 1
  | .remap => 2
  | .blob => 3

/-- An extent record, `extent_t`.  The kind is `none` for `EXT_FREE`, and a previous extent
`none` stands for `EXT_EXTENDS_NONE`. -/
structure Ext where
  kind : Option Kind
  full : Bool
  dp : ℕ
  prev : Option ℕ
  next : ℕ
  pages : ℕ → Bool

def Ext.blank : Ext where
  kind := none
  full := false
  dp := 0
  prev := some 0
  next := 0
  pages _ := false

/-- An extent map, `extent_map_t`.  The records are those of all the pages of the map in order;
`bufs` has the number of each page and how many records it has. -/
structure Em where
  exts : List Ext
  bufs : List (ℕ × ℕ)
  dpToExt : ℕ → Option ℕ
  nFree : Kind → ℤ
  remapOnHold : ℤ
  last : Kind → Option ℕ
  uninitialized : ℕ → Bool

/-- A storage, `dbe_storage_t`.  Map 0 is `dbs_extent_map`, the system extent map. -/
structure Dbs where
  nPages : ℕ
  freeSet : ℕ → Bool
  nFreePages : ℤ
  extentSet : ℕ → Bool
  nPagesInSets : ℕ
  nPagesInExtentSet : ℕ
  dpToEm : ℕ → Option ℕ
  unfreeable : ℕ → Bool
  maps : ℕ → Em

/-- What is outside of the storage: whether a file of so many pages can be made longer and by
how much, and settings. -/
structure Env where
  canGrow : ℕ → Bool
  quota : ℕ
  checkFreePages : Bool
  dense : Bool
  checkpointAtomic : Bool

/-- `EXTENT_SZ`. -/
def extentSz : ℕ := 256

/-- `BITS_ON_PAGE`. -/
def bitsOnPage : ℕ := 65376

/-- The records a page of an extent map has room for. -/
def extsOnPage : ℕ := 170

/-- `EXT_ROUND`. -/
def extRound (dp : ℕ) : ℕ := dp / extentSz * extentSz

/-- `ext_free_count`. -/
def extFreeCount (ext : Ext) : ℕ := (List.range extentSz).countP fun i => !ext.pages i

/-- Pages of records, of which the last has got one more. -/
def oneMore (bufs : List (ℕ × ℕ)) : List (ℕ × ℕ) :=
  bufs.dropLast ++ (bufs.getLast?.map fun b => (b.1, b.2 + 1)).toList

namespace Dbs

def modEm (s : Dbs) (e : ℕ) (f : Em → Em) : Dbs :=
  { s with maps := Function.update s.maps e (f (s.maps e)) }

def setExt (s : Dbs) (e i : ℕ) (ext : Ext) : Dbs :=
  s.modEm e fun em => { em with exts := em.exts.set i ext }

/-- The storage with a count of free pages changed. -/
def addFree (s : Dbs) (e : ℕ) (k : Kind) (n : ℤ) : Dbs :=
  s.modEm e fun em => { em with nFree := Function.update em.nFree k (em.nFree k + n) }

/-- The storage with another extent that a map takes pages of a kind from. -/
def setLast (s : Dbs) (e : ℕ) (k : Kind) (i : Option ℕ) : Dbs :=
  s.modEm e fun em => { em with last := Function.update em.last k i }

def setNext (s : Dbs) (e i dp : ℕ) : Option Dbs :=
  (s.maps e).exts[i]?.map fun ext => s.setExt e i { ext with next := dp }

def setPrev (s : Dbs) (e i : ℕ) (dp : Option ℕ) : Option Dbs :=
  (s.maps e).exts[i]?.map fun ext => s.setExt e i { ext with prev := dp }

/-- The storage with a record put after the records of a map's last page. -/
def appendExt (s : Dbs) (e : ℕ) (ext : Ext) : Dbs :=
  s.modEm e fun em => { em with exts := em.exts ++ [ext], bufs := oneMore em.bufs }

/-- The storage with a record on a new last page of a map. -/
def appendPage (s : Dbs) (e dp : ℕ) (ext : Ext) : Dbs :=
  s.modEm e fun em => { em with exts := em.exts ++ [ext], bufs := em.bufs ++ [(dp, 1)] }

/-- The storage with the extent at `dp` put into the record `i`, which was `ext`. -/
def registerExt (s : Dbs) (e i : ℕ) (ext : Ext) (dp : ℕ) (k : Kind) : Dbs :=
  { s.modEm e fun em =>
      { em with
        exts := em.exts.set i { ext with dp := dp, kind := some k, full := false }
        dpToExt := Function.update em.dpToExt dp (some i)
        nFree := Function.update em.nFree k (em.nFree k + extFreeCount ext) } with
    dpToEm := Function.update s.dpToEm dp (some e) }

/-- The storage with an extent that is marked in the extent set. -/
def markExtent (s : Dbs) (n : ℕ) : Dbs := { s with extentSet := Function.update s.extentSet n true }

end Dbs

/-- Whether the last page of a map has no room for another record. -/
def Em.lastFull (em : Em) : Bool := extsOnPage ≤ (em.bufs.getLast?.map Prod.snd).getD 0

/-! ## Bits -/

/-- The first of `n` bits from `o` on that is clear. -/
def firstClear (bits : ℕ → Bool) (o n : ℕ) : Option ℕ := (List.range' o n).find? fun i => !bits i

/-- The bit of a free page of the extent, from the word of `near` if that has one. -/
def freePage (ext : Ext) (near : ℕ) : Option ℕ :=
  (if near = 0 then none else firstClear ext.pages (32 * ((near - ext.dp) / 32)) 32).or
    (firstClear ext.pages 0 extentSz)

/-- `ext_get_dp`. -/
def extGetDp (ext : Ext) (near : ℕ) : Option (Ext × ℕ) :=
  if ext.full then some (ext, 0)
  else if near ≠ 0 ∧ ¬ (ext.dp ≤ near ∧ near < ext.dp + extentSz) then none
  else
    match freePage ext near with
    | none => some ({ ext with full := true }, 0)
    | some b => some ({ ext with pages := Function.update ext.pages b true }, ext.dp + b)

/-- `em_free_count`. -/
def emFreeCount (em : Em) (k : Kind) : ℤ :=
  (em.exts.map fun ext => if ext.kind = some k then (extFreeCount ext : ℤ) else 0).sum

/-- `dbs_page_allocated`. -/
def dbsPageAllocated (s : Dbs) (n : ℕ) : Option Dbs :=
  if s.nPagesInSets ≤ n then none
  else if s.freeSet n then some s
  else some { s with freeSet := Function.update s.freeSet n true, nFreePages := s.nFreePages - 1 }

/-- `dbs_extent_allocated`. -/
def dbsExtentAllocated (s : Dbs) (dp : ℕ) : Option Dbs :=
  if dp % extentSz ≠ 0 ∨ s.nPagesInExtentSet ≤ dp then none
  else some (s.markExtent (dp / extentSz))

/-! ## Pages of a map -/

/-- `ext_get_dp` on a record of a map. -/
def extGetDpAt (s : Dbs) (e i near : ℕ) : Option (Dbs × ℕ) :=
  (s.maps e).exts[i]?.bind fun ext => (extGetDp ext near).map fun r => (s.setExt e i r.1, r.2)

/-- The loop of `em_try_get_dp` over the records. -/
def tryLoop (e : ℕ) (k : Kind) : List ℕ → Dbs → Option (Dbs × ℕ)
  | [], s => some (s, 0)
  | i :: is, s =>
    match (s.maps e).exts[i]? with
    | none => none
    | some ext =>
      if ext.kind ≠ some k then tryLoop e k is s
      else
        match extGetDpAt s e i 0 with
        | none => none
        | some (s, dp) => if dp ≠ 0 then some (s, dp) else tryLoop e k is s

/-- `em_try_get_dp` with `DP_ANY`. -/
def emTryGetAny (s : Dbs) (e : ℕ) (k : Kind) : Option (Dbs × ℕ) :=
  if k = .blob ∧ (s.maps e).nFree .blob = 0 then some (s, 0)
  else tryLoop e k (List.range (s.maps e).exts.length) s

/-! ## Longer files -/

/-- What `dbs_file_extend` says: that it failed, or the index extent it made for the system
map, if it made one. -/
inductive Grown where
  | failed
  | grew (newExt : Option ℕ)

/-- A page for one of the page sets of the storage. -/
def pageForSet (s : Dbs) : Option Dbs :=
  match emTryGetAny s 0 .index with
  | none => none
  | some (s, dp) => if dp = 0 then none else some (s.addFree 0 .index (-1))

/-- The record `dbs_file_extend` makes.  The bytes after the records of a page are 0. -/
def sysExt (dp : ℕ) (paged : Bool) : Ext :=
  { Ext.blank with kind := some .index, dp := dp, prev := none, pages := fun b => paged && b == 0 }

/-- The system map with an index extent at `dp`, the first page of which is for records if the
last page of them is full. -/
def Em.addSysExt (em : Em) (dp : ℕ) : Em :=
  { em with
    exts := em.exts ++ [sysExt dp em.lastFull]
    bufs := if em.lastFull then em.bufs ++ [(dp, 1)] else oneMore em.bufs
    dpToExt := Function.update em.dpToExt dp (some em.exts.length)
    nFree := Function.update em.nFree .index
      (em.nFree .index + extentSz - if em.lastFull then 1 else 0) }

/-- An index extent for the system map at `dp`.  The result tells where the record is and whether
there was a page for records. -/
def newSysExt (s : Dbs) (dp : ℕ) : Option (Dbs × ℕ × Bool) :=
  if s.dpToEm dp ≠ none then none
  else
    some ({ s.modEm 0 fun em => em.addSysExt dp with
        dpToEm := Function.update s.dpToEm dp (some 0) },
      (s.maps 0).exts.length, (s.maps 0).lastFull)

/-- The part of `dbs_file_extend` that gives the new extent to the system map if that has few
pages left. -/
def sysExtIfLow (s : Dbs) (dp : ℕ) : Option (Dbs × Option ℕ × Bool) :=
  if (s.maps 0).nFree .index < 16 then
    (newSysExt s dp).map fun r => (r.1, some r.2.1, r.2.2)
  else some (s, none, false)

/-- The part of `dbs_file_extend` that stretches the free set and the backup set. -/
def stretchSets (s : Dbs) : Option Dbs :=
  if s.nPagesInSets < s.nPages then
    (pageForSet s).bind fun s => (pageForSet s).map fun s =>
      { s with nPagesInSets := (s.nPagesInSets + bitsOnPage) % 2 ^ 32 }
  else some s

/-- The part of `dbs_file_extend` that stretches the extent set, with the first bit of the new
page set. -/
def stretchExtentSet (s : Dbs) : Option Dbs :=
  if s.nPagesInExtentSet < s.nPages then
    (pageForSet s).map fun s =>
      { s.markExtent (s.nPagesInExtentSet / extentSz) with
        nPagesInExtentSet := (s.nPagesInExtentSet + extentSz * bitsOnPage) % 2 ^ 32 }
  else some s

/-- The storage with a longer file, and the count of free pages put right. -/
def longer (env : Env) (s : Dbs) : Dbs :=
  let s :=
    { s with nPages := (s.nPages + env.quota) % 2 ^ 32, nFreePages := s.nFreePages + env.quota }
  if env.checkFreePages then
    s.modEm 0 fun em =>
      { em with nFree := Function.update em.nFree .index (emFreeCount em .index) }
  else s

/-- `dbs_file_extend`. -/
def dbsFileExtend (env : Env) (s : Dbs) : Option (Dbs × Grown) :=
  if env.canGrow s.nPages = false then some (s, .failed)
  else
    let extFirst := s.nPages
    (sysExtIfLow (longer env s) extFirst).bind fun (s, newExt, paged) =>
      (stretchSets s).bind fun s =>
      (if paged then dbsPageAllocated s extFirst else some s).bind fun s =>
      (stretchExtentSet s).bind fun s =>
      (if newExt.isSome then dbsExtentAllocated s extFirst else some s).map fun s =>
        (s, .grew newExt)

/-! ## Extents -/

/-- An extent that is not marked, in the word of `near` or else the first one. -/
def freeExtent (s : Dbs) (near : ℕ) : Option ℕ :=
  (firstClear s.extentSet (32 * (near / extentSz / 32)) 32).or
    (firstClear s.extentSet 0 (s.nPagesInExtentSet / extentSz))

/-- `em_get_extent`: the first page of an extent that is now marked, and the record of it if
there is one already; nothing if there is no disk.  The function calls itself after the file
has become longer; `fuel` bounds how often. -/
def emGetExtent (env : Env) :
    ℕ → Dbs → ℕ → Kind → ℕ → Option (Dbs × Option (ℕ × Option ℕ))
  | 0, _, _, _, _ => none
  | fuel + 1, s, e, k, near =>
    let near := if s.nPagesInExtentSet < near + extentSz ∧ extentSz < near then near - extentSz
      else near
    if near % extentSz ≠ 0 ∨ s.nPagesInExtentSet ≤ near then none
    else
      let bit := freeExtent s near
      let take (s : Dbs) (b : ℕ) : Option (Dbs × Option (ℕ × Option ℕ)) :=
        some (s.markExtent b, some (extentSz * b, none))
      if bit.all fun b => s.nPages ≤ extentSz * b then
        match dbsFileExtend env s with
        | none => none
        | some (s, .failed) => some (s, none)
        | some (s, .grew (some i)) =>
          if k = .index ∧ e = 0 then
            (s.maps 0).exts[i]?.map fun ext => (s, some (ext.dp, some i))
          else emGetExtent env fuel s e k 0
        | some (s, .grew none) =>
          match bit with
          | none => emGetExtent env fuel s e k 0
          | some b => take s b
      else
        match bit with
        | none => none
        | some b => take s b

/-- How often `em_get_extent` can call itself, and once more. -/
def getExtentFuel : ℕ := 4

/-- `dbs_extent_free`. -/
def dbsExtentFree (s : Dbs) (extDp : ℕ) (mustBeInEm : Bool) : Option Dbs :=
  if extDp % extentSz ≠ 0 ∨ s.nPagesInExtentSet ≤ extDp then none
  else if s.extentSet (extDp / extentSz) = false then none
  else
    let s := { s with extentSet := Function.update s.extentSet (extDp / extentSz) false }
    match s.dpToEm extDp with
    | none => if mustBeInEm then none else some s
    | some e =>
      let s' := { s with dpToEm := Function.update s.dpToEm extDp none }
      match (s.maps e).dpToExt extDp with
      | none =>
        -- a null `ext` equals a null `em_last_remap_ext`, which stays null
        some s'
      | some i =>
        (s.maps e).exts[i]?.map fun ext =>
          s'.modEm e fun em =>
            { em with
              dpToExt := Function.update em.dpToExt extDp none
              nFree := match ext.kind with
                | none => em.nFree
                | some k => Function.update em.nFree k (em.nFree k - extentSz)
              exts := em.exts.set i { ext with kind := none, full := false }
              last := fun k => if k ≠ .index ∧ em.last k = some i then none else em.last k }

/-- `em_alloc_ext`: a record that is free. -/
def emAllocExt (s : Dbs) (e : ℕ) (k : Kind) : Option (Dbs × ℕ) :=
  ((List.range (s.maps e).exts.length).find? fun i =>
    ((s.maps e).exts[i]?.map Ext.kind) = some none).map fun i =>
      (s.setExt e i { Ext.blank with kind := some k }, i)

/-- `em_sys_extend`: an empty record for the system extent map, or nothing if there is no disk.
The record of a new page is on the page's own extent. -/
def emSysExtend (env : Env) (s : Dbs) : Option (Dbs × Option ℕ) :=
  let i := (s.maps 0).exts.length
  if (s.maps 0).lastFull then
    match emGetExtent env getExtentFuel s 0 .index 0 with
    | none => none
    | some (s, none) => some (s, none)
    | some (s, some (_, some j)) => some (s, some j)
    | some (s, some (extDp, none)) =>
      let i := (s.maps 0).exts.length
      (dbsPageAllocated
        (s.appendPage 0 extDp { Ext.blank with dp := extDp, pages := fun b => b == 0 })
        extDp).map fun s => (s, some i)
  else some (s.appendExt 0 Ext.blank, some i)

/-- `em_new_extent` with the `em_extend` of its map and kind. -/
def emNewExtentWith (env : Env) (extend : Dbs → Option (Dbs × Option ℕ)) (s : Dbs) (e : ℕ)
    (k : Kind) (extends' : Option ℕ) (insAfter : Dbs → ℕ → Option Dbs) :
    Option (Dbs × Option ℕ) :=
  match emGetExtent env getExtentFuel s e k (extends'.getD 0) with
  | none => none
  | some (s, none) => some (s, none)
  | some (s, some (_, some i)) => some (s, some i)
  | some (s, some (dp, none)) =>
    match extend s with
    | none => none
    | some (s, none) => (dbsExtentFree s dp false).map fun s => (s, none)
    | some (s, some i) =>
      (s.maps e).exts[i]?.bind fun ext =>
      if s.dpToEm dp ≠ none then none
      else
        let s := s.registerExt e i ext dp k
        (if k ≠ .index then some s
          else if extends' = none then s.setPrev e i (some 0)
          else insAfter s i).map fun s => (s, some i)

/-- `em_ins_after`. -/
def emInsAfter (s : Dbs) (e point inserted : ℕ) : Option Dbs :=
  (s.maps e).exts[point]?.bind fun p =>
  (s.maps e).exts[inserted]?.bind fun new =>
  (s.setNext e inserted p.next).bind fun s =>
  (if p.next = 0 then some s
    else
      match (s.maps e).dpToExt (extRound p.next) with
      | none => some s
      | some j => s.setPrev e j (some new.dp)).bind fun s =>
  (s.setNext e point new.dp).bind fun s => s.setPrev e inserted (some p.dp)

/-- `em_new_extent` for an index extent of the system map that extends none. -/
def emNewSysExtent (env : Env) (s : Dbs) : Option (Dbs × Option ℕ) :=
  emNewExtentWith env
    (fun s =>
      match emAllocExt s 0 .index with
      | some (s, i) => some (s, some i)
      | none => emSysExtend env s)
    s 0 .index none fun _ _ => none

/-- `em_new_dp_1` for an index page of the system map, near no other. -/
def emNewSysDp (env : Env) (s : Dbs) : Option (Dbs × ℕ) :=
  match emTryGetAny s 0 .index with
  | none => none
  | some (s, dp) =>
    if dp ≠ 0 then some (s.addFree 0 .index (-1), dp)
    else
      match emNewSysExtent env s with
      | none => none
      | some (s, none) => some (s, 0)
      | some (s, some i) =>
        match extGetDpAt s 0 i 0 with
        | none => none
        | some (s, dp) => if dp = 0 then none else some (s.addFree 0 .index (-1), dp)

/-- `em_extend`. -/
def emExtend (env : Env) (s : Dbs) (e : ℕ) (k : Kind) : Option (Dbs × Option ℕ) :=
  match emAllocExt s e k with
  | some (s, i) => some (s, some i)
  | none =>
    if e = 0 ∧ k = .index then emSysExtend env s
    else if (s.maps e).lastFull then
      match emNewSysDp env s with
      | none => none
      | some (s, dp) =>
        if dp = 0 then some (s, none)
        else
          let i := (s.maps e).exts.length
          (dbsPageAllocated s dp).map fun s => (s.appendPage e dp Ext.blank, some i)
    else some (s.appendExt e Ext.blank, some (s.maps e).exts.length)

/-- `em_new_extent`. -/
def emNewExtent (env : Env) (s : Dbs) (e : ℕ) (k : Kind) (extends' : Option ℕ) :
    Option (Dbs × Option ℕ) :=
  emNewExtentWith env (fun s => emExtend env s e k) s e k extends' fun s i =>
    ((s.maps e).dpToExt (extRound (extends'.getD 0))).bind fun point => emInsAfter s e point i

end Virtuoso.Extent
