import Virtuoso.Extent.Model

/-!
# Getting and freeing pages

The calls of `extent.c` that others use: `em_new_dp` and `em_free_dp`, and `em_hold_remap`
and `em_free_remap_hold`, by which a cursor makes sure before it starts to split pages that
there will be pages for the remapping.
-/

namespace Virtuoso.Extent

/-! ## Pages near others -/

/-- `em_first_ext`. -/
def emFirstExt (env : Env) (s : Dbs) (e : ℕ) (k : Kind) : Option (Dbs × Option ℕ) :=
  match (List.range (s.maps e).exts.length).find? fun i =>
    ((s.maps e).exts[i]?.map Ext.kind) = some (some k) with
  | some i => some (s, some i)
  | none => emNewExtent env s e k none

/-- `em_try_get_dp`; `none` for the page to be near is `DP_ANY`. -/
def emTryGetDp (env : Env) (s : Dbs) (e : ℕ) (k : Kind) (near : Option ℕ) : Option (Dbs × ℕ) :=
  match near with
  | none => emTryGetAny s e k
  | some near =>
    match (s.maps e).dpToExt (extRound near) with
    | some i => extGetDpAt s e i near
    | none =>
      if e = 0 then none
      else
        match emFirstExt env s e k with
        | none => none
        | some (s, none) => some (s, 0)
        | some (s, some i) => extGetDpAt s e i 0

/-- `em_find_free_extender`: a page of an index extent that extends no other, which then
extends this one, also if it turns out to have no page. -/
def emFindFreeExtender (s : Dbs) (e nearExt : ℕ) : Option (Dbs × ℕ) :=
  match (List.range (s.maps e).exts.length).find? fun i =>
    i ≠ nearExt ∧ ((s.maps e).exts[i]?.any fun ext =>
      ext.kind = some .index ∧ ext.prev = none ∧ ext.full = false) with
  | none => some (s, 0)
  | some i =>
    (extGetDpAt s e i 0).bind fun (s, dp) =>
      (emInsAfter s e nearExt i).map fun s => (s, dp)

/-- The part of `em_new_dp_1` that goes to the extent that extends the near one. -/
def emNextDp (s : Dbs) (e nearExt : ℕ) : Option (Dbs × ℕ) :=
  (s.maps e).exts[nearExt]?.bind fun ext =>
  if ext.next = 0 then some (s, 0)
  else
    match (s.maps e).dpToExt (extRound ext.next) with
    | none => some (s, 0)
    | some j =>
      (s.maps e).exts[j]?.bind fun next =>
      if next.kind ≠ some .index then (s.setNext e nearExt 0).map fun s => (s, 0)
      else extGetDpAt s e j 0

/-- The part of `em_new_dp_1` that makes an extent. -/
def emNewExtentDp (env : Env) (s : Dbs) (e : ℕ) (k : Kind) (nearExt : Option ℕ) :
    Option (Dbs × ℕ) :=
  let extends' := nearExt.bind fun i => (s.maps e).exts[i]?.map Ext.dp
  match emNewExtent env s e k extends' with
  | none => none
  | some (s, none) => some (s, 0)
  | some (s, some i) =>
    (s.maps e).exts[i]?.bind fun ext =>
    (match nearExt with
      | some near =>
        if ext.prev = none then (s.setPrev e i (some 0)).bind fun s => emInsAfter s e near i
        else some s
      | none => some s).bind fun s =>
    (extGetDpAt s e i 0).bind fun (s, dp) =>
    if dp = 0 then none else some (s.addFree e k (-1), dp)

/-- The part of `em_new_dp_1` that goes on from the near extent. -/
def emNewDpFrom (env : Env) (s : Dbs) (e : ℕ) (k : Kind) (nearExt : ℕ) : Option (Dbs × ℕ) :=
  (if k = .index then emNextDp s e nearExt else some (s, 0)).bind fun (s, dp) =>
  if dp ≠ 0 then some (s.addFree e .index (-1), dp)
  else
    (emFindFreeExtender s e nearExt).bind fun (s, dp) =>
    if dp ≠ 0 then some (s.addFree e k (-1), dp)
    else emNewExtentDp env s e k (some nearExt)

/-- `em_new_dp_1`. -/
def emNewDp1 (env : Env) (s : Dbs) (e : ℕ) (k : Kind) (near : Option ℕ) : Option (Dbs × ℕ) :=
  let near := if near = some 0 ∨ k = .blob then none else near
  match emTryGetDp env s e k near with
  | none => none
  | some (s, dp) =>
    if dp ≠ 0 then some (s.addFree e k (-1), dp)
    else
      match near with
      | none => emNewExtentDp env s e k none
      | some near =>
        match (s.maps e).dpToExt (extRound near) with
        | some i => emNewDpFrom env s e k i
        | none =>
          if e = 0 then none
          else
            match emFirstExt env s e k with
            | none => none
            | some (s, none) => some (s, 0)
            | some (s, some i) => emNewDpFrom env s e k i

/-- A page of the extent the map takes pages of the kind from. -/
def emLastDp (s : Dbs) (e : ℕ) (k : Kind) : Option (Dbs × ℕ) :=
  match (s.maps e).last k with
  | none => some (s, 0)
  | some i => extGetDpAt s e i 0

/-- `em_new_remap` and `em_new_blob`, which differ in the kind only. -/
def emNewOf (k : Kind) (env : Env) (s : Dbs) (e : ℕ) : Option (Dbs × ℕ) :=
  (emLastDp s e k).bind fun (s, dp) =>
  if dp ≠ 0 then some (s.addFree e k (-1), dp)
  else
    (emTryGetAny s e k).bind fun (s, dp) =>
    if dp ≠ 0 then
      some ((s.setLast e k ((s.maps e).dpToExt (extRound dp))).addFree e k (-1), dp)
    else
      (emNewExtent env s e k (some 0)).bind fun (s, newExt) =>
      match newExt with
      | none => some (s.setLast e k none, 0)
      | some i =>
        (extGetDpAt (s.setLast e k (some i)) e i 0).bind fun (s, dp) =>
        if dp = 0 then none else some (s.addFree e k (-1), dp)

/-- `em_new_remap`. -/
def emNewRemap : Env → Dbs → ℕ → Option (Dbs × ℕ) := emNewOf .remap

/-- `em_new_blob`. -/
def emNewBlob : Env → Dbs → ℕ → Option (Dbs × ℕ) := emNewOf .blob

/-! ## Holds -/

/-- Remap extents are made for the map while `more` says so; `false` if one could not be.
Every extent has a page that is free, so that `fuel` can be the number of pages to make. -/
def remapLoop (env : Env) (e : ℕ) (more : Em → Bool) : ℕ → Dbs → Option (Dbs × Bool)
  | 0, s => if more (s.maps e) then none else some (s, true)
  | fuel + 1, s =>
    if more (s.maps e) then
      match emNewExtent env s e .remap (some 0) with
      | none => none
      | some (s, none) => some (s, false)
      | some (s, some _) => remapLoop env e more fuel s
    else some (s, true)

/-- The test of the loop of `em_hold_remap`, on unsigned 32 bit numbers. -/
def needsForHold (hold : ℤ) (em : Em) : Bool :=
  (em.nFree .remap - em.remapOnHold) % 2 ^ 32 < hold % 2 ^ 32

/-- `em_hold_remap`: the hold afterwards and whether there is one.  What is on hold is an `int32`.
-/
def emHoldRemap (env : Env) (s : Dbs) (e : ℕ) (hold : ℤ) : Option (Dbs × ℤ × Bool) :=
  (remapLoop env e (needsForHold hold) (hold % 2 ^ 32).toNat s).bind fun (s, ok) =>
    if ok = false then some (s, 0, false)
    else if 2 ^ 31 ≤ (s.maps e).remapOnHold + hold then none
    else some (s.modEm e fun em => { em with remapOnHold := em.remapOnHold + hold }, hold, true)

/-- `em_free_remap_hold`. -/
def emFreeRemapHold (s : Dbs) (e : ℕ) (hold : ℤ) : Dbs :=
  s.modEm e fun em =>
    { em with remapOnHold := if em.remapOnHold < hold then 0 else em.remapOnHold - hold }

/-- The test of the loop of `em_new_dp`, on unsigned 32 bit numbers too. -/
def needsForRemap (em : Em) : Bool := em.nFree .remap ≤ em.remapOnHold % 2 ^ 32

/-- The map with one page less on hold. -/
def Em.takeHold (em : Em) : Em :=
  { em with remapOnHold := if 0 < em.remapOnHold then em.remapOnHold - 1 else 0 }

/-- The first half of `em_new_dp`, up to where it leaves the map: the page, and `false` if the
function returns 0 here. -/
def emNewDpIn (env : Env) (s : Dbs) (e : ℕ) (k : Kind) (near : Option ℕ) (hold : ℤ) :
    Option (Dbs × ℕ × ℤ × Bool) :=
  match k with
  | .remap =>
    if hold = 0 then
      let need := (s.maps e).remapOnHold % 2 ^ 32 + 1 - (s.maps e).nFree .remap
      (remapLoop env e needsForRemap need.toNat s).bind fun (s, ok) =>
      if ok then (emNewRemap env s e).map fun (s, dp) => (s, dp, hold, true)
      else some (s, 0, hold, false)
    else
      (emNewRemap env s e).map fun (s, dp) =>
      if dp = 0 then (s, 0, hold, false)
      else (s.modEm e Em.takeHold, dp, hold - 1, true)
  | .blob => (emNewBlob env s e).map fun (s, dp) => (s, dp, hold, true)
  | .index =>
    (emNewDp1 env s e .index (if env.dense then none else near)).map fun (s, dp) =>
      (s, dp, hold, true)

/-- `em_new_dp`: the page, or 0, and the hold afterwards.  No hold is a hold of 0. -/
def emNewDp (env : Env) (s : Dbs) (e : ℕ) (k : Kind) (near : Option ℕ) (hold : ℤ) :
    Option (Dbs × ℕ × ℤ) :=
  (emNewDpIn env s e k near hold).bind fun (s, dp, hold, go) =>
  if go = false then some (s, 0, hold)
  else
    let s := if k = .index ∧ e ≠ 0 then
        s.modEm e fun em => { em with uninitialized := Function.update em.uninitialized dp true }
      else s
    (dbsPageAllocated s dp).map fun s => (s, dp, hold)

/-! ## Freeing -/

/-- `emf_is_type`. -/
def emfIsType (kind : Option Kind) (wanted : ℕ) : Bool :=
  let code := (kind.map Kind.code).getD 0
  wanted &&& 32 ≠ 0 ∨ wanted &&& 7 = code ∨
    (wanted &&& 4 ≠ 0 ∧ (code = 1 ∨ code = 2)) ∨ (wanted &&& 64 ≠ 0 ∧ (code = 1 ∨ code = 3))

/-- `EMF_DO_NOT_FREE_EXT`. -/
def doNotFreeExt (flags : ℕ) : Bool := flags &&& 16 ≠ 0

/-- `dbs_free_disk_page`, of a page that is not unfreeable. -/
def dbsFreeDiskPage (s : Dbs) (dp : ℕ) : Option Dbs :=
  if dp = 0 then none
  else if s.nPages < dp then some s
  else if s.unfreeable dp then none
  else if s.nPagesInSets ≤ dp then none
  else some
    { s with freeSet := Function.update s.freeSet dp false, nFreePages := s.nFreePages + 1 }

/-- `em_ext_unlink`. -/
def emExtUnlink (s : Dbs) (e i : ℕ) : Option Dbs :=
  (s.maps e).exts[i]?.bind fun ext =>
  (match ext.prev with
    | none => some s
    | some prev =>
      if prev = 0 then some s
      else
        match (s.maps e).dpToExt (extRound prev) with
        | none => some s
        | some j => s.setNext e j ext.next).bind fun s =>
  (if ext.next = 0 then some s
    else
      match (s.maps e).dpToExt (extRound ext.next) with
      | none => some s
      | some j => s.setPrev e j ext.prev).bind fun s =>
  (s.setNext e i 0).bind fun s => s.setPrev e i (some 0)

/-- The part of `em_free_dp` that clears a bit of the record `i`, which is `ext`, and gives the
extent back if no other is set. -/
def emClearBit (s : Dbs) (e i : ℕ) (ext : Ext) (b flags : ℕ) : Option Dbs :=
  let pages := Function.update ext.pages b false
  let s := s.setExt e i { ext with pages := pages, full := false }
  if doNotFreeExt flags then some s
  else
    (if (firstClear (fun b => !pages b) 0 extentSz).isNone then
      (dbsExtentFree s ext.dp true).bind fun s =>
        if ext.kind = some .index then emExtUnlink s e i else some s
    else some s).map fun s => s.addFree e (ext.kind.getD .index) 1

/-- The rest of `em_free_dp` for a page of the record `i`. -/
def emFreeDpAt (env : Env) (s : Dbs) (e i dp flags : ℕ) : Option Dbs :=
  (s.maps e).exts[i]?.bind fun ext =>
  if emfIsType ext.kind flags = false then if env.checkpointAtomic then some s else none
  else
    (dbsFreeDiskPage s dp).bind fun s =>
    if ¬ (ext.dp ≤ dp ∧ dp < ext.dp + extentSz) then none
    else if ext.pages (dp - ext.dp) = false then none
    else emClearBit s e i ext (dp - ext.dp) flags

/-- `em_free_dp`. -/
def emFreeDp (env : Env) (s : Dbs) (e dp flags : ℕ) : Option Dbs :=
  match (s.maps e).dpToExt (extRound dp) with
  | some i => emFreeDpAt env s e i dp flags
  | none =>
    if e = 0 then none
    else
      match (s.maps 0).dpToExt (extRound dp) with
      | some i => emFreeDpAt env s 0 i dp flags
      | none => none

end Virtuoso.Extent
