import Virtuoso.Lib.Machine

/-!
# The lock: owners, queue, entry and release

A faithful rendering of `gen_lock_t` and of the functions of `lock.c` that
change it: `lock_add_owner`, the queueing half of `lock_wait`, and
`lock_release`.

The field `pl_owner` holds one transaction or a list of them, and the flag
`pl_is_owner_list` says which.  `Owner` is that pair: `one` is the flag at `0`
(with `none` for the null pointer) and `list` is the flag at `1` (with `[]` for
the null pointer).  A waiting cursor is represented by the fields of
`it_cursor_t` the lock functions read.

Functions that contain a fatal branch (`GPF_T`) return in `Except Fatal`; the
name of the error is the source's message for it.  Transactions are
single-threaded: there are no branches, so `LT_SEES_EFFECT` is equality and the
main transaction of a cursor is its own.
-/

universe u

namespace Virtuoso.Lock

/-- The low bits of `pl_type`. -/
inductive LockType where
  | free
  | exclusive
  | shared
deriving DecidableEq, Repr

/-- The requested mode `itc_lock_mode`. -/
inductive Mode where
  | exclusive
  | shared
deriving DecidableEq, Repr

/-- `PL_SET_TYPE (pl, itc_lock_mode)` stores a mode as a lock type. -/
def Mode.toType : Mode → LockType
  | .exclusive => .exclusive
  | .shared => .shared

/-- The fatal branches of the lock functions. -/
inductive Fatal where
  | doublyOwnedLock
  | lockWithNoOwner
  | lockFreeButCrWaiting
  | unmatchedWaits
  | waitEdgesOnClosingTxn
deriving DecidableEq, Repr

/-- `lt_status`, as far as it matters to a lock. -/
inductive Status where
  | pending
  | blownOff
  | closing
deriving DecidableEq, Repr

/-- The fields of a cursor that decide how it enters and leaves a lock. -/
structure Cursor (Trx : Type u) where
  /-- `itc_ltrx`. -/
  ltrx : Trx
  /-- `itc_lock_mode`. -/
  lockMode : Mode
  /-- Whether `itc_acquire_lock` differs from `ITC_NO_LOCK`. -/
  acquireLock : Bool
  /-- `itc_is_on_row`. -/
  isOnRow : Bool
deriving DecidableEq, Repr

/-- The local `acq` of `lock_release`: the cursor takes the lock when its wait
is over, rather than only being let through. -/
def Cursor.acquires {Trx : Type u} (it : Cursor Trx) : Bool := it.acquireLock && it.isOnRow

/-- The pair of `pl_owner` and `pl_is_owner_list`. -/
inductive Owner (Trx : Type u) where
  | one (lt : Option Trx)
  | list (lts : List Trx)
deriving DecidableEq, Repr

def Owner.toList {Trx : Type u} : Owner Trx → List Trx
  | .one none => []
  | .one (some lt) => [lt]
  | .list lts => lts

/-- The lock `gen_lock_t`: its type, its owner field and the queue that starts
at `pl_waiting` and follows `itc_next_on_lock`. -/
structure GenLock (Trx : Type u) where
  type : LockType
  owner : Owner Trx
  waiting : List (Cursor Trx)
deriving DecidableEq, Repr

namespace GenLock

variable {Trx : Type u}

def init : GenLock Trx := ⟨.free, .one none, []⟩

def owners (pl : GenLock Trx) : List Trx := pl.owner.toList

def waiters (pl : GenLock Trx) : List Trx := pl.waiting.map Cursor.ltrx

end GenLock

variable {Trx : Type u} [DecidableEq Trx]

/-- The last part of `lock_add_owner`, for a shared request on a shared lock
whose owner field is the list `os`. -/
def joinOwners (pl : GenLock Trx) (os : List Trx) (it : Cursor Trx) (wasWaiting : Bool) :
    GenLock Trx × Bool :=
  if it.ltrx ∈ os then (pl, true)
  else if !pl.waiting.isEmpty && !wasWaiting then (pl, false)
  else ({ pl with owner := .list (it.ltrx :: os) }, true)

/-- `lock_add_owner`: the lock after the attempt and whether the cursor got in. -/
def lockAddOwner (pl : GenLock Trx) (it : Cursor Trx) (wasWaiting : Bool) :
    Except Fatal (GenLock Trx × Bool) :=
  if pl.type = .free then
    .ok ({ pl with type := it.lockMode.toType, owner := .one (some it.ltrx) }, true)
  else if pl.owner = .one (some it.ltrx) then
    -- an owner that is alone may upgrade, whoever waits
    .ok (if it.lockMode = .exclusive then { pl with type := .exclusive } else pl, true)
  else if pl.type = .exclusive then .ok (pl, false)
  else if it.lockMode = .exclusive then .ok (pl, false)
  else
    match pl.owner with
    | .one none | .list [] => .error .lockWithNoOwner
    | .one (some o) =>
      if !pl.waiting.isEmpty && !wasWaiting then .ok (pl, false)
      else .ok (joinOwners { pl with owner := .list [o] } [o] it wasWaiting)
    | .list os => .ok (joinOwners pl os it wasWaiting)

/-- How `lock_enter` ended for the caller. -/
inductive Entry where
  /-- `NO_WAIT`: the cursor got in. -/
  | granted
  /-- The transaction is to be rolled back, `itc_bust_this_trx`. -/
  | busted
  /-- The cursor is in the queue. -/
  | waits
deriving DecidableEq, Repr

/-- `lock_enter` with the queueing of `lock_wait`.  The flag `deadlock` is the
answer of `lock_check_deadlock_1`; that one of several owners who asks for more
is a deadlock is decided here, as in `lock_live_deadlocks`. -/
def lockEnter (pl : GenLock Trx) (it : Cursor Trx) (deadlock : Bool) :
    Except Fatal (GenLock Trx × Entry) := do
  let (pl', ok) ← lockAddOwner pl it false
  if ok then return (pl', .granted)
  match pl'.owner with
  | .list os =>
    if it.ltrx ∈ os || deadlock then return (pl', .busted)
    return ({ pl' with waiting := pl'.waiting ++ [it] }, .waits)
  | .one _ =>
    if deadlock then return (pl', .busted)
    return ({ pl' with waiting := pl'.waiting ++ [it] }, .waits)

/-- The first part of `lock_release`: the ending transaction gives up its
ownership. -/
def dropOwner (pl : GenLock Trx) (lt : Trx) : Except Fatal (GenLock Trx) :=
  match pl.owner with
  | .one o => .ok (if o = some lt then { pl with type := .free, owner := .one none } else pl)
  | .list os =>
    if lt ∈ os then
      -- `dk_set_delete` removes one occurrence
      if lt ∈ os.erase lt then .error .doublyOwnedLock
      else
        match os.erase lt with
        | [] => .ok { pl with type := .free, owner := .list [] }
        | [o] => .ok { pl with owner := .one (some o) }
        | os' => .ok { pl with owner := .list os' }
    else .ok pl

/-- What a release does to one queued cursor; each is one `semaphore_leave`. -/
inductive Event (Trx : Type u) where
  /-- The cursor of an ended or dead transaction is thrown out. -/
  | dropped (it : Cursor Trx)
  /-- A cursor that does not acquire is let through, in front of the queue `rest`. -/
  | passed (it : Cursor Trx) (rest : List (Cursor Trx))
  /-- An acquiring cursor becomes an owner. -/
  | granted (it : Cursor Trx)
deriving DecidableEq, Repr

def Event.cursor {Trx : Type u} : Event Trx → Cursor Trx
  | .dropped it => it
  | .passed it _ => it
  | .granted it => it

/-- The cursor an event makes an owner. -/
def Event.granted? {Trx : Type u} : Event Trx → Option (Cursor Trx)
  | .granted it => some it
  | _ => none

/-- The last loop of `lock_release`, over the queue `q`: let in from the head
whoever does not conflict with the owners so far.  Returns the lock with what is
left of the queue. -/
def wakeWaiting (pl : GenLock Trx) : List (Cursor Trx) →
    Except Fatal (GenLock Trx × List (Event Trx))
  | [] => .ok ({ pl with waiting := [] }, [])
  | it :: q =>
    if !it.acquires && it.lockMode = .shared then
      if pl.type ≠ .exclusive then do
        let (pl', ev) ← wakeWaiting pl q
        return (pl', .passed it q :: ev)
      else .ok ({ pl with waiting := it :: q }, [])
    else if !it.acquires && it.lockMode = .exclusive then
      if pl.type = .free then do
        let (pl', ev) ← wakeWaiting pl q
        return (pl', .passed it q :: ev)
      else .ok ({ pl with waiting := it :: q }, [])
    else do
      let (pl', ok) ← lockAddOwner { pl with waiting := it :: q } it true
      if ok then
        -- after an exclusive grant the rest waits until this owner is done
        if it.lockMode = .exclusive then return ({ pl' with waiting := q }, [.granted it])
        let (pl'', ev) ← wakeWaiting pl' q
        return (pl'', .granted it :: ev)
      return (pl', [])

/-- Whether `lock_release (pl, lt)` throws the cursor out: it belongs to the
ending transaction, or to one that is no longer pending. -/
def isDead (pending : Trx → Bool) (lt : Trx) (it : Cursor Trx) : Bool :=
  it.ltrx = lt || !pending it.ltrx

/-- `lock_release`: the lock after the ending transaction `lt` is done with it,
and the cursors signalled, in order. -/
def lockRelease (pending : Trx → Bool) (pl : GenLock Trx) (lt : Trx) :
    Except Fatal (GenLock Trx × List (Event Trx)) := do
  let pl₁ ← dropOwner pl lt
  let dead := pl₁.waiting.filter (isDead pending lt)
  let live := pl₁.waiting.filter fun it => !isDead pending lt it
  let (pl₂, ev) ← wakeWaiting pl₁ live
  if pl₂.owners.isEmpty && !pl₂.waiting.isEmpty then throw .lockFreeButCrWaiting
  return (pl₂, dead.map .dropped ++ ev)

end Virtuoso.Lock
