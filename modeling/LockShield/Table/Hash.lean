import LockShield.Table.RefModel
import LockShield.Table.Slots
import LockShield.Lib.PtrMap

/-!
# The array that turns into a hash

The hash-backed variants keep their locks in the slot array until the last slot
is used. That insertion moves all entries into a `uthash` table and sets
`lock_count` past `MAX_LOCKS`, which is how every helper recognises hash mode
from then on. Hash entries come from a fixed pool threaded on a free list, and
from `malloc` once the pool is empty.

What differs between the variants is a parameter here:

* how many bytes a count has and through which type it is accessed (`CountRep`);
* the size of the pool;
* `uthash`, any pointer map (`PtrMap`);
* `malloc`, a function of how often it was called and of the blocks that are live.

The module has the definitions only. A fault is part of their answers: a null entry
pointer, an index outside the array, a free list that leads nowhere.
-/

namespace LockShield

open Lib

/-- How a variant stores `rec_count`. -/
structure CountRep where
  /-- the field of an array slot -/
  Slot : Type
  /-- the bytes of the field of a hash entry -/
  Cell : Type
  slotOne : Slot
  slotInc : Slot → Slot
  slotDec : Slot → Slot
  /-- read into an `int` -/
  slotVal : Slot → Int
  /-- after `memset` -/
  cellZero : Cell
  /-- assign an `int` -/
  cellSet : Cell → Int → Cell
  /-- `++` through an `LS_LockEntry*` -/
  cellInc : Cell → Cell
  cellDec : Cell → Cell
  cellVal : Cell → Int

/-- The address of an `LS_LockHashEntry`. -/
inductive NodePtr where
  /-- `&freelist_pool[i]` -/
  | pool (i : Nat)
  /-- a block from `malloc` -/
  | heap (a : Nat)
  deriving DecidableEq, Repr

/-- `LS_LockHashEntry`, without the handle that `uthash` keeps in it. -/
structure HashEntry (Addr Cell : Type) where
  lockPtr : Addr
  recCount : Cell
  next : Option NodePtr
  dynamicallyAllocated : Bool

/-- What `lookup` returns as an `LS_LockEntry*`. -/
inductive EntryPtr where
  | slot (i : Nat)
  | node (p : NodePtr)
  deriving DecidableEq, Repr

/-- The thread-local state, and the blocks the thread has from `malloc`. -/
structure Tls (R : CountRep) (M Addr : Type) where
  slots : Slots Addr R.Slot
  lockHash : M
  mem : NodePtr → HashEntry Addr R.Cell
  freelistHead : Option NodePtr
  freelistInitialized : Bool
  heap : List Nat
  mallocs : Nat

namespace Tls

variable {R : CountRep} {M Addr : Type} [Inhabited Addr]

/-- A zero-initialised entry. -/
def zeroEntry (R : CountRep) (Addr : Type) [Inhabited Addr] : HashEntry Addr R.Cell :=
  ⟨default, R.cellZero, none, false⟩

/-- Overwrite the entry at `p`. -/
def write (s : Tls R M Addr) (p : NodePtr) (e : HashEntry Addr R.Cell) : Tls R M Addr :=
  { s with mem := Function.update s.mem p e }

/-- `init_freelist`, for a pool of `size` entries. -/
def initFreelist (size : Nat) (s : Tls R M Addr) : Tls R M Addr :=
  if s.freelistInitialized then s
  else
    -- `memset` over the pool; the blocks from `malloc` are elsewhere
    let zeroed : NodePtr → HashEntry Addr R.Cell
      | .pool _ => zeroEntry R Addr
      | .heap a => s.mem (.heap a)
    let linked := (List.range (size - 1)).foldl
      (fun m i => Function.update m (.pool i)
        { m (.pool i) with next := some (.pool (i + 1)), dynamicallyAllocated := false }) zeroed
    { s with
      mem := Function.update linked (.pool (size - 1))
        { linked (.pool (size - 1)) with next := none, dynamicallyAllocated := false }
      freelistHead := some (.pool 0)
      freelistInitialized := true }

/-- `freelist_pop`. -/
def freelistPop (size : Nat) (malloc : Nat → List Nat → Option Nat) :
    EStateM Fault (Tls R M Addr) (Option NodePtr) := do
  modify (initFreelist size)
  let s ← get
  match s.freelistHead with
  | some p =>
    set ({ s with freelistHead := (s.mem p).next }.write p
      { s.mem p with dynamicallyAllocated := false })
    return some p
  | none =>
    -- the pool is used up; a block comes zeroed
    match malloc s.mallocs s.heap with
    | some a =>
      set ({ s with heap := a :: s.heap, mallocs := s.mallocs + 1 }.write (.heap a)
        { zeroEntry R Addr with dynamicallyAllocated := true, next := none })
      return some (.heap a)
    | none =>
      -- null goes to the caller
      set { s with mallocs := s.mallocs + 1 }
      return none

/-- `freelist_push` of a non-null entry. -/
def freelistPush (p : NodePtr) : EStateM Fault (Tls R M Addr) Unit := do
  let s ← get
  if (s.mem p).dynamicallyAllocated then
    match p with
    | .heap a =>
      -- `free`, of a block that is live
      if a ∈ s.heap then set { s with heap := s.heap.erase a } else throw .badFree
    | .pool _ => throw .badFree
  else
    set ({ s with freelistHead := some p }.write p
      { s.mem p with
        lockPtr := default
        recCount := R.cellSet (s.mem p).recCount 0
        next := s.freelistHead })

variable [PtrMap M Addr NodePtr]

/-- `HASH_ADD_PTR(lock_hash, lock_ptr, p)`. -/
def hashAddPtr (p : NodePtr) (s : Tls R M Addr) : Tls R M Addr :=
  { s with lockHash := PtrMap.add s.lockHash (s.mem p).lockPtr p }

/-- `HASH_DEL(lock_hash, p)`. -/
def hashDel (p : NodePtr) (s : Tls R M Addr) : Tls R M Addr :=
  { s with lockHash := PtrMap.del s.lockHash p }

/-- Give a popped entry its lock and count and put it into the hash. -/
def fillEntry (p : NodePtr) (l : Addr) (c : Int) : EStateM Fault (Tls R M Addr) Unit :=
  modify fun s => (s.write p
    { s.mem p with lockPtr := l, recCount := R.cellSet (s.mem p).recCount c }).hashAddPtr p

/-- The conversion loop of `IncrementRef`, from slot `i` over the next `k` slots. -/
def convert (size : Nat) (malloc : Nat → List Nat → Option Nat) :
    Nat → Nat → EStateM Fault (Tls R M Addr) Unit
  | _, 0 => pure ()
  | i, k + 1 => do
    let newEntry ← freelistPop size malloc
    match newEntry with
    -- the loop does not look at the pointer
    | none => throw .nullDeref
    | some p =>
      let s ← get
      let e ← access (s.slots.read i)
      fillEntry p e.lockPtr (R.slotVal e.recCount)
      convert size malloc (i + 1) k

/-! ## The helpers -/

variable [DecidableEq Addr]

/-- `lookup`. -/
def lookup (l : Addr) : EStateM Fault (Tls R M Addr) (Option EntryPtr) := do
  let s ← get
  if s.slots.lockCount ≤ maxLocks then
    let i ← access (s.slots.scan l 0 s.slots.lockCount)
    return i.map .slot
  else
    -- `HASH_FIND_PTR`, and a cast to `LS_LockEntry*`
    return (PtrMap.find s.lockHash l).map .node

/-- `IncrementRef` where no entry was found. -/
def insertNew (size : Nat) (malloc : Nat → List Nat → Option Nat) (l : Addr) :
    EStateM Fault (Tls R M Addr) Unit := do
  let s ← get
  if s.slots.lockCount < maxLocks then
    let slots ← access (s.slots.push l R.slotOne)
    set { s with slots := slots }
    if slots.lockCount = maxLocks then
      modify (initFreelist size)
      convert size malloc 0 maxLocks
      -- `lock_count` skips from 3 to 5: from here on the state is in hash mode
      modify fun s => { s with slots := { s.slots with lockCount := s.slots.lockCount + 1 } }
  else
    let newEntry ← freelistPop size malloc
    match newEntry with
    -- without a node the lock is dropped, and the caller is not told
    | none => return ()
    | some p => fillEntry p l 1

/-- `entry->rec_count++`. -/
def incrementEntry : EntryPtr → EStateM Fault (Tls R M Addr) Unit
  | .slot i => do
    let s ← get
    let e ← access (s.slots.read i)
    let slots ← access (s.slots.setCount i (R.slotInc e.recCount))
    set { s with slots := slots }
  | .node p => modify fun s => s.write p { s.mem p with recCount := R.cellInc (s.mem p).recCount }

/-- `DecrementRef` of a non-null entry. -/
def decrementEntry (entry : EntryPtr) : EStateM Fault (Tls R M Addr) Int := do
  let s ← get
  if s.slots.lockCount ≤ maxLocks then
    match entry with
    | .slot i =>
      let e ← access (s.slots.read i)
      let val := R.slotVal e.recCount
      if 1 < val then
        let slots ← access (s.slots.setCount i (R.slotDec e.recCount))
        set { s with slots := slots }
        return val - 1
      else
        -- the last slot is copied over this one
        let slots ← access (s.slots.swapRemove i)
        set { s with slots := slots }
        return 0
    | .node _ => throw .wrongMode
  else
    match entry with
    | .node p =>
      let val := R.cellVal (s.mem p).recCount
      if 1 < val then
        set (s.write p { s.mem p with recCount := R.cellDec (s.mem p).recCount })
        return val - 1
      else
        -- out of the hash, and back to where it came from
        modify (hashDel p)
        freelistPush p
        return 0
    | .slot _ => throw .wrongMode

end Tls

end LockShield
