import LockShield.Lib.Dll
import LockShield.Lib.MachineInt

/-!
# `uthash`

The macros of the vendored header that the hash-backed shields use, for keys of
one length (`HASH_ADD_PTR`, `HASH_FIND_PTR`) and without the optional Bloom
filter. An element and the handle in it are one `Node`; a handle's fields are
functions of the node. Every element is in two doubly linked lists: its bucket's
chain (`hhPrev`, `hhNext`) and the list of all elements in the order in which
they were added (`prev`, `next`).

The header ends the process when it gets no memory (`HASH_NONFATAL_OOM` is 0),
so the macros run in `Except Stop`. A loop over links has as much fuel as the
table has elements. `malloc n bytes` says whether call number `n` succeeds; the block
it returns is named by `n` and freed with its size.

The module has the definitions only. `HASH_FSCK`, which the header runs after additions
and deletions in debug builds, is among them (`hashFsck`): it is the header's own
statement of what its tables should be.
-/

namespace LockShield.Uthash

open Lib

/-- What keeps a macro from completing. -/
inductive Stop where
  /-- `uthash_fatal("out of memory")`, which is `exit(-1)` -/
  | exit
  /-- a loop over links that form a cycle -/
  | endless
  /-- an access through `NULL` -/
  | nullDeref
  /-- a call of `uthash_free` that no `uthash_malloc` answers to -/
  | badFree
  deriving DecidableEq, Repr

/-- `UT_hash_bucket`. -/
structure Bucket (Node : Type) where
  hhHead : Option Node
  count : Nat
  expandMult : Nat
  deriving DecidableEq

/-- `UT_hash_table`. -/
structure Table (Node : Type) where
  buckets : Nat → Bucket Node
  /-- the block of the buckets -/
  bucketsBlock : Nat
  numBuckets : Nat
  log2NumBuckets : Nat
  numItems : Nat
  /-- the last element in the order of additions -/
  tail : Option Node
  idealChainMaxlen : Nat
  nonidealItems : Nat
  ineffExpands : Nat
  noexpand : Bool

/-- The caller's head pointer, the table behind it and the handles. -/
structure State (Key Node : Type) where
  head : Option Node
  tbl : Table Node
  /-- the block of the table -/
  tblBlock : Nat
  /-- neighbours in the order of additions -/
  prev : Node → Option Node
  next : Node → Option Node
  /-- neighbours in the bucket -/
  hhPrev : Node → Option Node
  hhNext : Node → Option Node
  /-- what `key` points to -/
  key : Node → Key
  hashv : Node → Nat
  /-- history: the number of elements, which `numItems` counts in an `unsigned` -/
  size : Nat
  /-- the calls of `uthash_malloc` so far -/
  mallocs : Nat
  /-- the blocks that are not freed yet, each named by the call that returned it, and
  their sizes -/
  blocks : List (Nat × Nat)

/-- `HASH_INITIAL_NUM_BUCKETS`. -/
def hashInitialNumBuckets : Nat := 32

/-- `HASH_INITIAL_NUM_BUCKETS_LOG2`. -/
def hashInitialNumBucketsLog2 : Nat := 5

/-- `HASH_BKT_CAPACITY_THRESH`. -/
def hashBktCapacityThresh : Nat := 10

/-- `sizeof(UT_hash_table)`, for pointers of eight bytes. -/
def sizeofTable : Nat := 64

/-- `sizeof(UT_hash_bucket)`. -/
def sizeofBucket : Nat := 16

variable {Key Node : Type}

/-- No element; the memory is zeroed. -/
def empty [Inhabited Key] : State Key Node where
  head := none
  tbl := ⟨fun _ => ⟨none, 0, 0⟩, 0, 0, 0, 0, none, 0, 0, 0, false⟩
  tblBlock := 0
  prev _ := none
  next _ := none
  hhPrev _ := none
  hhNext _ := none
  key _ := default
  hashv _ := 0
  size := 0
  mallocs := 0
  blocks := []

/-! ## Memory -/

/-- `uthash_malloc(bytes)`, which ends the process when it fails. -/
def uthashMalloc (malloc : Nat → Nat → Bool) (bytes : Nat) (s : State Key Node) :
    Except Stop (State Key Node) :=
  if malloc s.mallocs bytes = false then .error .exit
  else .ok { s with mallocs := s.mallocs + 1, blocks := (s.mallocs, bytes) :: s.blocks }

/-- `uthash_free(ptr, bytes)`, which takes back a block of that size. -/
def uthashFree (block bytes : Nat) (s : State Key Node) : Except Stop (State Key Node) :=
  if (block, bytes) ∈ s.blocks then .ok { s with blocks := s.blocks.erase (block, bytes) }
  else .error .badFree

/-- The memory of the table: its buckets and the table itself. -/
def State.ownBlocks (s : State Key Node) : List (Nat × Nat) :=
  [(s.tbl.bucketsBlock, s.tbl.numBuckets * sizeofBucket), (s.tblBlock, sizeofTable)]

/-- `HASH_TO_BKT`: `hashv & (num_bkts - 1U)`. -/
def hashToBkt (hashv numBkts : Nat) : Nat := hashv &&& uint32 (numBkts + (2 ^ 32 - 1))

/-! ## Finding -/

section Find

variable [DecidableEq Key]

/-- `HASH_FIND_IN_BKT`, from a handle on. -/
def hashFindInBkt (s : State Key Node) (k : Key) (hashval : Nat) :
    Nat → Option Node → Except Stop (Option Node)
  | _, none => .ok none
  | 0, some _ => .error .endless
  | fuel + 1, some out =>
    if s.hashv out = hashval ∧ s.key out = k then .ok (some out)
    else hashFindInBkt s k hashval fuel (s.hhNext out)

/-- `HASH_FIND_BYHASHVALUE`. -/
def hashFindByhashvalue (k : Key) (hashval : Nat) (s : State Key Node) :
    Except Stop (Option Node) :=
  match s.head with
  | none => .ok none
  | some _ =>
    hashFindInBkt s k hashval s.size (s.tbl.buckets (hashToBkt hashval s.tbl.numBuckets)).hhHead

/-- `HASH_FIND_PTR`, with `hash` for `HASH_VALUE`. -/
def hashFindPtr (hash : Key → Nat) (k : Key) (s : State Key Node) : Except Stop (Option Node) :=
  match s.head with
  | none => .ok none
  | some _ => hashFindByhashvalue k (hash k) s

end Find

/-! ## Doubling the buckets -/

section Expand

variable [DecidableEq Node]

/-- The new buckets of an expansion, and the links while elements move over. -/
structure Rehash (Node : Type) where
  buckets : Nat → Bucket Node
  hhPrev : Node → Option Node
  hhNext : Node → Option Node
  nonidealItems : Nat

/-- Put an element at the head of its new bucket. -/
def Rehash.place (ideal b : Nat) (thh : Node) (r : Rehash Node) : Rehash Node :=
  let newbkt := r.buckets b
  let count := uint32 (newbkt.count + 1)
  { buckets := Function.update r.buckets b
      ⟨some thh, count,
        if ideal < count ∧ uint32 (newbkt.expandMult * ideal) < count then
          uint32 (newbkt.expandMult + 1)
        else newbkt.expandMult⟩
    hhPrev := patch (Function.update r.hhPrev thh none) newbkt.hhHead (some thh)
    hhNext := Function.update r.hhNext thh newbkt.hhHead
    nonidealItems := if ideal < count then uint32 (r.nonidealItems + 1) else r.nonidealItems }

/-- The loop over an old bucket, from a handle on. -/
def rehashChain (hashv : Node → Nat) (numBuckets ideal : Nat) :
    Nat → Option Node → Rehash Node → Except Stop (Rehash Node)
  | _, none, r => .ok r
  | 0, some _, _ => .error .endless
  | fuel + 1, some thh, r =>
    -- the next handle is read before the links of this one change
    rehashChain hashv numBuckets ideal fuel (r.hhNext thh)
      (r.place ideal (hashToBkt (hashv thh) numBuckets) thh)

/-- `ideal_chain_maxlen` for twice the buckets. -/
def idealChainMaxlen (t : Table Node) : Nat :=
  uint32 ((t.numItems >>> (t.log2NumBuckets + 1)) +
    if t.numItems &&& uint32 (t.numBuckets * 2 + (2 ^ 32 - 1)) ≠ 0 then 1 else 0)

/-- The end of `HASH_EXPAND_BUCKETS`, after its loops: the new buckets replace
the old, which are freed. -/
def adoptBuckets (ideal block : Nat) (r : Rehash Node) (s : State Key Node) : State Key Node :=
  let ineff :=
    if s.tbl.numItems >>> 1 < r.nonidealItems then uint32 (s.tbl.ineffExpands + 1) else 0
  { s with
    tbl := { s.tbl with
      buckets := r.buckets
      bucketsBlock := block
      numBuckets := uint32 (s.tbl.numBuckets * 2)
      log2NumBuckets := uint32 (s.tbl.log2NumBuckets + 1)
      idealChainMaxlen := ideal
      nonidealItems := r.nonidealItems
      ineffExpands := ineff
      noexpand := s.tbl.noexpand || decide (1 < ineff) }
    hhPrev := r.hhPrev
    hhNext := r.hhNext }

/-- `HASH_EXPAND_BUCKETS`. -/
def hashExpandBuckets (malloc : Nat → Nat → Bool) (s : State Key Node) :
    Except Stop (State Key Node) := do
  let block := s.mallocs
  let s ← uthashMalloc malloc (sizeofBucket * s.tbl.numBuckets * 2) s
  let ideal := idealChainMaxlen s.tbl
  let r ← (List.range s.tbl.numBuckets).foldlM
    (fun r i => rehashChain s.hashv (uint32 (s.tbl.numBuckets * 2)) ideal s.size
      (s.tbl.buckets i).hhHead r)
    ⟨fun _ => ⟨none, 0, 0⟩, s.hhPrev, s.hhNext, 0⟩
  let s ← uthashFree s.tbl.bucketsBlock (s.tbl.numBuckets * sizeofBucket) s
  return adoptBuckets ideal block r s

end Expand

/-! ## Adding -/

section Add

variable [DecidableEq Node] (malloc : Nat → Nat → Bool)

/-- `HASH_MAKE_TABLE`: the table, then its buckets. -/
def hashMakeTable (head : Node) (s : State Key Node) : Except Stop (State Key Node) := do
  let tblBlock := s.mallocs
  let s ← uthashMalloc malloc sizeofTable s
  let bucketsBlock := s.mallocs
  let s ← uthashMalloc malloc (hashInitialNumBuckets * sizeofBucket) s
  return { s with
    tblBlock
    tbl :=
      { buckets := fun _ => ⟨none, 0, 0⟩
        bucketsBlock
        numBuckets := hashInitialNumBuckets
        log2NumBuckets := hashInitialNumBucketsLog2
        numItems := 0
        tail := some head
        idealChainMaxlen := 0
        nonidealItems := 0
        ineffExpands := 0
        noexpand := false } }

/-- `HASH_APPEND_LIST`. -/
def hashAppendList (add : Node) (s : State Key Node) : Except Stop (State Key Node) :=
  match s.tbl.tail with
  | none => .error .nullDeref
  | some tail => .ok { s with
    next := Function.update (Function.update s.next add none) tail (some add)
    prev := Function.update s.prev add (some tail)
    tbl := { s.tbl with tail := some add } }

/-- The stores of `HASH_ADD_TO_BKT`, up to the test for an expansion. -/
def pushBkt (b : Nat) (addhh : Node) (s : State Key Node) : State Key Node :=
  let bkt := s.tbl.buckets b
  { s with
    tbl := { s.tbl with
      buckets := Function.update s.tbl.buckets b
        { bkt with hhHead := some addhh, count := uint32 (bkt.count + 1) } }
    hhNext := Function.update s.hhNext addhh bkt.hhHead
    hhPrev := patch (Function.update s.hhPrev addhh none) bkt.hhHead (some addhh) }

/-- `HASH_ADD_TO_BKT`. -/
def hashAddToBkt (b : Nat) (addhh : Node) (s : State Key Node) : Except Stop (State Key Node) :=
  let s := pushBkt b addhh s
  let bkt := s.tbl.buckets b
  if uint32 ((bkt.expandMult + 1) * hashBktCapacityThresh) ≤ bkt.count ∧ s.tbl.noexpand = false then
    hashExpandBuckets malloc s
  else .ok s

/-- `HASH_ADD_TO_TABLE`. -/
def hashAddToTable (hashval : Nat) (add : Node) (s : State Key Node) :
    Except Stop (State Key Node) :=
  let s := { s with
    tbl := { s.tbl with numItems := uint32 (s.tbl.numItems + 1) }
    size := s.size + 1 }
  hashAddToBkt malloc (hashToBkt hashval s.tbl.numBuckets) add s

/-- `HASH_ADD_KEYPTR_BYHASHVALUE`. -/
def hashAddKeyptrByhashvalue (k : Key) (hashval : Nat) (add : Node) (s : State Key Node) :
    Except Stop (State Key Node) := do
  let s := { s with
    hashv := Function.update s.hashv add hashval
    key := Function.update s.key add k }
  let s ← match s.head with
    | none => do
      let s ← hashMakeTable malloc add { s with
        next := Function.update s.next add none
        prev := Function.update s.prev add none }
      pure { s with head := some add }
    | some _ => hashAppendList add s
  hashAddToTable malloc hashval add s

/-- `HASH_ADD_PTR` of an element whose key field is `k`. -/
def hashAddPtr (hash : Key → Nat) (k : Key) (add : Node) (s : State Key Node) :
    Except Stop (State Key Node) :=
  hashAddKeyptrByhashvalue malloc k (hash k) add s

end Add

/-! ## Deleting -/

section Delete

variable [DecidableEq Node]

/-- `HASH_DEL_IN_BKT`. -/
def hashDelInBkt (b : Nat) (delhh : Node) (s : State Key Node) : State Key Node :=
  let bkt := s.tbl.buckets b
  { s with
    tbl := { s.tbl with
      buckets := Function.update s.tbl.buckets b
        { bkt with
          count := uint32 (bkt.count + (2 ^ 32 - 1))
          hhHead := if bkt.hhHead = some delhh then s.hhNext delhh else bkt.hhHead } }
    hhNext := patch s.hhNext (s.hhPrev delhh) (s.hhNext delhh)
    hhPrev := patch s.hhPrev (s.hhNext delhh) (s.hhPrev delhh) }

/-- Take an element out of the order of additions. -/
def unlinkOrder (del : Node) (s : State Key Node) : State Key Node :=
  { s with
    tbl := { s.tbl with tail := if s.tbl.tail = some del then s.prev del else s.tbl.tail }
    head := if s.prev del = none then s.next del else s.head
    next := patch s.next (s.prev del) (s.next del)
    prev := patch s.prev (s.next del) (s.prev del) }

/-- `HASH_DEL`, which is `HASH_DELETE_HH` of the handle. -/
def hashDel (del : Node) (s : State Key Node) : Except Stop (State Key Node) :=
  if s.prev del = none ∧ s.next del = none then do
    -- the only element: the table goes with it
    let s ← uthashFree s.tbl.bucketsBlock (s.tbl.numBuckets * sizeofBucket) s
    let s ← uthashFree s.tblBlock sizeofTable s
    return { s with head := none, size := s.size - 1 }
  else
    let s := unlinkOrder del s
    let s := hashDelInBkt (hashToBkt (s.hashv del) s.tbl.numBuckets) del s
    .ok { s with
      tbl := { s.tbl with numItems := uint32 (s.tbl.numItems + (2 ^ 32 - 1)) }
      size := s.size - 1 }

end Delete

/-! ## The integrity check -/

section Fsck

variable [DecidableEq Node]

/-- A loop of `HASH_FSCK`: the number of nodes from `thh` on, unless a node does
not point back to the one before it. -/
def fsckList (next prev : Node → Option Node) : Nat → Option Node → Option Node → Nat → Option Nat
  | _, _, none, count => some count
  | 0, _, some _, _ => none
  | fuel + 1, before, some thh, count =>
    if before ≠ prev thh then none
    else fsckList next prev fuel (some thh) (next thh) (uint32 (count + 1))

/-- `HASH_FSCK` on bucket `i`, with `count` elements in the buckets before. -/
def fsckBucket (s : State Key Node) (count i : Nat) : Option Nat :=
  match fsckList s.hhNext s.hhPrev s.size none (s.tbl.buckets i).hhHead 0 with
  | none => none
  | some bktCount =>
    if (s.tbl.buckets i).count ≠ bktCount then none else some (uint32 (count + bktCount))

/-- `HASH_FSCK`, the check that `HASH_DEBUG` runs after every macro. -/
def hashFsck (s : State Key Node) : Bool :=
  match s.head with
  | none => true
  | some h =>
    decide ((List.range s.tbl.numBuckets).foldlM (fsckBucket s) 0 = some s.tbl.numItems) &&
      decide (fsckList s.next s.prev s.size none (some h) 0 = some s.tbl.numItems)

end Fsck

end LockShield.Uthash
