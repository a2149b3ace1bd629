import LockShield.Table.Interchange
import LockShield.Lib.LittleEndian

/-!
# `LS_INVOKE`

This variant keeps a `long` in the slots and an `int` in the hash entries, and
`IncrementRef` counts both up through a pointer to a slot: in the hash it
increments the `int` and the padding behind it as one `long`. The eight bytes
are modelled as such (`Cell`), read as either type and written as either.

## Results

* `stores_storeInt`, `stores_storeLong` — what is stored through one type is read back.
* `Stores.inc`, `Stores.dec` — counting up as a `long` and down as an `int` agree while the
  padding is zero.
* `Inv.cleanBytes`  — and it stays zero: a node that is reused starts with clean bytes.
* `invoke_refines`  — so both views of an entry are the count, and the variant's runs are
  runs of the reference-count map.
-/

namespace LockShield.Invoke

open Lib

/-- `MAX_HASH_ENTRIES`. -/
def maxHashEntries : Nat := 10

/-! ## The bytes of a hash entry's count -/

/-- The `int rec_count` of an `LS_LockHashEntry` and the padding after it. -/
structure Cell where
  bytes : List UInt8
  length : bytes.length = 8

namespace Cell

/-- After `memset`. -/
def zero : Cell := ⟨List.replicate 8 0, rfl⟩

/-- The bytes of the `int`. -/
def low (c : Cell) : List UInt8 := c.bytes.take 4

/-- The bytes that no field names. -/
def padding (c : Cell) : List UInt8 := c.bytes.drop 4

/-- Read as an `int`, through an `LS_LockHashEntry*`. -/
def asInt (c : Cell) : Int := loadSigned c.low

/-- Read as a `long`, through an `LS_LockEntry*`. -/
def asLong (c : Cell) : Int := loadSigned c.bytes

/-- Assign to the `int`. -/
def storeInt (c : Cell) (x : Int) : Cell where
  bytes := toBytes 4 x ++ c.padding
  length := by simp [padding, c.length]

/-- Assign to the `long`. -/
def storeLong (x : Int) : Cell := ⟨toBytes 8 x, length_toBytes 8 x⟩

/-- The bytes hold this count and nothing else. -/
def Stores (c : Cell) (n : Nat) : Prop :=
  ofBytes c.low = n ∧ ofBytes c.padding = 0 ∧ n ≤ 2 ^ 31 - 1

variable {c : Cell} {n : Nat}

theorem length_low (c : Cell) : c.low.length = 4 := by simp [low, c.length]

theorem padding_zero : ofBytes zero.padding = 0 := by
  refine ofBytes_eq_zero_iff.mpr fun b hb => ?_
  exact List.eq_of_mem_replicate (List.mem_of_mem_drop hb)

theorem ofBytes_bytes (c : Cell) :
    ofBytes c.bytes = ofBytes c.low + 2 ^ 32 * ofBytes c.padding := by
  have h := ofBytes_append c.low c.padding
  rw [low, padding, List.take_append_drop, ← low, length_low] at h
  exact h

theorem Stores.asInt (h : c.Stores n) : c.asInt = n := by
  obtain ⟨hlow, -, hn⟩ := h
  rw [Cell.asInt, loadSigned, length_low, hlow]
  exact int32_of_range (by omega) (by omega)

theorem Stores.asLong (h : c.Stores n) : c.asLong = n := by
  obtain ⟨hlow, hpad, hn⟩ := h
  -- the padding is the upper half of the `long`, and it is zero
  rw [Cell.asLong, loadSigned, c.length, ofBytes_bytes, hlow, hpad]
  exact int64_of_range (by omega) (by omega)

@[simp] theorem low_storeInt (c : Cell) (x : Int) : (c.storeInt x).low = toBytes 4 x := by
  simp [low, storeInt]

@[simp] theorem padding_storeInt (c : Cell) (x : Int) : (c.storeInt x).padding = c.padding := by
  simp [padding, storeInt]

/-- An `int` assigned to an entry with clean padding. -/
theorem stores_storeInt (hpad : ofBytes c.padding = 0) (hn : n ≤ 2 ^ 31 - 1) :
    (c.storeInt n).Stores n := by
  refine ⟨?_, by rw [padding_storeInt, hpad], hn⟩
  have hload := ofBytes_toBytes 4 n
  rw [low_storeInt]
  omega

theorem Stores.padding_storeInt (h : c.Stores n) (x : Int) :
    ofBytes (c.storeInt x).padding = 0 := by
  rw [Cell.padding_storeInt]
  exact h.2.1

/-- A `long` that fits an `int` leaves the padding zero. -/
theorem stores_storeLong (hn : n ≤ 2 ^ 31 - 1) : (storeLong n).Stores n := by
  have hall := ofBytes_toBytes 8 n
  have hsplit := ofBytes_bytes (storeLong n)
  have hbytes : ofBytes (storeLong n).bytes = ofBytes (toBytes 8 n) := rfl
  have hlow : ofBytes (storeLong n).low < 2 ^ 32 := by
    have h := ofBytes_lt (storeLong n).low
    rwa [length_low] at h
  -- eight bytes that hold less than `2^32` hold zero in the upper half
  refine ⟨?_, ?_, hn⟩ <;> omega

/-- Counting up as a `long`. -/
theorem Stores.inc (h : c.Stores n) (hlt : n < 2 ^ 31 - 1) :
    (storeLong (int64 (c.asLong + 1))).Stores (n + 1) := by
  have hfit : int64 (c.asLong + 1) = ((n + 1 : Nat) : Int) := by
    rw [h.asLong, int64_of_range (by omega) (by omega)]
    omega
  rw [hfit]
  exact stores_storeLong hlt

/-- Counting down as an `int`. -/
theorem Stores.dec (h : c.Stores n) (h1 : 1 < n) :
    (c.storeInt (int32 (c.asInt - 1))).Stores (n - 1) := by
  have hn := h.2.2
  have hfit : int32 (c.asInt - 1) = ((n - 1 : Nat) : Int) := by
    rw [h.asInt, int32_of_range (by omega) (by omega)]
    omega
  rw [hfit]
  exact stores_storeInt h.2.1 (by omega)

end Cell

/-- The counts of this variant. -/
def countRep : CountRep where
  Slot := Int
  Cell := Cell
  slotOne := 1
  slotInc v := int64 (v + 1)
  slotDec v := int64 (v - 1)
  -- `int val = entry->rec_count`, through the `LS_LockEntry*`
  slotVal v := int32 v
  cellZero := Cell.zero
  cellSet c x := c.storeInt x
  -- `entry->rec_count++`, through a pointer to a slot
  cellInc c := Cell.storeLong (int64 (c.asLong + 1))
  cellDec c := c.storeInt (int32 (c.asInt - 1))
  cellVal c := c.asInt

/-- The `long` that stores a count an `int` can hold. -/
def LongRep (v : Int) (n : Nat) : Prop := v = n ∧ n ≤ 2 ^ 31 - 1

theorem LongRep.of_le {n : Nat} (h : n ≤ 2 ^ 31 - 1) : LongRep (int64 n) n :=
  ⟨int64_of_range (by omega) (by omega), h⟩

theorem LongRep.one : LongRep 1 1 := LongRep.of_le (n := 1) (by omega)

theorem LongRep.int {v : Int} {n : Nat} (h : LongRep v n) : int32 v = n := by
  obtain ⟨rfl, hn⟩ := h
  exact int32_of_range (by omega) (by omega)

theorem LongRep.inc {v : Int} {n : Nat} (h : LongRep v n) (hlt : n < 2 ^ 31 - 1) :
    LongRep (int64 (v + 1)) (n + 1) := by
  obtain ⟨rfl, -⟩ := h
  exact LongRep.of_le (n := n + 1) hlt

theorem LongRep.dec {v : Int} {n : Nat} (h : LongRep v n) (h1 : 1 < n) :
    LongRep (int64 (v - 1)) (n - 1) := by
  obtain ⟨rfl, hn⟩ := h
  have hsub : (n : Int) - 1 = ((n - 1 : Nat) : Int) := by omega
  rw [hsub]
  exact LongRep.of_le (by omega)

/-- Counts below `2^31` go through both layouts. -/
def laws : countRep.Laws where
  limit := 2 ^ 31 - 1
  slotRep := LongRep
  cellRep := Cell.Stores
  clean c := ofBytes c.padding = 0
  slotVal _ _ h := h.int
  slotOne := LongRep.one
  slotInc _ _ h hlt := h.inc hlt
  slotDec _ _ h h1 := h.dec h1
  slotLimit _ _ h := h.2
  cellVal _ _ h := h.asInt
  cellInc _ _ h hlt := h.inc hlt
  cellDec _ _ h h1 := h.dec h1
  cellSet _ _ hclean hn := Cell.stores_storeInt hclean hn
  cleanZero := Cell.padding_zero
  cleanSet _ _ h := h.padding_storeInt 0

/-! ## The table -/

/-- The thread-local state of `LS_INVOKE`. -/
abbrev Tls (M Addr : Type) := LockShield.Tls countRep M Addr

variable {M Addr : Type} [Inhabited Addr] [DecidableEq Addr] [PtrMap M Addr NodePtr]

/-- The zero-initialised thread-local state. -/
def init : Tls M Addr where
  slots := ⟨fun _ => ⟨default, (0 : Int)⟩, 0⟩
  lockHash := PtrMap.empty
  mem _ := Tls.zeroEntry countRep Addr
  freelistHead := none
  freelistInitialized := false
  heap := []
  mallocs := 0

variable (malloc : Nat → List Nat → Option Nat)

def incrementRef (l : Addr) : Option EntryPtr → EStateM Fault (Tls M Addr) Unit
  | none => Tls.insertNew maxHashEntries malloc l
  | some e => Tls.incrementEntry e

def decrementRef (_l : Addr) : Option EntryPtr → EStateM Fault (Tls M Addr) Int
  | none => return -1
  | some e => Tls.decrementEntry e

/-- The helpers of `shielding_invoke.cpp`. -/
def ops : TableOps (Tls M Addr) EntryPtr Addr := ⟨Tls.lookup, incrementRef malloc, decrementRef⟩

variable {malloc}

theorem hashBacked :
    Tls.HashBacked (ops malloc : TableOps (Tls M Addr) EntryPtr Addr) maxHashEntries malloc where
  lookup := rfl
  insert _ _ _ := rfl
  increment _ _ := rfl
  decrement _ _ := rfl

section Lawful

variable [LawfulPtrMap M]

/-- The invariant between two calls. -/
def Inv (s : Tls M Addr) : Prop := s.Inv laws maxHashEntries ∧ s.Untouched

theorem one_le_limit : 1 ≤ laws.limit := by
  simp only [laws]
  omega

theorem maxLocks_le : maxLocks ≤ maxHashEntries := by decide

variable (M Addr) in
/-- The table of counters behind `LS_INVOKE`. -/
def refTable (hfresh : MallocFresh malloc) (hmalloc : MallocSucceeds malloc) :
    RefTable (ops malloc : TableOps (Tls M Addr) EntryPtr Addr) :=
  let base := Tls.refTable (M := M) laws one_le_limit maxLocks_le hashBacked hfresh hmalloc
  { Inv := Inv
    count := Tls.count
    room := fun _ => True
    limit := 2 ^ 31 - 1
    lookup_none := fun s l hI => base.lookup_none s l hI.1
    lookup_some := fun s l hI => base.lookup_some s l hI.1
    insert := fun s l hI h0 hroom => by
      obtain ⟨s', hrun, hI', hcount⟩ := base.insert s l hI.1 h0 hroom
      exact ⟨s', hrun, ⟨hI', Tls.insertNew_untouched hI.2 hrun⟩, hcount⟩
    increment := fun s l e hI hl hlt => by
      obtain ⟨s', hrun, hI', hcount⟩ := base.increment s l e hI.1 hl hlt
      exact ⟨s', hrun, ⟨hI', Tls.incrementEntry_untouched hI.1 hl hI.2 hrun⟩, hcount⟩
    decrement := fun s l e hI hl => by
      obtain ⟨s', hrun, hI', hcount⟩ := base.decrement s l e hI.1 hl
      exact ⟨s', hrun, ⟨hI', Tls.decrementEntry_untouched hI.1 hl hI.2 hrun⟩, hcount⟩ }

theorem refTable_limit (hfresh : MallocFresh malloc) (hmalloc : MallocSucceeds malloc) :
    (refTable M Addr hfresh hmalloc).limit = 2 ^ 31 - 1 := rfl

theorem init_stands (hfresh : MallocFresh malloc) (hmalloc : MallocSucceeds malloc) :
    (refTable M Addr hfresh hmalloc).Stands init RefModel.init := by
  obtain ⟨hmode, hcount⟩ :=
    Tls.arrayMode_of_untouched (L := laws) (s := (init : Tls M Addr)) rfl rfl rfl rfl
  exact ⟨⟨Or.inl hmode, fun _ _ => rfl⟩, funext hcount⟩

/-- Runs of `LS_INVOKE` are runs of the map while no count outgrows an `int`. -/
theorem run_stands (hfresh : MallocFresh malloc) (hmalloc : MallocSucceeds malloc)
    {cs pre : List (Call Addr)} (hbelow : RefModel.Below (2 ^ 31) cs) (hpre : pre <+: cs) :
    (run (shieldStep (ops malloc)) (init : Tls M Addr) pre).replies =
      (run RefModel.step RefModel.init pre).replies ∧
    (run (shieldStep (ops malloc)) (init : Tls M Addr) pre).stop =
      (run RefModel.step RefModel.init pre).stop ∧
    Inv (run (shieldStep (ops malloc)) (init : Tls M Addr) pre).final ∧
    (run (shieldStep (ops malloc)) (init : Tls M Addr) pre).final.count =
      (run RefModel.step RefModel.init pre).final := by
  refine (refTable M Addr hfresh hmalloc).run_below (fun _ => trivial) (init_stands _ _) ?_ hpre
  rw [refTable_limit, Nat.sub_add_cancel (Nat.one_le_two_pow)]
  exact hbelow

/-- What the bytes of the hash entries are between two calls, given the number
of outstanding acquisitions of each lock. -/
structure CleanBytes (s : Tls M Addr) (cnt : Addr → Nat) : Prop where
  /-- both views of a tracked entry are its count -/
  views : ∀ l p, (Tls.lookup l).run s = .ok (some (.node p)) s →
    (s.mem p).recCount.asInt = cnt l ∧ (s.mem p).recCount.asLong = cnt l
  /-- the padding of a pool node that is not in use is zero -/
  free : ∀ i < maxHashEntries, (∀ l, s.found l ≠ some (.pool i)) →
    ∀ b ∈ (s.mem (.pool i)).recCount.padding, b = 0

omit [LawfulPtrMap M] in
theorem Inv.cleanBytes {s : Tls M Addr} (h : Inv s) : CleanBytes s s.count := by
  obtain ⟨hinv, huntouched⟩ := h
  constructor
  · intro l p hl
    rcases Tls.lookup_some_cases hinv hl with ⟨-, i, hi, -⟩ | ⟨hH, q, hq, hf⟩
    · -- a slot is no hash entry
      cases hi
    · obtain rfl : p = q := by simpa using hq
      obtain ⟨fl, hp⟩ := hH.pooled
      obtain ⟨c, -, -, hc⟩ := hp.counted l p hf
      -- both views read a count that is stored with clean padding
      have hstores : (s.mem p).recCount.Stores c := hc
      rw [hH.count_eq, Tls.hashCount_eq hf hc]
      exact ⟨hstores.asInt, hstores.asLong⟩
  · intro i hi hfree
    refine ofBytes_eq_zero_iff.mp ?_
    rcases hinv with hA | hH
    · -- the pool is as `memset` left it
      rw [huntouched hA.fresh]
      rfl
    · obtain ⟨fl, hp⟩ := hH.pooled
      -- a node that is no entry is on the free list
      rcases hp.poolSplit i hi with hfl | hres | ⟨k, hk⟩
      · exact (hp.free _ hfl).2
      · cases hres
      · exact absurd hk (hfree k)

/-- `LS_INVOKE` refines the reference-count map, and in every state on the way
the bytes behind the counts are clean: what the helpers count up as a `long` and compare
as an `int` is one number, that of the map. -/
theorem invoke_refines (hfresh : MallocFresh malloc) (hmalloc : MallocSucceeds malloc)
    (cs : List (Call Addr)) (hbelow : RefModel.Below (2 ^ 31) cs) :
    (run (shieldStep (ops malloc)) (init : Tls M Addr) cs).replies =
      (run RefModel.step RefModel.init cs).replies ∧
    (run (shieldStep (ops malloc)) (init : Tls M Addr) cs).stop =
      (run RefModel.step RefModel.init cs).stop ∧
    ∀ pre, pre <+: cs →
      CleanBytes (run (shieldStep (ops malloc)) (init : Tls M Addr) pre).final
        (run RefModel.step RefModel.init pre).final ∧
      ∀ l v, (∃ e,
          (Tls.lookup l).run (run (shieldStep (ops malloc)) (init : Tls M Addr) pre).final =
            .ok (some e) (run (shieldStep (ops malloc)) init pre).final ∧
          (run (shieldStep (ops malloc)) (init : Tls M Addr) pre).final.recCount e = v) ↔
        (run RefModel.step RefModel.init pre).final l ≠ 0 ∧
          v = (run RefModel.step RefModel.init pre).final l := by
  obtain ⟨hreplies, hstop, -⟩ :=
    run_stands (M := M) hfresh hmalloc hbelow (List.prefix_refl cs)
  refine ⟨hreplies, hstop, fun pre hpre => ?_⟩
  obtain ⟨-, -, hinv, hcount⟩ := run_stands (M := M) hfresh hmalloc hbelow hpre
  rw [← hcount]
  refine ⟨hinv.cleanBytes, fun l v => ?_⟩
  exact Tls.lookup_recCount_eq_iff hinv.1 l v

/-- Four locks, so that the counts move to the hash, and a pool node that goes
from one lock to another. -/
def reissued : List (Call Nat) :=
  [.acquire 0 true, .acquire 0 true, .acquire 1 true, .acquire 2 true, .acquire 3 true,
    .acquire 0 true, .release 3 true, .acquire 4 true, .acquire 4 true, .release 4 true]

theorem invoke_refines_reissued :
    CleanBytes (run (shieldStep (ops bumpMalloc)) (init : Tls (FunMap Nat NodePtr) Nat)
      reissued).final (run RefModel.step RefModel.init reissued).final :=
  ((invoke_refines bumpMalloc_fresh bumpMalloc_succeeds reissued
    (RefModel.below_of_length (by decide))).2.2 reissued (List.prefix_refl _)).1

end Lawful

end LockShield.Invoke
