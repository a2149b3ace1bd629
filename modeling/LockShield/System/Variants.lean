import LockShield.System.Returns
import LockShield.Table.Array
import LockShield.Table.Hybrid
import LockShield.Table.Invoke

/-!
# The variants of the shield

The C++ shields as threads use them: for each thread its helpers and a fresh table
(`Variant`). `Counts` is what the rest asks of a variant for a number of locks: its
tables are tables of counters up to `INT_MAX`, with room for all of the locks.

There are two ways to have room. While there are fewer locks than the array has slots,
no shield needs its `malloc`; for any number of locks the hash-backed ones need a
`malloc` that delivers fresh blocks.

## Results

* `Counts.works`    — shielded locks work if the locks do.
* `lsArray_counts`  — `LS_ARRAY`, for at most as many locks as it has slots.
* `lsHybrid_counts_few`, `lsInvoke_counts_few` — the hash-backed shields for few locks, with
  any `malloc`.
* `lsHybrid_counts`, `lsInvoke_counts` — and for any number of locks.
-/

namespace LockShield.Shielded

open Lib

/-- The helpers of the threads, and the table they start with. -/
structure Variant (L T : Type) where
  Table : Type
  Ptr : Type
  ops : T → TableOps Table Ptr L
  table : Table

/-- The tables are tables of counters with room for all locks. -/
structure Variant.Counts {L T : Type} [DecidableEq L] (V : Variant L T) where
  D : (t : T) → RefTable (V.ops t)
  stands : ∀ t, (D t).Stands V.table RefModel.init
  limit : ∀ t, (D t).limit = 2 ^ 31 - 1
  roomy : Roomy D

/-- Two nested acquisitions are within every bound. -/
theorem Variant.Counts.one_lt {L T : Type} [DecidableEq L] {V : Variant L T} (hV : V.Counts)
    (t : T) : 1 < (hV.D t).limit := by
  rw [hV.limit]
  decide

/-- A lock works behind a variant that counts. -/
def Variant.Counts.works {L T : Type} [DecidableEq L] [DecidableEq T] [Fintype T]
    {V : Variant L T} {X : Mutex L T} {n : Nat} (hV : V.Counts) (hX : X.Works n) :
    (mutex X V.ops V.table).Works n :=
  Shielded.works hX hV.D hV.stands hV.one_lt hV.roomy

variable (L T : Type) [DecidableEq L] [Inhabited L]

/-- `shielding_array.cpp`. -/
def lsArray : Variant L T where
  Table := ArrayTable.Tls L
  Ptr := Nat
  ops _ := ArrayTable.ops
  table := ArrayTable.init

variable (M : Type) [PtrMap M L NodePtr] (malloc : T → Nat → List Nat → Option Nat)

/-- `shielding_hash.cpp`. -/
def lsHybrid : Variant L T where
  Table := Hybrid.Tls M L
  Ptr := EntryPtr
  ops t := Hybrid.ops (malloc t)
  table := Hybrid.init

/-- `shielding_invoke.cpp`. -/
def lsInvoke : Variant L T where
  Table := Invoke.Tls M L
  Ptr := EntryPtr
  ops t := Invoke.ops (malloc t)
  table := Invoke.init

variable {L T M malloc}

omit [DecidableEq L] [Inhabited L] in
/-- A table that misses one lock has fewer than there are. -/
theorem encard_add_one_le {cnt : L → Nat} {l : L} (h0 : cnt l = 0) :
    {k | cnt k ≠ 0}.encard + 1 ≤ ENat.card L := by
  have hnot : l ∉ {k | cnt k ≠ 0} := fun hne => hne h0
  rw [← Set.encard_insert_of_notMem hnot, ← Set.encard_univ L]
  exact Set.encard_le_encard (Set.subset_univ _)

omit [Inhabited L] in
/-- Up to its capacity the array has room for a lock that it misses. -/
theorem array_room (hcard : ENat.card L ≤ maxLocks) {cnt : L → Nat} {l : L}
    (h0 : cnt l = 0) : (ArrayTable.refTable L).room cnt := by
  have hle : {k | cnt k ≠ 0}.encard + 1 ≤ maxLocks := (encard_add_one_le h0).trans hcard
  exact (ENat.add_one_le_iff (by rintro htop; rw [htop] at hle; cases hle)).mp hle

/-- The array variant counts for up to as many locks as it has slots. -/
def lsArray_counts (hcard : ENat.card L ≤ maxLocks) : (lsArray L T).Counts where
  D _ := ArrayTable.refTable L
  stands _ := ArrayTable.init_stands
  limit _ := rfl
  roomy _ _ _ := array_room hcard

variable [LawfulPtrMap M]

/-! With so few locks that the array does not fill, the hash-backed variants need no
node and do not call `malloc`. -/

/-- The hash variant, as long as it stays in its array. -/
def lsHybrid_counts_few (hcard : ENat.card L < maxLocks) : (lsHybrid L T M malloc).Counts where
  D _ := Tls.arrayTable Hybrid.laws Hybrid.hashBacked
  stands _ := by
    obtain ⟨hmode, hcount⟩ := Tls.arrayMode_of_untouched (L := Hybrid.laws)
      (s := (Hybrid.init : Hybrid.Tls M L)) rfl rfl rfl rfl
    exact ⟨hmode, funext hcount⟩
  limit _ := rfl
  roomy _ _ _ h0 := (encard_add_one_le h0).trans_lt hcard

/-- The invoke variant, as long as it stays in its array. -/
def lsInvoke_counts_few (hcard : ENat.card L < maxLocks) : (lsInvoke L T M malloc).Counts where
  D _ := Tls.arrayTable Invoke.laws Invoke.hashBacked
  stands _ := by
    obtain ⟨hmode, hcount⟩ := Tls.arrayMode_of_untouched (L := Invoke.laws)
      (s := (Invoke.init : Invoke.Tls M L)) rfl rfl rfl rfl
    exact ⟨hmode, funext hcount⟩
  limit _ := rfl
  roomy _ _ _ h0 := (encard_add_one_le h0).trans_lt hcard

/-! With more locks `malloc` has to deliver. -/

/-- The hash variant for any number of locks. -/
def lsHybrid_counts (hfresh : ∀ t, MallocFresh (malloc t))
    (hmalloc : ∀ t, MallocSucceeds (malloc t)) : (lsHybrid L T M malloc).Counts where
  D t := Hybrid.refTable M L (hfresh t) (hmalloc t)
  stands t := Hybrid.init_stands (hfresh t) (hmalloc t)
  limit _ := rfl
  roomy _ _ _ _ := trivial

/-- The invoke variant for any number of locks. -/
def lsInvoke_counts (hfresh : ∀ t, MallocFresh (malloc t))
    (hmalloc : ∀ t, MallocSucceeds (malloc t)) : (lsInvoke L T M malloc).Counts where
  D t := Invoke.refTable M L (hfresh t) (hmalloc t)
  stands t := Invoke.init_stands (hfresh t) (hmalloc t)
  limit _ := rfl
  roomy _ _ _ _ := trivial

end LockShield.Shielded
