import LockShield.Table.RefModel
import LockShield.Table.Slots
import LockShield.Lib.MachineInt

/-!
# `LS_ARRAY`

The C++ array variant: the slot array alone, with a 64-bit `long` count per
slot. An entry pointer is the index of its slot. `IncrementRef` records a new
lock only while there is a free slot, and `DecrementRef` returns the remaining
`long` count through an `int`.

The helpers are shown to be those of a reference-count map (`refTable`), whose room
is a free slot and whose counters fit an `int`. A new lock that finds no slot is
dropped without a word (`incrementRef_full`), which is why room is needed.

## Results

* `lookup_eq_some_iff` — a lookup finds the slot in which the lock is stored.
* `incrementRef_new`, `incrementRef_held`, `incrementRef_full` — the three cases of
  `IncrementRef`, and `decrementRef_lower`, `decrementRef_remove` those of `DecrementRef`.
* `refTable` — the array is a table of counters, with room for `MAX_LOCKS` locks.
-/

namespace LockShield.ArrayTable

open Lib

variable {Addr : Type} [DecidableEq Addr]

/-- The thread-local state of the array variant. -/
abbrev Tls (Addr : Type) := Slots Addr Int

/-- The zero-initialised thread-local state. -/
def init [Inhabited Addr] : Tls Addr := ⟨fun _ => ⟨default, 0⟩, 0⟩

/-- `lookup(l)`: the index of the slot, where the C++ code has a pointer to it. -/
def lookup (l : Addr) : EStateM Fault (Tls Addr) (Option Nat) := do
  let s ← get
  if s.lockCount ≤ maxLocks then
    access (s.scan l 0 s.lockCount)
  else
    return none

/-- `IncrementRef(l, entry)`. A null entry is looked up again. -/
def incrementRef (l : Addr) (entry : Option Nat) : EStateM Fault (Tls Addr) Unit := do
  let entry ← if entry.isNone then lookup l else pure entry
  let s ← get
  match entry with
  | none =>
    -- in a full table the lock is dropped
    if s.lockCount < maxLocks then
      set (← access (s.push l 1))
  | some i =>
    let e ← access (s.read i)
    set (← access (s.setCount i (int64 (e.recCount + 1))))

/-- `DecrementRef(l, entry)`, with what it returns. -/
def decrementRef (l : Addr) (entry : Option Nat) : EStateM Fault (Tls Addr) Int := do
  let entry ← if entry.isNone then lookup l else pure entry
  match entry with
  | none => return -1
  | some i =>
    let s ← get
    let e ← access (s.read i)
    if 1 < e.recCount then
      set (← access (s.setCount i (int64 (e.recCount - 1))))
      -- `return entry->rec_count`, a `long` squeezed into an `int`
      return int32 (int64 (e.recCount - 1))
    else
      -- `lock_table[idx] = lock_table[--lock_count]`
      set (← access (s.swapRemove i))
      return 0

/-- The helpers of `shielding_array.cpp`. -/
def ops : TableOps (Tls Addr) Nat Addr := ⟨lookup, incrementRef, decrementRef⟩

/-! ## What the helpers do to a well-formed table -/

variable {s : Tls Addr} {l : Addr} {i : Nat} {v : Int}

/-- In a well-formed table a lookup is a scan of the slots in use. -/
theorem run_lookup (hwf : s.WF) {r : Option Nat} (h : s.scan l 0 s.lockCount = .ok r) :
    (lookup l).run s = .ok r s := by
  simp [lookup, hwf.fits, h]

/-- It finds what the scan finds. -/
theorem lookup_eq_some_iff (hwf : s.WF) :
    (lookup l).run s = .ok (some i) s ↔ s.scan l 0 s.lockCount = .ok (some i) := by
  rcases Slots.scan_cases hwf l with h | ⟨j, h⟩ <;> simp [run_lookup hwf h, h]

/-- A lock that is not stored is not found. -/
theorem lookup_none_of_stored (hwf : s.WF) (h : s.stored l = none) :
    (lookup l).run s = .ok none s :=
  run_lookup hwf ((Slots.stored_eq_none_iff hwf).mp h)

/-- A lock that is stored is found. -/
theorem lookup_some_of_stored (hwf : s.WF) (h : s.stored l ≠ none) :
    ∃ i, (lookup l).run s = .ok (some i) s := by
  rcases Slots.scan_cases hwf l with hs | ⟨i, hs⟩
  · exact absurd ((Slots.stored_eq_none_iff hwf).mpr hs) h
  · exact ⟨i, run_lookup hwf hs⟩

/-- The slot that `lookup` finds holds the stored count. -/
theorem slot_of_lookup (hwf : s.WF) (hl : (lookup l).run s = .ok (some i) s)
    (hv : s.stored l = some v) :
    s.scan l 0 s.lockCount = .ok (some i) ∧ i < maxLocks ∧ (s.lockTable i).recCount = v := by
  have hs := (lookup_eq_some_iff hwf).mp hl
  have hi := (Slots.scan_eq_some hwf.fits hs).1
  rw [Slots.stored_of_scan hs] at hv
  exact ⟨hs, lt_of_lt_of_le hi hwf.fits, Option.some.inj hv⟩

/-- A new lock is recorded while a slot is free. -/
theorem incrementRef_new (hwf : s.WF) (hnew : s.stored l = none)
    (hroom : s.lockCount < maxLocks) :
    ∃ s', (incrementRef l none).run s = .ok () s' ∧ s'.WF ∧
      s'.lockCount = s.lockCount + 1 ∧ s'.stored = Function.update s.stored l (some 1) := by
  obtain ⟨s', hpush, hwf', hcount, hst⟩ := Slots.push_spec (c := 1) hwf hroom hnew
  refine ⟨s', ?_, hwf', hcount, hst⟩
  simp [incrementRef, lookup_none_of_stored hwf hnew, hroom, hpush]

/-- At capacity a new lock is dropped without notice. -/
theorem incrementRef_full (hwf : s.WF) (hnew : s.stored l = none)
    (hfull : ¬ s.lockCount < maxLocks) :
    (incrementRef l none).run s = .ok () s := by
  simp [incrementRef, lookup_none_of_stored hwf hnew, hfull]

/-- A recorded lock is counted up, as a `long`. -/
theorem incrementRef_held (hwf : s.WF) (hl : (lookup l).run s = .ok (some i) s)
    (hv : s.stored l = some v) :
    ∃ s', (incrementRef l (some i)).run s = .ok () s' ∧ s'.WF ∧
      s'.lockCount = s.lockCount ∧
      s'.stored = Function.update s.stored l (some (int64 (v + 1))) := by
  obtain ⟨hs, hi, rfl⟩ := slot_of_lookup hwf hl hv
  obtain ⟨s', hset, hrest⟩ :=
    Slots.setCount_spec (c := int64 ((s.lockTable i).recCount + 1)) hwf hs
  refine ⟨s', ?_, hrest⟩
  simp [incrementRef, Slots.read_of_lt hi, hset]

/-- A count above one is counted down, and returned as an `int`. -/
theorem decrementRef_lower (hwf : s.WF) (hl : (lookup l).run s = .ok (some i) s)
    (hv : s.stored l = some v) (h1 : 1 < v) :
    ∃ s', (decrementRef l (some i)).run s = .ok (int32 (int64 (v - 1))) s' ∧ s'.WF ∧
      s'.lockCount = s.lockCount ∧
      s'.stored = Function.update s.stored l (some (int64 (v - 1))) := by
  obtain ⟨hs, hi, rfl⟩ := slot_of_lookup hwf hl hv
  obtain ⟨s', hset, hrest⟩ :=
    Slots.setCount_spec (c := int64 ((s.lockTable i).recCount - 1)) hwf hs
  refine ⟨s', ?_, hrest⟩
  simp [decrementRef, Slots.read_of_lt hi, h1, hset]

/-- The last reference gives the slot back. -/
theorem decrementRef_remove (hwf : s.WF) (hl : (lookup l).run s = .ok (some i) s)
    (hv : s.stored l = some v) (h1 : ¬ 1 < v) :
    ∃ s', (decrementRef l (some i)).run s = .ok 0 s' ∧ s'.WF ∧
      s'.lockCount + 1 = s.lockCount ∧ s'.stored = Function.update s.stored l none := by
  obtain ⟨hs, hi, rfl⟩ := slot_of_lookup hwf hl hv
  obtain ⟨s', hrem, hrest⟩ := Slots.swapRemove_spec hwf hs
  refine ⟨s', ?_, hrest⟩
  simp [decrementRef, Slots.read_of_lt hi, h1, hrem]

omit [DecidableEq Addr] in
/-- A thread starts with an empty table. -/
theorem init_wf [Inhabited Addr] : (init : Tls Addr).WF :=
  ⟨Nat.zero_le _, fun i _ hi => absurd hi (Nat.not_lt_zero i)⟩

@[simp] theorem init_stored [Inhabited Addr] (l : Addr) : (init : Tls Addr).stored l = none := rfl

/-! ## The array as a table of counters -/

/-- The count of a lock, zero when it is not tracked. -/
def count (s : Tls Addr) (l : Addr) : Nat := ((s.stored l).getD 0).toNat

/-- Well-formed, with counts that fit the `int` the count is returned in. -/
structure Inv (s : Tls Addr) : Prop where
  wf : s.WF
  range : ∀ l v, s.stored l = some v → 1 ≤ v ∧ v < 2 ^ 31

/-- The locks that are counted are those that are stored. -/
theorem count_eq_zero_iff (h : Inv s) : count s l = 0 ↔ s.stored l = none := by
  cases hv : s.stored l with
  | none => simp [count, hv]
  | some v =>
    have := h.range l v hv
    simp [count, hv]
    omega

/-- What is stored of a lock is its count. -/
theorem stored_of_count (h : Inv s) (hc : count s l ≠ 0) :
    s.stored l = some (count s l : Int) ∧ count s l < 2 ^ 31 := by
  cases hv : s.stored l with
  | none => exact absurd ((count_eq_zero_iff h).mpr hv) hc
  | some v =>
    have := h.range l v hv
    simp only [count, hv, Option.getD_some, Option.some.injEq]
    omega

/-- Who finds a lock finds a positive count. -/
theorem count_ne_zero_of_lookup (h : Inv s) (hl : (lookup l).run s = .ok (some i) s) :
    count s l ≠ 0 := by
  intro h0
  rw [lookup_none_of_stored h.wf ((count_eq_zero_iff h).mp h0)] at hl
  cases hl

/-- Updating the stored values updates the counts. -/
theorem count_update {s' : Tls Addr} {o : Option Int}
    (h : s'.stored = Function.update s.stored l o) :
    count s' = Function.update (count s) l (o.getD 0).toNat := by
  funext l'
  by_cases hl : l' = l
  · subst hl
    simp [count, h]
  · simp [count, h, hl]

/-- The counts stay in range if the new one is. -/
theorem range_update {s' : Tls Addr} {o : Option Int} (hI : Inv s)
    (h : s'.stored = Function.update s.stored l o)
    (ho : ∀ v, o = some v → 1 ≤ v ∧ v < 2 ^ 31) :
    ∀ l' v, s'.stored l' = some v → 1 ≤ v ∧ v < 2 ^ 31 := by
  intro l' v hv
  by_cases hl : l' = l
  · subst hl
    exact ho v (by simpa [h] using hv)
  · exact hI.range l' v (by simpa [h, hl] using hv)

/-- The slots in use hold a lock each. -/
theorem encard_count (hI : Inv s) : {l | count s l ≠ 0}.encard = s.lockCount := by
  rw [← Slots.encard_stored hI.wf]
  congr 1
  ext l
  simp [count_eq_zero_iff hI]

variable (Addr) in
/-- Below capacity, and with counts below `2^31`, the array is a table of
counters. -/
def refTable : RefTable (ops : TableOps (Tls Addr) Nat Addr) where
  Inv := Inv
  count := count
  room cnt := {l | cnt l ≠ 0}.encard < maxLocks
  limit := 2 ^ 31 - 1
  lookup_none s l hI h0 := lookup_none_of_stored hI.wf ((count_eq_zero_iff hI).mp h0)
  lookup_some s l hI h0 :=
    lookup_some_of_stored hI.wf fun h => h0 ((count_eq_zero_iff hI).mpr h)
  insert s l hI h0 hroom := by
    -- a free slot is left
    have hlt : s.lockCount < maxLocks := by
      rw [encard_count hI] at hroom
      exact_mod_cast hroom
    obtain ⟨s', hrun, hwf, -, hst⟩ :=
      incrementRef_new hI.wf ((count_eq_zero_iff hI).mp h0) hlt
    refine ⟨s', hrun, ⟨hwf, range_update hI hst ?_⟩, count_update hst⟩
    rintro v ⟨⟩
    decide
  increment s l i hI hl hlim := by
    have hne := count_ne_zero_of_lookup hI hl
    obtain ⟨hv, -⟩ := stored_of_count hI hne
    obtain ⟨s', hrun, hwf, -, hst⟩ := incrementRef_held hI.wf hl hv
    -- the `long` does not overflow
    have hfit : int64 ((count s l : Int) + 1) = (count s l : Int) + 1 :=
      int64_of_range (by omega) (by omega)
    rw [hfit] at hst
    refine ⟨s', hrun, ⟨hwf, range_update hI hst ?_⟩, ?_⟩
    · rintro v ⟨⟩
      omega
    · rw [count_update hst]
      congr 1
  decrement s l i hI hl := by
    have hne := count_ne_zero_of_lookup hI hl
    obtain ⟨hv, hlt⟩ := stored_of_count hI hne
    -- a count above one is lowered, and narrowed to the `int` that is returned
    by_cases h1 : 1 < (count s l : Int)
    · obtain ⟨s', hrun, hwf, -, hst⟩ := decrementRef_lower hI.wf hl hv h1
      have h64 : int64 ((count s l : Int) - 1) = (count s l : Int) - 1 :=
        int64_of_range (by omega) (by omega)
      have h32 : int32 ((count s l : Int) - 1) = ((count s l - 1 : Nat) : Int) := by
        rw [int32_of_range (by omega) (by omega)]
        omega
      rw [h64] at hst
      rw [h64, h32] at hrun
      refine ⟨s', hrun, ⟨hwf, range_update hI hst ?_⟩, ?_⟩
      · rintro v ⟨⟩
        omega
      · rw [count_update hst]
        congr 1
        simp only [Option.getD_some]
        omega
    · -- the last reference goes, and the slot with it
      obtain ⟨s', hrun, hwf, -, hst⟩ := decrementRef_remove hI.wf hl hv h1
      have h0 : count s l - 1 = 0 := by omega
      rw [h0]
      exact ⟨s', hrun, ⟨hwf, range_update hI hst (by simp)⟩, count_update hst⟩

/-- A count fits the `int` that `DecrementRef` returns. -/
theorem refTable_limit : (refTable Addr).limit = 2 ^ 31 - 1 := rfl

/-- The empty table stands for the map without a count. -/
theorem init_stands [Inhabited Addr] :
    (refTable Addr).Stands init RefModel.init :=
  ⟨⟨init_wf, by simp⟩, rfl⟩

end LockShield.ArrayTable
