import LockShield.Table.Shield
import Mathlib.Data.Set.Card
import Mathlib.Order.Interval.Finset.Nat

/-!
# The slot array

Every variant starts with the same small array: `lock_table`, of which the
first `lock_count` slots are in use. A lock is found by a linear scan, added in
the first unused slot, and removed by copying the last used slot over it. The
counts have whatever type the variant gives `rec_count`.

Array accesses are checked: an index outside `lock_table` is the fault
`outOfBounds`. `Slots.WF` (distinct locks in a prefix that fits) rules that out,
and turns the array into the partial map `Slots.stored` from locks to counts.

## Results

* `scan_eq_some_iff`, `scan_eq_none_iff` — a scan finds the slot of its lock.
* `push_spec`, `setCount_spec`, `swapRemove_spec` — each update keeps `WF` and changes
  `stored` at one lock.
* `encard_stored` — as many locks are stored as there are slots in use.
-/

namespace LockShield

/-- `MAX_LOCKS`. -/
def maxLocks : Nat := 4

/-- `LS_LockEntry`. -/
structure LockEntry (Addr Cnt : Type) where
  lockPtr : Addr
  recCount : Cnt
  deriving DecidableEq, Repr

/-- `lock_table` and `lock_count`. -/
structure Slots (Addr Cnt : Type) where
  lockTable : Nat → LockEntry Addr Cnt
  lockCount : Nat

namespace Slots

variable {Addr Cnt : Type}

/-- Read `lock_table[i]`. -/
def read (s : Slots Addr Cnt) (i : Nat) : Except Fault (LockEntry Addr Cnt) :=
  if i < maxLocks then .ok (s.lockTable i) else .error .outOfBounds

variable [DecidableEq Addr]

/-- The loop of `lookup`, from slot `i` over the next `k` slots. -/
def scan (s : Slots Addr Cnt) (l : Addr) : Nat → Nat → Except Fault (Option Nat)
  | _, 0 => .ok none
  | i, k + 1 => do
    let entry ← s.read i
    if entry.lockPtr = l then .ok (some i) else s.scan l (i + 1) k

/-- `lock_table[lock_count] = {l, c}; lock_count++`. -/
def push (s : Slots Addr Cnt) (l : Addr) (c : Cnt) : Except Fault (Slots Addr Cnt) :=
  if s.lockCount < maxLocks then
    .ok ⟨Function.update s.lockTable s.lockCount ⟨l, c⟩, s.lockCount + 1⟩
  else .error .outOfBounds

/-- Assign to `lock_table[i].rec_count`. -/
def setCount (s : Slots Addr Cnt) (i : Nat) (c : Cnt) : Except Fault (Slots Addr Cnt) :=
  if i < maxLocks then
    .ok { s with lockTable := Function.update s.lockTable i ⟨(s.lockTable i).lockPtr, c⟩ }
  else .error .outOfBounds

/-- `lock_table[idx] = lock_table[--lock_count]`. -/
def swapRemove (s : Slots Addr Cnt) (idx : Nat) : Except Fault (Slots Addr Cnt) :=
  if 0 < s.lockCount ∧ s.lockCount ≤ maxLocks ∧ idx < maxLocks then
    .ok ⟨Function.update s.lockTable idx (s.lockTable (s.lockCount - 1)), s.lockCount - 1⟩
  else .error .outOfBounds

/-- The used slots fit and hold distinct locks. -/
structure WF (s : Slots Addr Cnt) : Prop where
  fits : s.lockCount ≤ maxLocks
  distinct : ∀ i j, i < s.lockCount → j < s.lockCount →
    (s.lockTable i).lockPtr = (s.lockTable j).lockPtr → i = j

/-- The count stored for a lock, if the scan finds it. -/
def stored (s : Slots Addr Cnt) (l : Addr) : Option Cnt :=
  match s.scan l 0 s.lockCount with
  | .ok (some i) => some (s.lockTable i).recCount
  | _ => none

/-! ## The scan -/

omit [DecidableEq Addr] in
theorem read_of_lt {s : Slots Addr Cnt} {i : Nat} (h : i < maxLocks) :
    s.read i = .ok (s.lockTable i) := by
  rw [read, if_pos h]

omit [DecidableEq Addr] in
theorem setCount_of_lt {s : Slots Addr Cnt} {i : Nat} (c : Cnt) (h : i < maxLocks) :
    ∃ s', s.setCount i c = .ok s' := by
  rw [setCount, if_pos h]
  exact ⟨_, rfl⟩

omit [DecidableEq Addr] in
/-- The slot after the used ones gets what is pushed. -/
theorem lockTable_push {s s' : Slots Addr Cnt} {l : Addr} {c : Cnt} (h : s.push l c = .ok s') :
    s'.lockTable s.lockCount = ⟨l, c⟩ := by
  unfold push at h
  split at h
  · injection h with h
    subst h
    exact Function.update_self ..
  · cases h

/-- A scan within bounds returns the first matching slot. -/
theorem scan_range (s : Slots Addr Cnt) (l : Addr) :
    ∀ k i, i + k ≤ maxLocks →
      (s.scan l i k = .ok none ∧ ∀ j, i ≤ j → j < i + k → (s.lockTable j).lockPtr ≠ l) ∨
      ∃ j, s.scan l i k = .ok (some j) ∧ i ≤ j ∧ j < i + k ∧ (s.lockTable j).lockPtr = l := by
  intro k
  induction k with
  | zero =>
    intro i _
    exact Or.inl ⟨rfl, fun j h1 h2 => by omega⟩
  | succ k ih =>
    intro i hi
    have hread : s.read i = .ok (s.lockTable i) := read_of_lt (by omega)
    by_cases hl : (s.lockTable i).lockPtr = l
    · refine Or.inr ⟨i, ?_, Nat.le_refl _, by omega, hl⟩
      simp [scan, hread, hl, bind, Except.bind]
    · have hscan : s.scan l i (k + 1) = s.scan l (i + 1) k := by
        simp [scan, hread, hl, bind, Except.bind]
      rw [hscan]
      rcases ih (i + 1) (by omega) with ⟨h, hne⟩ | ⟨j, h, h1, h2, hj⟩
      · refine Or.inl ⟨h, fun j h1 h2 => ?_⟩
        -- either the slot just read or one the recursive scan covered
        rcases Nat.eq_or_lt_of_le h1 with rfl | hlt
        · exact hl
        · exact hne j hlt (by omega)
      · exact Or.inr ⟨j, h, by omega, by omega, hj⟩

variable {s s' : Slots Addr Cnt} {l l' : Addr} {c : Cnt} {i : Nat}

theorem scan_eq_some (hfit : s.lockCount ≤ maxLocks)
    (h : s.scan l 0 s.lockCount = .ok (some i)) :
    i < s.lockCount ∧ (s.lockTable i).lockPtr = l := by
  rcases s.scan_range l s.lockCount 0 (by omega) with ⟨h', -⟩ | ⟨j, h', -, hj, hl⟩
  · rw [h] at h'
    exact absurd h' (by simp)
  · rw [h] at h'
    obtain rfl : i = j := by simpa using h'
    exact ⟨by omega, hl⟩

theorem scan_eq_some_iff (hwf : s.WF) :
    s.scan l 0 s.lockCount = .ok (some i) ↔ i < s.lockCount ∧ (s.lockTable i).lockPtr = l := by
  refine ⟨scan_eq_some hwf.fits, fun ⟨hi, hl⟩ => ?_⟩
  have hfit := hwf.fits
  rcases s.scan_range l s.lockCount 0 (by omega) with ⟨-, hne⟩ | ⟨j, h', -, hj, hjl⟩
  · exact absurd hl (hne i (Nat.zero_le _) (by omega))
  · have : j = i := hwf.distinct j i (by omega) hi (by rw [hjl, hl])
    rw [h', this]

theorem scan_eq_none_iff (hwf : s.WF) :
    s.scan l 0 s.lockCount = .ok none ↔ ∀ i < s.lockCount, (s.lockTable i).lockPtr ≠ l := by
  have hfit := hwf.fits
  rcases s.scan_range l s.lockCount 0 (by omega) with ⟨h', hne⟩ | ⟨j, h', -, hj, hjl⟩
  · exact ⟨fun _ i hi => hne i (Nat.zero_le _) (by omega), fun _ => h'⟩
  · refine ⟨fun h => ?_, fun h => absurd hjl (h j (by omega))⟩
    rw [h'] at h
    exact absurd h (by simp)

theorem scan_cases (hwf : s.WF) (l : Addr) :
    s.scan l 0 s.lockCount = .ok none ∨ ∃ i, s.scan l 0 s.lockCount = .ok (some i) := by
  have hfit := hwf.fits
  rcases s.scan_range l s.lockCount 0 (by omega) with ⟨h, -⟩ | ⟨j, h, -⟩
  · exact Or.inl h
  · exact Or.inr ⟨j, h⟩

theorem stored_of_scan (h : s.scan l 0 s.lockCount = .ok (some i)) :
    s.stored l = some (s.lockTable i).recCount := by
  rw [stored, h]

theorem stored_eq_none_iff (hwf : s.WF) :
    s.stored l = none ↔ s.scan l 0 s.lockCount = .ok none := by
  rcases scan_cases hwf l with h | ⟨i, h⟩ <;> simp [stored, h]

/-- `stored` reads the slot that holds the lock. -/
theorem stored_eq_some_iff (hwf : s.WF) :
    s.stored l = some c ↔
      ∃ i < s.lockCount, (s.lockTable i).lockPtr = l ∧ (s.lockTable i).recCount = c := by
  constructor
  · intro h
    rcases scan_cases hwf l with hs | ⟨i, hs⟩
    · rw [(stored_eq_none_iff hwf).mpr hs] at h
      exact absurd h (by simp)
    · obtain ⟨hi, hl⟩ := (scan_eq_some_iff hwf).mp hs
      rw [stored_of_scan hs] at h
      exact ⟨i, hi, hl, by simpa using h⟩
  · rintro ⟨i, hi, hl, hc⟩
    rw [stored_of_scan ((scan_eq_some_iff hwf).mpr ⟨hi, hl⟩), hc]

/-! ## The updates as updates of the map -/

theorem push_spec (hwf : s.WF) (hroom : s.lockCount < maxLocks) (hnew : s.stored l = none) :
    ∃ s', s.push l c = .ok s' ∧ s'.WF ∧ s'.lockCount = s.lockCount + 1 ∧
      s'.stored = Function.update s.stored l (some c) := by
  -- the scan went over all used slots, so the new lock is in none of them
  have hne := (scan_eq_none_iff hwf).mp ((stored_eq_none_iff hwf).mp hnew)
  refine ⟨_, by rw [push, if_pos hroom], ?_⟩
  set s' : Slots Addr Cnt :=
    ⟨Function.update s.lockTable s.lockCount ⟨l, c⟩, s.lockCount + 1⟩ with hs'
  have hlast : s'.lockTable s.lockCount = ⟨l, c⟩ := by simp [hs']
  have hold : ∀ i < s.lockCount, s'.lockTable i = s.lockTable i := by
    intro i hi
    simp [hs', Nat.ne_of_lt hi]
  have hwf' : s'.WF := by
    refine ⟨hroom, fun i j hi hj hij => ?_⟩
    have hi' : i < s.lockCount ∨ i = s.lockCount := by
      have : i < s.lockCount + 1 := hi
      omega
    have hj' : j < s.lockCount ∨ j = s.lockCount := by
      have : j < s.lockCount + 1 := hj
      omega
    rcases hi' with hi' | rfl <;> rcases hj' with hj' | rfl
    · rw [hold i hi', hold j hj'] at hij
      exact hwf.distinct i j hi' hj' hij
    · rw [hold i hi', hlast] at hij
      exact absurd hij (hne i hi')
    · rw [hold j hj', hlast] at hij
      exact absurd hij.symm (hne j hj')
    · rfl
  refine ⟨hwf', rfl, funext fun l' => Option.ext fun c' => ?_⟩
  rw [stored_eq_some_iff hwf']
  by_cases hl : l' = l
  · subst hl
    rw [Function.update_self, Option.some.injEq]
    constructor
    · rintro ⟨i, hi, hil, hic⟩
      have : i = s.lockCount := hwf'.distinct i _ hi (Nat.lt_succ_self _) (by rw [hil, hlast])
      rw [this, hlast] at hic
      exact hic
    · intro hc
      exact ⟨s.lockCount, Nat.lt_succ_self _, by rw [hlast], by rw [hlast, hc]⟩
  · rw [Function.update_of_ne hl, stored_eq_some_iff hwf]
    constructor
    · rintro ⟨i, hi, hil, hic⟩
      have hi' : i < s.lockCount := by
        rcases Nat.lt_or_ge i s.lockCount with h | h
        · exact h
        · obtain rfl : i = s.lockCount := by
            have : i < s.lockCount + 1 := hi
            omega
          rw [hlast] at hil
          exact absurd hil.symm hl
      rw [hold i hi'] at hil hic
      exact ⟨i, hi', hil, hic⟩
    · rintro ⟨i, hi, hil, hic⟩
      exact ⟨i, Nat.lt_succ_of_lt hi, by rw [hold i hi, hil], by rw [hold i hi, hic]⟩

theorem setCount_spec (hwf : s.WF) (hs : s.scan l 0 s.lockCount = .ok (some i)) :
    ∃ s', s.setCount i c = .ok s' ∧ s'.WF ∧ s'.lockCount = s.lockCount ∧
      s'.stored = Function.update s.stored l (some c) := by
  obtain ⟨hi, hil⟩ := (scan_eq_some_iff hwf).mp hs
  have hb : i < maxLocks := lt_of_lt_of_le hi hwf.fits
  refine ⟨_, by rw [setCount, if_pos hb], ?_⟩
  set s' : Slots Addr Cnt :=
    { s with lockTable := Function.update s.lockTable i ⟨(s.lockTable i).lockPtr, c⟩ } with hs'
  -- the assignment leaves the locks where they are
  have hptr : ∀ j, (s'.lockTable j).lockPtr = (s.lockTable j).lockPtr := by
    intro j
    by_cases hj : j = i
    · subst hj
      simp [hs']
    · simp [hs', hj]
  have hcnt : ∀ j, j ≠ i → (s'.lockTable j).recCount = (s.lockTable j).recCount := by
    intro j hj
    simp [hs', hj]
  have hwf' : s'.WF := ⟨hwf.fits, fun j k hj hk hjk => by
    rw [hptr, hptr] at hjk
    exact hwf.distinct j k hj hk hjk⟩
  refine ⟨hwf', rfl, funext fun l' => Option.ext fun c' => ?_⟩
  rw [stored_eq_some_iff hwf']
  by_cases hl : l' = l
  · subst hl
    rw [Function.update_self, Option.some.injEq]
    constructor
    · rintro ⟨j, hj, hjl, hjc⟩
      rw [hptr] at hjl
      have : j = i := hwf.distinct j i hj hi (by rw [hjl, hil])
      subst this
      simpa [hs'] using hjc
    · intro hc
      exact ⟨i, hi, by rw [hptr, hil], by simpa [hs'] using hc⟩
  · rw [Function.update_of_ne hl, stored_eq_some_iff hwf]
    have hne : ∀ j, (s.lockTable j).lockPtr = l' → j ≠ i := fun j hj hji => hl (by
      rw [← hj, hji, hil])
    constructor
    · rintro ⟨j, hj, hjl, hjc⟩
      rw [hptr] at hjl
      rw [hcnt j (hne j hjl)] at hjc
      exact ⟨j, hj, hjl, hjc⟩
    · rintro ⟨j, hj, hjl, hjc⟩
      exact ⟨j, hj, by rw [hptr, hjl], by rw [hcnt j (hne j hjl), hjc]⟩

/-- Copying the last slot over slot `i` removes exactly the lock of slot `i`:
the lock of the last slot is found at its new place. -/
theorem swapRemove_spec (hwf : s.WF) (hs : s.scan l 0 s.lockCount = .ok (some i)) :
    ∃ s', s.swapRemove i = .ok s' ∧ s'.WF ∧ s'.lockCount + 1 = s.lockCount ∧
      s'.stored = Function.update s.stored l none := by
  obtain ⟨hi, hil⟩ := (scan_eq_some_iff hwf).mp hs
  have hfit := hwf.fits
  have hcond : 0 < s.lockCount ∧ s.lockCount ≤ maxLocks ∧ i < maxLocks := by omega
  refine ⟨_, by rw [swapRemove, if_pos hcond], ?_⟩
  set s' : Slots Addr Cnt :=
    ⟨Function.update s.lockTable i (s.lockTable (s.lockCount - 1)), s.lockCount - 1⟩ with hs'
  -- slot `j` of the new table holds what slot `src j` held before
  let src : Nat → Nat := fun j => if j = i then s.lockCount - 1 else j
  have htab : ∀ j, s'.lockTable j = s.lockTable (src j) := by
    intro j
    by_cases hj : j = i
    · simp [hs', src, hj]
    · simp [hs', src, hj]
  have hsrc : ∀ j < s'.lockCount, src j < s.lockCount ∧ src j ≠ i := by
    intro j hj
    have : j < s.lockCount - 1 := hj
    simp only [src]
    split <;> omega
  have hinj : ∀ j k, j < s'.lockCount → k < s'.lockCount → src j = src k → j = k := by
    intro j k hj hk h
    have hj' : j < s.lockCount - 1 := hj
    have hk' : k < s.lockCount - 1 := hk
    simp only [src] at h
    split at h <;> split at h <;> omega
  have hwf' : s'.WF := by
    refine ⟨by show s.lockCount - 1 ≤ maxLocks; omega, fun j k hj hk hjk => ?_⟩
    rw [htab, htab] at hjk
    exact hinj j k hj hk (hwf.distinct _ _ (hsrc j hj).1 (hsrc k hk).1 hjk)
  refine ⟨hwf', by show s.lockCount - 1 + 1 = _; omega, funext fun l' => Option.ext fun c' => ?_⟩
  rw [stored_eq_some_iff hwf']
  by_cases hl : l' = l
  · subst hl
    rw [Function.update_self]
    constructor
    · rintro ⟨j, hj, hjl, -⟩
      rw [htab] at hjl
      exact absurd (hwf.distinct _ i (hsrc j hj).1 hi (by rw [hjl, hil])) (hsrc j hj).2
    · intro h
      exact absurd h (by simp)
  · rw [Function.update_of_ne hl, stored_eq_some_iff hwf]
    constructor
    · rintro ⟨j, hj, hjl, hjc⟩
      rw [htab] at hjl hjc
      exact ⟨src j, (hsrc j hj).1, hjl, hjc⟩
    · rintro ⟨j, hj, hjl, hjc⟩
      have hji : j ≠ i := fun h => hl (by rw [← hjl, h, hil])
      by_cases hlast : j = s.lockCount - 1
      · -- the moved slot is now found at `i`
        have hsi : src i = j := by simp [src, hlast]
        exact ⟨i, by show i < s.lockCount - 1; omega, by rw [htab, hsi, hjl],
          by rw [htab, hsi, hjc]⟩
      · have hsj : src j = j := by simp [src, hji]
        exact ⟨j, by show j < s.lockCount - 1; omega, by rw [htab, hsj, hjl],
          by rw [htab, hsj, hjc]⟩

/-! ## Through a slot that is not in use -/

/-- Assigning a count behind the used slots changes nothing that is stored. -/
theorem setCount_unused (hwf : s.WF) (hi : s.lockCount ≤ i) (hb : i < maxLocks) :
    ∃ s', s.setCount i c = .ok s' ∧ s'.stored = s.stored := by
  refine ⟨_, by rw [setCount, if_pos hb], ?_⟩
  set s' : Slots Addr Cnt :=
    { s with lockTable := Function.update s.lockTable i ⟨(s.lockTable i).lockPtr, c⟩ } with hs'
  -- the used slots are all in front of slot `i`
  have hold : ∀ j < s.lockCount, s'.lockTable j = s.lockTable j := by
    intro j hj
    have hji : j ≠ i := by omega
    simp [hs', hji]
  have hwf' : s'.WF := ⟨hwf.fits, fun j k hj hk hjk => by
    rw [hold j hj, hold k hk] at hjk
    exact hwf.distinct j k hj hk hjk⟩
  refine funext fun l => Option.ext fun c' => ?_
  rw [stored_eq_some_iff hwf', stored_eq_some_iff hwf]
  constructor
  · rintro ⟨j, hj, hjl, hjc⟩
    rw [hold j hj] at hjl hjc
    exact ⟨j, hj, hjl, hjc⟩
  · rintro ⟨j, hj, hjl, hjc⟩
    exact ⟨j, hj, by rw [hold j hj, hjl], by rw [hold j hj, hjc]⟩

/-- Copying the last slot to one behind it removes the lock of the last slot. -/
theorem swapRemove_unused (hwf : s.WF) (hpos : 0 < s.lockCount) (hi : s.lockCount ≤ i)
    (hb : i < maxLocks) :
    ∃ s', s.swapRemove i = .ok s' ∧
      s'.stored = Function.update s.stored (s.lockTable (s.lockCount - 1)).lockPtr none := by
  have hfit := hwf.fits
  refine ⟨_, by rw [swapRemove, if_pos ⟨hpos, hfit, hb⟩], ?_⟩
  set s' : Slots Addr Cnt :=
    ⟨Function.update s.lockTable i (s.lockTable (s.lockCount - 1)), s.lockCount - 1⟩ with hs'
  have hold : ∀ j < s'.lockCount, s'.lockTable j = s.lockTable j := by
    intro j hj
    have hj' : j < s.lockCount - 1 := hj
    have hji : j ≠ i := by omega
    simp [hs', hji]
  have hlt : ∀ j < s'.lockCount, j < s.lockCount ∧ j ≠ s.lockCount - 1 := by
    intro j hj
    have hj' : j < s.lockCount - 1 := hj
    omega
  have hwf' : s'.WF := by
    refine ⟨by show s.lockCount - 1 ≤ maxLocks; omega, fun j k hj hk hjk => ?_⟩
    rw [hold j hj, hold k hk] at hjk
    exact hwf.distinct j k (hlt j hj).1 (hlt k hk).1 hjk
  refine funext fun l => Option.ext fun c' => ?_
  rw [stored_eq_some_iff hwf']
  by_cases hl : l = (s.lockTable (s.lockCount - 1)).lockPtr
  · -- the slots that are left hold other locks
    subst hl
    rw [Function.update_self]
    constructor
    · rintro ⟨j, hj, hjl, -⟩
      rw [hold j hj] at hjl
      exact absurd (hwf.distinct j _ (hlt j hj).1 (by omega) hjl) (hlt j hj).2
    · intro h
      cases h
  · rw [Function.update_of_ne hl, stored_eq_some_iff hwf]
    constructor
    · rintro ⟨j, hj, hjl, hjc⟩
      rw [hold j hj] at hjl hjc
      exact ⟨j, (hlt j hj).1, hjl, hjc⟩
    · rintro ⟨j, hj, hjl, hjc⟩
      have hlast : j ≠ s.lockCount - 1 := by
        intro hlast
        subst hlast
        exact hl hjl.symm
      have hj' : j < s'.lockCount := by
        show j < s.lockCount - 1
        omega
      exact ⟨j, hj', by rw [hold j hj', hjl], by rw [hold j hj', hjc]⟩

/-! ## How many locks are stored -/

/-- The stored locks are the locks of the used slots, one for each. -/
theorem encard_stored (hwf : s.WF) : {l | s.stored l ≠ none}.encard = s.lockCount := by
  have himage : {l | s.stored l ≠ none} =
      (fun i => (s.lockTable i).lockPtr) '' (Finset.range s.lockCount : Set Nat) := by
    ext l
    rw [Set.mem_ofPred_eq, Option.ne_none_iff_exists']
    simp only [stored_eq_some_iff hwf, Set.mem_image, Finset.coe_range, Set.mem_Iio]
    constructor
    · rintro ⟨_, i, hi, hl, -⟩
      exact ⟨i, hi, hl⟩
    · rintro ⟨i, hi, hl⟩
      exact ⟨_, i, hi, hl, rfl⟩
  -- distinct used slots hold distinct locks
  have hinj : Set.InjOn (fun i => (s.lockTable i).lockPtr)
      (Finset.range s.lockCount : Set Nat) := by
    intro i hi j hj hij
    rw [Finset.coe_range, Set.mem_Iio] at hi hj
    exact hwf.distinct i j hi hj hij
  rw [himage, hinj.encard_image, Set.encard_coe_eq_coe_finsetCard, Finset.card_range]

end Slots

end LockShield
