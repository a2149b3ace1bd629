import LockShield.Table.Array

/-!
# The array table of the C library

`shield_arr.h` has the helpers of the C++ array variant with an `int` count and
other guards. `IncrementRef` looks for `lock_count <= MAX_LOCKS` before it writes
the slot at `lock_count`, and `DecrementRef` acts only while
`lock_count < MAX_LOCKS` and has no `return` for the other case. A helper gets the
entry its caller has just looked up.

The first guard lets a write past the end of the array through, the second turns
every release away once the array is full.

## Results

* `increment_right_iff`, `decrement_right_iff` — when a use of a helper stays in bounds
  and counts right.
* `counts_down_iff`  — over runs: the table is right exactly as long as no use meets it
  full, except for counting up a lock that is tracked.
* `full_table_not_right` — four locks fill the table, and it counts none of them down.
-/

namespace LockShield.ClibArray

open Lib

variable {Addr : Type} [DecidableEq Addr]

/-- The thread-local state of the C array table. -/
abbrev Tls (Addr : Type) := Slots Addr Int

/-- The zero-initialised thread-local state. -/
def init [Inhabited Addr] : Tls Addr := ArrayTable.init

def lookup (l : Addr) : EStateM Fault (Tls Addr) (Option Nat) := ArrayTable.lookup l

def incrementRef (l : Addr) (entry : Option Nat) : EStateM Fault (Tls Addr) Unit := do
  let s ← get
  match entry with
  | none =>
    -- the guard lets a full table through, and the write goes past its end
    if s.lockCount ≤ maxLocks then
      set (← access (s.push l 1))
  | some i =>
    let e ← access (s.read i)
    set (← access (s.setCount i (int32 (e.recCount + 1))))

/-- The value returned, if there is one: control can reach the end of the function. -/
def decrementRef (_l : Addr) (entry : Option Nat) :
    EStateM Fault (Tls Addr) (Option Int) := do
  match entry with
  | none => return some (-1)
  | some i =>
    let s ← get
    if s.lockCount < maxLocks then
      let e ← access (s.read i)
      let val := e.recCount
      if 1 < val then
        set (← access (s.setCount i (int32 (e.recCount - 1))))
        return some (val - 1)
      else
        set (← access (s.swapRemove i))
        return some 0
    else
      return none

/-- One use of a helper, on the entry that `lookup` finds. -/
inductive Use (Addr : Type) where
  | increment (l : Addr)
  | decrement (l : Addr)
  deriving DecidableEq, Repr

/-- A use as a step of a run; the reply is what `DecrementRef` returns. -/
def step : Use Addr → EStateM Fault (Tls Addr) (Option Int)
  | .increment l => do
    incrementRef l (← lookup l)
    return none
  | .decrement l => do decrementRef l (← lookup l)

/-! ## What is asked of a use -/

/-- The use writes inside the table only, and leaves a `lock_count` that fits. -/
def InBounds (s : Tls Addr) (u : Use Addr) : Prop :=
  ∃ r s', (step u).run s = .ok r s' ∧ s'.lockCount ≤ maxLocks

/-- A `DecrementRef` of a tracked lock lowers its count and returns what is left,
or removes the lock and returns zero. The other locks keep their counts. -/
def CountsDown (s : Tls Addr) : Use Addr → Prop
  | .increment _ => True
  | .decrement l => ∀ c, s.stored l = some c → ∃ s',
    (1 < c ∧ (step (.decrement l)).run s = .ok (some (c - 1)) s' ∧
      s'.stored = Function.update s.stored l (some (c - 1))) ∨
    (c = 1 ∧ (step (.decrement l)).run s = .ok (some 0) s' ∧
      s'.stored = Function.update s.stored l none)

/-- The use does not depend on the guards: there is a free slot, or the use is an
`IncrementRef` of a tracked lock. The count to be lowered has not overflowed. -/
def Clear (s : Tls Addr) : Use Addr → Prop
  | .increment l => s.stored l = none → s.lockCount < maxLocks
  | .decrement l => ∀ c, s.stored l = some c → s.lockCount < maxLocks ∧ 1 ≤ c

/-! ## One use -/

/-- The used slots are distinct and their counts are `int`s. -/
structure Inv (s : Tls Addr) : Prop where
  wf : s.WF
  range : ∀ l c, s.stored l = some c → c < 2 ^ 31

variable {s s' : Tls Addr} {l : Addr} {i : Nat} {c : Int} {r : Option Int} {u : Use Addr}

theorem Inv.update (h : Inv s) (hwf : s'.WF) {o : Option Int}
    (hst : s'.stored = Function.update s.stored l o) (ho : ∀ c, o = some c → c < 2 ^ 31) :
    Inv s' := by
  refine ⟨hwf, fun k c hk => ?_⟩
  by_cases hkl : k = l
  · subst hkl
    exact ho c (by simpa [hst] using hk)
  · exact h.range k c (by simpa [hst, hkl] using hk)

/-- A new lock with a slot left. -/
theorem increment_new (h : Inv s) (hnew : s.stored l = none) (hroom : s.lockCount < maxLocks) :
    ∃ s', (step (.increment l)).run s = .ok none s' ∧ Inv s' := by
  obtain ⟨s', hpush, hwf, -, hst⟩ := Slots.push_spec (c := (1 : Int)) h.wf hroom hnew
  refine ⟨s', ?_, h.update hwf hst ?_⟩
  · simp [step, lookup, ArrayTable.lookup_none_of_stored h.wf hnew, incrementRef,
      Nat.le_of_lt hroom, hpush]
  · rintro c ⟨⟩
    omega

/-- A new lock without a slot left: the write goes to `lock_table[MAX_LOCKS]`. -/
theorem increment_full (h : Inv s) (hnew : s.stored l = none)
    (hfull : ¬ s.lockCount < maxLocks) :
    (step (.increment l)).run s = .error .outOfBounds s := by
  have hpush : s.push l (1 : Int) = .error .outOfBounds := by rw [Slots.push, if_neg hfull]
  simp [step, lookup, ArrayTable.lookup_none_of_stored h.wf hnew, incrementRef, h.wf.fits, hpush,
    access]

/-- A tracked lock is counted up, in a full table too. -/
theorem increment_held (h : Inv s) (hv : s.stored l = some c) :
    ∃ s', (step (.increment l)).run s = .ok none s' ∧ Inv s' := by
  obtain ⟨i, hl⟩ := ArrayTable.lookup_some_of_stored h.wf (by rw [hv]; exact Option.some_ne_none c)
  obtain ⟨hs, hi, rfl⟩ := ArrayTable.slot_of_lookup h.wf hl hv
  obtain ⟨s', hset, hwf, -, hst⟩ :=
    Slots.setCount_spec (c := int32 ((s.lockTable i).recCount + 1)) h.wf hs
  refine ⟨s', by simp [step, lookup, hl, incrementRef, Slots.read_of_lt hi, hset],
    h.update hwf hst ?_⟩
  rintro c ⟨⟩
  exact int32_lt _

theorem decrement_lower (h : Inv s) (hv : s.stored l = some c) (hroom : s.lockCount < maxLocks)
    (h1 : 1 < c) :
    ∃ s', (step (.decrement l)).run s = .ok (some (c - 1)) s' ∧ Inv s' ∧
      s'.stored = Function.update s.stored l (some (c - 1)) := by
  have hc := h.range l c hv
  obtain ⟨i, hl⟩ := ArrayTable.lookup_some_of_stored h.wf (by rw [hv]; exact Option.some_ne_none c)
  obtain ⟨hs, hi, rfl⟩ := ArrayTable.slot_of_lookup h.wf hl hv
  obtain ⟨s', hset, hwf, -, hst⟩ :=
    Slots.setCount_spec (c := int32 ((s.lockTable i).recCount - 1)) h.wf hs
  have hrun : (step (.decrement l)).run s = .ok (some ((s.lockTable i).recCount - 1)) s' := by
    simp [step, lookup, hl, decrementRef, hroom, Slots.read_of_lt hi, h1, hset]
  -- a count above one does not wrap on the way down
  rw [int32_of_range (by omega) (by omega)] at hst
  refine ⟨s', hrun, h.update hwf hst ?_, hst⟩
  rintro c ⟨⟩
  omega

theorem decrement_remove (h : Inv s) (hv : s.stored l = some c) (hroom : s.lockCount < maxLocks)
    (h1 : ¬ 1 < c) :
    ∃ s', (step (.decrement l)).run s = .ok (some 0) s' ∧ Inv s' ∧
      s'.stored = Function.update s.stored l none := by
  obtain ⟨i, hl⟩ := ArrayTable.lookup_some_of_stored h.wf (by rw [hv]; exact Option.some_ne_none c)
  obtain ⟨hs, hi, rfl⟩ := ArrayTable.slot_of_lookup h.wf hl hv
  obtain ⟨s', hrem, hwf, -, hst⟩ := Slots.swapRemove_spec h.wf hs
  refine ⟨s', by simp [step, lookup, hl, decrementRef, hroom, Slots.read_of_lt hi, h1, hrem],
    h.update hwf hst (by simp), hst⟩

/-- In a full table a tracked lock is not counted down, and nothing is returned. -/
theorem decrement_full (h : Inv s) (hv : s.stored l = some c) (hfull : ¬ s.lockCount < maxLocks) :
    (step (.decrement l)).run s = .ok none s := by
  obtain ⟨i, hl⟩ := ArrayTable.lookup_some_of_stored h.wf (by rw [hv]; exact Option.some_ne_none c)
  simp [step, lookup, hl, decrementRef, hfull]

theorem decrement_untracked (h : Inv s) (hv : s.stored l = none) :
    (step (.decrement l)).run s = .ok (some (-1)) s := by
  simp [step, lookup, ArrayTable.lookup_none_of_stored h.wf hv, decrementRef]

/-- A use that returns keeps the table well-formed, whatever the guards did. -/
theorem step_inv (h : Inv s) (hrun : (step u).run s = .ok r s') : Inv s' := by
  have hsame : ∀ {r' : Option Int} {s₁ : Tls Addr}, (step u).run s = .ok r' s₁ → s₁ = s' := by
    intro r' s₁ hrun'
    rw [hrun] at hrun'
    injection hrun' with _ hs
    exact hs.symm
  cases u with
  | increment l =>
    cases hv : s.stored l with
    | some c =>
      obtain ⟨s₁, hrun', h'⟩ := increment_held h hv
      exact hsame hrun' ▸ h'
    | none =>
      by_cases hroom : s.lockCount < maxLocks
      · obtain ⟨s₁, hrun', h'⟩ := increment_new h hv hroom
        exact hsame hrun' ▸ h'
      · -- the write past the end does not return
        rw [increment_full h hv hroom] at hrun
        cases hrun
  | decrement l =>
    cases hv : s.stored l with
    | none => exact hsame (decrement_untracked h hv) ▸ h
    | some c =>
      by_cases hroom : s.lockCount < maxLocks
      · by_cases h1 : 1 < c
        · obtain ⟨s₁, hrun', h', -⟩ := decrement_lower h hv hroom h1
          exact hsame hrun' ▸ h'
        · obtain ⟨s₁, hrun', h', -⟩ := decrement_remove h hv hroom h1
          exact hsame hrun' ▸ h'
      · -- a full table is left alone
        exact hsame (decrement_full h hv hroom) ▸ h

theorem increment_right_iff (h : Inv s) :
    InBounds s (.increment l) ↔ Clear s (.increment l) := by
  constructor
  · rintro ⟨r, s', hrun, -⟩ hnew
    -- without a slot the write goes past the end
    by_contra hfull
    rw [increment_full h hnew hfull] at hrun
    cases hrun
  · intro hclear
    cases hv : s.stored l with
    | some c =>
      obtain ⟨s', hrun, h'⟩ := increment_held h hv
      exact ⟨none, s', hrun, h'.wf.fits⟩
    | none =>
      obtain ⟨s', hrun, h'⟩ := increment_new h hv (hclear hv)
      exact ⟨none, s', hrun, h'.wf.fits⟩

/-- `DecrementRef` counts down exactly where it does something. -/
theorem decrement_right_iff (h : Inv s) :
    CountsDown s (.decrement l) ↔ Clear s (.decrement l) := by
  constructor
  · intro hdown c hv
    obtain ⟨s', hright⟩ := hdown c hv
    have hpos : 1 ≤ c := by
      rcases hright with ⟨h1, -⟩ | ⟨h1, -⟩ <;> omega
    refine ⟨?_, hpos⟩
    by_contra hfull
    -- a value was promised, and none comes back
    have hnone := decrement_full h hv hfull
    rcases hright with ⟨-, hrun, -⟩ | ⟨-, hrun, -⟩
    · rw [hrun] at hnone
      cases hnone
    · rw [hrun] at hnone
      cases hnone
  · intro hclear c hv
    obtain ⟨hroom, hpos⟩ := hclear c hv
    by_cases h1 : 1 < c
    · obtain ⟨s', hrun, -, hst⟩ := decrement_lower h hv hroom h1
      exact ⟨s', Or.inl ⟨h1, hrun, hst⟩⟩
    · obtain ⟨s', hrun, -, hst⟩ := decrement_remove h hv hroom h1
      exact ⟨s', Or.inr ⟨by omega, hrun, hst⟩⟩

theorem right_iff (h : Inv s) (u : Use Addr) : InBounds s u ∧ CountsDown s u ↔ Clear s u := by
  cases u with
  | increment l => exact (and_iff_left trivial).trans (increment_right_iff h)
  | decrement l =>
    refine ⟨fun hright => (decrement_right_iff h).mp hright.2, fun hclear => ?_⟩
    -- `DecrementRef` writes inside the table in any case
    have hdown := (decrement_right_iff h).mpr hclear
    refine ⟨?_, hdown⟩
    cases hv : s.stored l with
    | none => exact ⟨_, s, decrement_untracked h hv, h.wf.fits⟩
    | some c =>
      obtain ⟨s', ⟨-, hrun, -⟩ | ⟨-, hrun, -⟩⟩ := hdown c hv
      · exact ⟨_, s', hrun, (step_inv h hrun).wf.fits⟩
      · exact ⟨_, s', hrun, (step_inv h hrun).wf.fits⟩

/-! ## Runs -/

theorem along_right_iff (us : List (Use Addr)) : ∀ s : Tls Addr, Inv s →
    (Along step (fun s u => InBounds s u ∧ CountsDown s u) s us ↔ Along step Clear s us) := by
  induction us with
  | nil =>
    intro s _
    exact Iff.rfl
  | cons u us ih =>
    intro s h
    cases hrun : (step u).run s with
    | error e s' => rw [along_cons_error hrun, along_cons_error hrun, right_iff h]
    | ok r s' => rw [along_cons_ok hrun, along_cons_ok hrun, right_iff h, ih s' (step_inv h hrun)]

omit [DecidableEq Addr] in
theorem init_inv [Inhabited Addr] [DecidableEq Addr] : Inv (init : Tls Addr) :=
  ⟨ArrayTable.init_wf, by simp [init]⟩

/-- Every use of a run stays in bounds and counts down correctly exactly when
none of them needs a slot that is not there or lowers a count in a full table. -/
theorem counts_down_iff [Inhabited Addr] (us : List (Use Addr)) :
    Along step (fun s u => InBounds s u ∧ CountsDown s u) (init : Tls Addr) us ↔
      Along step Clear (init : Tls Addr) us :=
  along_right_iff us init init_inv

/-- Track the first `n` locks. -/
def firstLocks (n : Nat) : List (Use Nat) := (List.range n).map .increment

/-- A fifth lock is written past the end of the table, and in a full table a
count of one is neither lowered nor removed. -/
theorem full_table_not_right :
    ¬ Along step (fun s u => InBounds s u ∧ CountsDown s u) (init : Tls Nat)
      (firstLocks 4 ++ [.increment 4]) ∧
    ¬ Along step (fun s u => InBounds s u ∧ CountsDown s u) (init : Tls Nat)
      (firstLocks 4 ++ [.decrement 0]) := by
  have hstop : (run step (init : Tls Nat) (firstLocks 4)).stop = none := by decide
  constructor
  · intro h
    obtain ⟨⟨r, s', hrun, -⟩, -⟩ := h.last hstop
    have hfault : (run step (init : Tls Nat) (firstLocks 4 ++ [.increment 4])).stop =
        some .outOfBounds := by decide
    rw [run_snoc_ok hstop hrun] at hfault
    cases hfault
  · intro h
    obtain ⟨-, hdown⟩ := h.last hstop
    have hone : (run step (init : Tls Nat) (firstLocks 4)).final.stored 0 = some 1 := by decide
    have hreplies : (run step (init : Tls Nat) (firstLocks 4 ++ [.decrement 0])).replies =
        [none, none, none, none, none] := by decide
    obtain ⟨s', ⟨h1, -⟩ | ⟨-, hrun, -⟩⟩ := hdown 1 hone
    · omega
    · -- the run shows that nothing came back
      rw [run_snoc_ok hstop hrun] at hreplies
      have hlast := congrArg List.getLast? hreplies
      rw [List.getLast?_concat] at hlast
      cases hlast

end LockShield.ClibArray
