import LockShield.Lib.Run
import Mathlib.Logic.Function.Basic

/-!
# The shielding layer

`LS_ACQUIRE` and `LS_RELEASE` are the same templates in every C++ variant: they
look the lock up in the calling thread's table, decide whether the wrapped lock
or unlock function has to be called, and keep the table's count. They are
written once here over the three table helpers of a variant (`TableOps`).

A computation runs in `EStateM Fault σ`: a fault ends the call and keeps the
state it happened in. Callbacks are state transformers too, so a callback may
use the table, throw, or do neither; `record` is the callback that only notes
that it was called.

## Results

The lemmas say what a call shows, by what its lookup finds:

* `shieldStep_acquire_new`, `shieldStep_acquire_skip`, `shieldStep_acquire_panic` — a lock
  that is not tracked, a nested acquisition, and one without the flag.
* `shieldStep_release_now`, `shieldStep_release_skip`, `shieldStep_release_plain`,
  `shieldStep_release_panic` — the last reference, an inner one, a release without the
  flag, and a lock that is not tracked.
* `run_shieldStep` — a step is the call, with the callbacks that it made.
-/

namespace LockShield

open Lib

/-- `LS_Status`. -/
inductive LsStatus where
  | lsAcquireNow
  | lsSkipAcquisition
  | lsUnbalancedLock
  | lsReleaseNow
  | lsSkipRelease
  | lsUnbalancedUnlock
  deriving DecidableEq, Repr

/-- What can end a call before it returns. -/
inductive Fault where
  /-- `abort()` after this text on stderr -/
  | abort (msg : String)
  /-- an array access outside its bounds -/
  | outOfBounds
  /-- an access through `NULL` -/
  | nullDeref
  /-- an entry pointer used in the mode it does not belong to -/
  | wrongMode
  /-- `free` of a block that is not allocated -/
  | badFree
  /-- an exception leaving a callback -/
  | exception
  deriving DecidableEq, Repr

/-- The message of a failed `LS_ACQUIRE`. -/
def unbalancedLockPanic : Fault :=
  .abort "PANIC: LS_ACQUIRE failed due to UNBALANCED_LOCK!\n"

/-- The message of a failed `LS_RELEASE`. -/
def unbalancedUnlockPanic : Fault :=
  .abort "PANIC: LS_RELEASE failed due to UNBALANCED_UNLOCK!\n"

/-- The helpers of one variant's thread-local table; `Ptr` is what a non-null
`LS_LockEntry*` is. -/
structure TableOps (σ Ptr Addr : Type) where
  lookup : Addr → EStateM Fault σ (Option Ptr)
  incrementRef : Addr → Option Ptr → EStateM Fault σ Unit
  decrementRef : Addr → Option Ptr → EStateM Fault σ Int

variable {σ ω Ptr Addr : Type}

/-- A checked access as a step that leaves the state alone. -/
def access {α : Type} : Except Fault α → EStateM Fault σ α
  | .ok a => pure a
  | .error e => throw e

@[simp] theorem access_ok {α : Type} (a : α) :
    (access (.ok a) : EStateM Fault σ α) = pure a := rfl

/-- `LS_ACQUIRE(l, reentrant, lock_fn)`. -/
def lsAcquire (T : TableOps σ Ptr Addr) (l : Addr) (reentrant : Bool)
    (lockFn : Addr → EStateM Fault σ Unit) : EStateM Fault σ LsStatus := do
  let entry ← T.lookup l
  if entry.isNone then
    lockFn l
    T.incrementRef l entry
    return .lsAcquireNow
  else if reentrant then
    T.incrementRef l entry
    return .lsSkipAcquisition
  else
    throw unbalancedLockPanic

/-- `LS_RELEASE(l, reentrant, unlock_fn)`. -/
def lsRelease (T : TableOps σ Ptr Addr) (l : Addr) (reentrant : Bool)
    (unlockFn : Addr → EStateM Fault σ Unit) : EStateM Fault σ LsStatus := do
  let entry ← T.lookup l
  if entry.isNone then
    throw unbalancedUnlockPanic
  else if reentrant then
    let val ← T.decrementRef l entry
    if val = 0 then
      unlockFn l
      return .lsReleaseNow
    else
      return .lsSkipRelease
  else
    unlockFn l
    let _ ← T.decrementRef l entry
    return .lsReleaseNow

/-! ## Calls with callbacks that leave the table alone -/

/-- A callback call made by the shield. -/
inductive Callback (Addr : Type) where
  | lockFn (l : Addr)
  | unlockFn (l : Addr)
  deriving DecidableEq, Repr

/-- One use of the shield. -/
inductive Call (Addr : Type) where
  | acquire (l : Addr) (reentrant : Bool)
  | release (l : Addr) (reentrant : Bool)
  deriving DecidableEq, Repr

/-- The lock a call is about. -/
def Call.lock : Call Addr → Addr
  | .acquire l _ => l
  | .release l _ => l

/-- What a returning call shows: its status and the callbacks it made. -/
structure Reply (Addr : Type) where
  status : LsStatus
  callbacks : List (Callback Addr)
  deriving DecidableEq, Repr

/-- Run a table computation in a state that carries more than the table. -/
def onTable {α : Type} (x : EStateM Fault σ α) : EStateM Fault (σ × ω) α := fun s =>
  match x.run s.1 with
  | .ok a s' => .ok a (s', s.2)
  | .error e s' => .error e (s', s.2)

/-- The table helpers next to the rest of the world. -/
def TableOps.withWorld (T : TableOps σ Ptr Addr) (ω : Type) : TableOps (σ × ω) Ptr Addr where
  lookup l := onTable (T.lookup l)
  incrementRef l p := onTable (T.incrementRef l p)
  decrementRef l p := onTable (T.decrementRef l p)

/-- The callback that only notes that it was called. -/
def record (cb : Addr → Callback Addr) (l : Addr) :
    EStateM Fault (σ × List (Callback Addr)) Unit :=
  modify fun s => (s.1, s.2 ++ [cb l])

/-- A shield call with recording callbacks. -/
def shieldCall (T : TableOps σ Ptr Addr) :
    Call Addr → EStateM Fault (σ × List (Callback Addr)) LsStatus
  | .acquire l r => lsAcquire (T.withWorld _) l r (record .lockFn)
  | .release l r => lsRelease (T.withWorld _) l r (record .unlockFn)

/-- A call as a step of a run: it answers with its status and callbacks, or
stops the run with its fault and the callbacks it had made by then. -/
def shieldStep (T : TableOps σ Ptr Addr) (c : Call Addr) :
    EStateM (Fault × List (Callback Addr)) σ (Reply Addr) := fun s =>
  match (shieldCall T c).run (s, []) with
  | .ok st s' => .ok ⟨st, s'.2⟩ s'.1
  | .error e s' => .error (e, s'.2) s'.1

/-- The tables that calls by one thread lead to. -/
def Reachable (T : TableOps σ Ptr Addr) (init s : σ) : Prop :=
  ∃ cs, (run (shieldStep T) init cs).stop = none ∧ (run (shieldStep T) init cs).final = s

/-- The lock is in the table. -/
def Tracked (T : TableOps σ Ptr Addr) (s : σ) (l : Addr) : Prop :=
  ∃ p, (T.lookup l).run s = .ok (some p) s

theorem not_tracked {T : TableOps σ Ptr Addr} {s : σ} {l : Addr}
    (h : (T.lookup l).run s = .ok none s) : ¬ Tracked T s l := by
  rintro ⟨p, hp⟩
  rw [h] at hp
  cases hp

/-! ### What a call does, from what the helpers do -/

section Step

variable {T : TableOps σ Ptr Addr} {s s' : σ} {l : Addr} {p : Ptr} {r : Bool} {v : Int}

@[simp] theorem run_onTable {α : Type} (x : EStateM Fault σ α) (s : σ) (w : ω) :
    (onTable x).run (s, w) =
      match x.run s with
      | .ok a s' => .ok a (s', w)
      | .error e s' => .error e (s', w) := rfl

@[simp] theorem run_record (cb : Addr → Callback Addr) (l : Addr) (s : σ)
    (log : List (Callback Addr)) :
    (record cb l).run (s, log) = .ok () (s, log ++ [cb l]) := rfl

theorem run_shieldStep (T : TableOps σ Ptr Addr) (c : Call Addr) (s : σ) :
    (shieldStep T c).run s =
      match (shieldCall T c).run (s, []) with
      | .ok st s' => .ok ⟨st, s'.2⟩ s'.1
      | .error e s' => .error (e, s'.2) s'.1 := rfl

theorem shieldStep_acquire_new (hl : (T.lookup l).run s = .ok none s)
    (hi : (T.incrementRef l none).run s = .ok () s') :
    (shieldStep T (.acquire l r)).run s = .ok ⟨.lsAcquireNow, [.lockFn l]⟩ s' := by
  simp [run_shieldStep, shieldCall, lsAcquire, TableOps.withWorld, hl, hi]

theorem shieldStep_acquire_skip (hl : (T.lookup l).run s = .ok (some p) s)
    (hi : (T.incrementRef l (some p)).run s = .ok () s') :
    (shieldStep T (.acquire l true)).run s = .ok ⟨.lsSkipAcquisition, []⟩ s' := by
  simp [run_shieldStep, shieldCall, lsAcquire, TableOps.withWorld, hl, hi]

theorem shieldStep_acquire_panic (hl : (T.lookup l).run s = .ok (some p) s) :
    (shieldStep T (.acquire l false)).run s = .error (unbalancedLockPanic, []) s := by
  simp [run_shieldStep, shieldCall, lsAcquire, TableOps.withWorld, hl]

theorem shieldStep_release_panic (hl : (T.lookup l).run s = .ok none s) :
    (shieldStep T (.release l r)).run s = .error (unbalancedUnlockPanic, []) s := by
  simp [run_shieldStep, shieldCall, lsRelease, TableOps.withWorld, hl]

theorem shieldStep_release_now (hl : (T.lookup l).run s = .ok (some p) s)
    (hd : (T.decrementRef l (some p)).run s = .ok 0 s') :
    (shieldStep T (.release l true)).run s = .ok ⟨.lsReleaseNow, [.unlockFn l]⟩ s' := by
  simp [run_shieldStep, shieldCall, lsRelease, TableOps.withWorld, hl, hd]

theorem shieldStep_release_skip (hl : (T.lookup l).run s = .ok (some p) s)
    (hd : (T.decrementRef l (some p)).run s = .ok v s') (hv : v ≠ 0) :
    (shieldStep T (.release l true)).run s = .ok ⟨.lsSkipRelease, []⟩ s' := by
  simp [run_shieldStep, shieldCall, lsRelease, TableOps.withWorld, hl, hd, hv]

theorem shieldStep_release_plain (hl : (T.lookup l).run s = .ok (some p) s)
    (hd : (T.decrementRef l (some p)).run s = .ok v s') :
    (shieldStep T (.release l false)).run s = .ok ⟨.lsReleaseNow, [.unlockFn l]⟩ s' := by
  simp [run_shieldStep, shieldCall, lsRelease, TableOps.withWorld, hl, hd]

/-- What a release of a tracked lock shows, by the value of its `DecrementRef`. -/
theorem shieldStep_release (hl : (T.lookup l).run s = .ok (some p) s)
    (hd : (T.decrementRef l (some p)).run s = .ok v s') :
    (shieldStep T (.release l r)).run s =
      .ok (if r = true ∧ v ≠ 0 then ⟨.lsSkipRelease, []⟩
        else ⟨.lsReleaseNow, [.unlockFn l]⟩) s' := by
  cases r with
  | false => simpa using shieldStep_release_plain hl hd
  | true =>
    by_cases hv : v = 0
    · subst hv
      simpa using shieldStep_release_now hl hd
    · simpa [hv] using shieldStep_release_skip hl hd hv

end Step

end LockShield
