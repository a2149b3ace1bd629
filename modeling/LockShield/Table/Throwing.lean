import LockShield.Table.Frame
import LockShield.Table.Invoke

/-!
# Callables that throw

`LS_INVOKE` hands any callable to `std::invoke`, an empty `std::function` among
them, and an exception leaves `LS_ACQUIRE` or `LS_RELEASE` at the point of the
call. `LS_ACQUIRE` and the path for locks that are not reentrant call before they
write; the reentrant release calls after `DecrementRef`, when the last reference
is gone already.

## Results

* `harmless_acquire`, `harmless_release_plain`, `harmless_release_inner` — a callable that
  throws leaves the table as it was.
* `not_harmless_last`     — except on the last reference of a reentrant release.
* `throwing_harmless_iff` — the two together, for every call and reachable table.
-/

namespace LockShield

open Lib

section Calls

variable {σ Ptr Addr : Type}

/-- A use of the shield with this callable. -/
def callWith (T : TableOps σ Ptr Addr) (fn : Addr → EStateM Fault σ Unit) :
    Call Addr → EStateM Fault σ LsStatus
  | .acquire l r => lsAcquire T l r fn
  | .release l r => lsRelease T l r fn

/-- A callable that throws before it does anything. -/
def throwing (_ : Addr) : EStateM Fault σ Unit := throw .exception

/-- A callable that returns. -/
def returning (_ : Addr) : EStateM Fault σ Unit := pure ()

/-- How a computation ends. -/
def outcome {α : Type} (x : EStateM Fault σ α) (s : σ) : Except Fault α :=
  match x.run s with
  | .ok a _ => .ok a
  | .error e _ => .error e

end Calls

namespace Invoke

variable {M Addr : Type} [Inhabited Addr] [DecidableEq Addr] [PtrMap M Addr NodePtr]
  (malloc : Nat → List Nat → Option Nat)

/-- The `rec_count` field that an entry pointer leads to. -/
def field (s : Tls M Addr) : EntryPtr → Int
  | .slot i => (s.slots.lockTable i).recCount
  | .node p => (s.mem p).recCount.asInt

/-- The count a lock is tracked with. -/
def trackedCount (s : Tls M Addr) (l : Addr) : Option Int :=
  match (Tls.lookup l).run s with
  | .ok (some e) _ => some (field s e)
  | _ => none

/-- If the callable throws, every lock is tracked as before the call, and the call
can be repeated with the status it would have had. -/
def Harmless (s : Tls M Addr) (c : Call Addr) : Prop :=
  ∀ t, (callWith (ops malloc) throwing c).run s = .error .exception t →
    (∀ k, trackedCount t k = trackedCount s k) ∧
      outcome (callWith (ops malloc) returning c) t =
        outcome (callWith (ops malloc) returning c) s

/-- A reentrant release of a lock whose count, as the `int` that `DecrementRef`
reads it into, is not above one. -/
def LastReference (s : Tls M Addr) (c : Call Addr) : Prop :=
  ∃ l e, c = .release l true ∧ (Tls.lookup l).run s = .ok (some e) s ∧ ¬ 1 < s.recCount e

variable {malloc} {s t : Tls M Addr} {c : Call Addr} {l : Addr} {e : EntryPtr}

/-- A node that is given the count one reads back as one, whatever its bytes were. -/
theorem Cell.asInt_storeInt_one (c : Cell) : (c.storeInt 1).asInt = 1 := by
  have hload := ofBytes_toBytes 4 1
  have hone : (ofBytes (toBytes 4 1) : Int) = 1 := by omega
  rw [Cell.asInt, Cell.low_storeInt, loadSigned, length_toBytes, hone]
  exact int32_of_range (x := 1) (by omega) (by omega)

theorem cellSet_one (v : countRep.Cell) : countRep.cellVal (countRep.cellSet v 1) = 1 :=
  Cell.asInt_storeInt_one v

/-- Every table that calls lead to is sound, whatever the counts are. -/
theorem sound_of_reachable [LawfulPtrMap M] (hfresh : MallocFresh malloc)
    (hs : Reachable (ops malloc) (init : Tls M Addr) s) : Tls.Sound laws maxHashEntries s := by
  obtain ⟨cs, -, rfl⟩ := hs
  have hinit : Tls.Sound laws maxHashEntries (init : Tls M Addr) :=
    Tls.sound_of_untouched rfl rfl rfl rfl
  exact (hinit.run hashBacked cellSet_one one_le_limit maxLocks_le hfresh cs).1

/-! ## Where the exception leaves the call -/

omit [Inhabited Addr] in
theorem trackedCount_of_lookup (hl : (Tls.lookup l).run s = .ok (some e) s) :
    trackedCount s l = some (field s e) := by
  rw [trackedCount, hl]

omit [Inhabited Addr] in
theorem trackedCount_of_none (hl : (Tls.lookup l).run s = .ok none s) :
    trackedCount s l = none := by
  rw [trackedCount, hl]

/-- An exception that finds the table as it was is harmless. -/
theorem harmless_of_unchanged
    (h : ∀ t, (callWith (ops malloc) throwing c).run s = .error .exception t → t = s) :
    Harmless malloc s c := by
  intro t ht
  rw [h t ht]
  exact ⟨fun k => rfl, rfl⟩

/-- `LS_ACQUIRE` calls before it records the lock. -/
theorem harmless_acquire (hs : Tls.Sound laws maxHashEntries s) (r : Bool) :
    Harmless malloc s (.acquire l r) := by
  refine harmless_of_unchanged fun t ht => ?_
  rcases hs.lookup_cases l with hl | ⟨e, hl⟩
  · -- the callable is called before anything is written
    have hl' : ((ops malloc).lookup l).run s = .ok none s := hl
    simp [callWith, lsAcquire, hl', throwing] at ht
    exact ht.symm
  · -- a tracked lock: no callable is called
    have hl' : ((ops malloc).lookup l).run s = .ok (some e) s := hl
    cases r with
    | false => simp [callWith, lsAcquire, hl', unbalancedLockPanic] at ht
    | true =>
      obtain ⟨t', h⟩ := hs
      obtain ⟨s', hinc, -⟩ := h.increment hl
      have hinc' : ((ops malloc).incrementRef l (some e)).run s = .ok () s' := hinc
      simp [callWith, lsAcquire, hl', hinc'] at ht

/-- The path for locks that are not reentrant calls before `DecrementRef`. -/
theorem harmless_release_plain (hs : Tls.Sound laws maxHashEntries s) :
    Harmless malloc s (.release l false) := by
  refine harmless_of_unchanged fun t ht => ?_
  rcases hs.lookup_cases l with hl | ⟨e, hl⟩
  · -- not tracked: a panic, and no exception
    have hl' : ((ops malloc).lookup l).run s = .ok none s := hl
    simp [callWith, lsRelease, hl', unbalancedUnlockPanic] at ht
  · -- called before `DecrementRef`
    have hl' : ((ops malloc).lookup l).run s = .ok (some e) s := hl
    simp [callWith, lsRelease, hl', throwing] at ht
    exact ht.symm

/-- A reentrant release of an inner level does not call at all. -/
theorem harmless_release_inner (hs : Tls.Sound laws maxHashEntries s)
    (hinner : ∀ e, (Tls.lookup l).run s = .ok (some e) s → 1 < s.recCount e) :
    Harmless malloc s (.release l true) := by
  refine harmless_of_unchanged fun t ht => ?_
  rcases hs.lookup_cases l with hl | ⟨e, hl⟩
  · have hl' : ((ops malloc).lookup l).run s = .ok none s := hl
    simp [callWith, lsRelease, hl', unbalancedUnlockPanic] at ht
  · obtain ⟨t', h⟩ := hs
    obtain ⟨s', hdec, -⟩ := h.decrement_lower hl (hinner e hl)
    -- a reference is left, so nothing is called
    have hpos : s.recCount e - 1 ≠ 0 := by
      have := hinner e hl
      omega
    have hl' : ((ops malloc).lookup l).run s = .ok (some e) s := hl
    have hdec' : ((ops malloc).decrementRef l (some e)).run s = .ok (s.recCount e - 1) s' := hdec
    simp [callWith, lsRelease, hl', hdec', hpos] at ht

/-- The reentrant release of the last reference has removed the lock when it calls. -/
theorem not_harmless_last [LawfulPtrMap M] (hs : Tls.Sound laws maxHashEntries s)
    (hl : (Tls.lookup l).run s = .ok (some e) s) (h1 : ¬ 1 < s.recCount e) :
    ¬ Harmless malloc s (.release l true) := by
  obtain ⟨t, h⟩ := hs
  obtain ⟨s', t', hdec, hsh, hcount, -⟩ := h.decrement_remove hl h1
  have hl' : ((ops malloc).lookup l).run s = .ok (some e) s := hl
  have hdec' : ((ops malloc).decrementRef l (some e)).run s = .ok 0 s' := hdec
  have hrun : (callWith (ops malloc) throwing (.release l true)).run s =
      .error .exception s' := by
    simp [callWith, lsRelease, hl', hdec', throwing]
  have hgone : (Tls.lookup l).run s' = .ok none s' :=
    (hsh.lookup_eq_none_iff l).mpr (by rw [hcount, Function.update_self])
  -- tracked before the call, and not tracked after the exception
  intro hharm
  have hsame := (hharm s' hrun).1 l
  rw [trackedCount_of_none hgone, trackedCount_of_lookup hl] at hsame
  cases hsame

/-- A throwing callable leaves the counts as they were, and the call open to
repetition, exactly when the call is not the reentrant release of a last
reference. -/
theorem throwing_harmless_iff [LawfulPtrMap M] (hfresh : MallocFresh malloc)
    (hs : Reachable (ops malloc) (init : Tls M Addr) s) (c : Call Addr) :
    Harmless malloc s c ↔ ¬ LastReference s c := by
  have hsound := sound_of_reachable hfresh hs
  constructor
  · rintro hharm ⟨l, e, rfl, hl, h1⟩
    exact not_harmless_last hsound hl h1 hharm
  · intro hnot
    cases c with
    | acquire l r => exact harmless_acquire hsound r
    | release l r =>
      cases r with
      | false => exact harmless_release_plain hsound
      | true =>
        refine harmless_release_inner hsound fun e hl => ?_
        -- otherwise this is the last reference
        by_contra h1
        exact hnot ⟨l, e, rfl, hl, h1⟩

/-- A first acquisition whose callable throws. -/
theorem throwing_harmless_first :
    Harmless bumpMalloc (init : Tls (FunMap Nat NodePtr) Nat) (.acquire 0 true) := by
  have hinit : Reachable (ops bumpMalloc) (init : Tls (FunMap Nat NodePtr) Nat) init :=
    ⟨[], rfl, rfl⟩
  refine (throwing_harmless_iff bumpMalloc_fresh hinit _).mpr ?_
  rintro ⟨l, e, hc, -⟩
  cases hc

/-- Acquired once, then released with a callable that throws: the shield has
forgotten a lock that is still held, and the repeated release panics. -/
theorem throwing_release_forgets :
    ∃ s : Tls (FunMap Nat NodePtr) Nat, Reachable (ops bumpMalloc) init s ∧
      (∃ t, (callWith (ops bumpMalloc) throwing (.release 0 true)).run s =
          .error .exception t ∧
        trackedCount s 0 = some 1 ∧ trackedCount t 0 = none ∧
        (callWith (ops bumpMalloc) returning (.release 0 true)).run t =
          .error unbalancedUnlockPanic t) ∧
      ¬ Harmless bumpMalloc s (.release 0 true) := by
  have hrun : (callWith (ops bumpMalloc) throwing (.release 0 true)).run
      (run (shieldStep (ops bumpMalloc)) (init : Tls (FunMap Nat NodePtr) Nat)
        [.acquire 0 true]).final = .error .exception _ := rfl
  refine ⟨_, ⟨[.acquire 0 true], rfl, rfl⟩, ⟨_, hrun, rfl, rfl, rfl⟩, fun hharm => ?_⟩
  have hsame := (hharm _ hrun).1 0
  cases hsame

end Invoke

end LockShield
