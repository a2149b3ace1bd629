import LockShield.Table.Frame
import LockShield.Table.Hybrid

/-!
# `LS_HYBRID` when memory runs out

`malloc` may fail here, in any pattern. `IncrementRef` returns nothing, so an
acquisition that found no node for its lock reports success like any other. The
conversion to the hash is safe, because it happens once and on a full pool.

Counts are not bounded here either, so the invariant is the weak one of `Table/Frame`
(`Sound`): which lock is where does not depend on what the counts are.

## Results

* `acquire_new`, `acquire_held`, `release_held` — one call on a sound table.
* `sound_run`           — every run leaves the table sound.
* `hybrid_records_iff`  — an acquisition that reports `LS_ACQUIRE_NOW` has recorded its lock
  unless the table is in hash mode, the free list is empty and `malloc` fails.
* `hybrid_drops_eleventh` — the eleventh lock of a run without `malloc` is dropped.
-/

namespace LockShield.Hybrid

open Lib

variable {M Addr : Type} [Inhabited Addr] [DecidableEq Addr] [PtrMap M Addr NodePtr]
  {malloc : Nat → List Nat → Option Nat}

/-- A state that some calls lead to, whatever `malloc` and the counts did. -/
def Sound (s : Tls M Addr) : Prop := ∃ t, s.Shaped laws maxHashEntries t

/-- The acquisition that returned last is on record: the lock is tracked with
count 1, it can be released, and acquiring it again does not lock it again. -/
structure Recorded (malloc : Nat → List Nat → Option Nat) (s : Tls M Addr) (l : Addr) : Prop where
  tracked : s.Tracks l 1
  release : ∀ r, ∃ rep s', (shieldStep (ops malloc) (.release l r)).run s = .ok rep s'
  nested : ∃ s', (shieldStep (ops malloc) (.acquire l true)).run s =
    .ok ⟨.lsSkipAcquisition, []⟩ s'

section Lawful

variable [LawfulPtrMap M] {s s' : Tls M Addr} {l : Addr}

theorem sound_init : Sound (init : Tls M Addr) := by
  obtain ⟨hmode, hcount⟩ :=
    Tls.arrayMode_of_untouched (L := laws) (s := (init : Tls M Addr)) rfl rfl rfl rfl
  exact ⟨init, .refl _, Or.inl hmode, fun l => by rw [hcount l]; exact Nat.zero_le 1⟩

theorem cellSet_one (v : countRep.Cell) : countRep.cellVal (countRep.cellSet v 1) = 1 :=
  int32_of_range (x := 1) (by omega) (by omega)

theorem laws_one : 1 ≤ laws.limit := by
  simp only [laws]
  omega

theorem maxLocks_le : maxLocks ≤ maxHashEntries := by decide

/-- Acquiring an untracked lock. -/
theorem acquire_new (hfresh : MallocFresh malloc) (hs : Sound s) (r : Bool)
    (hl : (Tls.lookup l).run s = .ok none s) :
    ∃ s', (shieldStep (ops malloc) (.acquire l r)).run s = .ok ⟨.lsAcquireNow, [.lockFn l]⟩ s' ∧
      Sound s' ∧ (¬ s.Starved malloc → s'.Tracks l 1) ∧
      (s.Starved malloc → (Tls.lookup l).run s' = .ok none s') := by
  obtain ⟨t, h⟩ := hs
  have hinc : (incrementRef malloc l none).run s = (Tls.insertNew maxHashEntries malloc l).run s :=
    hashBacked.insert l s hl
  have h0 : t.count l = 0 := (h.lookup_eq_none_iff l).mp hl
  by_cases hst : s.Starved malloc
  · -- `IncrementRef` returns without a node, and the caller cannot tell
    obtain ⟨hrun, hsh⟩ := h.insertNew_starved (l := l) hst
    -- nothing was added
    have hnone := (hsh.lookup_eq_none_iff l).mpr h0
    exact ⟨_, shieldStep_acquire_new hl (hinc.trans hrun), ⟨_, hsh⟩, fun hfed => absurd hst hfed,
      fun _ => hnone⟩
  · obtain ⟨s', t', hrun, hsh, -, htracks⟩ :=
      h.insertNew cellSet_one laws_one maxLocks_le hfresh h0 hst
    exact ⟨s', shieldStep_acquire_new hl (hinc.trans hrun), ⟨t', hsh⟩, fun _ => htracks,
      fun habs => absurd habs hst⟩

omit [LawfulPtrMap M] in
/-- Acquiring a tracked lock. -/
theorem acquire_held (malloc : Nat → List Nat → Option Nat) (hs : Sound s) {e : EntryPtr}
    (hl : (Tls.lookup l).run s = .ok (some e) s) :
    (∃ s', (shieldStep (ops malloc) (.acquire l true)).run s = .ok ⟨.lsSkipAcquisition, []⟩ s' ∧
      Sound s') ∧
    (shieldStep (ops malloc) (.acquire l false)).run s = .error (unbalancedLockPanic, []) s := by
  obtain ⟨t, h⟩ := hs
  obtain ⟨s', hrun, hre⟩ := h.increment hl
  exact ⟨⟨s', shieldStep_acquire_skip (T := ops malloc) hl hrun, t, hre.shaped h⟩,
    shieldStep_acquire_panic hl⟩

omit [LawfulPtrMap M] in
/-- Only an untracked lock is acquired now. -/
theorem untracked_of_acquireNow (hs : Sound s) {r : Bool} {rep : Reply Addr}
    (hrun : (shieldStep (ops malloc) (.acquire l r)).run s = .ok rep s')
    (hnow : rep.status = .lsAcquireNow) : (Tls.lookup l).run s = .ok none s := by
  obtain ⟨t, h⟩ := hs
  rcases h.lookup_spec l with ⟨-, hl⟩ | ⟨-, e, hl, -⟩
  · exact hl
  · -- a tracked one is skipped or panics, depending on the flag
    obtain ⟨⟨s₁, hskip, -⟩, hpanic⟩ := acquire_held malloc ⟨t, h⟩ hl
    cases r with
    | true =>
      obtain ⟨rfl, -⟩ := Tls.fst_of_ok (hrun.symm.trans hskip)
      cases hnow
    | false =>
      rw [hrun] at hpanic
      cases hpanic

/-- Releasing a tracked lock. -/
theorem release_held (malloc : Nat → List Nat → Option Nat) (hs : Sound s) (r : Bool)
    {e : EntryPtr} (hl : (Tls.lookup l).run s = .ok (some e) s) :
    ∃ rep s', (shieldStep (ops malloc) (.release l r)).run s = .ok rep s' ∧ Sound s' := by
  obtain ⟨t, h⟩ := hs
  obtain ⟨v, s', hrun, hsh⟩ := h.decrementEntry hl
  -- the lock stays or goes; the table is sound either way
  have hs' : Sound s' := by
    rcases hsh with hsh | ⟨t', hsh, -⟩
    · exact ⟨t, hsh⟩
    · exact ⟨t', hsh⟩
  cases r with
  | false => exact ⟨_, s', shieldStep_release_plain (T := ops malloc) hl hrun, hs'⟩
  | true =>
    by_cases hv : v = 0
    · subst hv
      exact ⟨_, s', shieldStep_release_now (T := ops malloc) hl hrun, hs'⟩
    · exact ⟨_, s', shieldStep_release_skip (T := ops malloc) hl hrun hv, hs'⟩

/-- A call keeps the table sound, or panics and leaves it as it is. -/
theorem sound_step (hfresh : MallocFresh malloc) (hs : Sound s) (c : Call Addr) :
    (∃ rep s', (shieldStep (ops malloc) c).run s = .ok rep s' ∧ Sound s') ∨
      ∃ e, (shieldStep (ops malloc) c).run s = .error (e, []) s ∧
        (e = unbalancedLockPanic ∨ e = unbalancedUnlockPanic) := by
  rcases Tls.Sound.step hashBacked cellSet_one laws_one maxLocks_le hfresh hs c with
    ⟨rep, s', hrun, hs', -⟩ | hpanic
  · exact Or.inl ⟨rep, s', hrun, hs'⟩
  · exact Or.inr hpanic

/-- Every run leaves the table sound. -/
theorem sound_run (hfresh : MallocFresh malloc) (cs : List (Call Addr)) :
    Sound (run (shieldStep (ops malloc)) (init : Tls M Addr) cs).final :=
  (Tls.Sound.run hashBacked cellSet_one laws_one maxLocks_le hfresh sound_init cs).1

/-- Whatever `malloc` does, a call ends in nothing worse than a panic; and an
acquisition that returns `LS_ACQUIRE_NOW` is on record exactly when the table was
not starved of nodes. -/
theorem hybrid_records_iff (hfresh : MallocFresh malloc) (cs : List (Call Addr)) :
    (∀ c e s', (shieldStep (ops malloc) c).run
        (run (shieldStep (ops malloc)) (init : Tls M Addr) cs).final = .error e s' →
      e.1 ≠ .nullDeref) ∧
    ∀ l r rep s', (shieldStep (ops malloc) (.acquire l r)).run
        (run (shieldStep (ops malloc)) (init : Tls M Addr) cs).final = .ok rep s' →
      rep.status = .lsAcquireNow →
      (Recorded malloc s' l ↔
        ¬ (run (shieldStep (ops malloc)) (init : Tls M Addr) cs).final.Starved malloc) := by
  have hs := sound_run (M := M) hfresh cs
  generalize (run (shieldStep (ops malloc)) (init : Tls M Addr) cs).final = s at hs
  refine ⟨fun c e s' herr => ?_, fun l r rep s' hrun hnow => ?_⟩
  · -- the only faults are the two panics
    rcases sound_step hfresh hs c with ⟨rep, s₁, hok, -⟩ | ⟨e', hpanic, hmsg⟩
    · rw [herr] at hok
      cases hok
    · rw [herr] at hpanic
      injection hpanic with he
      rw [he]
      rcases hmsg with rfl | rfl
      · exact Fault.noConfusion
      · exact Fault.noConfusion
  · have hl := untracked_of_acquireNow hs hrun hnow
    obtain ⟨s₁, hnew, hs₁, htracks, hlost⟩ := acquire_new hfresh hs r hl
    obtain ⟨-, rfl⟩ := Tls.fst_of_ok (hrun.symm.trans hnew)
    constructor
    · -- a lock that was dropped is not found
      rintro ⟨⟨e, he, -⟩, -, -⟩ hst
      rw [hlost hst] at he
      obtain ⟨habs, -⟩ := Tls.fst_of_ok he
      cases habs
    · intro hfed
      have htracked := htracks hfed
      obtain ⟨e, he, -⟩ := htracked
      obtain ⟨⟨s₂, hskip, -⟩, -⟩ := acquire_held malloc hs₁ he
      refine ⟨htracks hfed, fun r' => ?_, s₂, hskip⟩
      obtain ⟨rep', s₃, hrel, -⟩ := release_held malloc hs₁ r' he
      exact ⟨rep', s₃, hrel⟩

/-- A `malloc` that always fails. -/
def noMalloc (_ : Nat) (_ : List Nat) : Option Nat := none

theorem noMalloc_fresh : MallocFresh noMalloc := by
  rintro n live a ⟨⟩

/-- Acquire the first `n` locks. -/
def firstLocks (n : Nat) : List (Call Nat) := (List.range n).map (.acquire · true)

/-- The tenth lock gets the last node of the pool. -/
theorem hybrid_records_tenth :
    ∃ s', (shieldStep (ops noMalloc) (.acquire 9 true)).run
        (run (shieldStep (ops noMalloc)) (init : Tls (FunMap Nat NodePtr) Nat)
          (firstLocks 9)).final = .ok ⟨.lsAcquireNow, [.lockFn 9]⟩ s' ∧ Recorded noMalloc s' 9 := by
  have hstop : (run (shieldStep (ops noMalloc)) (init : Tls (FunMap Nat NodePtr) Nat)
      (firstLocks 9)).stop = none := by decide +kernel
  have hreplies : (run (shieldStep (ops noMalloc)) (init : Tls (FunMap Nat NodePtr) Nat)
      (firstLocks 9 ++ [.acquire 9 true])).replies.getLast? =
      some ⟨.lsAcquireNow, [.lockFn 9]⟩ := by decide +kernel
  have hstop' : (run (shieldStep (ops noMalloc)) (init : Tls (FunMap Nat NodePtr) Nat)
      (firstLocks 9 ++ [.acquire 9 true])).stop = none := by decide +kernel
  have hhead : (run (shieldStep (ops noMalloc)) (init : Tls (FunMap Nat NodePtr) Nat)
      (firstLocks 9)).final.freelistHead = some (.pool 9) := by decide +kernel
  obtain ⟨-, hiff⟩ := hybrid_records_iff (M := FunMap Nat NodePtr) noMalloc_fresh (firstLocks 9)
  obtain ⟨rep, hrun, hlast⟩ := step_of_run_snoc_ok hstop hstop'
  rw [hlast, List.getLast?_concat] at hreplies
  obtain rfl := Option.some.inj hreplies
  refine ⟨_, hrun, (hiff 9 true _ _ hrun rfl).mpr fun hst => ?_⟩
  -- a node is left before the call
  rw [hst.2.1] at hhead
  cases hhead

/-- The eleventh lock is locked and dropped: its release panics. -/
theorem hybrid_drops_eleventh :
    ∃ s' s'', (shieldStep (ops noMalloc) (.acquire 10 true)).run
        (run (shieldStep (ops noMalloc)) (init : Tls (FunMap Nat NodePtr) Nat)
          (firstLocks 10)).final = .ok ⟨.lsAcquireNow, [.lockFn 10]⟩ s' ∧ ¬ s'.Tracks 10 1 ∧
      (shieldStep (ops noMalloc) (.release 10 true)).run s' =
        .error (unbalancedUnlockPanic, []) s'' := by
  have hstop : (run (shieldStep (ops noMalloc)) (init : Tls (FunMap Nat NodePtr) Nat)
      (firstLocks 10)).stop = none := by decide +kernel
  have hstop' : (run (shieldStep (ops noMalloc)) (init : Tls (FunMap Nat NodePtr) Nat)
      (firstLocks 10 ++ [.acquire 10 true])).stop = none := by decide +kernel
  have hreplies : (run (shieldStep (ops noMalloc)) (init : Tls (FunMap Nat NodePtr) Nat)
      (firstLocks 10 ++ [.acquire 10 true])).replies.getLast? =
      some ⟨.lsAcquireNow, [.lockFn 10]⟩ := by decide +kernel
  have hpanic : (run (shieldStep (ops noMalloc)) (init : Tls (FunMap Nat NodePtr) Nat)
      (firstLocks 10 ++ [.acquire 10 true] ++ [.release 10 true])).stop =
      some (unbalancedUnlockPanic, []) := by decide +kernel
  have hs := sound_run (M := FunMap Nat NodePtr) noMalloc_fresh
    (firstLocks 10 ++ [.acquire 10 true])
  obtain ⟨rep, hrun, hlast⟩ := step_of_run_snoc_ok hstop hstop'
  rw [hlast, List.getLast?_concat] at hreplies
  obtain rfl := Option.some.inj hreplies
  have hrel := step_of_run_snoc_error hstop' hpanic
  refine ⟨_, _, hrun, fun ⟨e, he, _⟩ => ?_, hrel⟩
  -- a tracked lock can be released
  obtain ⟨rep, s₁, hok, -⟩ := release_held noMalloc hs true he
  rw [hrel] at hok
  cases hok

end Lawful

end LockShield.Hybrid
