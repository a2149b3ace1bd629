import LockShield.Table.Clib
import LockShield.Table.Interchange

/-!
# The C hash shield

`shield_hash.h` has its own copy of the table: counts are `int`s as in the C++
variant, the pool has twenty entries, and `IncrementRef` and `DecrementRef` do
not look a null entry up again.

## Results

* `hashBacked`, `refTable` — the helpers are those of a hash-backed table, and with a
  `malloc` that delivers a table of counters without a capacity.
* `clib_survives_misuse`   — a run goes on through any misuse as if the misused calls had
  not been made, whatever the lock functions answer.
-/

namespace LockShield.ClibHash

open Lib Clib

/-- `MAX_HASH_ENTRIES`. -/
def maxHashEntries : Nat := 20

variable {M Addr Me : Type} [Inhabited Addr] [DecidableEq Addr] [PtrMap M Addr NodePtr]

/-- The zero-initialised thread-local state, with the counts of the C++ variant. -/
def init : Hybrid.Tls M Addr := Hybrid.init

variable (malloc : Nat → List Nat → Option Nat)

/-- `IncrementRef`, which does not look the lock up again. -/
def incrementRef (l : Addr) : Option EntryPtr → EStateM Fault (Hybrid.Tls M Addr) Unit
  | none => Tls.insertNew maxHashEntries malloc l
  | some e => Tls.incrementEntry e

/-- `DecrementRef`, which does not look the lock up again. -/
def decrementRef (_l : Addr) : Option EntryPtr → EStateM Fault (Hybrid.Tls M Addr) Int
  | none => return -1
  | some e => Tls.decrementEntry e

/-- The helpers of `shield_hash.h`. -/
def ops : TableOps (Hybrid.Tls M Addr) EntryPtr Addr :=
  ⟨Tls.lookup, incrementRef malloc, decrementRef⟩

variable {malloc}

/-- The helpers are those of the C++ hash variant on the entries that `LS_ACQUIRE` and
`LS_RELEASE` hand them. -/
theorem hashBacked :
    Tls.HashBacked (ops malloc : TableOps (Hybrid.Tls M Addr) EntryPtr Addr) maxHashEntries
      malloc where
  lookup := rfl
  insert _ _ _ := rfl
  increment _ _ := rfl
  decrement _ _ := rfl

omit [Inhabited Addr] in
/-- `lookup` only reads. -/
theorem lookup_state {s s' : Hybrid.Tls M Addr} {l : Addr} {r : Option EntryPtr}
    (h : (Tls.lookup l).run s = .ok r s') : s' = s := by
  by_cases hmode : s.slots.lockCount ≤ maxLocks
  · cases hscan : s.slots.scan l 0 s.slots.lockCount with
    | error e => simp [Tls.lookup, hmode, hscan, access] at h
    | ok i =>
      simp only [Tls.lookup, EStateM.run_bind, EStateM.run_get, hmode, if_true, hscan, access_ok,
        EStateM.run_pure] at h
      injection h with _ hs
      exact hs.symm
  · simp only [Tls.lookup, EStateM.run_bind, EStateM.run_get, hmode, if_false,
      EStateM.run_pure] at h
    injection h with _ hs
    exact hs.symm

section Lawful

variable [LawfulPtrMap M]

/-- An `int` counts to one. -/
theorem one_le_limit : 1 ≤ Hybrid.laws.limit := by
  simp only [Hybrid.laws]
  omega

/-- The pool has a node for each slot of the array. -/
theorem maxLocks_le : maxLocks ≤ maxHashEntries := by decide

variable (M Addr) in
/-- The table of counters behind the C hash shield. -/
def refTable (hfresh : MallocFresh malloc) (hmalloc : MallocSucceeds malloc) :
    RefTable (ops malloc : TableOps (Hybrid.Tls M Addr) EntryPtr Addr) :=
  Tls.refTable Hybrid.laws one_le_limit maxLocks_le hashBacked hfresh hmalloc

/-- The counts are `int`s. -/
theorem refTable_limit (hfresh : MallocFresh malloc) (hmalloc : MallocSucceeds malloc) :
    (refTable M Addr hfresh hmalloc).limit = 2 ^ 31 - 1 := rfl

/-- The zero-initialised state records nothing. -/
theorem init_stands (hfresh : MallocFresh malloc) (hmalloc : MallocSucceeds malloc) :
    (refTable M Addr hfresh hmalloc).Stands init RefModel.init := by
  obtain ⟨hmode, hcount⟩ :=
    Tls.arrayMode_of_untouched (L := Hybrid.laws) (s := (init : Hybrid.Tls M Addr)) rfl rfl rfl rfl
  exact ⟨Or.inl hmode, funext hcount⟩

/-- Runs of the C hash shield are runs of the map while no count outgrows an
`int`. -/
theorem run_stands (hfresh : MallocFresh malloc) (hmalloc : MallocSucceeds malloc)
    {cs pre : List (Clib.Call Addr Me)} (hbelow : Clib.Below (2 ^ 31) cs) (hpre : pre <+: cs) :
    (run (Clib.shieldStep (ops malloc)) (init : Hybrid.Tls M Addr) pre).replies =
      (run refStep RefModel.init pre).replies ∧
    (run (Clib.shieldStep (ops malloc)) (init : Hybrid.Tls M Addr) pre).stop =
      (run refStep RefModel.init pre).stop ∧
    (run (Clib.shieldStep (ops malloc)) (init : Hybrid.Tls M Addr) pre).final.Inv Hybrid.laws
      maxHashEntries ∧
    (run (Clib.shieldStep (ops malloc)) (init : Hybrid.Tls M Addr) pre).final.count =
      (run refStep RefModel.init pre).final := by
  have hrec : Along refStep (fun cnt c => (refTable M Addr hfresh hmalloc).Recordable cnt c.plain)
      RefModel.init cs := by
    refine recordable_of_below (refTable M Addr hfresh hmalloc) (fun _ => trivial) ?_
    rw [refTable_limit, Nat.sub_add_cancel Nat.one_le_two_pow]
    exact hbelow
  exact (Clib.simulation _).run_eq pre _ _ (init_stands hfresh hmalloc) (hrec.restrict hpre)

/-- The C hash shield goes through every misuse: it answers as the map of
counters does, the callbacks on each lock alternate, and without the calls that
reported misuse the other calls get the same replies and leave the same table. -/
theorem clib_survives_misuse (hfresh : MallocFresh malloc) (hmalloc : MallocSucceeds malloc)
    (cs : List (Clib.Call Addr Me)) (flag : Addr → Bool) (hflag : SameFlag flag cs)
    (hbelow : Clib.Below (2 ^ 31) cs) :
    (run (Clib.shieldStep (ops malloc)) (init : Hybrid.Tls M Addr) cs).stop = none ∧
    (run (Clib.shieldStep (ops malloc)) (init : Hybrid.Tls M Addr) cs).replies =
      (run refStep RefModel.init cs).replies ∧
    (∀ l v, (∃ e, (Tls.lookup l).run
        (run (Clib.shieldStep (ops malloc)) (init : Hybrid.Tls M Addr) cs).final =
          .ok (some e) (run (Clib.shieldStep (ops malloc)) init cs).final ∧
        (run (Clib.shieldStep (ops malloc)) (init : Hybrid.Tls M Addr) cs).final.recCount e = v) ↔
      (run refStep RefModel.init cs).final l ≠ 0 ∧ v = (run refStep RefModel.init cs).final l) ∧
    (∀ l, Alternates l ((Clib.callbacks
      (run (Clib.shieldStep (ops malloc)) (init : Hybrid.Tls M Addr) cs)).map Callback.plain)) ∧
    run (Clib.shieldStep (ops malloc)) (init : Hybrid.Tls M Addr) (passing
        (Clib.shieldStep (ops malloc)) (fun rep => !rep.unbalanced) (init : Hybrid.Tls M Addr) cs) =
      ⟨(run (Clib.shieldStep (ops malloc)) (init : Hybrid.Tls M Addr) cs).replies.filter
          fun rep => !rep.unbalanced,
        none, (run (Clib.shieldStep (ops malloc)) (init : Hybrid.Tls M Addr) cs).final⟩ := by
  obtain ⟨hreplies, hstop, hinv, hcount⟩ :=
    run_stands (M := M) hfresh hmalloc hbelow (List.prefix_refl cs)
  rw [refStep_total] at hstop
  -- a call that reports misuse leaves the table as it is, so it can be left out
  have hskip : ∀ (c : Clib.Call Addr Me) (s : Hybrid.Tls M Addr) rep s',
      (Clib.shieldStep (ops malloc) c).run s = .ok rep s' → (!rep.unbalanced) = false → s' = s := by
    intro c s rep s' h hrep
    exact shieldStep_unbalanced (fun _ _ _ _ hl => lookup_state hl) h (by simpa using hrep)
  refine ⟨hstop, hreplies, fun l v => ?_, fun l => ?_, run_passing hskip cs init hstop⟩
  · rw [← hcount]
    exact Tls.lookup_recCount_eq_iff hinv l v
  · rw [Clib.callbacks, hreplies]
    exact ((alternates_run hflag).1 l).1

/-- Four locks, one of them not reentrant, through both forms; each kind of
misuse before and after the conversion to the hash. -/
def misused : List (Clib.Call Nat Nat) :=
  [.acquire1 0 false 0, .acquire2 0 7 false 0, .release1 1 true, .acquire2 1 7 true 0,
    .acquire1 1 true 0, .acquire1 2 true 0, .acquire2 3 7 true 0, .acquire1 0 false 0,
    .release2 0 7 false, .release1 0 false, .release2 1 7 true, .release1 1 true,
    .release1 1 true]

theorem clib_survives_misused :
    run (Clib.shieldStep (ops bumpMalloc)) (init : Hybrid.Tls (FunMap Nat NodePtr) Nat)
        (passing (Clib.shieldStep (ops bumpMalloc)) (fun rep => !rep.unbalanced)
          (init : Hybrid.Tls (FunMap Nat NodePtr) Nat) misused) =
      ⟨(run (Clib.shieldStep (ops bumpMalloc)) (init : Hybrid.Tls (FunMap Nat NodePtr) Nat)
          misused).replies.filter fun rep => !rep.unbalanced,
        none, (run (Clib.shieldStep (ops bumpMalloc)) (init : Hybrid.Tls (FunMap Nat NodePtr) Nat)
          misused).final⟩ :=
  (clib_survives_misuse bumpMalloc_fresh bumpMalloc_succeeds misused (fun l => l ≠ 0)
    (by decide) (Clib.below_of_length (by decide))).2.2.2.2

end Lawful

end LockShield.ClibHash
