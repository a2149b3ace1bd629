import LockShield.Lock.CnaProgress
import LockShield.Lock.Progress
import LockShield.System.Bench
import LockShield.System.Counter
import LockShield.System.Misuse

/-!
# The builds

`lock_type.h` and `sanity_check.h` choose a lock and a shield from the macros that
a build defines, each by its own list of cases. The locks are those of `Lock`, each
with the numbers of threads and locks for which it is correct (`LockType.Serves`), and
the shields those of `System/Variants`.

What is assumed of memory depends on the statement: one lock never gets a shield to its
`malloc`, so the results about one lock assume nothing; those about any number of locks
have a `malloc` that returns fresh blocks and does not fail.

## Results

* `multithreaded_integration_exact` — in every build the test counts right, in every
  interleaving, and its threads can always run to their end.
* `bench_measures_build` — in every build the benchmark measures what it should.
* `misuse_contained`     — in every build with a shield, threads that use one lock at will
  misuse the shield and not the lock.
* `hem_misuse_contained` — the same for threads that use any number of `HemLock`s.
-/

namespace LockShield.Config

open Lib Shielded

/-- The locks. -/
inductive LockType where
  | MCS
  | CLH
  | TICKET
  | TAS
  | ABQL
  | K42
  | HEM
  | CNA
  deriving DecidableEq

/-- The shields. -/
inductive Version where
  | BASELINE
  | LS_ARRAY
  | LS_HYBRID
  | LS_INVOKE
  deriving DecidableEq

/-- The macros of a build: `defined k v` stands for the macro of that lock and that
shield, such as `MCS_LS_ARRAY`. -/
abbrev Macros := LockType → Version → Bool

/-- The typedef of `lock_type.h`: the first lock of the list with a macro. -/
def lockType (defined : Macros) : LockType :=
  let any k := defined k .BASELINE || defined k .LS_ARRAY || defined k .LS_HYBRID ||
    defined k .LS_INVOKE
  if any .MCS then .MCS
  else if any .CLH then .CLH
  else if any .TICKET then .TICKET
  else if any .TAS then .TAS
  else if any .ABQL then .ABQL
  else if any .K42 then .K42
  else if any .HEM then .HEM
  else if any .CNA then .CNA
  -- no lock type defined
  else .TAS

/-- `SHIELD_VERSION` of `sanity_check.h`: the first shield of the list with a macro. -/
def shieldVersion (defined : Macros) : Version :=
  let any v := defined .MCS v || defined .CLH v || defined .TICKET v || defined .ABQL v ||
    defined .TAS v || defined .K42 v || defined .HEM v || defined .CNA v
  if any .BASELINE then .BASELINE
  else if any .LS_ARRAY then .LS_ARRAY
  else if any .LS_HYBRID then .LS_HYBRID
  else if any .LS_INVOKE then .LS_INVOKE
  -- defaulting to baseline
  else .BASELINE

/-- A build with one macro gets its lock and its shield. -/
theorem build_of_single {defined : Macros} {k : LockType} {v : Version}
    (h : ∀ j w, defined j w = true ↔ j = k ∧ w = v) :
    lockType defined = k ∧ shieldVersion defined = v := by
  have heq : defined = fun j w => decide (j = k ∧ w = v) := by
    funext j w
    rw [Bool.eq_iff_iff, h, decide_eq_true_eq]
  subst heq
  cases k <;> cases v <;> decide

/-- A build with two locks' macros may get the lock of one and the shield of the other. -/
example : lockType (fun k v => decide ((k, v) = (.MCS, .LS_ARRAY) ∨ (k, v) = (.TAS, .BASELINE))) =
    .MCS ∧ shieldVersion (fun k v =>
      decide ((k, v) = (.MCS, .LS_ARRAY) ∨ (k, v) = (.TAS, .BASELINE))) = .BASELINE := by decide

variable (N T : Type) [DecidableEq N] [DecidableEq T]

/-- One lock and its users. `K42Lock` allocates its nodes at addresses `N`. -/
def LockType.mutex : LockType → Mutex Unit T
  | .MCS => Mcs.mutex Unit T
  | .CLH => Clh.mutex Unit T
  | .TICKET => Ticket.mutex T
  | .TAS => Tas.mutex T
  | .ABQL => Abql.mutex Unit T
  | .K42 => K42.mutex N T
  | .HEM => Hem.mutex Unit T
  | .CNA => Cna.mutex T

/-- The threads that a lock can serve: `ABQL_MAX_THREADS`, and the range of a ticket. -/
def LockType.Serves : LockType → Prop
  | .ABQL => Nat.card T ≤ 256
  | .TICKET => Nat.card T ≤ 2 ^ 32
  | .MCS | .CLH | .TAS | .K42 | .HEM | .CNA => True

variable {T}

/-- Every lock works, `ABQLLock` for as many acquisitions as an `int` counts. -/
def LockType.works [Fintype T] [Infinite N] {n : Nat} : (k : LockType) →
    (k = .ABQL → n ≤ 2 ^ 31) → k.Serves T → (k.mutex N T).Works n
  | .MCS, _, _ => Mcs.works n
  | .CLH, _, _ => Clh.works n
  | .TICKET, _, h => Ticket.works h n
  | .TAS, _, _ => Tas.works n
  | .ABQL, hn, h => Abql.works h (hn rfl)
  | .K42, _, _ => K42.works n
  | .HEM, _, _ => Hem.works n
  | .CNA, _, _ => Cna.works n

variable (L M : Type) [DecidableEq L] [Inhabited L] [PtrMap M L NodePtr]
  (malloc : T → Nat → List Nat → Option Nat)

/-- The shield of a version, for locks `L`; the baseline has none. -/
def Version.variant : Version → Option (Variant L T)
  | .BASELINE => none
  | .LS_ARRAY => some (lsArray L T)
  | .LS_HYBRID => some (lsHybrid L T M malloc)
  | .LS_INVOKE => some (lsInvoke L T M malloc)

variable {L M malloc}

/-- With fewer than `MAX_LOCKS` locks every shield counts. -/
def Version.counts_few [LawfulPtrMap M] (hcard : ENat.card L < maxLocks) : (v : Version) →
    (V : Variant L T) → v.variant L M malloc = some V → V.Counts
  | .LS_ARRAY, _, h => Option.some.inj h ▸ lsArray_counts hcard.le
  | .LS_HYBRID, _, h => Option.some.inj h ▸ lsHybrid_counts_few hcard
  | .LS_INVOKE, _, h => Option.some.inj h ▸ lsInvoke_counts_few hcard

/-- The shields count, the array up to its capacity, the others if `malloc` delivers. -/
def Version.counts [LawfulPtrMap M] (hfresh : ∀ t, MallocFresh (malloc t))
    (hmalloc : ∀ t, MallocSucceeds (malloc t)) : (v : Version) →
    (v = .LS_ARRAY → ENat.card L ≤ maxLocks) →
    (V : Variant L T) → v.variant L M malloc = some V → V.Counts
  | .LS_ARRAY, hcard, _, h => Option.some.inj h ▸ lsArray_counts (hcard rfl)
  | .LS_HYBRID, _, _, h => Option.some.inj h ▸ lsHybrid_counts hfresh hmalloc
  | .LS_INVOKE, _, _, h => Option.some.inj h ▸ lsInvoke_counts hfresh hmalloc

section OneLock

variable (M : Type) [PtrMap M Unit NodePtr] (malloc : T → Nat → List Nat → Option Nat)

/-- The lock as a critical section sees it that passes the flag `false`. -/
def Version.over (v : Version) (X : Mutex Unit T) : Mutex Unit T :=
  match v.variant Unit M malloc with
  | none => X
  | some V => Shielded.mutex X V.ops V.table

/-- What the macros choose. -/
def build (defined : Macros) : Mutex Unit T :=
  (shieldVersion defined).over M malloc ((lockType defined).mutex N T)

variable {M malloc}

theorem card_unit_lt : ENat.card Unit < maxLocks := by
  rw [ENat.card_eq_coe_fintype_card]
  decide

/-- A lock works behind every shield. -/
def Version.works [Fintype T] [LawfulPtrMap M] {X : Mutex Unit T} {n : Nat} (hX : X.Works n) :
    (v : Version) → (v.over M malloc X).Works n
  | .BASELINE => hX
  | .LS_ARRAY => (lsArray_counts card_unit_lt.le).works hX
  | .LS_HYBRID => (lsHybrid_counts_few card_unit_lt).works hX
  | .LS_INVOKE => (lsInvoke_counts_few card_unit_lt).works hX

/-- `test_multithreaded_integration` in any build, with any number of threads and of
iterations for each: no call panics or faults, the counter counts the increments, and
when the threads have joined it is what the test expects. However far they have come,
the threads can run to their end. -/
theorem multithreaded_integration_exact [Fintype T] [Infinite N] [LawfulPtrMap M]
    (defined : Macros) (hserves : (lockType defined).Serves T)
    {iterations : T → Nat} (hsmall : ∑ t, iterations t < 2 ^ 31)
    {s : Client (build N M malloc defined) (Counter.program iterations)}
    (h : Lib.Reachable (Client.step ())
      (Client.init (build N M malloc defined) (Counter.program iterations)) s) :
    (build N M malloc defined).live s.lock ∧
      s.shared = ((∑ t, Counter.made (iterations t) (s.pc t) : Nat) : Int) ∧
      (Counter.Done s → s.shared = ((∑ t, iterations t : Nat) : Int)) ∧
      ∃ s', Client.Leads () s s' ∧ Counter.Done s' ∧
        s'.shared = ((∑ t, iterations t : Nat) : Int) := by
  have hX : (build N M malloc defined).Works (2 ^ 31) :=
    Version.works ((lockType defined).works N (fun _ => Nat.le_refl _) hserves)
      (shieldVersion defined)
  obtain ⟨hlive, hcounter, hend, s', hrun, hdone⟩ := Counter.counter_exact hX hsmall h
  obtain ⟨-, -, hend', -⟩ := Counter.counter_exact hX hsmall (hrun.reachable h)
  exact ⟨hlive, hcounter, hend, s', hrun, hdone, hend' hdone⟩

/-- The macros of a build with one of them. -/
def only (k : LockType) (v : Version) : Macros := fun j w => decide (j = k ∧ w = v)

/-- The build of the `Makefile`, with the four threads of the test. -/
theorem multithreaded_integration_exact_mcsArray :
    ∃ s', Client.Leads ()
        (Client.init (build Nat (FunMap Unit NodePtr) (fun _ : Fin 4 => bumpMalloc)
          (only .MCS .LS_ARRAY)) (Counter.program fun _ => 500)) s' ∧
      Counter.Done s' ∧ s'.shared = (2000 : Int) := by
  obtain ⟨-, -, -, s', hrun, hdone, hcounter⟩ :=
    multithreaded_integration_exact (N := Nat) (only .MCS .LS_ARRAY) trivial (by decide)
      (s := Client.init (build Nat (FunMap Unit NodePtr) (fun _ : Fin 4 => bumpMalloc)
        (only .MCS .LS_ARRAY)) (Counter.program fun _ => 500)) (.start trivial)
  exact ⟨s', hrun, hdone, hcounter⟩

/-- `lock_bench` in any build, with any number of threads that the lock can serve: when
a thread reads the clock behind the warm-up, all acquisitions of the warm-up have been
made and nobody makes one, and when it reads the clock again all the iterations have
been made, no fault has occurred, and the threads can always run to that point. -/
theorem bench_measures_build {numThreads : Nat} [Infinite N] [LawfulPtrMap M]
    {malloc : Fin numThreads → Nat → List Nat → Option Nat}
    (defined : Macros) (hn : 0 < numThreads)
    (hserves : (lockType defined).Serves (Fin numThreads))
    {s : Client (build N M malloc defined) (Bench.program numThreads)}
    (h : Lib.Reachable (Client.step ())
      (Client.init (build N M malloc defined) (Bench.program numThreads)) s) :
    (build N M malloc defined).live s.lock ∧
      (∀ st t, Bench.Behind st (s.pc t) → (∀ u, ¬ Bench.InLoop st (s.pc u)) ∧
        s.shared.entered st = st.total numThreads) ∧
      (∀ st, s.shared.entered st ≤ st.total numThreads) ∧
      ∃ s', Client.Leads () s s' ∧ ∀ t, s'.pc t = .done := by
  -- 256 threads make 2560000 warm-up rounds, far below what `tail` counts
  have hlimit : lockType defined = .ABQL →
      numThreads * Bench.warmupIterations + Bench.numIteration + 1 ≤ 2 ^ 31 := by
    intro hk
    rw [hk] at hserves
    have hcard : numThreads ≤ 256 := by
      rw [← Nat.card_fin numThreads]
      exact hserves
    unfold Bench.warmupIterations Bench.numIteration
    omega
  exact Bench.bench_measures (Version.works ((lockType defined).works N hlimit hserves)
    (shieldVersion defined)) hn (Nat.lt_succ_self _) h

/-- A run of the benchmark with three threads to its end. -/
theorem bench_measures_build_hemHybrid :
    ∃ s', Client.Leads ()
        (Client.init (build Nat (FunMap Unit NodePtr) (fun _ : Fin 3 => bumpMalloc)
          (only .HEM .LS_HYBRID)) (Bench.program 3)) s' ∧
      ∀ t, s'.pc t = .done := by
  obtain ⟨-, -, -, s', hrun, hdone⟩ :=
    bench_measures_build (N := Nat) (only .HEM .LS_HYBRID) (by decide : 0 < 3) trivial
      (s := Client.init (build Nat (FunMap Unit NodePtr) (fun _ => bumpMalloc)
        (only .HEM .LS_HYBRID)) (Bench.program 3)) (.start trivial)
  exact ⟨s', hrun, hdone⟩

/-- In any build with a shield, whatever its threads do with the one lock, nested as
deep as an `int` counts and with a flag that each call chooses, as long as none of them
releases without the flag what it has acquired more than once: the lock is used as it
is meant to be, and a call panics exactly when it is misuse. -/
theorem misuse_contained [Fintype T] [Infinite N] [LawfulPtrMap M] (defined : Macros)
    (hserves : (lockType defined).Serves T) {V : Variant Unit T}
    (hV : (shieldVersion defined).variant Unit M malloc = some V)
    {s : State ((lockType defined).mutex N T) V.Table V.Ptr}
    (h : WithinCalls ((lockType defined).mutex N T) V (2 ^ 31 - 1) s) :
    Guarded ((lockType defined).mutex N T) V s :=
  guarded ((lockType defined).works N (fun _ => by omega) hserves)
    ((shieldVersion defined).counts_few card_unit_lt V hV) (Nat.le_refl _) h

/-- One thread takes the lock twice, and another releases it. -/
def stolenRelease :
    Option (State (LockType.TAS.mutex Nat Bool) (ArrayTable.Tls Unit) Nat × Calls Unit Bool) :=
  perform (countedStep (lsArray Unit Bool))
    (fun x => x.2.acquires < 2 ^ 31 - 1 ∧ x.2.torn = false)
    (init (LockType.TAS.mutex Nat Bool) ArrayTable.init, Calls.start)
    [.acquire false () false, .lock (Tas.Action.acquire false), .lock (Tas.Action.advance false),
      .finish false, .acquire false () true, .release true () false]

theorem misuse_contained_stolenRelease :
    ∃ s : State (LockType.TAS.mutex Nat Bool) (ArrayTable.Tls Unit) Nat,
      s.stopped = some unbalancedUnlockPanic ∧
      Guarded (LockType.TAS.mutex Nat Bool) (lsArray Unit Bool) s := by
  obtain ⟨x, hx⟩ := Option.isSome_iff_exists.mp (show stolenRelease.isSome = true by decide)
  have hstop : stolenRelease.map (fun x => x.1.stopped) = some (some unbalancedUnlockPanic) := by
    decide
  rw [hx] at hstop
  have hV : (shieldVersion (only .TAS .LS_ARRAY)).variant Unit (FunMap Unit NodePtr)
      (fun _ => bumpMalloc) = some (lsArray Unit Bool) := rfl
  exact ⟨x.1, Option.some.inj hstop, misuse_contained (N := Nat) (only .TAS .LS_ARRAY) trivial hV
    ⟨x.2, (ReachableWithin.start (by decide)).of_perform hx⟩⟩

end OneLock

/-! ## Many locks -/

/-- `HemLock`s behind any shield, and any number of them but for the array's capacity. The
threads may hold several at once and release them in any order; the one `Grant` word that
a thread has for all of them is never written while it is taken, since no lock function is
called out of turn. A shield with a hash needs a `malloc` that delivers here. -/
theorem hem_misuse_contained [Fintype T] [LawfulPtrMap M]
    (hfresh : ∀ t, MallocFresh (malloc t)) (hmalloc : ∀ t, MallocSucceeds (malloc t))
    {v : Version} (hcard : v = .LS_ARRAY → ENat.card L ≤ maxLocks) {V : Variant L T}
    (hV : v.variant L M malloc = some V) {s : State (Hem.mutex L T) V.Table V.Ptr}
    (h : WithinCalls (Hem.mutex L T) V (2 ^ 31 - 1) s) : Guarded (Hem.mutex L T) V s :=
  guarded (Hem.works _) (v.counts hfresh hmalloc hcard V hV) (Nat.le_refl _) h

/-- A thread holds two locks and takes the first one again, with the flag and without. -/
def takenTwice : Option (State (Hem.mutex Bool Bool) (Hybrid.Tls (FunMap Bool NodePtr) Bool)
    EntryPtr × Calls Bool Bool) :=
  perform (countedStep (lsHybrid Bool Bool (FunMap Bool NodePtr) fun _ => bumpMalloc))
    (fun x => x.2.acquires < 2 ^ 31 - 1 ∧ x.2.torn = false)
    (init (Hem.mutex Bool Bool) Hybrid.init, Calls.start)
    [.acquire false false false, .lock (Hem.Action.acquire false false),
      .lock (Hem.Action.advance false), .lock (Hem.Action.advance false),
      .lock (Hem.Action.advance false), .finish false,
      .acquire false true true, .lock (Hem.Action.acquire false true),
      .lock (Hem.Action.advance false), .lock (Hem.Action.advance false),
      .lock (Hem.Action.advance false), .finish false, .acquire false false true,
      .acquire false false false]

theorem hem_misuse_contained_takenTwice :
    ∃ s : State (Hem.mutex Bool Bool) (Hybrid.Tls (FunMap Bool NodePtr) Bool) EntryPtr,
      s.stopped = some unbalancedLockPanic ∧
      Guarded (Hem.mutex Bool Bool)
        (lsHybrid Bool Bool (FunMap Bool NodePtr) fun _ => bumpMalloc) s := by
  obtain ⟨x, hx⟩ := Option.isSome_iff_exists.mp (show takenTwice.isSome = true by decide)
  have hstop : takenTwice.map (fun x => x.1.stopped) = some (some unbalancedLockPanic) := by
    decide
  rw [hx] at hstop
  exact ⟨x.1, Option.some.inj hstop,
    hem_misuse_contained (v := .LS_HYBRID) (fun _ => bumpMalloc_fresh)
      (fun _ => bumpMalloc_succeeds) (fun h => by cases h) rfl
      ⟨x.2, (ReachableWithin.start (by decide)).of_perform hx⟩⟩

end LockShield.Config
