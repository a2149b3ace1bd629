import LockShield.Lib.Client
import LockShield.Lib.MachineInt
import Mathlib.Algebra.BigOperators.Ring.Finset

/-!
# `test_multithreaded_integration`

The threads of the test increment a shared counter with a load and a store between an
acquisition and a release, as often as the test says. The load and the store are two
steps, so an increment that another thread's store fell into would be lost.

## Results

* `Counted.own`, `Counted.call` — the counter and the copy of whoever is between its load
  and its store, after any step.
* `counter_exact` — over every mutex that works the counter is right in every interleaving,
  and the threads can always run to their end.
-/

namespace LockShield.Counter

open Lib

/-- Where a thread of the test is, in its iteration `i`. -/
inductive Pc where
  | acquire (i : Nat)
  | acquiring (i : Nat)
  /-- `old_val = shared_counter.load()` -/
  | load (i : Nat)
  /-- `shared_counter.store(old_val + 1)` -/
  | store (i : Nat) (oldVal : Int)
  | release (i : Nat)
  | releasing (i : Nat)
  | finished
  deriving DecidableEq

variable {T : Type}

/-- `i < ITERATIONS` -/
def loop (iterations i : Nat) : Pc := if i < iterations then .acquire i else .finished

def spot : Pc → Spot
  | .acquire _ => .acquire
  | .acquiring _ => .acquiring
  | .load _ | .store _ _ => .inside
  | .release _ => .release
  | .releasing _ => .releasing
  | .finished => .outside

def call : Pc → Pc
  | .acquire i => .acquiring i
  | .release i => .releasing i
  | pc => pc

def own (iterations : Nat) : Pc → Int → Option (Pc × Int)
  | .acquiring i, c => some (.load i, c)
  | .load i, c => some (.store i c, c)
  | .store i oldVal, _ => some (.release i, int32 (oldVal + 1))
  | .releasing i, c => some (loop iterations (i + 1), c)
  | .acquire _, _ | .release _, _ | .finished, _ => none

/-- The acquisitions ahead. -/
def ahead (iterations : Nat) : Pc → Nat
  | .acquire i => iterations - (i + 1) + 1
  | .acquiring i | .load i | .store i _ | .release i | .releasing i => iterations - (i + 1)
  | .finished => 0

/-- The steps ahead. -/
def fuel (iterations : Nat) : Pc → Nat
  | .acquire i => 6 * (iterations - (i + 1)) + 6
  | .acquiring i => 6 * (iterations - (i + 1)) + 5
  | .load i => 6 * (iterations - (i + 1)) + 4
  | .store i _ => 6 * (iterations - (i + 1)) + 3
  | .release i => 6 * (iterations - (i + 1)) + 2
  | .releasing i => 6 * (iterations - (i + 1)) + 1
  | .finished => 0

/-- A loop is at the head of an iteration or at its end. -/
theorem loop_cases (iterations i : Nat) :
    (i < iterations ∧ loop iterations i = .acquire i) ∨
      (iterations ≤ i ∧ loop iterations i = .finished) := by
  by_cases h : i < iterations
  · exact Or.inl ⟨h, if_pos h⟩
  · exact Or.inr ⟨Nat.le_of_not_lt h, if_neg h⟩

theorem spot_loop (iterations i : Nat) :
    spot (loop iterations i) = .outside ∨ spot (loop iterations i) = .acquire := by
  rcases loop_cases iterations i with ⟨-, h⟩ | ⟨-, h⟩
  · exact Or.inr (by rw [h]; rfl)
  · exact Or.inl (by rw [h]; rfl)

/-- The threads of the test, with a number of iterations for each. -/
def program (iterations : T → Nat) : Program T where
  Pc := Pc
  Shared := Int
  start t := loop (iterations t) 0
  shared := 0
  spot
  call
  own t := own (iterations t)
  ahead t := ahead (iterations t)
  fuel t := fuel (iterations t)
  spot_start t := spot_loop (iterations t) 0
  spot_acquire p h := by cases p <;> simp_all [spot, call]
  spot_release p h := by cases p <;> simp_all [spot, call]
  -- where an own step leads: to the next call, or to the end
  spot_own t p d p' d' h := by
    cases p with
    | acquire | release | finished => cases h
    | acquiring | load | store =>
      cases h
      simp [Spot.Leads, spot]
    | releasing i =>
      cases h
      exact spot_loop (iterations t) (i + 1)
  goes_on t p d hout hcall := by
    cases p with
    | acquire => exact absurd (Or.inl rfl) hcall
    | release => exact absurd (Or.inr rfl) hcall
    | finished => exact absurd rfl hout
    | acquiring | load | store | releasing => rfl
  ahead_acquire t p h := by cases p <;> simp_all [spot, call, ahead]
  ahead_release t p h := by cases p <;> simp_all [spot, call, ahead]
  -- an own step does not add to the acquisitions that are left
  ahead_own t p d p' d' h := by
    cases p with
    | acquire | release | finished => cases h
    | acquiring | load | store =>
      cases h
      exact Nat.le_refl _
    | releasing i =>
      cases h
      rcases loop_cases (iterations t) (i + 1) with ⟨hlt, hloop⟩ | ⟨-, hloop⟩
      · rw [hloop]
        simp only [ahead]
        omega
      · rw [hloop]
        exact Nat.zero_le _
  fuel_call t p h := by cases p <;> simp_all [Spot.Calls, spot, call, fuel]
  -- an own step is one step nearer to the end
  fuel_own t p d p' d' h := by
    cases p with
    | acquire | release | finished => cases h
    | acquiring | load | store =>
      cases h
      exact Nat.lt_succ_self _
    | releasing i =>
      cases h
      rcases loop_cases (iterations t) (i + 1) with ⟨hlt, hloop⟩ | ⟨-, hloop⟩
      · rw [hloop]
        simp only [fuel]
        omega
      · rw [hloop]
        exact Nat.succ_pos _

/-- The increments that a thread has made. -/
def made (iterations : Nat) : Pc → Nat
  | .acquire i | .acquiring i | .load i | .store i _ => i
  | .release i | .releasing i => i + 1
  | .finished => iterations

/-- The iteration of a thread is one of its own, and a value that it has loaded is
the counter's. -/
def PcOk (iterations : Nat) (counter : Int) : Pc → Prop
  | .acquire i | .acquiring i | .load i | .release i | .releasing i => i < iterations
  | .store i oldVal => i < iterations ∧ oldVal = counter
  | .finished => True

variable {iterations : T → Nat} {pc : T → Pc} {counter : Int} {t u : T}

theorem made_le {n : Nat} {p : Pc} (h : PcOk n counter p) : made n p ≤ n := by
  cases p with
  | finished => exact Nat.le_refl n
  | store i => exact Nat.le_of_lt h.1
  | acquire | acquiring | load => exact Nat.le_of_lt h
  | release | releasing => exact h

/-- A thread's loop counter speaks about the counter only between its load and its store. -/
theorem PcOk.frame {n : Nat} {c c' : Int} {p : Pc} (h : PcOk n c p)
    (hc : spot p = .inside → c' = c) : PcOk n c' p := by
  cases p with
  | acquire | acquiring | load | release | releasing | finished => exact h
  | store i oldVal => exact ⟨h.1, h.2.trans (hc rfl).symm⟩

variable [Fintype T]

/-- The counter is the number of increments made. -/
structure Counted (iterations : T → Nat) (pc : T → Pc) (counter : Int) : Prop where
  pcOk : ∀ t, PcOk (iterations t) counter (pc t)
  counted : counter = ((∑ t, made (iterations t) (pc t) : Nat) : Int)

theorem counted_start : Counted iterations (program iterations).start 0 where
  pcOk t := by
    show PcOk _ _ (loop (iterations t) 0)
    rcases loop_cases (iterations t) 0 with ⟨hlt, hloop⟩ | ⟨-, hloop⟩
    · rw [hloop]
      exact hlt
    · rw [hloop]
      trivial
  counted := by
    -- no increment has been made, also by a thread with nothing to do
    have hzero : ∀ t, made (iterations t) (loop (iterations t) 0) = 0 := by
      intro t
      rcases loop_cases (iterations t) 0 with ⟨-, hloop⟩ | ⟨hle, hloop⟩
      · rw [hloop]
        rfl
      · rw [hloop]
        exact Nat.le_zero.mp hle
    show (0 : Int) = ((∑ t, made (iterations t) (loop (iterations t) 0) : Nat) : Int)
    simp [hzero]

variable [DecidableEq T]

/-- Thread `t` moves on, and the counter goes up with its increments. -/
theorem Counted.moved (h : Counted iterations pc counter) {p : Pc} {c : Int} (m : Nat)
    (hp : PcOk (iterations t) c p)
    (hmade : made (iterations t) p = made (iterations t) (pc t) + m) (hc : c = counter + m)
    (hothers : m ≠ 0 → ∀ u, u ≠ t → spot (pc u) ≠ .inside) :
    Counted iterations (Function.update pc t p) c where
  pcOk u := by
    by_cases hu : u = t
    · subst hu
      rw [Function.update_self]
      exact hp
    · rw [Function.update_of_ne hu]
      refine (h.pcOk u).frame fun hin => ?_
      -- a thread between its load and its store sees no other increment
      by_cases hm : m = 0
      · rw [hc, hm]
        simp
      · exact absurd hin (hothers hm u hu)
  counted := by
    have hsum := sum_update_family (d := fun u => made (iterations u)) (f := pc) (t := t) (c := p)
    simp only [hmade] at hsum
    have hmore : ∑ u, made (iterations u) (Function.update pc t p u) =
        ∑ u, made (iterations u) (pc u) + m := by omega
    rw [hc, h.counted, hmore]
    push_cast
    rfl

theorem Counted.call (h : Counted iterations pc counter) (t : T) :
    Counted iterations (Function.update pc t (call (pc t))) counter := by
  have hok := h.pcOk t
  refine h.moved 0 ?_ ?_ (by simp) fun hm => absurd rfl hm
  · cases hpc : pc t with
    | acquire | release =>
      rw [hpc] at hok
      exact hok
    | acquiring | load | store | releasing | finished =>
      rw [hpc] at hok
      exact hok
  · cases hpc : pc t with
    | acquire | release | acquiring | load | store | releasing | finished => rfl

/-- A step of a thread is counted, if nobody else is in the critical section with it. -/
theorem Counted.own (hsmall : ∑ t, iterations t < 2 ^ 31) (h : Counted iterations pc counter)
    {p : Pc} {c : Int} (hs : own (iterations t) (pc t) counter = some (p, c))
    (halone : (spot (pc t)).Owns → ∀ u, (spot (pc u)).Owns → u = t) :
    Counted iterations (Function.update pc t p) c := by
  have hok := h.pcOk t
  cases hpc : pc t with
  | acquire | release | finished =>
    rw [hpc] at hs
    cases hs
  | acquiring i =>
    rw [hpc] at hs hok
    cases hs
    exact h.moved 0 hok (by rw [hpc]; rfl) (by simp) fun hm => absurd rfl hm
  | load i =>
    rw [hpc] at hs hok
    cases hs
    -- the value loaded is the counter's
    exact h.moved 0 ⟨hok, rfl⟩ (by rw [hpc]; rfl) (by simp) fun hm => absurd rfl hm
  | store i oldVal =>
    rw [hpc] at hs hok
    cases hs
    obtain ⟨hlt, rfl⟩ := hok
    -- the increment is one of the iterations, so that the counter does not wrap
    have hless : ∑ u, made (iterations u) (pc u) < ∑ u, iterations u := by
      refine Finset.sum_lt_sum (fun u _ => made_le (h.pcOk u)) ⟨t, Finset.mem_univ t, ?_⟩
      rw [hpc]
      exact hlt
    have hcounted := h.counted
    have hc : int32 (oldVal + 1) = oldVal + (1 : Nat) := by
      rw [int32_of_range (by omega) (by omega)]
      rfl
    -- nobody else has loaded a value that is old now
    refine h.moved 1 hlt (by rw [hpc]; rfl) hc fun _ u hu hin => ?_
    exact hu (halone (by rw [hpc]; exact Or.inl rfl) u (Or.inl hin))
  | releasing i =>
    rw [hpc] at hs hok
    cases hs
    have hi : i < iterations t := hok
    -- the next iteration or the end of the loop
    refine h.moved 0 ?_ ?_ (by simp) fun hm => absurd rfl hm
    · rcases loop_cases (iterations t) (i + 1) with ⟨hlt, hloop⟩ | ⟨-, hloop⟩
      · rw [hloop]
        exact hlt
      · rw [hloop]
        trivial
    · rw [hpc]
      rcases loop_cases (iterations t) (i + 1) with ⟨hlt, hloop⟩ | ⟨hle, hloop⟩
      · rw [hloop]
        rfl
      · rw [hloop]
        exact Nat.le_antisymm hle hi

omit [DecidableEq T] in
theorem quota_eq : (program iterations).quota = ∑ t, iterations t := by
  refine Finset.sum_congr rfl fun t _ => ?_
  show ahead (iterations t) (loop (iterations t) 0) = iterations t
  rcases loop_cases (iterations t) 0 with ⟨hlt, hloop⟩ | ⟨hle, hloop⟩
  · rw [hloop]
    exact Nat.sub_add_cancel hlt
  · rw [hloop]
    exact (Nat.le_zero.mp hle).symm

variable {L : Type} [DecidableEq L] {X : Mutex L T} {l : L}
  {s : Client X (program iterations)}

/-- All threads have left their loops. -/
def Done (s : Client X (program iterations)) : Prop := ∀ t, s.pc t = .finished

/-- No fault occurs and no increment is lost: the counter is the number of increments
made, and when the threads have joined it is the number of all iterations. However far
they have come, the threads can run to their end. -/
theorem counter_exact (hX : X.Works (2 ^ 31)) (hsmall : ∑ t, iterations t < 2 ^ 31)
    (h : Reachable (Client.step l) (Client.init X (program iterations)) s) :
    X.live s.lock ∧ s.shared = ((∑ t, made (iterations t) (s.pc t) : Nat) : Int) ∧
      (Done s → s.shared = ((∑ t, iterations t : Nat) : Int)) ∧
      ∃ s', Client.Leads l s s' ∧ Done s' := by
  have hquota : (program iterations).quota < 2 ^ 31 := by
    rw [quota_eq]
    exact hsmall
  have hcounted : Counted iterations s.pc s.shared :=
    Client.program_invariant hX hquota (J := Counted iterations) counted_start
      (fun t _ _ hJ _ => hJ.call t) (fun t _ _ _ _ hJ hs halone => hJ.own hsmall hs halone) h
  refine ⟨(Client.client_inv hX hquota h).live, hcounted.counted, fun hdone => ?_, ?_⟩
  · rw [hcounted.counted, Finset.sum_congr rfl fun t _ => ?_]
    rw [hdone t]
    rfl
  · -- a thread of the test waits for nothing outside its calls
    obtain ⟨s', hrun, hrest⟩ := Client.can_rest hX hquota h
    refine ⟨s', hrun, fun t => ?_⟩
    have hout : spot (s'.pc t) = .outside := (hrest t).1
    cases hpc : s'.pc t with
    | finished => rfl
    | acquire | acquiring | load | store | release | releasing =>
      rw [hpc] at hout
      cases hout

end LockShield.Counter
