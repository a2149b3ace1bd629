import LockShield.Lib.Barrier
import LockShield.Lib.Client
import Mathlib.Algebra.BigOperators.Fin

/-!
# `lock_bench.cpp`

Each thread of the benchmark takes the lock some times to warm up, waits at a barrier,
takes the lock as often as its share of the iterations says, and waits at the barrier
once more, with the clock read after either wait. What the figures rest on is that the
measured interval holds all measured acquisitions and nothing of the warm-up.

A thread reads the clock where it has left a barrier (`Behind`); which loop the others
are in at that moment is what decides. The lock is any mutex that works for as many
acquisitions as the benchmark makes.

## Results

* `sum_shares`     — the shares of the threads add up to the iterations.
* `Timed.own`, `Timed.call` — a thread's own steps and its calls keep the invariant.
* `Timed.behind`   — who has left a barrier finds that everybody has arrived there.
* `bench_measures` — when a thread reads its clock behind a stage, nobody is in the loop of
  that stage any more and all its acquisitions have been made; and the threads can always
  run to their end.
-/

namespace LockShield.Bench

open Lib

/-- `NUM_ITERATION` -/
def numIteration : Nat := 100000000

/-- `WARMUP_ITERATIONS` -/
def warmupIterations : Nat := 10000

/-- The loops of a thread, which end at the barrier. -/
inductive Stage where
  /-- `warmup_thread` -/
  | warmup
  /-- the loop between the readings of the clock -/
  | measured
  deriving DecidableEq

/-- Where a thread of the benchmark is, in its iteration `i`. -/
inductive Pc where
  | acquire (st : Stage) (i : Nat)
  | acquiring (st : Stage) (i : Nat)
  | release (st : Stage) (i : Nat)
  | releasing (st : Stage) (i : Nat)
  /-- `pthread_barrier_wait(&my_barrier)` -/
  | arrive (st : Stage)
  /-- in `pthread_barrier_wait`, since this generation of the barrier -/
  | wait (st : Stage) (generation : Nat)
  | done
  deriving DecidableEq

/-- What the threads share besides the lock. -/
structure Shared where
  barrier : Barrier
  /-- a history: the critical sections of a stage that have been entered -/
  entered : Stage → Nat

variable {numThreads : Nat}

variable (numThreads) in
def iterationsPerThread : Nat := numIteration / numThreads

def startIter (id : Fin numThreads) : Nat := id * iterationsPerThread numThreads

def endIter (id : Fin numThreads) : Nat :=
  if id.val = numThreads - 1 then numIteration else (id + 1) * iterationsPerThread numThreads

/-- Where the loop counter of a stage begins. -/
def Stage.first (id : Fin numThreads) : Stage → Nat
  | .warmup => 0
  | .measured => startIter id

/-- The bound of the loop of a stage. -/
def Stage.stop (id : Fin numThreads) : Stage → Nat
  | .warmup => warmupIterations
  | .measured => endIter id

/-- The head of a loop. -/
def loop (id : Fin numThreads) (st : Stage) (i : Nat) : Pc :=
  if i < st.stop id then .acquire st i else .arrive st

/-- Where a thread goes on behind the barrier. -/
def Stage.next (id : Fin numThreads) : Stage → Pc
  | .warmup => loop id .measured (Stage.measured.first id)
  | .measured => .done

def spot : Pc → Spot
  | .acquire _ _ => .acquire
  | .acquiring _ _ => .acquiring
  | .release _ _ => .release
  | .releasing _ _ => .releasing
  | .arrive _ | .wait _ _ | .done => .outside

def call : Pc → Pc
  | .acquire st i => .acquiring st i
  | .release st i => .releasing st i
  | pc => pc

/-- A critical section is empty: the work in it is commented out. -/
def own (id : Fin numThreads) : Pc → Shared → Option (Pc × Shared)
  | .acquiring st i, d =>
    some (.release st i, { d with entered := Function.update d.entered st (d.entered st + 1) })
  | .releasing st i, d => some (loop id st (i + 1), d)
  | .arrive st, d =>
    some (.wait st d.barrier.generation, { d with barrier := d.barrier.arrive numThreads })
  | .wait st generation, d =>
    if d.barrier.generation = generation then none else some (st.next id, d)
  | .acquire _ _, _ | .release _ _, _ | .done, _ => none

/-! ### The shares of the iterations -/

theorem startIter_le (id : Fin numThreads) : startIter id ≤ endIter id := by
  have hdiv : numThreads * (numIteration / numThreads) ≤ numIteration :=
    Nat.mul_div_le numIteration numThreads
  have hmul := Nat.mul_le_mul_right (numIteration / numThreads) (Nat.le_of_lt id.isLt)
  unfold startIter endIter iterationsPerThread
  split
  · exact hmul.trans hdiv
  · exact Nat.mul_le_mul_right _ (Nat.le_succ _)

theorem Stage.first_le (id : Fin numThreads) (st : Stage) : st.first id ≤ st.stop id := by
  cases st with
  | warmup => exact Nat.zero_le _
  | measured => exact startIter_le id

/-- The iterations of a stage. -/
def Stage.share (id : Fin numThreads) (st : Stage) : Nat := st.stop id - st.first id

/-- The threads share the iterations out: the last one takes what the division leaves. -/
theorem sum_share (hn : 0 < numThreads) :
    ∑ id : Fin numThreads, Stage.measured.share id = numIteration := by
  obtain ⟨m, rfl⟩ := Nat.exists_eq_add_of_lt hn
  -- the last thread apart from the others
  rw [Nat.zero_add, Fin.sum_univ_castSucc]
  have hlast : Stage.measured.share (Fin.last m) =
      numIteration - m * iterationsPerThread (m + 1) := by
    simp [Stage.share, Stage.stop, Stage.first, endIter, startIter]
  have hrest : ∀ id : Fin m, Stage.measured.share id.castSucc = iterationsPerThread (m + 1) := by
    intro id
    have hne : id.val ≠ m := Nat.ne_of_lt id.isLt
    simp only [Stage.share, Stage.stop, Stage.first, endIter, startIter, Fin.val_castSucc,
      Nat.add_sub_cancel, if_neg hne, Nat.succ_mul, Nat.add_sub_cancel_left]
  have hdiv : (m + 1) * (numIteration / (m + 1)) ≤ numIteration := Nat.mul_div_le _ _
  -- the shares of the others fit, so that the last one loses nothing
  have hle : m * iterationsPerThread (m + 1) ≤ numIteration :=
    (Nat.mul_le_mul_right _ (Nat.le_succ m)).trans hdiv
  rw [hlast, Finset.sum_congr rfl fun id _ => hrest id, Finset.sum_const, Finset.card_univ,
    Fintype.card_fin, smul_eq_mul]
  omega

theorem loop_cases (id : Fin numThreads) (st : Stage) (i : Nat) :
    (i < st.stop id ∧ loop id st i = .acquire st i) ∨
      (st.stop id ≤ i ∧ loop id st i = .arrive st) := by
  by_cases h : i < st.stop id
  · exact Or.inl ⟨h, if_pos h⟩
  · exact Or.inr ⟨Nat.le_of_not_lt h, if_neg h⟩

theorem spot_loop (id : Fin numThreads) (st : Stage) (i : Nat) :
    spot (loop id st i) = .outside ∨ spot (loop id st i) = .acquire := by
  rcases loop_cases id st i with ⟨-, h⟩ | ⟨-, h⟩
  · exact Or.inr (by rw [h]; rfl)
  · exact Or.inl (by rw [h]; rfl)

theorem spot_next (id : Fin numThreads) (st : Stage) :
    spot (st.next id) = .outside ∨ spot (st.next id) = .acquire := by
  cases st with
  | warmup => exact spot_loop id .measured _
  | measured => exact Or.inl rfl

/-! ### The program -/

/-- The acquisitions that are ahead once a stage is over. -/
def Stage.after (id : Fin numThreads) : Stage → Nat
  | .warmup => Stage.measured.share id
  | .measured => 0

/-- The acquisitions ahead. -/
def ahead (id : Fin numThreads) : Pc → Nat
  | .acquire st i => st.stop id - (i + 1) + 1 + st.after id
  | .acquiring st i | .release st i | .releasing st i => st.stop id - (i + 1) + st.after id
  | .arrive st | .wait st _ => st.after id
  | .done => 0

/-- The steps that are ahead once a stage is over. -/
def Stage.fuelAfter (id : Fin numThreads) : Stage → Nat
  | .warmup => 4 * Stage.measured.share id + 2
  | .measured => 0

/-- The steps ahead. -/
def fuel (id : Fin numThreads) : Pc → Nat
  | .acquire st i => 4 * (st.stop id - (i + 1)) + 6 + st.fuelAfter id
  | .acquiring st i => 4 * (st.stop id - (i + 1)) + 5 + st.fuelAfter id
  | .release st i => 4 * (st.stop id - (i + 1)) + 4 + st.fuelAfter id
  | .releasing st i => 4 * (st.stop id - (i + 1)) + 3 + st.fuelAfter id
  | .arrive st => 2 + st.fuelAfter id
  | .wait st _ => 1 + st.fuelAfter id
  | .done => 0

theorem ahead_loop (id : Fin numThreads) (st : Stage) (i : Nat) :
    ahead id (loop id st i) = st.stop id - i + st.after id := by
  rcases loop_cases id st i with ⟨hlt, h⟩ | ⟨hle, h⟩
  · rw [h]
    simp only [ahead]
    omega
  · rw [h]
    simp only [ahead]
    omega

theorem fuel_loop (id : Fin numThreads) (st : Stage) (i : Nat) :
    fuel id (loop id st i) = 4 * (st.stop id - i) + 2 + st.fuelAfter id := by
  rcases loop_cases id st i with ⟨hlt, h⟩ | ⟨hle, h⟩
  · rw [h]
    simp only [fuel]
    omega
  · rw [h]
    simp only [fuel]
    omega

theorem ahead_next (id : Fin numThreads) (st : Stage) : ahead id (st.next id) = st.after id := by
  cases st with
  | warmup => exact ahead_loop id .measured _
  | measured => rfl

theorem fuel_next (id : Fin numThreads) (st : Stage) :
    fuel id (st.next id) = st.fuelAfter id := by
  cases st with
  | warmup => exact fuel_loop id .measured _
  | measured => rfl

variable (numThreads) in
/-- The threads of the benchmark. -/
def program : Program (Fin numThreads) where
  Pc := Pc
  Shared := Shared
  start id := loop id .warmup 0
  shared := { barrier := Barrier.init, entered := fun _ => 0 }
  spot
  call
  own
  ahead
  fuel
  spot_start id := spot_loop id .warmup 0
  spot_acquire p h := by cases p <;> simp_all [spot, call]
  spot_release p h := by cases p <;> simp_all [spot, call]
  -- where an own step leads: to the next call, or out of the loop
  spot_own id p d p' d' h := by
    cases p with
    | acquire | release | done => cases h
    | acquiring =>
      cases h
      exact Or.inr rfl
    | arrive =>
      cases h
      exact Or.inl rfl
    | releasing st i =>
      cases h
      exact spot_loop id st (i + 1)
    | wait st g =>
      simp only [own] at h
      split at h
      · cases h
      · cases h
        exact spot_next id st
  goes_on id p d hout hcall := by
    cases p with
    | acquire => exact absurd (Or.inl rfl) hcall
    | release => exact absurd (Or.inr rfl) hcall
    | arrive | wait | done => exact absurd rfl hout
    | acquiring | releasing => rfl
  ahead_acquire id p h := by cases p <;> simp_all [spot, call, ahead]
  ahead_release id p h := by cases p <;> simp_all [spot, call, ahead]
  -- an own step does not add to the acquisitions that are left
  ahead_own id p d p' d' h := by
    cases p with
    | acquire | release | done => cases h
    | acquiring | arrive =>
      cases h
      exact Nat.le_refl _
    | releasing st i =>
      cases h
      rw [ahead_loop]
      exact Nat.le_refl _
    | wait st g =>
      simp only [own] at h
      split at h
      · cases h
      · cases h
        rw [ahead_next]
        exact Nat.le_refl _
  fuel_call id p h := by cases p <;> simp_all [Spot.Calls, spot, call, fuel]
  -- an own step is one step nearer to the end
  fuel_own id p d p' d' h := by
    cases p with
    | acquire | release | done => cases h
    | acquiring | arrive =>
      cases h
      simp only [fuel]
      omega
    | releasing st i =>
      cases h
      rw [fuel_loop]
      simp only [fuel]
      omega
    | wait st g =>
      simp only [own] at h
      split at h
      · cases h
      · cases h
        rw [fuel_next]
        simp only [fuel]
        omega

/-! ### What the barrier keeps apart -/

/-- The barrier waits before a stage. -/
def Stage.index : Stage → Nat
  | .warmup => 0
  | .measured => 1

/-- How often a thread has arrived at the barrier. -/
def arrived : Pc → Nat
  | .acquire st _ | .acquiring st _ | .release st _ | .releasing st _ | .arrive st => st.index
  | .wait st _ => st.index + 1
  | .done => 2

/-- The acquisitions of stage `st` by a thread that has made `k` of its stage `cur`. -/
def Stage.made (id : Fin numThreads) (st cur : Stage) (k : Nat) : Nat :=
  if st = cur then k else if st.index < cur.index then st.share id else 0

/-- The acquisitions of a stage that a thread has made. -/
def made (id : Fin numThreads) (st : Stage) : Pc → Nat
  | .acquire cur i | .acquiring cur i => st.made id cur (i - cur.first id)
  | .release cur i | .releasing cur i => st.made id cur (i + 1 - cur.first id)
  | .arrive cur | .wait cur _ => st.made id cur (cur.share id)
  | .done => st.share id

/-- A thread's loop counter is in the range of its stage, and it has passed no wait
that is not over. -/
def PcOk (id : Fin numThreads) (generation : Nat) : Pc → Prop
  | .acquire st i | .acquiring st i | .release st i | .releasing st i =>
    st.index ≤ generation ∧ st.first id ≤ i ∧ i < st.stop id
  | .arrive st => st.index ≤ generation
  | .wait st g => g = st.index
  | .done => 2 ≤ generation

variable {id u : Fin numThreads} {pc : Fin numThreads → Pc} {d d' : Shared} {p : Pc} {st : Stage}

theorem PcOk.mono {g g' : Nat} (h : PcOk id g p) (hle : g ≤ g') : PcOk id g' p := by
  cases p with
  | acquire | acquiring | release | releasing => exact ⟨h.1.trans hle, h.2⟩
  | arrive => exact Nat.le_trans h hle
  | wait => exact h
  | done => exact Nat.le_trans h hle

theorem made_loop {cur : Stage} {i : Nat} (hle : i ≤ cur.stop id) :
    made id st (loop id cur i) = st.made id cur (i - cur.first id) := by
  rcases loop_cases id cur i with ⟨-, h⟩ | ⟨hge, h⟩
  · rw [h]
    rfl
  · rw [h, Nat.le_antisymm hle hge]
    rfl

theorem pcOk_loop {g i : Nat} (hg : st.index ≤ g) (hi : st.first id ≤ i) :
    PcOk id g (loop id st i) := by
  rcases loop_cases id st i with ⟨hlt, h⟩ | ⟨-, h⟩
  · rw [h]
    exact ⟨hg, hi, hlt⟩
  · rw [h]
    exact hg

theorem arrived_loop (id : Fin numThreads) (st : Stage) (i : Nat) :
    arrived (loop id st i) = st.index := by
  rcases loop_cases id st i with ⟨-, h⟩ | ⟨-, h⟩
  · rw [h]
    rfl
  · rw [h]
    rfl

/-- Behind the barrier a thread has made the acquisitions of its stage, and no more. -/
theorem made_next {cur : Stage} {g : Nat} :
    made id st (cur.next id) = made id st (.wait cur g) := by
  cases cur with
  | warmup =>
    show made id st (loop id .measured (Stage.measured.first id)) = _
    rw [made_loop (Stage.first_le id .measured), Nat.sub_self]
    cases st with
    | warmup | measured => rfl
  | measured =>
    cases st with
    | warmup | measured => rfl

theorem arrived_next (id : Fin numThreads) (cur : Stage) :
    arrived (cur.next id) = cur.index + 1 := by
  cases cur with
  | warmup => exact arrived_loop id .measured _
  | measured => rfl

theorem pcOk_next (id : Fin numThreads) {cur : Stage} {g : Nat} (hg : g = cur.index + 1) :
    PcOk id g (cur.next id) := by
  cases cur with
  | warmup => exact pcOk_loop (Nat.le_of_eq hg.symm) (Nat.le_refl _)
  | measured => exact Nat.le_of_eq hg.symm

/-- The barrier counts the arrivals of the threads, and the history their acquisitions. -/
structure Timed (pc : Fin numThreads → Pc) (d : Shared) : Prop where
  pcOk : ∀ id, PcOk id d.barrier.generation (pc id)
  kept : d.barrier.Kept (arrived ∘ pc)
  entered : ∀ st, d.entered st = ∑ id, made id st (pc id)

theorem timed_start (hn : 0 < numThreads) :
    Timed (program numThreads).start (program numThreads).shared where
  pcOk id := by
    show PcOk id 0 (loop id .warmup (Stage.warmup.first id))
    exact pcOk_loop (Nat.le_refl _) (Nat.le_refl _)
  kept := by
    -- nobody has arrived
    have : Nonempty (Fin numThreads) := ⟨⟨0, hn⟩⟩
    have hzero : arrived ∘ (program numThreads).start = fun _ => 0 :=
      funext fun id => arrived_loop id .warmup 0
    rw [hzero]
    exact Barrier.kept_init
  entered st := by
    have hzero : ∀ id : Fin numThreads, made id st (loop id .warmup 0) = 0 := by
      intro id
      show made id st (loop id .warmup (Stage.warmup.first id)) = 0
      rw [made_loop (Stage.first_le id .warmup), Nat.sub_self]
      cases st with
      | warmup | measured => rfl
    exact (Finset.sum_eq_zero fun id _ => hzero id).symm

variable (d') in
/-- A thread moves on. -/
theorem Timed.moved (h : Timed pc d) (hle : d.barrier.generation ≤ d'.barrier.generation)
    (hp : PcOk id d'.barrier.generation p)
    (hkept : d'.barrier.Kept (Function.update (arrived ∘ pc) id (arrived p)))
    (hentered : ∀ st, d'.entered st + made id st (pc id) = d.entered st + made id st p) :
    Timed (Function.update pc id p) d' where
  pcOk u := by
    by_cases hu : u = id
    · subst hu
      rw [Function.update_self]
      exact hp
    · rw [Function.update_of_ne hu]
      exact (h.pcOk u).mono hle
  kept := by
    rw [Function.comp_update]
    exact hkept
  entered st := by
    -- only the moving thread's share of the sum changes
    have hsum := sum_update_family (d := fun u => made u st) (f := pc) (t := id) (c := p)
    have hbefore := h.entered st
    have hstep := hentered st
    omega

/-- A thread moves on between two waits. -/
theorem Timed.moved_between (h : Timed pc d) (entered : Stage → Nat)
    (hp : PcOk id d.barrier.generation p) (harrived : arrived p = arrived (pc id))
    (hentered : ∀ st, entered st + made id st (pc id) = d.entered st + made id st p) :
    Timed (Function.update pc id p) { d with entered } := by
  refine h.moved { d with entered } (Nat.le_refl _) hp ?_ hentered
  have hsame : Function.update (arrived ∘ pc) id (arrived p) = arrived ∘ pc := by
    rw [harrived]
    exact Function.update_eq_self ..
  rw [hsame]
  exact h.kept

theorem Timed.call (h : Timed pc d) (id : Fin numThreads) :
    Timed (Function.update pc id (call (pc id))) d := by
  have hok := h.pcOk id
  refine h.moved_between d.entered ?_ ?_ fun st => ?_
  · -- a call moves no loop counter
    cases hpc : pc id with
    | acquire | release | acquiring | releasing | arrive | wait | done =>
      rw [hpc] at hok
      exact hok
  · cases pc id with
    | acquire | release | acquiring | releasing | arrive | wait | done => rfl
  · cases pc id with
    | acquire | release | acquiring | releasing | arrive | wait | done => rfl

theorem Timed.own (h : Timed pc d) (hs : own id (pc id) d = some (p, d')) :
    Timed (Function.update pc id p) d' := by
  have hok := h.pcOk id
  have hnear : arrived (pc id) = _ ∨ arrived (pc id) = _ := h.kept.near id
  cases hpc : pc id with
  | acquire | release | done =>
    rw [hpc] at hs
    cases hs
  | acquiring cur i =>
    rw [hpc] at hs hok
    cases hs
    -- the acquisition counts for the stage that the thread is in
    refine h.moved_between (Function.update d.entered cur (d.entered cur + 1)) hok
      (by rw [hpc]; rfl) fun st => ?_
    have hfirst : cur.first id ≤ i := hok.2.1
    rw [hpc]
    simp only [made, Stage.made]
    -- a stage that is not the thread's own counts as before
    by_cases hst : st = cur
    · subst hst
      simp only [Function.update_self, if_true]
      omega
    · simp only [Function.update_of_ne hst, if_neg hst]
  | releasing cur i =>
    rw [hpc] at hs hok
    cases hs
    obtain ⟨hg, hfirst, hlt⟩ := hok
    -- the next iteration, or the barrier if this was the last one
    refine h.moved_between d.entered (pcOk_loop hg (Nat.le_succ_of_le hfirst))
      (by rw [hpc, arrived_loop]; rfl) fun st => ?_
    rw [hpc, made_loop hlt]
    rfl
  | arrive cur =>
    rw [hpc] at hs hok hnear
    cases hs
    -- nobody is further than the barrier's generation
    have hgen : arrived (pc id) = d.barrier.generation := by
      rw [hpc]
      simp only [arrived] at hnear ⊢
      have hle : cur.index ≤ d.barrier.generation := hok
      omega
    have hidx : d.barrier.generation = cur.index := by
      rw [← hgen, hpc]
      rfl
    refine h.moved { d with barrier := d.barrier.arrive numThreads }
      (Barrier.generation_le _) hidx ?_ fun st => ?_
    · have hkept := h.kept.arrive (t := id) hgen
      rw [Fintype.card_fin] at hkept
      show (d.barrier.arrive numThreads).Kept _
      simp only [arrived, ← hidx]
      exact hkept
    · rw [hpc]
      rfl
  | wait cur g =>
    rw [hpc] at hs hok hnear
    simp only [Bench.own] at hs
    split at hs
    · cases hs
    · rename_i hopen
      cases hs
      have hg : g = cur.index := hok
      -- the barrier has moved on, by no more than the thread's own arrival
      have hgen : d.barrier.generation = cur.index + 1 := by
        simp only [arrived] at hnear
        omega
      refine h.moved_between d.entered (pcOk_next id hgen) ?_ fun st => ?_
      · rw [hpc, arrived_next]
        rfl
      · rw [hpc, made_next]

/-! ### What the figures mean -/

/-- The thread is in the loop of a stage. -/
def InLoop (st : Stage) : Pc → Prop
  | .acquire cur _ | .acquiring cur _ | .release cur _ | .releasing cur _ => cur = st
  | .arrive _ | .wait _ _ | .done => False

/-- The thread has left the barrier that follows a stage, where it reads the clock. -/
def Behind (st : Stage) : Pc → Prop
  | .acquire cur _ | .acquiring cur _ | .release cur _ | .releasing cur _ | .arrive cur
  | .wait cur _ => st.index < cur.index
  | .done => True

/-- The acquisitions of a stage, by all threads. -/
def Stage.total (numThreads : Nat) : Stage → Nat
  | .warmup => numThreads * warmupIterations
  | .measured => numIteration

theorem sum_shares (hn : 0 < numThreads) (st : Stage) :
    ∑ id : Fin numThreads, st.share id = st.total numThreads := by
  cases st with
  | warmup => simp [Stage.share, Stage.stop, Stage.first, Stage.total]
  | measured => exact sum_share hn

/-- Once a thread has left the barrier that follows a stage, everybody has arrived there. -/
theorem Timed.behind (h : Timed pc d) (hid : Behind st (pc id)) (u : Fin numThreads) :
    st.index + 1 ≤ arrived (pc u) := by
  have hok := h.pcOk id
  refine h.kept.all_arrived ?_ u
  cases hpc : pc id with
  | acquire | acquiring | release | releasing =>
    rw [hpc] at hok hid
    exact Nat.le_trans hid hok.1
  | arrive =>
    rw [hpc] at hok hid
    exact Nat.le_trans hid hok
  | wait cur g =>
    -- it has passed the wait before the one that it is in
    have hnear : arrived (pc id) = _ ∨ arrived (pc id) = _ := h.kept.near id
    rw [hpc] at hid hnear
    have hlt : st.index < cur.index := hid
    simp only [arrived] at hnear
    omega
  | done =>
    rw [hpc] at hok
    have h2 : 2 ≤ d.barrier.generation := hok
    cases st with
    | warmup => exact Nat.le_of_succ_le h2
    | measured => exact h2

/-- Whoever has arrived behind a stage is out of its loop and has made its acquisitions. -/
theorem made_of_arrived (id : Fin numThreads) (h : st.index + 1 ≤ arrived p) :
    ¬ InLoop st p ∧ made id st p = st.share id := by
  cases p with
  | acquire cur i | acquiring cur i | release cur i | releasing cur i =>
    -- in the loop of a later stage
    have hlt : st.index < cur.index := h
    have hne : st ≠ cur := fun heq => Nat.lt_irrefl _ (heq ▸ hlt)
    exact ⟨fun heq => hne heq.symm, by simp only [made, Stage.made, if_neg hne, if_pos hlt]⟩
  | arrive cur =>
    have hlt : st.index < cur.index := h
    have hne : st ≠ cur := fun heq => Nat.lt_irrefl _ (heq ▸ hlt)
    exact ⟨fun hin => hin, by simp only [made, Stage.made, if_neg hne, if_pos hlt]⟩
  | wait cur g =>
    have hle : st.index ≤ cur.index := Nat.le_of_succ_le_succ h
    refine ⟨fun hin => hin, ?_⟩
    simp only [made, Stage.made]
    -- at the barrier of this stage, or of a later one
    by_cases hst : st = cur
    · rw [if_pos hst, hst]
    · have hlt : st.index < cur.index := by
        refine Nat.lt_of_le_of_ne hle fun heq => hst ?_
        cases st <;> cases cur <;> first | rfl | cases heq
      rw [if_neg hst, if_pos hlt]
  | done => exact ⟨fun hin => hin, rfl⟩

theorem made_le {g : Nat} (h : PcOk id g p) : made id st p ≤ st.share id := by
  cases p with
  | acquire cur i | acquiring cur i | release cur i | releasing cur i =>
    obtain ⟨-, hfirst, hlt⟩ := h
    simp only [made, Stage.made]
    -- in its own loop a thread has made the rounds that it counts
    split
    · rename_i heq
      subst heq
      unfold Stage.share
      omega
    · split
      · exact Nat.le_refl _
      · exact Nat.zero_le _
  | arrive cur | wait cur g =>
    simp only [made, Stage.made]
    split
    · rename_i heq
      rw [heq]
    · split
      · exact Nat.le_refl _
      · exact Nat.zero_le _
  | done => exact Nat.le_refl _

/-- Threads that all rest have all come to their ends: not all can wait at the barrier. -/
theorem Timed.done_of_resting (h : Timed pc d)
    (hrest : ∀ id, spot (pc id) = .outside ∧ Bench.own id (pc id) d = none) (id : Fin numThreads) :
    pc id = .done := by
  have hcases : ∀ u, pc u = .done ∨ ∃ cur : Stage, arrived (pc u) = cur.index + 1 ∧
      d.barrier.generation = cur.index := by
    intro u
    obtain ⟨hspot, hown⟩ := hrest u
    have hok := h.pcOk u
    cases hpc : pc u with
    | acquire | acquiring | release | releasing =>
      rw [hpc] at hspot
      cases hspot
    | arrive =>
      rw [hpc] at hown
      cases hown
    | wait cur g =>
      rw [hpc] at hown hok
      simp only [Bench.own] at hown
      split at hown
      · rename_i hgen
        exact Or.inr ⟨cur, rfl, hgen.trans hok⟩
      · cases hown
    | done => exact Or.inl rfl
  -- whoever has yet to arrive does not wait
  obtain ⟨t, ht⟩ := h.kept.behind
  have ht : arrived (pc t) = d.barrier.generation := ht
  have hdone : pc t = .done := by
    rcases hcases t with hdone | ⟨cur, harr, hgen⟩
    · exact hdone
    · omega
  rw [hdone] at ht
  have htwo : d.barrier.generation = 2 := ht.symm
  rcases hcases id with hid | ⟨cur, -, hgen⟩
  · exact hid
  · cases cur with
    | warmup | measured =>
      rw [htwo] at hgen
      cases hgen

theorem quota_eq (hn : 0 < numThreads) :
    (program numThreads).quota = numThreads * warmupIterations + numIteration := by
  have hone : ∀ id : Fin numThreads, ahead id (loop id .warmup 0) =
      Stage.warmup.share id + Stage.measured.share id := fun id => ahead_loop id .warmup 0
  show ∑ id : Fin numThreads, ahead id (loop id .warmup 0) = _
  rw [Finset.sum_congr rfl fun id _ => hone id, Finset.sum_add_distrib, sum_shares hn,
    sum_shares hn]
  rfl

variable {L : Type} [DecidableEq L] {X : Mutex L (Fin numThreads)} {l : L} {n : Nat}
  {s : Client X (program numThreads)}

/-- No fault occurs, and when a thread reads its clock behind a stage nobody is in the
loop of that stage any more and all its acquisitions have been made, which are no more
than there should be. However far they have come, the threads can run to their end. -/
theorem bench_measures (hX : X.Works n) (hn : 0 < numThreads)
    (hlimit : numThreads * warmupIterations + numIteration < n)
    (h : Reachable (Client.step l) (Client.init X (program numThreads)) s) :
    X.live s.lock ∧
      (∀ st t, Behind st (s.pc t) → (∀ u, ¬ InLoop st (s.pc u)) ∧
        s.shared.entered st = st.total numThreads) ∧
      (∀ st, s.shared.entered st ≤ st.total numThreads) ∧
      ∃ s', Client.Leads l s s' ∧ ∀ t, s'.pc t = .done := by
  have hquota : (program numThreads).quota < n := by
    rw [quota_eq hn]
    exact hlimit
  -- what the barrier keeps apart holds along the run, for no access of the lock touches it
  have htimed : ∀ {s : Client X (program numThreads)},
      Reachable (Client.step l) (Client.init X (program numThreads)) s →
      Timed s.pc s.shared := by
    intro s h
    exact Client.program_invariant hX hquota (J := Timed) (timed_start hn)
      (fun t _ _ hJ _ => hJ.call t) (fun _ _ _ _ _ hJ hs _ => hJ.own hs) h
  have hT := htimed h
  refine ⟨(Client.client_inv hX hquota h).live, fun st t ht => ?_, fun st => ?_, ?_⟩
  · have harrived := hT.behind ht
    refine ⟨fun u => (made_of_arrived u (harrived u)).1, ?_⟩
    rw [hT.entered st, ← sum_shares hn st]
    exact Finset.sum_congr rfl fun u _ => (made_of_arrived u (harrived u)).2
  · rw [hT.entered st, ← sum_shares hn st]
    exact Finset.sum_le_sum fun u _ => made_le (hT.pcOk u)
  · -- a run to where all rest is a run to where all are done
    obtain ⟨s', hrun, hrest⟩ := Client.can_rest hX hquota h
    exact ⟨s', hrun, (htimed (hrun.reachable h)).done_of_resting hrest⟩

end LockShield.Bench
