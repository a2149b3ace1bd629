import LockShield.Lock.Mutexes
import LockShield.Lock.Tas

/-!
# The locks let their users through

While nobody holds a lock, the threads inside its calls can bring one of them to its
end. In each lock a thread waits only in a loop, for a store of another thread; `fuel`
bounds the accesses to the end of a call that does not wait, and `Stuck` says that the
next access is a wait. A loop that nobody can leave would have its first waiter behind
somebody who holds the lock, or behind a store that is still to come.

## Results

For each lock but `CNALock`:

* `exists_move`      — an access that is not a wait comes nearer to the end of its call.
* `exists_not_stuck` — while nobody holds the lock, some thread inside does not wait.
* `works`            — so the lock is a mutex that works. `ABQLLock` does up to the number
  of draws after which its `tail` would wrap (`Abql.limited`).

`K42.allocated_iff` counts the nodes of `K42Lock` on the way: those that are allocated
belong to the threads inside `Acquire`, one to each.
-/

set_option linter.unusedSectionVars false

namespace LockShield

open Lib

/-! ## `TicketLock` -/

namespace Ticket

variable {T : Type} [Fintype T] [DecidableEq T] {s : State T} {t : T}

/-- The accesses to the end of a call, but for its waits. -/
def fuel : Pc → Nat
  | .idle => 0
  | .spin | .serveNext => 1
  | .drawTicket => 2

/-- The thread's next access is a wait. -/
def Stuck (s : State T) (t : T) : Prop := s.pc t = .spin ∧ s.nowServing ≠ s.myTicket t

/-- An access that is not a wait can be made, and brings the thread nearer to its end. -/
theorem exists_move (hin : phaseOf (s.pc t) ≠ .out) (hgo : ¬ Stuck s t) : ∃ a s' c,
    useOf a = .advance t ∧ step s a = some s' ∧ s'.pc = Function.update s.pc t c ∧
      fuel c < fuel (s.pc t) := by
  refine ⟨.advance t, ?_⟩
  simp only [step]
  cases hpc : s.pc t with
  | idle => simp [hpc, phaseOf] at hin
  | drawTicket => exact ⟨_, .spin, rfl, rfl, rfl, by decide⟩
  | spin =>
    have hshown : s.nowServing = s.myTicket t := by
      by_contra hne
      exact hgo ⟨hpc, hne⟩
    simp only [proceed, hshown, ne_eq, not_true, if_false]
    exact ⟨_, .idle, rfl, rfl, rfl, by decide⟩
  | serveNext => exact ⟨_, .idle, rfl, rfl, rfl, by decide⟩

/-- The first waiter does not wait when nobody holds the lock. -/
theorem exists_not_stuck (h : Inv s) (hfree : ∀ u, s.holding u ≠ true)
    (hin : phaseOf (s.pc t) ≠ .out) : ∃ u, phaseOf (s.pc u) ≠ .out ∧ ¬ Stuck s u := by
  by_cases hstuck : Stuck s t
  · obtain ⟨k, hk⟩ := (h.out t).mp (Or.inl hstuck.1)
    have hlo := hk.2
    have hlt := hk.lt
    -- the thread with the oldest ticket: its number is shown
    obtain ⟨f, hf⟩ := Fifo.at_of_lt (q := s.queue) (Nat.le_refl _) (by omega)
    refine ⟨f, ?_, fun hs => hs.2 (by rw [h.ticket _ f hf, h.serving])⟩
    rcases (h.out f).mpr ⟨_, hf⟩ with hpc | hheld | hpc
    · simp [hpc, phaseOf]
    · exact absurd hheld (hfree f)
    · simp [hpc, phaseOf]
  · exact ⟨t, hin, hstuck⟩

/-- A thread outside the calls is where a call can start. -/
theorem idle_of_out (h : phaseOf (s.pc t) = .out) : s.pc t = .idle := by
  cases hpc : s.pc t with
  | idle => rfl
  | drawTicket | spin | serveNext => simp [hpc, phaseOf] at h

/-- `TicketLock` works for up to `2^32` threads. -/
def works (hcard : Nat.card T ≤ 2 ^ 32) (n : Nat) : (mutex T).Works n :=
  Mutex.worksOfPc ((mutex T).unlimited (Reachable step init))
    ((mutex_correct hcard).mono fun _ _ => trivial)
    (fun s t _ _ hout hfree => ⟨.acquire t, _, rfl,
      if_pos ⟨idle_of_out hout, by simpa using hfree ()⟩⟩)
    (fun s t _ _ hout hin => ⟨.release t, _, rfl, if_pos ⟨idle_of_out hout, hin⟩⟩)
    fuel Stuck (fun _ _ _ => exists_move)
    fun _ _ hI hfree => exists_not_stuck (reachable_inv hcard hI) fun u => hfree u ()

end Ticket

/-! ## `TASLock` -/

namespace Tas

variable {T : Type} [Fintype T] [DecidableEq T] {s : State T} {t : T}

/-- The accesses to the end of a call, but for its waits. -/
def fuel : Pc → Nat
  | .idle => 0
  | .spin | .clear => 1

/-- The thread's next access is a wait. -/
def Stuck (s : State T) (t : T) : Prop := s.pc t = .spin ∧ s.locked = true

/-- As for `TicketLock`: an access that is not a wait comes nearer to the end of the call. -/
theorem exists_move (hin : phaseOf (s.pc t) ≠ .out) (hgo : ¬ Stuck s t) : ∃ a s' c,
    useOf a = .advance t ∧ step s a = some s' ∧ s'.pc = Function.update s.pc t c ∧
      fuel c < fuel (s.pc t) := by
  refine ⟨.advance t, ?_⟩
  simp only [step]
  cases hpc : s.pc t with
  | idle => simp [hpc, phaseOf] at hin
  | spin =>
    have hfree : s.locked = false := by
      by_contra hset
      exact hgo ⟨hpc, by simpa using hset⟩
    simp only [proceed, hfree, Bool.false_eq_true, if_false]
    exact ⟨_, .idle, rfl, rfl, rfl, by decide⟩
  | clear => exact ⟨_, .idle, rfl, rfl, rfl, by decide⟩

/-- While the flag is set and nobody holds the lock, somebody is about to clear it. -/
theorem exists_not_stuck (h : Inv s) (hfree : ∀ u, s.holding u ≠ true)
    (hin : phaseOf (s.pc t) ≠ .out) : ∃ u, phaseOf (s.pc u) ≠ .out ∧ ¬ Stuck s u := by
  by_cases hstuck : Stuck s t
  · -- the flag is up for a holder, or for a thread that clears it
    obtain ⟨u, hheld | hpc⟩ := h.flagged.mp hstuck.2
    · exact absurd hheld (hfree u)
    · exact ⟨u, by simp [hpc, phaseOf], fun hs => by simp [Stuck, hpc] at hs⟩
  · exact ⟨t, hin, hstuck⟩

/-- A thread outside the calls is where a call can start. -/
theorem idle_of_out (h : phaseOf (s.pc t) = .out) : s.pc t = .idle := by
  cases hpc : s.pc t with
  | idle => rfl
  | spin | clear => simp [hpc, phaseOf] at h

/-- `TASLock` works for any number of threads and acquisitions. -/
def works (n : Nat) : (mutex T).Works n :=
  Mutex.worksOfPc ((mutex T).unlimited (Reachable step init))
    (mutex_correct.mono fun _ _ => trivial)
    (fun s t _ _ hout hfree => ⟨.acquire t, _, rfl,
      if_pos ⟨idle_of_out hout, by simpa using hfree ()⟩⟩)
    (fun s t _ _ hout hin => ⟨.release t, _, rfl, if_pos ⟨idle_of_out hout, hin⟩⟩)
    fuel Stuck (fun _ _ _ => exists_move)
    fun _ _ hI hfree => exists_not_stuck (reachable_inv hI) fun u => hfree u ()

end Tas

/-! ## `MCSLock` -/

namespace Mcs

variable {L T : Type} [DecidableEq L] [DecidableEq T] [Fintype T] {s : State L T} {t : T} {l : L}

/-- The accesses to the end of a call, but for its waits. `Acquire` and `Release` share no
program counter, so that one count serves both. -/
def fuel : Pc L T → Nat
  | .idle | .crashed => 0
  | .clearNext _ => 5
  | .setLocked _ => 4
  | .swapTail _ => 3
  | .link _ _ => 2
  | .spin _ => 1
  | .checkNext _ => 5
  | .casTail _ => 4
  | .awaitNext _ => 3
  | .loadNext _ => 2
  | .wake _ _ => 1

/-- The thread's next access is a wait. -/
def Stuck (s : State L T) (t : T) : Prop :=
  match s.pc t with
  | .spin _ => s.locked t = true
  | .awaitNext _ => s.next t = none
  | _ => False

/-- Each access of the two calls comes nearer to their end. Those through a link need the
invariant, by which the link is there. -/
theorem exists_move (h : Inv s) (hin : phaseOf (s.pc t) ≠ .out) (hgo : ¬ Stuck s t) : ∃ a s' c,
    useOf a = .advance t ∧ step oneAtATime s a = some s' ∧ s'.pc = Function.update s.pc t c ∧
      fuel c < fuel (s.pc t) := by
  refine ⟨.advance t, ?_⟩
  simp only [step]
  have hok := h.pcOk t
  cases hpc : s.pc t with
  | idle | crashed => simp [hpc, phaseOf] at hin
  | clearNext l => exact ⟨_, .setLocked l, rfl, rfl, rfl, by simp [fuel]⟩
  | setLocked l => exact ⟨_, .swapTail l, rfl, rfl, rfl, by simp [fuel]⟩
  | swapTail l =>
    simp only [proceed]
    split
    · exact ⟨_, .idle, rfl, rfl, rfl, by simp [fuel]⟩
    · exact ⟨_, .link l _, rfl, rfl, rfl, by simp [fuel]⟩
  | link l prev => exact ⟨_, .spin l, rfl, rfl, rfl, by simp [fuel]⟩
  | spin l =>
    have hlet : s.locked t = false := by simpa [Stuck, hpc] using hgo
    simp only [proceed, hlet, Bool.false_eq_true, if_false]
    exact ⟨_, .idle, rfl, rfl, rfl, by simp [fuel]⟩
  | checkNext l =>
    simp only [proceed]
    split
    · exact ⟨_, .casTail l, rfl, rfl, rfl, by simp [fuel]⟩
    · exact ⟨_, .loadNext l, rfl, rfl, rfl, by simp [fuel]⟩
  | casTail l =>
    simp only [proceed]
    split
    · exact ⟨_, .idle, rfl, rfl, rfl, by simp [fuel]⟩
    · exact ⟨_, .awaitNext l, rfl, rfl, rfl, by simp [fuel]⟩
  | awaitNext l =>
    have hnext : s.next t ≠ none := by simpa [Stuck, hpc] using hgo
    simp only [proceed, hnext, if_false]
    exact ⟨_, .loadNext l, rfl, rfl, rfl, by simp [fuel]⟩
  | loadNext l =>
    simp only [PcOk, hpc] at hok
    -- the call has seen the link
    obtain ⟨succ, hsucc⟩ := Option.ne_none_iff_exists'.mp hok.2.2.2
    simp only [proceed, hsucc]
    exact ⟨_, .wake l succ, rfl, rfl, rfl, by simp [fuel]⟩
  | wake l succ => exact ⟨_, .idle, rfl, rfl, rfl, by simp [fuel]⟩

/-- Whoever waits for a link, a thread that is about to store it comes next. -/
theorem exists_linking (h : Inv s) (hpc : s.pc t = .awaitNext l) (hnext : s.next t = none) :
    ∃ u k prev, s.pc u = .link k prev := by
  have hok := h.pcOk t
  simp only [PcOk, hpc] at hok
  obtain ⟨-, hat, -, hlt⟩ := hok
  have hlo := hat.2
  obtain ⟨u, hu⟩ := Fifo.at_of_lt (q := s.queue l) (k := s.ticket t + 1) (by omega) hlt
  have hlink : Linking s u := by
    by_contra hnot
    -- the link of a neighbour that is through with linking would be there
    have hsome := (h.linked l _ t u hat).mpr ⟨hu, hnot⟩
    rw [hnext] at hsome
    cases hsome
  exact ⟨u, hlink⟩

/-- The first of a queue has been let in, or is about to wake its successor. -/
theorem exists_not_stuck (h : Inv s) (hfree : ∀ u l, l ∉ s.held u)
    (hin : phaseOf (s.pc t) ≠ .out) : ∃ u, phaseOf (s.pc u) ≠ .out ∧ ¬ Stuck s u := by
  have linking : ∀ v k, s.pc v = .awaitNext k → s.next v = none →
      ∃ u, phaseOf (s.pc u) ≠ .out ∧ ¬ Stuck s u := by
    intro v k hpc hnext
    obtain ⟨u, j, prev, hu⟩ := exists_linking h hpc hnext
    exact ⟨u, by simp [hu, phaseOf], by simp [Stuck, hu]⟩
  by_cases hstuck : Stuck s t
  · cases hpc : s.pc t with
    | spin l =>
      have hok := h.pcOk t
      simp only [PcOk, hpc] at hok
      have hlo := hok.2.1.2
      have hlt := hok.2.1.lt
      -- the first of the queue: it holds the lock, passes it on, or is let in
      obtain ⟨f, hf⟩ := Fifo.at_of_lt (q := s.queue l) (Nat.le_refl _) (by omega)
      obtain ⟨hq, htick⟩ := h.place l _ f hf
      by_cases hsf : Stuck s f
      · -- the first of the queue has been woken, or waits for a link
        have hokf := h.pcOk f
        cases hpcf : s.pc f with
        | spin k =>
          simp only [queuedOn, hpcf, Option.some.injEq] at hq
          subst hq
          simp only [PcOk, hpcf] at hokf
          simp only [Stuck, hpcf] at hsf
          rw [hokf.2.2.mpr htick] at hsf
          cases hsf
        | awaitNext k => exact linking f k hpcf (by simpa [Stuck, hpcf] using hsf)
        | idle | crashed | clearNext | setLocked | swapTail | link | checkNext | casTail
          | loadNext | wake => simp [Stuck, hpcf] at hsf
      · refine ⟨f, fun hout => ?_, hsf⟩
        cases hpcf : s.pc f with
        | idle =>
          simp only [queuedOn, hpcf] at hq
          exact hfree f l (List.mem_of_mem_head? hq)
        | crashed => simp [queuedOn, hpcf] at hq
        | clearNext | setLocked | swapTail | link | spin | checkNext | casTail | awaitNext
          | loadNext | wake => simp [hpcf, phaseOf] at hout
    | awaitNext l => exact linking t l hpc (by simpa [Stuck, hpc] using hstuck)
    | idle | crashed | clearNext | setLocked | swapTail | link | checkNext | casTail | loadNext
      | wake => simp [Stuck, hpc] at hstuck
  · exact ⟨t, hin, hstuck⟩

/-- A thread outside the calls can start one: by the invariant it has not crashed. -/
theorem idle_of_out (h : Inv s) (hout : phaseOf (s.pc t) = .out) : s.pc t = .idle := by
  have hok := h.pcOk t
  cases hpc : s.pc t with
  | idle => rfl
  | crashed => simp [PcOk, hpc] at hok
  | clearNext | setLocked | swapTail | link | spin | checkNext | casTail | awaitNext | loadNext
    | wake => simp [hpc, phaseOf] at hout

/-- `MCSLock` works for any number of locks, threads and acquisitions. -/
def works (n : Nat) : (mutex L T).Works n :=
  Mutex.worksOfPc ((mutex L T).unlimited (Reachable (step oneAtATime) init))
    (mutex_correct.mono fun _ _ => trivial)
    (fun _ t l hI hout hfree => ⟨.acquire t l, _, rfl,
      if_pos ⟨idle_of_out (reachable_inv hI) hout,
        oneAtATime_iff.mpr (List.eq_nil_iff_forall_not_mem.mpr hfree)⟩⟩)
    (fun _ t l hI hout hin => ⟨.release t l, _, rfl,
      if_pos ⟨idle_of_out (reachable_inv hI) hout, hin⟩⟩)
    fuel Stuck (fun _ _ hI => exists_move (reachable_inv hI))
    fun _ _ hI => exists_not_stuck (reachable_inv hI)

end Mcs

/-! ## `CLHLock` -/

namespace Clh

variable {L T : Type} [DecidableEq L] [DecidableEq T] [Fintype T] {s : State L T} {t : T} {l : L}

/-- The accesses to the end of a call, but for its waits. -/
def fuel : Pc L → Nat
  | .idle | .crashed => 0
  | .setLocked _ => 3
  | .swapTail _ => 2
  | .spin _ => 1
  | .clearLocked _ => 2
  | .swapNodes _ => 1

/-- The thread's next access is a wait. -/
def Stuck (s : State L T) (t : T) : Prop :=
  match s.pc t, s.myPred t with
  | .spin _, some pred => s.locked pred = true
  | _, _ => False

/-- A thread spins on the node of its predecessor. If it has none, the access crashes, which
ends the call as well; that this does not happen is the invariant's to say. -/
theorem exists_move (hin : phaseOf (s.pc t) ≠ .out) (hgo : ¬ Stuck s t) : ∃ a s' c,
    useOf a = .advance t ∧ step oneAtATime s a = some s' ∧ s'.pc = Function.update s.pc t c ∧
      fuel c < fuel (s.pc t) := by
  refine ⟨.advance t, ?_⟩
  simp only [step]
  cases hpc : s.pc t with
  | idle | crashed => simp [hpc, phaseOf] at hin
  | setLocked l => exact ⟨_, .swapTail l, rfl, rfl, rfl, by simp [fuel]⟩
  | swapTail l => exact ⟨_, .spin l, rfl, rfl, rfl, by simp [fuel]⟩
  | spin l =>
    cases hpred : s.myPred t with
    | none =>
      simp only [proceed, hpred]
      exact ⟨_, .crashed, rfl, rfl, rfl, by simp [fuel]⟩
    | some pred =>
      have hlet : s.locked pred = false := by simpa [Stuck, hpc, hpred] using hgo
      simp only [proceed, hpred, hlet, Bool.false_eq_true, if_false]
      exact ⟨_, .idle, rfl, rfl, rfl, by simp [fuel]⟩
  | clearLocked l => exact ⟨_, .swapNodes l, rfl, rfl, rfl, by simp [fuel]⟩
  | swapNodes l =>
    simp only [proceed]
    split
    · exact ⟨_, .crashed, rfl, rfl, rfl, by simp [fuel]⟩
    · exact ⟨_, .idle, rfl, rfl, rfl, by simp [fuel]⟩

/-- Nobody is in front of the first waiter. -/
theorem exists_not_stuck (h : Inv s) (hfree : ∀ u l, l ∉ s.held u)
    (hin : phaseOf (s.pc t) ≠ .out) : ∃ u, phaseOf (s.pc u) ≠ .out ∧ ¬ Stuck s u := by
  by_cases hstuck : Stuck s t
  · cases hpc : s.pc t with
    | spin l =>
      have hok := h.pcOk t
      simp only [PcOk, hpc] at hok
      have hlo := hok.2.2
      have hlt := hok.2.lt
      obtain ⟨f, hf⟩ := Fifo.at_of_lt (q := s.queue l) (Nat.le_refl _) (by omega)
      obtain ⟨hq, -⟩ := h.place l _ f hf
      -- the first of the queue spins on a node whose flag is down
      obtain ⟨pred, hpred, hlet⟩ := h.front l f hf
      refine ⟨f, fun hout => ?_, fun hsf => ?_⟩
      · cases hpcf : s.pc f with
        | idle =>
          simp only [queuedOn, hpcf] at hq
          exact hfree f l (List.mem_of_mem_head? hq)
        | crashed => simp [queuedOn, hpcf] at hq
        | setLocked | swapTail | spin | clearLocked | swapNodes => simp [hpcf, phaseOf] at hout
      · cases hpcf : s.pc f with
        | spin k => simp [Stuck, hpcf, hpred, hlet] at hsf
        | idle | crashed | setLocked | swapTail | clearLocked | swapNodes =>
          simp [Stuck, hpcf] at hsf
    | idle | crashed | setLocked | swapTail | clearLocked | swapNodes => simp [Stuck, hpc] at hstuck
  · exact ⟨t, hin, hstuck⟩

/-- A thread outside the calls can start one: by the invariant it has not crashed. -/
theorem idle_of_out (h : Inv s) (hout : phaseOf (s.pc t) = .out) : s.pc t = .idle := by
  have hok := h.pcOk t
  cases hpc : s.pc t with
  | idle => rfl
  | crashed => simp [PcOk, hpc] at hok
  | setLocked | swapTail | spin | clearLocked | swapNodes => simp [hpc, phaseOf] at hout

/-- `CLHLock` works for any number of locks, threads and acquisitions. -/
def works (n : Nat) : (mutex L T).Works n :=
  Mutex.worksOfPc ((mutex L T).unlimited (Reachable (step oneAtATime) init))
    (mutex_correct.mono fun _ _ => trivial)
    (fun _ t l hI hout hfree => ⟨.acquire t l, _, rfl,
      if_pos ⟨idle_of_out (reachable_inv hI) hout,
        oneAtATime_iff.mpr (List.eq_nil_iff_forall_not_mem.mpr hfree)⟩⟩)
    (fun _ t l hI hout hin => ⟨.release t l, _, rfl,
      if_pos ⟨idle_of_out (reachable_inv hI) hout, hin⟩⟩)
    fuel Stuck (fun _ _ _ => exists_move) fun _ _ hI => exists_not_stuck (reachable_inv hI)

end Clh

/-! ## `ABQLLock` -/

namespace Abql

variable {L T : Type} [DecidableEq L] [DecidableEq T] [Fintype T] {s s' : State L T} {t : T} {l : L}

/-- The accesses to the end of a call, but for its waits. -/
def fuel : Pc L → Nat
  | .idle | .outOfBounds => 0
  | .fetchAdd _ => 2
  | .spin _ _ => 1
  | .clearFlag _ => 2
  | .wakeNext _ => 1

/-- The thread's next access is a wait. -/
def Stuck (s : State L T) (t : T) : Prop :=
  match s.pc t with
  | .spin l mySlot => s.flags l mySlot = false
  | _ => False

/-- An access goes where it should or out of bounds. -/
theorem access_pc (i : Int) (s' : State L T) {c : Pc L}
    (hpc : s'.pc = Function.update s.pc t c) :
    ∃ c', (s.access t i s').pc = Function.update s.pc t c' ∧ fuel c' ≤ fuel c := by
  unfold State.access
  split
  · exact ⟨c, hpc, Nat.le_refl _⟩
  · exact ⟨.outOfBounds, rfl, Nat.zero_le _⟩

/-- As for `CLHLock`, with an access out of bounds for a crash. -/
theorem exists_move (hin : phaseOf (s.pc t) ≠ .out) (hgo : ¬ Stuck s t) : ∃ a s' c,
    useOf a = .advance t ∧ step oneAtATime s a = some s' ∧ s'.pc = Function.update s.pc t c ∧
      fuel c < fuel (s.pc t) := by
  refine ⟨.advance t, ?_⟩
  simp only [step]
  cases hpc : s.pc t with
  | idle | outOfBounds => simp [hpc, phaseOf] at hin
  | fetchAdd l => exact ⟨_, .spin l _, rfl, rfl, rfl, by simp [fuel]⟩
  | spin l mySlot =>
    have hlet : s.flags l mySlot = true := by simpa [Stuck, hpc] using hgo
    obtain ⟨c, hc, hle⟩ := access_pc (s := s) mySlot (s.enter t l) (c := .idle) rfl
    simp only [proceed, hlet, if_true]
    exact ⟨_, c, rfl, rfl, hc, Nat.lt_of_le_of_lt hle (by simp [fuel])⟩
  | clearFlag l =>
    obtain ⟨c, hc, hle⟩ := access_pc (s := s) (s.slot t)
      ((s.setFlag l (s.slot t) false).goto t (.wakeNext l)) (c := .wakeNext l) rfl
    exact ⟨_, c, rfl, rfl, hc, Nat.lt_of_le_of_lt hle (by simp [fuel])⟩
  | wakeNext l =>
    obtain ⟨c, hc, hle⟩ := access_pc (s := s) ((s.slot t + 1).tmod maxThreads)
      ({ s.setFlag l ((s.slot t + 1).tmod maxThreads) true with
        queue := Function.update s.queue l (s.queue l).depart }.goto t .idle) (c := .idle) rfl
    exact ⟨_, c, rfl, rfl, hc, Nat.lt_of_le_of_lt hle (by simp [fuel])⟩

/-- The first waiter's flag is up, or somebody is about to raise it. -/
theorem exists_not_stuck (h : Inv s) (hfree : ∀ u l, l ∉ s.held u)
    (hin : phaseOf (s.pc t) ≠ .out) : ∃ u, phaseOf (s.pc u) ≠ .out ∧ ¬ Stuck s u := by
  by_cases hstuck : Stuck s t
  · cases hpc : s.pc t with
    | spin l mySlot =>
      have hat := h.at_ticket (t := t) (l := l) (Or.inl ⟨mySlot, hpc⟩)
      have hlo := hat.2
      have hlt := hat.lt
      -- between two flags, the thread that is to raise the next one can move
      by_cases hwake : ∃ u, s.pc u = .wakeNext l
      · obtain ⟨u, hu⟩ := hwake
        exact ⟨u, by simp [hu, phaseOf], by simp [Stuck, hu]⟩
      · obtain ⟨f, hf⟩ := Fifo.at_of_lt (q := s.queue l) (Nat.le_refl _) (by omega)
        -- the first of the queue spins, holds the lock or releases it
        rcases (h.out l f).mpr ⟨_, hf⟩ with ⟨slot, hpcf⟩ | hheld | hpcf | hpcf
        · refine ⟨f, by simp [hpcf, phaseOf], fun hsf => ?_⟩
          have hok := h.pcOk f
          simp only [PcOk, hpcf] at hok
          -- the flag of the oldest ticket is the one that is up
          have hslot : slot = slotAt (s.queue l).departed := by
            rw [hok.2, h.ticket l _ f hf]
          have hup := (h.flags l slot).mpr ⟨hslot, fun u hu => hwake ⟨u, hu⟩⟩
          simp [Stuck, hpcf, hup] at hsf
        · exact absurd hheld (hfree f l)
        · exact ⟨f, by simp [hpcf, phaseOf], by simp [Stuck, hpcf]⟩
        · exact absurd ⟨f, hpcf⟩ hwake
    | idle | outOfBounds | fetchAdd | clearFlag | wakeNext => simp [Stuck, hpc] at hstuck
  · exact ⟨t, hin, hstuck⟩

/-- A thread outside the calls can start one: by the invariant its accesses were in bounds. -/
theorem idle_of_out (h : Inv s) (hout : phaseOf (s.pc t) = .out) : s.pc t = .idle := by
  have hok := h.pcOk t
  cases hpc : s.pc t with
  | idle => rfl
  | outOfBounds => simp [PcOk, hpc] at hok
  | fetchAdd | spin | clearFlag | wakeNext => simp [hpc, phaseOf] at hout

/-- The thread is about to draw a ticket. -/
def drawing : Pc L → Nat
  | .fetchAdd _ => 1
  | .idle | .spin _ _ | .clearFlag _ | .wakeNext _ | .outOfBounds => 0

variable [Fintype L]

/-- The tickets of all locks, drawn or about to be. -/
def drawnOf (s : State L T) : Nat :=
  ∑ l, (s.queue l).arrivals.length + ∑ t, drawing (s.pc t)

/-- A step that draws no ticket. -/
theorem drawnOf_eq (s' : State L T) {c : Pc L}
    (harr : ∀ l, (s'.queue l).arrivals = (s.queue l).arrivals)
    (hpc : s'.pc = Function.update s.pc t c) :
    drawnOf s' + drawing (s.pc t) = drawnOf s + drawing c := by
  have hsum := sum_update (t := t) (d := drawing) (f := s.pc) (c := c)
  rw [← hpc] at hsum
  simp only [drawnOf, harr]
  omega

/-- Neither does an access out of bounds. -/
theorem drawnOf_access {i : Int} {c : Pc L}
    (harr : ∀ l, (s'.queue l).arrivals = (s.queue l).arrivals)
    (hpc : s'.pc = Function.update s.pc t c) (hc : drawing c = 0) :
    drawnOf (s.access t i s') ≤ drawnOf s := by
  unfold State.access
  split
  · have heq := drawnOf_eq s' harr hpc
    omega
  · have heq := drawnOf_eq (s := s) (s.goto t .outOfBounds) (fun _ => rfl) rfl
    simp only [drawing] at heq
    omega

/-- At first no ticket is drawn. -/
theorem drawnOf_init : drawnOf (init : State L T) = 0 := by
  simp [drawnOf, init, Fifo.empty, drawing]

/-- A call of `Acquire` is about to draw one ticket. -/
theorem drawnOf_acquire (hs : step oneAtATime s (.acquire t l) = some s') :
    drawnOf s' ≤ drawnOf s + 1 := by
  obtain ⟨-, hs⟩ := Option.ite_none_right_eq_some.mp hs
  obtain rfl := Option.some.inj hs
  have heq := drawnOf_eq (s := s) (s.goto t (.fetchAdd l)) (fun _ => rfl) rfl
  simp only [drawing] at heq
  omega

/-- A call of `Release` draws none. -/
theorem drawnOf_release (hs : step oneAtATime s (.release t l) = some s') :
    drawnOf s' ≤ drawnOf s := by
  obtain ⟨⟨hidle, -⟩, hs⟩ := Option.ite_none_right_eq_some.mp hs
  obtain rfl := Option.some.inj hs
  have heq := drawnOf_eq (s := s) ({ s with
    held := Function.update s.held t ((s.held t).erase l) }.goto t (.clearFlag l))
    (fun _ => rfl) rfl
  simp only [drawing, hidle] at heq
  omega

/-- The ticket that is drawn was about to be. -/
theorem drawnOf_advance (hs : step oneAtATime s (.advance t) = some s') :
    drawnOf s' ≤ drawnOf s := by
  have hs : proceed s t (s.pc t) = some s' := hs
  cases hpc : s.pc t with
  | idle | outOfBounds => simp [hpc, proceed] at hs
  | fetchAdd l =>
    simp only [hpc, proceed] at hs
    have hpc' : s'.pc = Function.update s.pc t (.spin l ((s.tail l).tmod maxThreads)) := by
      rw [← Option.some.inj hs]
      rfl
    have hqueue : s'.queue = Function.update s.queue l ((s.queue l).arrive t) := by
      rw [← Option.some.inj hs]
      rfl
    -- the ticket goes from the program counter to the queue
    have hpcs := sum_update (t := t) (d := drawing) (f := s.pc)
      (c := .spin l ((s.tail l).tmod maxThreads))
    have hqueues := sum_update (t := l) (d := fun q : Fifo T => q.arrivals.length)
      (f := s.queue) (c := (s.queue l).arrive t)
    rw [← hpc', hpc] at hpcs
    rw [← hqueue] at hqueues
    change _ + 1 = _ + 0 at hpcs
    simp only [Fifo.arrive, List.length_append, List.length_singleton] at hqueues
    simp only [drawnOf]
    omega
  | spin l mySlot =>
    simp only [hpc, proceed] at hs
    obtain rfl := Option.some.inj hs
    split
    · exact drawnOf_access (fun _ => by simp [State.enter, Fifo.arrivals_update_enter]) rfl rfl
    · exact drawnOf_access (fun _ => rfl) (Function.update_eq_self t s.pc).symm (by rw [hpc]; rfl)
  | clearFlag l =>
    simp only [hpc, proceed] at hs
    obtain rfl := Option.some.inj hs
    exact drawnOf_access (c := .wakeNext l) (fun _ => rfl) rfl rfl
  | wakeNext l =>
    simp only [hpc, proceed] at hs
    obtain rfl := Option.some.inj hs
    exact drawnOf_access (c := .idle)
      (fun _ => by simp [State.goto, Fifo.arrivals_update_depart]) rfl rfl

/-- `tail` counts the tickets, in an `int`. -/
def limited (I : State L T → Prop) : (mutex L T).Limited I where
  cost := drawnOf
  start := drawnOf_init
  acquire s a s' t l _ hs huse := by
    cases a with
    | acquire u m => exact drawnOf_acquire hs
    | release | advance => cases huse
  other s a s' _ hs hother := by
    cases a with
    | acquire u m => exact absurd rfl (hother u m)
    | release u m => exact drawnOf_release hs
    | advance u => exact drawnOf_advance hs

/-- Within the bound on all locks together, each `tail` is within its own. -/
theorem few_of_below {I : State L T → Prop} {n : Nat} (hn : n ≤ 2 ^ 31)
    (h : (limited I).Below n s) : Few s := by
  intro l
  have hcost : drawnOf s < n := h
  have hone := Finset.single_le_sum (f := fun m => (s.queue m).arrivals.length)
    (fun _ _ => Nat.zero_le _) (Finset.mem_univ l)
  simp only [drawnOf] at hcost
  omega

/-- `ABQLLock` works for up to 256 threads and up to `2^31` acquisitions. -/
def works (hcard : Nat.card T ≤ 256) {n : Nat} (hn : n ≤ 2 ^ 31) : (mutex L T).Works n :=
  Mutex.worksOfPc (limited (ReachableWithin (step oneAtATime) Few init))
    ((mutex_correct hcard).mono fun _ => few_of_below hn)
    (fun _ t l hI hout hfree => ⟨.acquire t l, _, rfl,
      if_pos ⟨idle_of_out (inv_of_within hcard hI) hout,
        oneAtATime_iff.mpr (List.eq_nil_iff_forall_not_mem.mpr hfree)⟩⟩)
    (fun _ t l hI hout hin => ⟨.release t l, _, rfl,
      if_pos ⟨idle_of_out (inv_of_within hcard hI) hout, hin⟩⟩)
    fuel Stuck (fun _ _ _ => exists_move)
    fun _ _ hI => exists_not_stuck (inv_of_within hcard hI)

end Abql

/-! ## `HemLock` -/

namespace Hem

variable {L T : Type} [DecidableEq L] [DecidableEq T] [Fintype T] {s : State L T} {t p : T} {l : L}

/-- The accesses to the end of a call, but for its waits. -/
def fuel : Pc L T → Nat
  | .idle | .aborted => 0
  | .checkGrant _ => 5
  | .swapTail _ => 4
  | .spin _ _ => 3
  | .clearGrant _ _ => 2
  | .checkTail _ => 1
  | .checkEmpty _ => 4
  | .casTail _ => 3
  | .storeGrant _ => 2
  | .awaitClear _ => 1

/-- The thread's next access is a wait. -/
def Stuck (s : State L T) (t : T) : Prop :=
  match s.pc t with
  | .spin l pred => s.Grant pred ≠ some l
  | .awaitClear _ => s.Grant t ≠ none
  | _ => False

/-- Each access of the two calls comes nearer to their end. A failed assertion ends them too. -/
theorem exists_move (hin : phaseOf (s.pc t) ≠ .out) (hgo : ¬ Stuck s t) : ∃ a s' c,
    useOf a = .advance t ∧ step s a = some s' ∧ s'.pc = Function.update s.pc t c ∧
      fuel c < fuel (s.pc t) := by
  refine ⟨.advance t, ?_⟩
  simp only [step]
  cases hpc : s.pc t with
  | idle | aborted => simp [hpc, phaseOf] at hin
  | checkGrant l =>
    simp only [proceed]
    split
    · exact ⟨_, .swapTail l, rfl, rfl, rfl, by simp [fuel]⟩
    · -- the assertion that the own word is empty fails
      exact ⟨_, .aborted, rfl, rfl, rfl, by simp [fuel]⟩
  | swapTail l =>
    simp only [proceed]
    split
    · exact ⟨_, .checkTail l, rfl, rfl, rfl, by simp [fuel]⟩
    · exact ⟨_, .spin l _, rfl, rfl, rfl, by simp [fuel]⟩
  -- the waits: `Stuck` is the condition of the loop
  | spin l pred =>
    have hgrant : s.Grant pred = some l := by simpa [Stuck, hpc] using hgo
    simp only [proceed, hgrant, if_true]
    exact ⟨_, .clearGrant l pred, rfl, rfl, rfl, by simp [fuel]⟩
  | clearGrant l pred => exact ⟨_, .checkTail l, rfl, rfl, rfl, by simp [fuel]⟩
  | checkTail l =>
    simp only [proceed]
    split
    · -- the assertion that the queue has a tail fails
      exact ⟨_, .aborted, rfl, rfl, rfl, by simp [fuel]⟩
    · exact ⟨_, .idle, rfl, rfl, rfl, by simp [fuel]⟩
  | checkEmpty l =>
    simp only [proceed]
    split
    · exact ⟨_, .casTail l, rfl, rfl, rfl, by simp [fuel]⟩
    · exact ⟨_, .aborted, rfl, rfl, rfl, by simp [fuel]⟩
  | casTail l =>
    simp only [proceed]
    split
    · exact ⟨_, .idle, rfl, rfl, rfl, by simp [fuel]⟩
    · split
      · exact ⟨_, .aborted, rfl, rfl, rfl, by simp [fuel]⟩
      · exact ⟨_, .storeGrant l, rfl, rfl, rfl, by simp [fuel]⟩
  | storeGrant l => exact ⟨_, .awaitClear l, rfl, rfl, rfl, by simp [fuel]⟩
  | awaitClear l =>
    have hclear : s.Grant t = none := by simpa [Stuck, hpc] using hgo
    simp only [proceed, hclear, if_true]
    exact ⟨_, .idle, rfl, rfl, rfl, by simp [fuel]⟩

/-- A thread whose predecessor has passed the lock on does not wait. -/
theorem not_stuck_of_pred (hpred : (s.pc t).pred = some (l, p)) (hgrant : s.Grant p = some l) :
    phaseOf (s.pc t) ≠ .out ∧ ¬ Stuck s t := by
  cases hpc : s.pc t with
  | spin k q =>
    simp only [hpc, Pc.pred, Option.some.injEq, Prod.mk.injEq] at hpred
    obtain ⟨rfl, rfl⟩ := hpred
    exact ⟨by simp [phaseOf], by simp [Stuck, hpc, hgrant]⟩
  | clearGrant => exact ⟨by simp [phaseOf], by simp [Stuck, hpc]⟩
  | idle | checkGrant | swapTail | checkTail | checkEmpty | casTail | storeGrant | awaitClear
    | aborted => simp [hpc, Pc.pred] at hpred

/-- A thread that has its turn is past every wait of `Acquire`. -/
theorem not_stuck_of_turn (hturn : (s.pc t).turn = some l) :
    phaseOf (s.pc t) ≠ .out ∧ ¬ Stuck s t := by
  cases hpc : s.pc t with
  | clearGrant | checkTail | checkEmpty | casTail | storeGrant =>
    exact ⟨by simp [phaseOf], by simp [Stuck, hpc]⟩
  | idle | checkGrant | swapTail | spin | awaitClear | aborted => simp [hpc, Pc.turn] at hturn

/-- The first of a queue finds the lock in its predecessor's word. A word that is not
empty is polled by the thread that clears it. -/
theorem exists_not_stuck (h : Inv s) (hfree : ∀ u l, l ∉ s.held u)
    (hin : phaseOf (s.pc t) ≠ .out) : ∃ u, phaseOf (s.pc u) ≠ .out ∧ ¬ Stuck s u := by
  by_cases hstuck : Stuck s t
  · cases hpc : s.pc t with
    | spin l pred =>
      have hat := h.queued t l (Or.inr (by rw [hpc]; rfl))
      have hlo := hat.2
      have hlt := hat.lt
      obtain ⟨f, hf⟩ := Fifo.at_of_lt (q := s.queue l) (Nat.le_refl _) (by omega)
      obtain ⟨hq, htick⟩ := h.place l _ f hf
      -- the first of the queue has no predecessor, or one that has passed the lock on
      have hpcf : (s.pc f).queued = some l := hq.resolve_left (hfree f l)
      refine ⟨f, ?_⟩
      rcases Pc.pred_cases hpcf with ⟨p, hp⟩ | hturn
      · exact not_stuck_of_pred hp (h.handed f l p hp htick)
      · exact not_stuck_of_turn hturn
    | awaitClear l =>
      have hgrant : s.Grant t ≠ none := by simpa [Stuck, hpc] using hstuck
      -- whose word it is waits for the thread that is granted the lock
      obtain ⟨m, hm⟩ := Option.ne_none_iff_exists'.mp hgrant
      obtain ⟨-, -, u, hu, -⟩ := h.granted t m hm
      exact ⟨u, not_stuck_of_pred hu hm⟩
    | idle | aborted | checkGrant | swapTail | clearGrant | checkTail | checkEmpty | casTail
      | storeGrant => simp [Stuck, hpc] at hstuck
  · exact ⟨t, hin, hstuck⟩

/-- A thread outside the calls can start one: by the invariant no assertion has failed. -/
theorem idle_of_out (h : Inv s) (hout : phaseOf (s.pc t) = .out) : s.pc t = .idle := by
  have hok := h.alive t
  cases hpc : s.pc t with
  | idle => rfl
  | aborted => exact absurd hpc hok
  | checkGrant | swapTail | spin | clearGrant | checkTail | checkEmpty | casTail | storeGrant
    | awaitClear => simp [hpc, phaseOf] at hout

/-- `HemLock` works for any number of locks, threads and acquisitions. -/
def works (n : Nat) : (mutex L T).Works n :=
  Mutex.worksOfPc ((mutex L T).unlimited (Reachable step init))
    (mutex_correct.mono fun _ _ => trivial)
    (fun _ t l hI hout hfree => ⟨.acquire t l, _, rfl,
      if_pos ⟨idle_of_out (reachable_inv hI) hout, notHeld_iff.mpr (hfree l)⟩⟩)
    (fun _ t l hI hout hin => ⟨.release t l, _, rfl,
      if_pos ⟨idle_of_out (reachable_inv hI) hout, hin⟩⟩)
    fuel Stuck (fun _ _ _ => exists_move) fun _ _ hI => exists_not_stuck (reachable_inv hI)

end Hem

/-! ## `K42Lock` -/

namespace K42

variable {N T : Type} [DecidableEq N] [DecidableEq T] [Fintype T] {s s' : State N T} {t u : T}
  {p : Ptr N} {n : N}

/-- The accesses to the end of a call, but for its waits. `Acquire` has the longest way: behind
others to the node, then out of the node again. -/
def fuel : Pc N → Nat
  | .idle | .crashed => 0
  | .clearNext _ => 11
  | .swapTail _ => 10
  | .setLocked _ _ => 9
  | .link _ _ => 8
  | .spin _ => 7
  | .loadNext _ => 6
  | .clearHead _ => 5
  | .casTail _ => 4
  | .awaitNext _ => 3
  | .storeHead _ _ => 2
  | .free _ => 1
  | .loadHead => 4
  | .casHead => 3
  | .awaitHead => 2
  | .wake _ => 1

/-- The thread's next access is a wait. -/
def Stuck (s : State N T) (t : T) : Prop :=
  match s.pc t with
  | .spin n => s.locked n = true
  | .awaitNext n => s.next n = none
  | .awaitHead => s.headNext = none
  | _ => False

/-- An access goes where it should or crashes. -/
theorem access_pc (p : Ptr N) {c : Pc N} (hpc : s'.pc = Function.update s.pc t c) :
    ∃ c', (s.access t p s').pc = Function.update s.pc t c' ∧ fuel c' ≤ fuel c := by
  cases p with
  | head => exact ⟨c, hpc, Nat.le_refl _⟩
  | node n =>
    simp only [State.access]
    split
    · exact ⟨c, hpc, Nat.le_refl _⟩
    · exact ⟨.crashed, rfl, Nat.zero_le _⟩

/-- `access_pc`, in the form in which each access of `proceed` uses it. -/
theorem exists_access (s : State N T) (t : T) (p : Ptr N) (s' : State N T) {c : Pc N}
    (hpc : s'.pc = Function.update s.pc t c) {k : Nat} (hlt : fuel c < k) :
    ∃ c', (s.access t p s').pc = Function.update s.pc t c' ∧ fuel c' < k := by
  obtain ⟨c', hc', hle⟩ := access_pc p hpc
  exact ⟨c', hc', Nat.lt_of_le_of_lt hle hlt⟩

/-- Each access of the two calls comes nearer to their end, also one that would crash. -/
theorem exists_move (hin : phaseOf (s.pc t) ≠ .out) (hgo : ¬ Stuck s t) : ∃ a s' c,
    useOf a = .advance t ∧ step s a = some s' ∧ s'.pc = Function.update s.pc t c ∧
      fuel c < fuel (s.pc t) := by
  refine ⟨.advance t, ?_⟩
  simp only [step]
  cases hpc : s.pc t with
  | idle | crashed => simp [hpc, phaseOf] at hin
  | clearNext n =>
    obtain ⟨c, hc, hlt⟩ := exists_access s t (.node n)
      ((s.setNext (.node n) none).goto t (.swapTail n)) rfl (Nat.lt_succ_self 10)
    exact ⟨_, c, rfl, rfl, hc, hlt⟩
  | swapTail n =>
    simp only [proceed]
    split
    · -- there was no tail: nobody to wait for
      exact ⟨_, .loadNext n, rfl, rfl, rfl, by simp [fuel]⟩
    · exact ⟨_, .setLocked n _, rfl, rfl, rfl, by simp [fuel]⟩
  | setLocked n q =>
    obtain ⟨c, hc, hlt⟩ := exists_access s t (.node n)
      ({ s with locked := Function.update s.locked n true }.goto t (.link n q)) rfl
      (Nat.lt_succ_self 8)
    exact ⟨_, c, rfl, rfl, hc, hlt⟩
  | link n q =>
    obtain ⟨c, hc, hlt⟩ := exists_access s t q ((s.setNext q (some n)).goto t (.spin n))
      (by cases q <;> rfl) (Nat.lt_succ_self 7)
    exact ⟨_, c, rfl, rfl, hc, hlt⟩
  | spin n =>
    -- the flag is down, for otherwise this would be a wait
    have hlet : s.locked n = false := by simpa [Stuck, hpc] using hgo
    obtain ⟨c, hc, hlt⟩ := exists_access s t (.node n) (s.goto t (.loadNext n)) rfl
      (Nat.lt_succ_self 6)
    simp only [proceed, hlet, Bool.false_eq_true, if_false]
    exact ⟨_, c, rfl, rfl, hc, hlt⟩
  | loadNext n =>
    simp only [proceed]
    split
    · obtain ⟨c, hc, hlt⟩ := exists_access s t (.node n) (s.goto t (.clearHead n)) rfl
        (Nat.lt_succ_self 5)
      exact ⟨_, c, rfl, rfl, hc, hlt⟩
    · rename_i m _
      obtain ⟨c, hc, hlt⟩ := exists_access s t (.node n) (s.goto t (.storeHead n m)) rfl (k := 6)
        (by simp [fuel])
      exact ⟨_, c, rfl, rfl, hc, hlt⟩
  | clearHead n => exact ⟨_, .casTail n, rfl, rfl, rfl, by simp [fuel]⟩
  | casTail n =>
    simp only [proceed]
    split
    · exact ⟨_, .free n, rfl, rfl, rfl, by simp [fuel]⟩
    · exact ⟨_, .awaitNext n, rfl, rfl, rfl, by simp [fuel]⟩
  | awaitNext n =>
    -- the link is there, for otherwise this would be a wait
    have hnext : s.next n ≠ none := by simpa [Stuck, hpc] using hgo
    obtain ⟨m, hm⟩ := Option.ne_none_iff_exists'.mp hnext
    obtain ⟨c, hc, hlt⟩ := exists_access s t (.node n) (s.goto t (.storeHead n m)) rfl
      (Nat.lt_succ_self 2)
    simp only [proceed, hm]
    exact ⟨_, c, rfl, rfl, hc, hlt⟩
  | storeHead n m => exact ⟨_, .free n, rfl, rfl, rfl, by simp [fuel]⟩
  | free n =>
    -- the access of `delete` is to the node as well
    obtain ⟨c, hc, hlt⟩ := exists_access s t (.node n) ({ s with
        live := Function.update s.live n false
        holding := Function.update s.holding t true
        queue := s.queue.enter t }.goto t .idle) rfl (Nat.lt_succ_self 0)
    exact ⟨_, c, rfl, rfl, hc, hlt⟩
  | loadHead =>
    simp only [proceed]
    split
    · exact ⟨_, .casHead, rfl, rfl, rfl, by simp [fuel]⟩
    · exact ⟨_, .wake _, rfl, rfl, rfl, by simp [fuel]⟩
  | casHead =>
    simp only [proceed]
    split
    · exact ⟨_, .idle, rfl, rfl, rfl, by simp [fuel]⟩
    · exact ⟨_, .awaitHead, rfl, rfl, rfl, by simp [fuel]⟩
  | awaitHead =>
    -- here the link behind the lock's own head
    have hnext : s.headNext ≠ none := by simpa [Stuck, hpc] using hgo
    obtain ⟨m, hm⟩ := Option.ne_none_iff_exists'.mp hnext
    simp only [proceed, hm]
    exact ⟨_, .wake m, rfl, rfl, rfl, by simp [fuel]⟩
  | wake m =>
    obtain ⟨c, hc, hlt⟩ := exists_access s t (.node m) ({ s with
        locked := Function.update s.locked m false
        queue := s.queue.depart }.goto t .idle) rfl (Nat.lt_succ_self 0)
    exact ⟨_, c, rfl, rfl, hc, hlt⟩

/-- A thread that has to link its node does not wait. -/
theorem not_stuck_of_linking (hl : (s.pc u).linking = some p) :
    phaseOf (s.pc u) ≠ .out ∧ ¬ Stuck s u := by
  cases hpc : s.pc u with
  | setLocked | link => exact ⟨by simp [phaseOf], by simp [Stuck, hpc]⟩
  | idle | clearNext | swapTail | spin | loadNext | clearHead | casTail | awaitNext | storeHead
    | free | loadHead | casHead | awaitHead | wake | crashed => simp [hpc, Pc.linking] at hl

/-- Whoever waits for a link, a thread that is about to store it comes next. -/
theorem exists_linking (h : Inv s) (hplace : placeOf s t = some p) (hnext : s.nextOf p = none)
    (hlt : s.ticket t + 1 < s.queue.arrivals.length) : ∃ u, (s.pc u).linking = some p := by
  have hat := h.queued t p hplace
  have hlo := hat.2
  obtain ⟨u, hu⟩ := Fifo.at_of_lt (q := s.queue) (k := s.ticket t + 1) (by omega) hlt
  obtain ⟨q, n, hq, -, hlinked⟩ := h.linkedFrom hat hu
  -- the one behind has linked itself to this place, or is about to
  obtain rfl : p = q := Option.some.inj (hplace.symm.trans hq)
  exact ⟨u, hlinked.resolve_left (by rw [hnext]; simp)⟩

/-- The first of the queue has its turn, or finds its flag down. A thread that waits for a link
has somebody behind it who is to store it. -/
theorem exists_not_stuck (h : Inv s) (hfree : ∀ u, s.holding u ≠ true)
    (hin : phaseOf (s.pc t) ≠ .out) : ∃ u, phaseOf (s.pc u) ≠ .out ∧ ¬ Stuck s u := by
  -- who waits for a link has somebody behind who is to store it
  have awaiting : ∀ v, (∃ n, s.pc v = .awaitNext n ∧ s.next n = none) ∨
      (s.pc v = .awaitHead ∧ s.headNext = none) →
      ∃ u, phaseOf (s.pc u) ≠ .out ∧ ¬ Stuck s u := by
    intro v hv
    have hok := h.pcOk v
    rcases hv with ⟨n, hpc, hnext⟩ | ⟨hpc, hnext⟩
    · simp only [PcOk, hpc] at hok
      obtain ⟨u, hu⟩ := exists_linking h (p := .node n) (h.placeOf_eq hpc (by simp)) hnext hok.2
      exact ⟨u, not_stuck_of_linking hu⟩
    · simp only [PcOk, hpc] at hok
      obtain ⟨u, hu⟩ := exists_linking h (p := .head) (h.placeOf_eq hpc (by simp)) hnext hok.2
      exact ⟨u, not_stuck_of_linking hu⟩
  by_cases hstuck : Stuck s t
  · cases hpc : s.pc t with
    | spin n =>
      have hat := h.at_of_spin hpc
      have hlo := hat.2
      have hlt := hat.lt
      obtain ⟨f, hf⟩ := Fifo.at_of_lt (q := s.queue) (Nat.le_refl _) (by omega)
      -- the first of the queue has its turn, or finds its flag down
      rcases h.granted_front hf with hturn | ⟨m, hpcf, hlet⟩
      · have hpcf : (s.pc f).turn = true := hturn.resolve_left (hfree f)
        by_cases hsf : Stuck s f
        · cases hcase : s.pc f with
          | awaitNext m => exact awaiting f (Or.inl ⟨m, hcase, by simpa [Stuck, hcase] using hsf⟩)
          | awaitHead => exact awaiting f (Or.inr ⟨hcase, by simpa [Stuck, hcase] using hsf⟩)
          | spin => simp [hcase, Pc.turn] at hpcf
          | idle | clearNext | swapTail | setLocked | link | loadNext | clearHead | casTail
            | storeHead | free | loadHead | casHead | wake | crashed => simp [Stuck, hcase] at hsf
        · refine ⟨f, fun hout => ?_, hsf⟩
          cases hcase : s.pc f <;> simp [hcase, Pc.turn, phaseOf] at hpcf hout
      · exact ⟨f, by simp [hpcf, phaseOf], by simp [Stuck, hpcf, hlet]⟩
    | awaitNext n => exact awaiting t (Or.inl ⟨n, hpc, by simpa [Stuck, hpc] using hstuck⟩)
    | awaitHead => exact awaiting t (Or.inr ⟨hpc, by simpa [Stuck, hpc] using hstuck⟩)
    | idle | clearNext | swapTail | setLocked | link | loadNext | clearHead | casTail
      | storeHead | free | loadHead | casHead | wake | crashed => simp [Stuck, hpc] at hstuck
  · exact ⟨t, hin, hstuck⟩

/-- A thread outside the calls can start one: by the invariant it has not crashed. -/
theorem idle_of_out (h : Inv s) (hout : phaseOf (s.pc t) = .out) : s.pc t = .idle := by
  have hok := h.pcOk t
  cases hpc : s.pc t with
  | idle => rfl
  | crashed => simp [PcOk, hpc] at hok
  | clearNext | swapTail | setLocked | link | spin | loadNext | clearHead | casTail | awaitNext
    | storeHead | free | loadHead | casHead | awaitHead | wake => simp [hpc, phaseOf] at hout

/-! ### Every node that is allocated is in use -/

/-- The node of some thread inside `Acquire`. -/
def NodesUsed (s : State N T) : Prop := ∀ n, s.live n = true → ∃ t, (s.pc t).node = some n

/-- A step that neither allocates nor frees, and keeps the thread's node. -/
theorem NodesUsed.goto {c : Pc N} (h : NodesUsed s) (hlive : s'.live = s.live)
    (hpc : s'.pc = Function.update s.pc t c) (hnode : c.node = (s.pc t).node) : NodesUsed s' := by
  intro n hn
  rw [hlive] at hn
  obtain ⟨u, hu⟩ := h n hn
  refine ⟨u, ?_⟩
  rw [hpc]
  by_cases hut : u = t
  · subst hut
    rw [Function.update_self, hnode, hu]
  · rw [Function.update_of_ne hut, hu]

/-- One access: only `delete` changes what is allocated, and the node it frees is the thread's
own. -/
theorem NodesUsed.proceed (h : NodesUsed s) (hI' : Inv s')
    (hs : K42.proceed s t (s.pc t) = some s') : NodesUsed s' := by
  have hlive := hI'.not_crashed t
  cases hpc : s.pc t with
  | idle | crashed => simp [hpc, K42.proceed] at hs
  | free n =>
    simp only [hpc, K42.proceed] at hs
    obtain rfl := Option.some.inj hs
    rw [access_eq hlive]
    intro m hm
    -- the node that is freed was nobody else's
    have hmn : m ≠ n := by
      rintro rfl
      simp [State.goto] at hm
    obtain ⟨u, hu⟩ := h m (by simpa [State.goto, hmn] using hm)
    have hut : u ≠ t := by
      rintro rfl
      simp only [hpc, Pc.node, Option.some.injEq] at hu
      exact hmn hu.symm
    exact ⟨u, by simpa [State.goto, hut] using hu⟩
  | clearNext n =>
    simp only [hpc, K42.proceed] at hs
    obtain rfl := Option.some.inj hs
    rw [access_eq hlive]
    exact h.goto (c := .swapTail n) rfl rfl (by rw [hpc]; rfl)
  | swapTail n =>
    simp only [hpc, K42.proceed] at hs
    split at hs
    · obtain rfl := Option.some.inj hs
      exact h.goto (c := .loadNext n) rfl rfl (by rw [hpc]; rfl)
    · rename_i q _
      obtain rfl := Option.some.inj hs
      exact h.goto (c := .setLocked n q) rfl rfl (by rw [hpc]; rfl)
  | setLocked n q =>
    simp only [hpc, K42.proceed] at hs
    obtain rfl := Option.some.inj hs
    rw [access_eq hlive]
    exact h.goto (c := .link n q) rfl rfl (by rw [hpc]; rfl)
  | link n q =>
    simp only [hpc, K42.proceed] at hs
    obtain rfl := Option.some.inj hs
    rw [access_eq hlive]
    exact h.goto (c := .spin n) (by cases q <;> rfl) (by cases q <;> rfl) (by rw [hpc]; rfl)
  | spin n =>
    simp only [hpc, K42.proceed] at hs
    obtain rfl := Option.some.inj hs
    rw [access_eq hlive]
    split
    · exact h
    · exact h.goto (c := .loadNext n) rfl rfl (by rw [hpc]; rfl)
  | loadNext n =>
    simp only [hpc, K42.proceed] at hs
    obtain rfl := Option.some.inj hs
    rw [access_eq hlive]
    split
    · exact h.goto (c := .clearHead n) rfl rfl (by rw [hpc]; rfl)
    · rename_i m _
      exact h.goto (c := .storeHead n m) rfl rfl (by rw [hpc]; rfl)
  | clearHead n =>
    simp only [hpc, K42.proceed] at hs
    obtain rfl := Option.some.inj hs
    exact h.goto (c := .casTail n) rfl rfl (by rw [hpc]; rfl)
  | casTail n =>
    simp only [hpc, K42.proceed] at hs
    split at hs
    · obtain rfl := Option.some.inj hs
      exact h.goto (c := .free n) rfl rfl (by rw [hpc]; rfl)
    · obtain rfl := Option.some.inj hs
      exact h.goto (c := .awaitNext n) rfl rfl (by rw [hpc]; rfl)
  | awaitNext n =>
    simp only [hpc, K42.proceed] at hs
    obtain rfl := Option.some.inj hs
    rw [access_eq hlive]
    split
    · exact h
    · rename_i m _
      exact h.goto (c := .storeHead n m) rfl rfl (by rw [hpc]; rfl)
  | storeHead n m =>
    simp only [hpc, K42.proceed] at hs
    obtain rfl := Option.some.inj hs
    exact h.goto (c := .free n) rfl rfl (by rw [hpc]; rfl)
  | loadHead =>
    simp only [hpc, K42.proceed] at hs
    split at hs
    · obtain rfl := Option.some.inj hs
      exact h.goto (c := .casHead) rfl rfl (by rw [hpc]; rfl)
    · rename_i m _
      obtain rfl := Option.some.inj hs
      exact h.goto (c := .wake m) rfl rfl (by rw [hpc]; rfl)
  | casHead =>
    simp only [hpc, K42.proceed] at hs
    split at hs
    · obtain rfl := Option.some.inj hs
      exact h.goto (c := .idle) rfl rfl (by rw [hpc]; rfl)
    · obtain rfl := Option.some.inj hs
      exact h.goto (c := .awaitHead) rfl rfl (by rw [hpc]; rfl)
  | awaitHead =>
    simp only [hpc, K42.proceed] at hs
    split at hs
    · obtain rfl := Option.some.inj hs
      exact h
    · rename_i m _
      obtain rfl := Option.some.inj hs
      exact h.goto (c := .wake m) rfl rfl (by rw [hpc]; rfl)
  | wake m =>
    simp only [hpc, K42.proceed] at hs
    obtain rfl := Option.some.inj hs
    rw [access_eq hlive]
    exact h.goto (c := .idle) rfl rfl (by rw [hpc]; rfl)

/-- No run leaks a node: `new` gives it to the thread that enters `Acquire`. -/
theorem nodesUsed (h : Reachable step (init : State N T) s) : NodesUsed s := by
  induction h with
  | start _ =>
    intro n hn
    cases hn
  | @step _ _ a hr hs _ ih =>
    cases a with
    | acquire t n =>
      obtain ⟨⟨hidle, -, -⟩, hs⟩ := Option.ite_none_right_eq_some.mp hs
      obtain rfl := Option.some.inj hs
      intro m hm
      by_cases hmn : m = n
      · exact ⟨t, by simp [State.goto, hmn, Pc.node]⟩
      · obtain ⟨u, hu⟩ := ih m (by simpa [State.goto, hmn] using hm)
        have hut : u ≠ t := by
          rintro rfl
          simp [hidle, Pc.node] at hu
        exact ⟨u, by simpa [State.goto, hut] using hu⟩
    | release t =>
      obtain ⟨⟨hidle, -⟩, hs⟩ := Option.ite_none_right_eq_some.mp hs
      obtain rfl := Option.some.inj hs
      exact ih.goto (c := .loadHead) rfl rfl (by rw [hidle]; rfl)
    | advance t => exact ih.proceed (reachable_inv (hr.step hs trivial)) hs

/-- `Acquire` leaks no node: the nodes that are allocated are those of the threads
inside it, one each. A thread that holds the lock, or releases it, has none. -/
theorem allocated_iff (h : Reachable step (init : State N T) s) :
    (∀ n, s.live n = true ↔ ∃! t, (s.pc t).node = some n) ∧
      ∀ t, (∀ l, phaseOf (s.pc t) ≠ .acquiring l) → (s.pc t).node = none := by
  have hI := reachable_inv h
  refine ⟨fun n => ⟨fun hn => ?_, fun ⟨t, ht, _⟩ => hI.owned t n ht⟩, fun t hout => ?_⟩
  · obtain ⟨t, ht⟩ := nodesUsed h n hn
    exact ⟨t, ht, fun u hu => hI.distinct u t n hu ht⟩
  · cases hpc : s.pc t with
    | idle | loadHead | casHead | awaitHead | wake | crashed => rfl
    | clearNext | swapTail | setLocked | link | spin | loadNext | clearHead | casTail | awaitNext
      | storeHead | free => exact absurd (by rw [hpc]; rfl) (hout ())

/-- In the run that hands the lock over, the thread that waits has the one node. -/
theorem allocated_iff_handOver :
    ∃ s : State Bool Bool, perform step (fun _ => True) init handOver = some s ∧
      (s.pc false).node = some false ∧ ∀ n, s.live n = true ↔ ∃! t, (s.pc t).node = some n := by
  obtain ⟨s, hs⟩ := Option.isSome_iff_exists.mp
    (show (perform step (fun _ => True) (init : State Bool Bool) handOver).isSome = true by decide)
  have hnode : (perform step (fun _ => True) (init : State Bool Bool) handOver).all
      (fun s => decide ((s.pc false).node = some false)) = true := by decide
  rw [hs] at hnode
  exact ⟨s, hs, of_decide_eq_true hnode,
    (allocated_iff ((ReachableWithin.start trivial).of_perform hs)).1⟩

/-- With addresses enough, some node can be allocated. -/
theorem exists_free [Infinite N] (h : Reachable step (init : State N T) s) :
    ∃ n, s.live n = false := by
  by_contra hall
  have hlive : ∀ n, s.live n = true := fun n => by
    by_contra hn
    exact hall ⟨n, by simpa using hn⟩
  choose owner howner using fun n => nodesUsed h n (hlive n)
  have hinj : Function.Injective owner := fun m n hmn => by
    have heq := (howner m).symm.trans (hmn ▸ howner n)
    exact Option.some.inj heq
  exact not_injective_infinite_finite owner hinj

/-- `K42Lock` works where `new` does. -/
def works [Infinite N] (n : Nat) : (mutex N T).Works n :=
  Mutex.worksOfPc ((mutex N T).unlimited (Reachable step init))
    (mutex_correct.mono fun _ _ => trivial)
    (fun s t _ hI hout hfree => by
      obtain ⟨n, hn⟩ := exists_free hI
      exact ⟨.acquire t n, _, rfl, if_pos ⟨idle_of_out (reachable_inv hI) hout,
        by simpa using hfree (), hn⟩⟩)
    (fun _ t _ hI hout hin => ⟨.release t, _, rfl,
      if_pos ⟨idle_of_out (reachable_inv hI) hout, hin⟩⟩)
    fuel Stuck (fun _ _ _ => exists_move)
    fun _ _ hI hfree => exists_not_stuck (reachable_inv hI) fun u => hfree u ()

end K42

end LockShield
