import LockShield.Lib.Mutex
import LockShield.Lock.Abql
import LockShield.Lock.Clh
import LockShield.Lock.CnaQueues
import LockShield.Lock.Hem
import LockShield.Lock.K42
import LockShield.Lock.Mcs
import LockShield.Lock.Ticket

/-!
# The locks as mutexes

What a user of the locks sees: the calls a thread is in, and the locks it
holds. Each lock gets three definitions here:

* `phaseOf` — the call that a thread is in, read off its next access;
* `useOf`   — the use that an action makes of the lock;
* `mutex`   — the lock as a `Mutex`, whose faults are the program counters of a thread
  that has crashed, gone out of bounds or failed an assertion.

Each is a correct mutex on the runs for which its own invariant was proved;
`TASLock` is one in its own module.

## Results

* `Ticket.mutex_correct` — for up to `2 ^ 32` threads.
* `Mcs.mutex_correct`, `Clh.mutex_correct` — for threads that use one lock at a time.
* `Abql.mutex_correct`   — for up to 256 threads, in runs that draw fewer than `2 ^ 31`
  tickets of each lock.
* `Hem.mutex_correct`, `K42.mutex_correct`, `Cna.mutex_correct` — without a condition.
-/

set_option linter.unusedSectionVars false

namespace LockShield

open Lib

/-! ## `TicketLock` -/

namespace Ticket

variable {T : Type} [Finite T] [DecidableEq T] {s s' : State T} {t : T}

/-- The call that a thread is in, read off its next access. -/
def phaseOf : Pc → Phase Unit
  | .idle => .out
  | .drawTicket | .spin => .acquiring ()
  | .serveNext => .releasing ()

/-- The use that an action makes of the lock. -/
def useOf : Action T → Use Unit T
  | .acquire t => .acquire t ()
  | .release t => .release t ()
  | .advance t => .advance t

variable (T) in
/-- `TicketLock` and its users. -/
abbrev mutex : Mutex Unit T :=
  .ofPc init step useOf State.pc phaseOf (fun _ => False) State.holding fun h _ => h = true

/-- An access stays inside its call or ends it. -/
theorem advanced (hs : proceed s t (s.pc t) = some s') :
    (mutex T).Others t s s' ∧ (mutex T).Advanced t s s' := by
  cases hpc : s.pc t with
  | idle => simp [hpc, proceed] at hs
  | drawTicket =>
    simp only [hpc, proceed] at hs
    obtain rfl := Option.some.inj hs
    exact Mutex.stays (c := .spin) rfl rfl (by rw [hpc]; rfl)
  | spin =>
    simp only [hpc, proceed] at hs
    split at hs
    · -- another ticket is shown
      obtain rfl := Option.some.inj hs
      exact Mutex.waits s t
    · obtain rfl := Option.some.inj hs
      exact Mutex.enters (c := .idle) (l := ()) rfl rfl (by rw [hpc]; rfl) rfl fun k => by simp
  | serveNext =>
    simp only [hpc, proceed] at hs
    obtain rfl := Option.some.inj hs
    exact Mutex.leaves (c := .idle) (l := ()) rfl rfl (by rw [hpc]; rfl) rfl

/-- `TicketLock` is a correct mutex for as many threads as an `int` has values. -/
theorem mutex_correct (hcard : Nat.card T ≤ 2 ^ 32) :
    (mutex T).Correct (fun _ => True) (Reachable step init) := by
  refine Mutex.correct_ofPc (fun _ => .start trivial) (fun _ _ _ h _ _ hs => h.step hs trivial)
    (fun _ _ _ => id) (fun _ => ⟨id, rfl, fun _ h => by cases h⟩)
    (fun s a s' t l h hs huse => ?_) (fun s a s' t l h hs huse => ?_)
    (fun s a s' t h h' hs huse => ?_)
    fun s l t u h ht hu => (reachable_inv hcard h).serves.exclusive (Or.inl ht) (Or.inl hu)
  · -- `Acquire` begins
    cases a with
    | acquire t =>
      obtain ⟨⟨hidle, hfree⟩, hs⟩ := Option.ite_none_right_eq_some.mp hs
      obtain rfl := Option.some.inj hs
      injection huse with ht
      subst ht
      exact ⟨by rw [hidle]; rfl, by simp [hfree], .drawTicket, rfl, rfl, rfl⟩
    | release | advance => cases huse
  · -- `Release` begins
    cases a with
    | release t =>
      obtain ⟨⟨hidle, hheld⟩, hs⟩ := Option.ite_none_right_eq_some.mp hs
      obtain rfl := Option.some.inj hs
      injection huse with ht
      subst ht
      exact ⟨by rw [hidle]; rfl, hheld, .serveNext, false, rfl, rfl, rfl, fun k => by simp⟩
    | acquire | advance => cases huse
  · -- an access of a call that has begun
    cases a with
    | advance t =>
      injection huse with ht
      subst ht
      exact advanced hs
    | acquire | release => cases huse

end Ticket

/-! ## `MCSLock` -/

namespace Mcs

variable {L T : Type} [DecidableEq L] [DecidableEq T] {s s' : State L T} {t : T} {l : L}

/-- The call that a thread is in, read off its next access. -/
def phaseOf : Pc L T → Phase L
  | .idle | .crashed => .out
  | .clearNext l | .setLocked l | .swapTail l | .link l _ | .spin l => .acquiring l
  | .checkNext l | .casTail l | .awaitNext l | .loadNext l | .wake l _ => .releasing l

/-- The use that an action makes of the lock. -/
def useOf : Action L T → Use L T
  | .acquire t l => .acquire t l
  | .release t l => .release t l
  | .advance t => .advance t

variable (L T) in
/-- `MCSLock`s and their users, which use one at a time. -/
abbrev mutex : Mutex L T :=
  .ofPc init (step oneAtATime) useOf State.pc phaseOf (· = .crashed) State.held
    fun held l => l ∈ held

/-- Who holds a lock is in no call and holds nothing else. -/
theorem Inv.of_held (h : Inv s) (hl : l ∈ s.held t) : s.pc t = .idle ∧ s.held t = [l] := by
  have hok := h.pcOk t
  cases hpc : s.pc t with
  | idle =>
    simp only [PcOk, hpc] at hok
    rcases hok with hnil | ⟨k, hk, -⟩
    · simp [hnil] at hl
    · rw [hk, List.mem_singleton] at hl
      exact ⟨rfl, by rw [hk, hl]⟩
  | crashed => simp [PcOk, hpc] at hok
  | clearNext k =>
    simp only [PcOk, hpc] at hok
    simp [hok] at hl
  | setLocked | swapTail | link | spin | checkNext | casTail | awaitNext | loadNext | wake =>
    simp only [PcOk, hpc] at hok
    simp [hok.1] at hl

/-- No call follows a link that is null. -/
theorem Inv.not_crashed (h : Inv s) (t : T) : s.pc t ≠ .crashed := by
  intro hcr
  have hok := h.pcOk t
  simp [PcOk, hcr] at hok

/-- An access that does not fail stays inside its call or ends it. -/
theorem advanced (hs : proceed s t (s.pc t) = some s')
    (hlive : s'.pc t ≠ .crashed) :
    (mutex L T).Others t s s' ∧ (mutex L T).Advanced t s s' := by
  cases hpc : s.pc t with
  | idle | crashed => simp [hpc, proceed] at hs
  | clearNext l =>
    simp only [hpc, proceed] at hs
    obtain rfl := Option.some.inj hs
    exact Mutex.stays (c := .setLocked l) rfl rfl (by rw [hpc]; rfl)
  | setLocked l =>
    simp only [hpc, proceed] at hs
    obtain rfl := Option.some.inj hs
    exact Mutex.stays (c := .swapTail l) rfl rfl (by rw [hpc]; rfl)
  | swapTail l =>
    simp only [hpc, proceed] at hs
    split at hs
    · -- there was no tail: the swap has taken the lock
      obtain rfl := Option.some.inj hs
      exact Mutex.enters (c := .idle) (l := l) rfl rfl (by rw [hpc]; rfl) rfl
        fun k => List.mem_cons
    · rename_i prev _
      obtain rfl := Option.some.inj hs
      exact Mutex.stays (c := .link l prev) rfl rfl (by rw [hpc]; rfl)
  | link l prev =>
    simp only [hpc, proceed] at hs
    obtain rfl := Option.some.inj hs
    exact Mutex.stays (c := .spin l) rfl rfl (by rw [hpc]; rfl)
  | spin l =>
    simp only [hpc, proceed] at hs
    split at hs
    · -- nobody has cleared the flag yet
      obtain rfl := Option.some.inj hs
      exact Mutex.waits s t
    · obtain rfl := Option.some.inj hs
      exact Mutex.enters (c := .idle) (l := l) rfl rfl (by rw [hpc]; rfl) rfl
        fun k => List.mem_cons
  | checkNext l =>
    simp only [hpc, proceed] at hs
    split at hs
    · obtain rfl := Option.some.inj hs
      exact Mutex.stays (c := .casTail l) rfl rfl (by rw [hpc]; rfl)
    · obtain rfl := Option.some.inj hs
      exact Mutex.stays (c := .loadNext l) rfl rfl (by rw [hpc]; rfl)
  | casTail l =>
    simp only [hpc, proceed] at hs
    split at hs
    · -- nobody has come: the release ends without a successor
      obtain rfl := Option.some.inj hs
      exact Mutex.leaves (c := .idle) (l := l) rfl rfl (by rw [hpc]; rfl) rfl
    · obtain rfl := Option.some.inj hs
      exact Mutex.stays (c := .awaitNext l) rfl rfl (by rw [hpc]; rfl)
  | awaitNext l =>
    simp only [hpc, proceed] at hs
    split at hs
    · obtain rfl := Option.some.inj hs
      exact Mutex.waits s t
    · obtain rfl := Option.some.inj hs
      exact Mutex.stays (c := .loadNext l) rfl rfl (by rw [hpc]; rfl)
  | loadNext l =>
    simp only [hpc, proceed] at hs
    split at hs
    · rename_i succ _
      obtain rfl := Option.some.inj hs
      exact Mutex.stays (c := .wake l succ) rfl rfl (by rw [hpc]; rfl)
    · -- the link was there when the call looked
      obtain rfl := Option.some.inj hs
      exact absurd (Function.update_self ..) hlive
  | wake l succ =>
    simp only [hpc, proceed] at hs
    obtain rfl := Option.some.inj hs
    exact Mutex.leaves (c := .idle) (l := l) rfl rfl (by rw [hpc]; rfl) rfl

/-- `MCSLock`s are correct mutexes for threads that use one at a time. -/
theorem mutex_correct : (mutex L T).Correct (fun _ => True) (Reachable (step oneAtATime) init) := by
  refine Mutex.correct_ofPc (fun _ => .start trivial) (fun _ _ _ h _ _ hs => h.step hs trivial)
    (fun _ h => (reachable_inv h).not_crashed)
    (fun _ => ⟨nofun, rfl, fun _ h => absurd h List.not_mem_nil⟩) (fun s a s' t l h hs huse => ?_)
    (fun s a s' t l h hs huse => ?_) (fun s a s' t h h' hs huse => ?_) fun s l t u h ht hu => ?_
  · -- `Acquire` begins
    cases a with
    | acquire t k =>
      obtain ⟨⟨hidle, hmay⟩, hs⟩ := Option.ite_none_right_eq_some.mp hs
      obtain rfl := Option.some.inj hs
      injection huse with ht hk
      subst ht hk
      refine ⟨by rw [hidle]; rfl, ?_, .clearNext k, rfl, rfl, rfl⟩
      rw [oneAtATime_iff.mp hmay]
      exact List.not_mem_nil
    | release | advance => cases huse
  · -- `Release` begins
    cases a with
    | release t k =>
      obtain ⟨⟨hidle, hheld⟩, hs⟩ := Option.ite_none_right_eq_some.mp hs
      obtain rfl := Option.some.inj hs
      injection huse with ht hk
      subst ht hk
      have honly := ((reachable_inv h).of_held hheld).2
      exact ⟨by rw [hidle]; rfl, hheld, .checkNext k, _, rfl, rfl, rfl, fun j => by simp [honly]⟩
    | acquire | advance => cases huse
  · -- an access of a call that has begun
    cases a with
    | advance t =>
      injection huse with ht
      subst ht
      exact advanced hs ((reachable_inv h').not_crashed t)
    | acquire | release => cases huse
  · -- who holds a lock owns it in the sense of its queue
    have howns : ∀ v, l ∈ s.held v → Owns s v l := fun v hv => by
      simpa only [Owns, ((reachable_inv h).of_held hv).1] using hv
    exact ((reachable_inv h).serves l).exclusive (howns t ht) (howns u hu)

end Mcs

/-! ## `CLHLock` -/

namespace Clh

variable {L T : Type} [DecidableEq L] [DecidableEq T] {s s' : State L T} {t : T} {l : L}

/-- The call that a thread is in, read off its next access. -/
def phaseOf : Pc L → Phase L
  | .idle | .crashed => .out
  | .setLocked l | .swapTail l | .spin l => .acquiring l
  | .clearLocked l | .swapNodes l => .releasing l

/-- The use that an action makes of the lock. -/
def useOf : Action L T → Use L T
  | .acquire t l => .acquire t l
  | .release t l => .release t l
  | .advance t => .advance t

variable (L T) in
/-- `CLHLock`s and their users, which use one at a time. -/
abbrev mutex : Mutex L T :=
  .ofPc init (step oneAtATime) useOf State.pc phaseOf (· = .crashed) State.held
    fun held l => l ∈ held

/-- Who holds a lock is in no call and holds nothing else. -/
theorem Inv.of_held (h : Inv s) (hl : l ∈ s.held t) : s.pc t = .idle ∧ s.held t = [l] := by
  have hok := h.pcOk t
  cases hpc : s.pc t with
  | idle =>
    simp only [PcOk, hpc] at hok
    rcases hok with hnil | ⟨k, hk, -⟩
    · simp [hnil] at hl
    · rw [hk, List.mem_singleton] at hl
      exact ⟨rfl, by rw [hk, hl]⟩
  | crashed => simp [PcOk, hpc] at hok
  | setLocked k =>
    simp only [PcOk, hpc] at hok
    simp [hok] at hl
  | swapTail | spin | clearLocked | swapNodes =>
    simp only [PcOk, hpc] at hok
    simp [hok.1] at hl

/-- No call follows a pointer that is null. -/
theorem Inv.not_crashed (h : Inv s) (t : T) : s.pc t ≠ .crashed := by
  intro hcr
  have hok := h.pcOk t
  simp [PcOk, hcr] at hok

/-- An access that does not fail stays inside its call or ends it. -/
theorem advanced (hs : proceed s t (s.pc t) = some s')
    (hlive : s'.pc t ≠ .crashed) :
    (mutex L T).Others t s s' ∧ (mutex L T).Advanced t s s' := by
  cases hpc : s.pc t with
  | idle | crashed => simp [hpc, proceed] at hs
  | setLocked l =>
    simp only [hpc, proceed] at hs
    obtain rfl := Option.some.inj hs
    exact Mutex.stays (c := .swapTail l) rfl rfl (by rw [hpc]; rfl)
  | swapTail l =>
    simp only [hpc, proceed] at hs
    obtain rfl := Option.some.inj hs
    exact Mutex.stays (c := .spin l) rfl rfl (by rw [hpc]; rfl)
  | spin l =>
    simp only [hpc, proceed] at hs
    cases hpred : s.myPred t with
    | none =>
      simp only [hpred] at hs
      obtain rfl := Option.some.inj hs
      exact absurd (Function.update_self ..) hlive
    | some pred =>
      simp only [hpred] at hs
      split at hs
      · -- the predecessor still has its flag up
        obtain rfl := Option.some.inj hs
        exact Mutex.waits s t
      · obtain rfl := Option.some.inj hs
        exact Mutex.enters (c := .idle) (l := l) rfl rfl (by rw [hpc]; rfl) rfl
          fun k => List.mem_cons
  | clearLocked l =>
    simp only [hpc, proceed] at hs
    obtain rfl := Option.some.inj hs
    exact Mutex.stays (c := .swapNodes l) rfl rfl (by rw [hpc]; rfl)
  | swapNodes l =>
    simp only [hpc, proceed] at hs
    split at hs
    · -- a holder has a predecessor whose node it takes over
      obtain rfl := Option.some.inj hs
      exact absurd (Function.update_self ..) hlive
    · obtain rfl := Option.some.inj hs
      exact Mutex.leaves (c := .idle) (l := l) rfl rfl (by rw [hpc]; rfl) rfl

/-- `CLHLock`s are correct mutexes for threads that use one at a time. -/
theorem mutex_correct : (mutex L T).Correct (fun _ => True) (Reachable (step oneAtATime) init) := by
  refine Mutex.correct_ofPc (fun _ => .start trivial) (fun _ _ _ h _ _ hs => h.step hs trivial)
    (fun _ h => (reachable_inv h).not_crashed)
    (fun _ => ⟨nofun, rfl, fun _ h => absurd h List.not_mem_nil⟩) (fun s a s' t l h hs huse => ?_)
    (fun s a s' t l h hs huse => ?_) (fun s a s' t h h' hs huse => ?_) fun s l t u h ht hu => ?_
  · -- `Acquire` begins
    cases a with
    | acquire t k =>
      obtain ⟨⟨hidle, hmay⟩, hs⟩ := Option.ite_none_right_eq_some.mp hs
      obtain rfl := Option.some.inj hs
      injection huse with ht hk
      subst ht hk
      refine ⟨by rw [hidle]; rfl, by simp [oneAtATime_iff.mp hmay], .setLocked k, rfl, rfl, rfl⟩
    | release | advance => cases huse
  · -- `Release` begins
    cases a with
    | release t k =>
      obtain ⟨⟨hidle, hheld⟩, hs⟩ := Option.ite_none_right_eq_some.mp hs
      obtain rfl := Option.some.inj hs
      injection huse with ht hk
      subst ht hk
      have honly := ((reachable_inv h).of_held hheld).2
      exact ⟨by rw [hidle]; rfl, hheld, .clearLocked k, _, rfl, rfl, rfl, fun j => by simp [honly]⟩
    | acquire | advance => cases huse
  · -- an access of a call that has begun
    cases a with
    | advance t =>
      injection huse with ht
      subst ht
      exact advanced hs ((reachable_inv h').not_crashed t)
    | acquire | release => cases huse
  · -- who holds a lock owns it in the sense of its queue
    have howns : ∀ v, l ∈ s.held v → Owns s v l := fun v hv => by
      simpa only [Owns, ((reachable_inv h).of_held hv).1] using hv
    exact ((reachable_inv h).serves l).exclusive (howns t ht) (howns u hu)

end Clh

/-! ## `ABQLLock` -/

namespace Abql

variable {L T : Type} [DecidableEq L] [DecidableEq T] [Finite T] {s s' : State L T} {t : T} {l : L}
  {i : Int}

/-- The call that a thread is in, read off its next access. -/
def phaseOf : Pc L → Phase L
  | .idle | .outOfBounds => .out
  | .fetchAdd l | .spin l _ => .acquiring l
  | .clearFlag l | .wakeNext l => .releasing l

/-- The use that an action makes of the lock. -/
def useOf : Action L T → Use L T
  | .acquire t l => .acquire t l
  | .release t l => .release t l
  | .advance t => .advance t

variable (L T) in
/-- `ABQLLock`s and their users, which use one at a time. -/
abbrev mutex : Mutex L T :=
  .ofPc init (step oneAtATime) useOf State.pc phaseOf (· = .outOfBounds) State.held
    fun held l => l ∈ held

/-- The invariant holds while the tickets name their slots. -/
theorem inv_of_within (hcard : Nat.card T ≤ 256)
    (h : ReachableWithin (step oneAtATime) Few (init : State L T) s) : Inv s :=
  reachable_inv hcard (reachable_one hcard (h.mono fun _ => Few.fits)).1

/-- An access that stays within `flags` does what it should. -/
theorem access_eq (h : (s.access t i s').pc t ≠ .outOfBounds) : s.access t i s' = s' := by
  unfold State.access at h ⊢
  split
  · rfl
  · rename_i hout
    rw [if_neg hout] at h
    exact absurd (Function.update_self ..) h

/-- Every slot that a call computes is in `flags`. -/
theorem Inv.not_outOfBounds (h : Inv s) (t : T) : s.pc t ≠ .outOfBounds := by
  intro hout
  have hok := h.pcOk t
  simp [PcOk, hout] at hok

/-- An access that does not fail stays inside its call or ends it. -/
theorem advanced (hs : proceed s t (s.pc t) = some s')
    (hlive : s'.pc t ≠ .outOfBounds) :
    (mutex L T).Others t s s' ∧ (mutex L T).Advanced t s s' := by
  cases hpc : s.pc t with
  | idle | outOfBounds => simp [hpc, proceed] at hs
  | fetchAdd l =>
    simp only [hpc, proceed] at hs
    obtain rfl := Option.some.inj hs
    exact Mutex.stays (c := .spin l ((s.tail l).tmod maxThreads)) rfl rfl (by rw [hpc]; rfl)
  | spin l mySlot =>
    -- the index is in the array, for otherwise the access would have failed
    simp only [hpc, proceed] at hs
    obtain rfl := Option.some.inj hs
    rw [access_eq hlive] at *
    split
    · exact Mutex.enters (c := .idle) (l := l) rfl rfl (by rw [hpc]; rfl) rfl
        fun k => List.mem_cons
    · exact Mutex.waits s t
  | clearFlag l =>
    simp only [hpc, proceed] at hs
    obtain rfl := Option.some.inj hs
    rw [access_eq hlive] at *
    exact Mutex.stays (c := .wakeNext l) rfl rfl (by rw [hpc]; rfl)
  | wakeNext l =>
    simp only [hpc, proceed] at hs
    obtain rfl := Option.some.inj hs
    rw [access_eq hlive] at *
    exact Mutex.leaves (c := .idle) (l := l) rfl rfl (by rw [hpc]; rfl) rfl

/-- `ABQLLock`s are correct mutexes for as many threads as they have slots, while their
tickets name the slots. -/
theorem mutex_correct (hcard : Nat.card T ≤ 256) :
    (mutex L T).Correct Few (ReachableWithin (step oneAtATime) Few init) := by
  refine Mutex.correct_ofPc .start (fun _ _ _ h _ hfew hs => h.step hs hfew)
    (fun _ h => (inv_of_within hcard h).not_outOfBounds)
    (fun _ => ⟨nofun, rfl, fun _ h => absurd h List.not_mem_nil⟩) (fun s a s' t l h hs huse => ?_)
    (fun s a s' t l h hs huse => ?_) (fun s a s' t h h' hs huse => ?_)
    fun s l t u h ht hu => ((inv_of_within hcard h).serves l).exclusive (Or.inl ht) (Or.inl hu)
  · -- `Acquire` begins
    cases a with
    | acquire t k =>
      obtain ⟨⟨hidle, hmay⟩, hs⟩ := Option.ite_none_right_eq_some.mp hs
      obtain rfl := Option.some.inj hs
      injection huse with ht hk
      subst ht hk
      refine ⟨by rw [hidle]; rfl, by simp [oneAtATime_iff.mp hmay], .fetchAdd k, rfl, rfl, rfl⟩
    | release | advance => cases huse
  · -- `Release` begins
    cases a with
    | release t k =>
      obtain ⟨⟨hidle, hheld⟩, hs⟩ := Option.ite_none_right_eq_some.mp hs
      obtain rfl := Option.some.inj hs
      injection huse with ht hk
      subst ht hk
      have hnodup := (inv_of_within hcard h).heldNodup t
      exact ⟨by rw [hidle]; rfl, hheld, .clearFlag k, _, rfl, rfl, rfl,
        fun j => hnodup.mem_erase_iff⟩
    | acquire | advance => cases huse
  · -- an access of a call that has begun
    cases a with
    | advance t =>
      injection huse with ht
      subst ht
      exact advanced hs ((inv_of_within hcard h').not_outOfBounds t)
    | acquire | release => cases huse

end Abql

/-! ## `HemLock` -/

namespace Hem

variable {L T : Type} [DecidableEq L] [DecidableEq T] {s s' : State L T} {t : T}

/-- The call that a thread is in, read off its next access. -/
def phaseOf : Pc L T → Phase L
  | .idle | .aborted => .out
  | .checkGrant l | .swapTail l | .spin l _ | .clearGrant l _ | .checkTail l => .acquiring l
  | .checkEmpty l | .casTail l | .storeGrant l | .awaitClear l => .releasing l

/-- The use that an action makes of the lock. -/
def useOf : Action L T → Use L T
  | .acquire t l => .acquire t l
  | .release t l => .release t l
  | .advance t => .advance t

variable (L T) in
/-- `HemLock`s and their users, which may hold several. -/
abbrev mutex : Mutex L T :=
  .ofPc init step useOf State.pc phaseOf (· = .aborted) State.held
    fun held l => l ∈ held

/-- An access that does not fail stays inside its call or ends it. -/
theorem advanced (hs : proceed s t (s.pc t) = some s')
    (hlive : s'.pc t ≠ .aborted) :
    (mutex L T).Others t s s' ∧ (mutex L T).Advanced t s s' := by
  cases hpc : s.pc t with
  | idle | aborted => simp [hpc, proceed] at hs
  | checkGrant l =>
    simp only [hpc, proceed] at hs
    split at hs
    · obtain rfl := Option.some.inj hs
      exact Mutex.stays (c := .swapTail l) rfl rfl (by rw [hpc]; rfl)
    · -- the assertion of `Acquire` does not fail
      obtain rfl := Option.some.inj hs
      exact absurd (Function.update_self ..) hlive
  | swapTail l =>
    simp only [hpc, proceed] at hs
    split at hs
    · obtain rfl := Option.some.inj hs
      exact Mutex.stays (c := .checkTail l) rfl rfl (by rw [hpc]; rfl)
    · rename_i pred _
      obtain rfl := Option.some.inj hs
      exact Mutex.stays (c := .spin l pred) rfl rfl (by rw [hpc]; rfl)
  | spin l pred =>
    simp only [hpc, proceed] at hs
    split at hs
    · obtain rfl := Option.some.inj hs
      exact Mutex.stays (c := .clearGrant l pred) rfl rfl (by rw [hpc]; rfl)
    · -- the predecessor has not granted this lock
      obtain rfl := Option.some.inj hs
      exact Mutex.waits s t
  | clearGrant l pred =>
    simp only [hpc, proceed] at hs
    obtain rfl := Option.some.inj hs
    exact Mutex.stays (c := .checkTail l) rfl rfl (by rw [hpc]; rfl)
  | checkTail l =>
    simp only [hpc, proceed] at hs
    split at hs
    · -- the assertion that the queue is not empty
      obtain rfl := Option.some.inj hs
      exact absurd (Function.update_self ..) hlive
    · obtain rfl := Option.some.inj hs
      exact Mutex.enters (c := .idle) (l := l) rfl rfl (by rw [hpc]; rfl) rfl
        fun k => List.mem_cons
  | checkEmpty l =>
    simp only [hpc, proceed] at hs
    split at hs
    · obtain rfl := Option.some.inj hs
      exact Mutex.stays (c := .casTail l) rfl rfl (by rw [hpc]; rfl)
    · obtain rfl := Option.some.inj hs
      exact absurd (Function.update_self ..) hlive
  | casTail l =>
    simp only [hpc, proceed] at hs
    split at hs
    · -- the tail was the caller: nobody waits
      obtain rfl := Option.some.inj hs
      exact Mutex.leaves (c := .idle) (l := l) rfl rfl (by rw [hpc]; rfl) rfl
    · split at hs
      · obtain rfl := Option.some.inj hs
        exact absurd (Function.update_self ..) hlive
      · obtain rfl := Option.some.inj hs
        exact Mutex.stays (c := .storeGrant l) rfl rfl (by rw [hpc]; rfl)
  | storeGrant l =>
    simp only [hpc, proceed] at hs
    obtain rfl := Option.some.inj hs
    exact Mutex.stays (c := .awaitClear l) rfl rfl (by rw [hpc]; rfl)
  | awaitClear l =>
    simp only [hpc, proceed] at hs
    split at hs
    · obtain rfl := Option.some.inj hs
      exact Mutex.leaves (c := .idle) (l := l) rfl rfl (by rw [hpc]; rfl) rfl
    · -- the successor has yet to take the grant
      obtain rfl := Option.some.inj hs
      exact Mutex.waits s t

/-- `HemLock`s are correct mutexes, however many a thread holds. -/
theorem mutex_correct : (mutex L T).Correct (fun _ => True) (Reachable step init) := by
  refine Mutex.correct_ofPc (fun _ => .start trivial) (fun _ _ _ h _ _ hs => h.step hs trivial)
    (fun _ h => (reachable_inv h).alive)
    (fun _ => ⟨nofun, rfl, fun _ h => absurd h List.not_mem_nil⟩) (fun s a s' t l h hs huse => ?_)
    (fun s a s' t l h hs huse => ?_) (fun s a s' t h h' hs huse => ?_)
    fun s l t u h ht hu => ((reachable_inv h).serves l).exclusive (Or.inl ht) (Or.inl hu)
  · -- `Acquire` begins
    cases a with
    | acquire t k =>
      obtain ⟨⟨hidle, hmay⟩, hs⟩ := Option.ite_none_right_eq_some.mp hs
      obtain rfl := Option.some.inj hs
      injection huse with ht hk
      subst ht hk
      refine ⟨by rw [hidle]; rfl, notHeld_iff.mp hmay, .checkGrant k, rfl, rfl, rfl⟩
    | release | advance => cases huse
  · -- `Release` begins
    cases a with
    | release t k =>
      obtain ⟨⟨hidle, hheld⟩, hs⟩ := Option.ite_none_right_eq_some.mp hs
      obtain rfl := Option.some.inj hs
      injection huse with ht hk
      subst ht hk
      have hnodup := (reachable_inv h).nodup t
      exact ⟨by rw [hidle]; rfl, hheld, .checkEmpty k, _, rfl, rfl, rfl,
        fun j => hnodup.mem_erase_iff⟩
    | acquire | advance => cases huse
  · -- an access of a call that has begun
    cases a with
    | advance t =>
      injection huse with ht
      subst ht
      exact advanced hs ((reachable_inv h').alive t)
    | acquire | release => cases huse

end Hem

/-! ## `K42Lock` -/

namespace K42

variable {N T : Type} [DecidableEq N] [DecidableEq T] {s s' : State N T} {t : T} {p : Ptr N}

/-- The call that a thread is in, read off its next access. -/
def phaseOf : Pc N → Phase Unit
  | .idle | .crashed => .out
  | .clearNext _ | .swapTail _ | .setLocked _ _ | .link _ _ | .spin _ | .loadNext _ | .clearHead _
  | .casTail _ | .awaitNext _ | .storeHead _ _ | .free _ => .acquiring ()
  | .loadHead | .casHead | .awaitHead | .wake _ => .releasing ()

/-- The use that an action makes of the lock. -/
def useOf : Action N T → Use Unit T
  | .acquire t _ => .acquire t ()
  | .release t => .release t ()
  | .advance t => .advance t

variable (N T) in
/-- `K42Lock` and its users. -/
abbrev mutex : Mutex Unit T :=
  .ofPc (init : State N T) step useOf State.pc phaseOf (· = .crashed) State.holding
    fun h _ => h = true

/-- An access through an allocated node does what it should. -/
theorem access_eq (h : (s.access t p s').pc t ≠ .crashed) : s.access t p s' = s' := by
  cases p with
  | head => rfl
  | node n =>
    simp only [State.access] at h ⊢
    split
    · rfl
    · rename_i hdead
      rw [if_neg hdead] at h
      exact absurd (Function.update_self ..) h

/-- No access is to a node that is not allocated. -/
theorem Inv.not_crashed (h : Inv s) (t : T) : s.pc t ≠ .crashed := by
  intro hcr
  have hok := h.pcOk t
  simp [PcOk, hcr] at hok

/-- An access that does not fail stays inside its call or ends it. -/
theorem advanced (hs : proceed s t (s.pc t) = some s')
    (hlive : s'.pc t ≠ .crashed) :
    (mutex N T).Others t s s' ∧ (mutex N T).Advanced t s s' := by
  cases hpc : s.pc t with
  | idle | crashed => simp [hpc, proceed] at hs
  | clearNext n =>
    simp only [hpc, proceed] at hs
    obtain rfl := Option.some.inj hs
    rw [access_eq hlive] at *
    exact Mutex.stays (c := .swapTail n) rfl rfl (by rw [hpc]; rfl)
  | swapTail n =>
    simp only [hpc, proceed] at hs
    split at hs
    · -- there was no tail: nobody to wait for
      obtain rfl := Option.some.inj hs
      exact Mutex.stays (c := .loadNext n) rfl rfl (by rw [hpc]; rfl)
    · rename_i p _
      obtain rfl := Option.some.inj hs
      exact Mutex.stays (c := .setLocked n p) rfl rfl (by rw [hpc]; rfl)
  | setLocked n p =>
    simp only [hpc, proceed] at hs
    obtain rfl := Option.some.inj hs
    rw [access_eq hlive] at *
    exact Mutex.stays (c := .link n p) rfl rfl (by rw [hpc]; rfl)
  | link n p =>
    simp only [hpc, proceed] at hs
    obtain rfl := Option.some.inj hs
    rw [access_eq hlive] at *
    exact Mutex.stays (c := .spin n) (by cases p <;> rfl) (by cases p <;> rfl)
      (by rw [hpc]; rfl)
  | spin n =>
    simp only [hpc, proceed] at hs
    obtain rfl := Option.some.inj hs
    rw [access_eq hlive] at *
    split
    · -- nobody has cleared the flag of the node
      exact Mutex.waits s t
    · exact Mutex.stays (c := .loadNext n) rfl rfl (by rw [hpc]; rfl)
  | loadNext n =>
    simp only [hpc, proceed] at hs
    obtain rfl := Option.some.inj hs
    rw [access_eq hlive] at *
    split
    · exact Mutex.stays (c := .clearHead n) rfl rfl (by rw [hpc]; rfl)
    · rename_i successor _
      exact Mutex.stays (c := .storeHead n successor) rfl rfl (by rw [hpc]; rfl)
  | clearHead n =>
    simp only [hpc, proceed] at hs
    obtain rfl := Option.some.inj hs
    exact Mutex.stays (c := .casTail n) rfl rfl (by rw [hpc]; rfl)
  | casTail n =>
    simp only [hpc, proceed] at hs
    split at hs
    · obtain rfl := Option.some.inj hs
      exact Mutex.stays (c := .free n) rfl rfl (by rw [hpc]; rfl)
    · obtain rfl := Option.some.inj hs
      exact Mutex.stays (c := .awaitNext n) rfl rfl (by rw [hpc]; rfl)
  | awaitNext n =>
    simp only [hpc, proceed] at hs
    obtain rfl := Option.some.inj hs
    rw [access_eq hlive] at *
    split
    · -- the successor has swapped the tail and not linked itself yet
      exact Mutex.waits s t
    · rename_i successor _
      exact Mutex.stays (c := .storeHead n successor) rfl rfl (by rw [hpc]; rfl)
  | storeHead n successor =>
    simp only [hpc, proceed] at hs
    obtain rfl := Option.some.inj hs
    exact Mutex.stays (c := .free n) rfl rfl (by rw [hpc]; rfl)
  | free n =>
    -- with its node gone the call ends, and the thread has the lock
    simp only [hpc, proceed] at hs
    obtain rfl := Option.some.inj hs
    rw [access_eq hlive] at *
    exact Mutex.enters (c := .idle) (l := ()) rfl rfl (by rw [hpc]; rfl) rfl fun k => by simp
  | loadHead =>
    simp only [hpc, proceed] at hs
    split at hs
    · obtain rfl := Option.some.inj hs
      exact Mutex.stays (c := .casHead) rfl rfl (by rw [hpc]; rfl)
    · rename_i successor _
      obtain rfl := Option.some.inj hs
      exact Mutex.stays (c := .wake successor) rfl rfl (by rw [hpc]; rfl)
  | casHead =>
    simp only [hpc, proceed] at hs
    split at hs
    · -- the tail was the head: nobody waits
      obtain rfl := Option.some.inj hs
      exact Mutex.leaves (c := .idle) (l := ()) rfl rfl (by rw [hpc]; rfl) rfl
    · obtain rfl := Option.some.inj hs
      exact Mutex.stays (c := .awaitHead) rfl rfl (by rw [hpc]; rfl)
  | awaitHead =>
    simp only [hpc, proceed] at hs
    split at hs
    · obtain rfl := Option.some.inj hs
      exact Mutex.waits s t
    · rename_i successor _
      obtain rfl := Option.some.inj hs
      exact Mutex.stays (c := .wake successor) rfl rfl (by rw [hpc]; rfl)
  | wake successor =>
    simp only [hpc, proceed] at hs
    obtain rfl := Option.some.inj hs
    rw [access_eq hlive] at *
    exact Mutex.leaves (c := .idle) (l := ()) rfl rfl (by rw [hpc]; rfl) rfl

/-- `K42Lock` is a correct mutex, and its nodes may be allocated anywhere. -/
theorem mutex_correct : (mutex N T).Correct (fun _ => True) (Reachable step init) := by
  refine Mutex.correct_ofPc (fun _ => .start trivial) (fun _ _ _ h _ _ hs => h.step hs trivial)
    (fun _ h => (reachable_inv h).not_crashed)
    (fun _ => ⟨nofun, rfl, fun _ h => by cases h⟩) (fun s a s' t l h hs huse => ?_)
    (fun s a s' t l h hs huse => ?_) (fun s a s' t h h' hs huse => ?_)
    fun s l t u h ht hu => (reachable_inv h).serves.exclusive (Or.inl ht) (Or.inl hu)
  · -- `Acquire` begins
    cases a with
    | acquire t n =>
      obtain ⟨⟨hidle, hfree, -⟩, hs⟩ := Option.ite_none_right_eq_some.mp hs
      obtain rfl := Option.some.inj hs
      injection huse with ht
      subst ht
      exact ⟨by rw [hidle]; rfl, by simp [hfree], .clearNext n, rfl, rfl, rfl⟩
    | release | advance => cases huse
  · -- `Release` begins
    cases a with
    | release t =>
      obtain ⟨⟨hidle, hheld⟩, hs⟩ := Option.ite_none_right_eq_some.mp hs
      obtain rfl := Option.some.inj hs
      injection huse with ht
      subst ht
      exact ⟨by rw [hidle]; rfl, hheld, .loadHead, false, rfl, rfl, rfl, fun k => by simp⟩
    | acquire | advance => cases huse
  · -- an access of a call that has begun
    cases a with
    | advance t =>
      injection huse with ht
      subst ht
      exact advanced hs ((reachable_inv h').not_crashed t)
    | acquire | release => cases huse

end K42

/-! ## `CNALock` -/

namespace Cna

variable {T : Type} [DecidableEq T] {s s' : State T} {t : T}

/-- The call that a thread is in, read off its next access. -/
def phaseOf : Pc T → Phase Unit
  | .idle | .crashed => .out
  | .clearNext | .clearSpin | .swapTail | .setSpin | .link _ | .spin => .acquiring ()
  | .loadNext | .testOne | .casNull | .loadSec | .casSec _ | .grantSec _ | .awaitNext | .keepLocal
  | .findNext | .walk _ _ _ | .testSplice _ _ _ | .loadSplice _ _ _ | .appendSplice _ _ _ _
  | .storeSplice _ _ _ | .cut _ _ _ | .setSecTail _ _ | .passLoad _ | .passStore _ _ | .testSec
  | .loadSucc | .loadMain _ | .flush _ _ | .grantFlush _ | .loadPlain | .grantPlain _ =>
    .releasing ()

/-- The use that an action makes of the lock. -/
def useOf : Action T → Use Unit T
  | .acquire t => .acquire t ()
  | .release t => .release t ()
  | .advance t _ _ => .advance t

variable (T) in
/-- `CNALock` and its users. -/
abbrev mutex : Mutex Unit T :=
  .ofPc init step useOf State.pc phaseOf (· = .crashed) State.holding fun h _ => h = true

/-- No call follows a link that is null. -/
theorem Inv.not_crashed (h : Inv s) (t : T) : s.pc t ≠ .crashed := by
  intro hcr
  have ho := h.owner_of_inside (t := t) (by simp [OutsideOk, hcr])
    (fun hm => by rcases (h.inMain t hm).2 with hpc | ⟨p, hpc⟩ <;> simp [hcr] at hpc)
    fun hs => by have hpc := (h.inSec t hs).2; simp [hcr] at hpc
  have hok := h.ownerOk t ho
  simp [OwnerOk, hcr] at hok

/-- Who is between its calls with the lock is the owner. -/
theorem Inv.owner_of_holding (h : Inv s) (hh : s.holding t = true) : s.owner = some t := by
  have hidle := h.busy t hh
  refine h.owner_of_inside (by simp [OutsideOk, hidle, hh]) (fun hm => ?_) fun hs => ?_
  · rcases (h.inMain t hm).2 with hpc | ⟨p, hpc⟩ <;> simp [hidle] at hpc
  · have hpc := (h.inSec t hs).2
    simp [hidle] at hpc

/-! An access that does not fail stays inside its call or ends it. -/

/-- The accesses of `Acquire`. -/
theorem advanced_acquire {numa : Nat} {keep : Bool} (hpart : (s.pc t).part = .acquire)
    (hs : proceed s t numa keep (s.pc t) = some s') :
    (mutex T).Others t s s' ∧ (mutex T).Advanced t s s' := by
  cases hpc : s.pc t with
  | clearNext =>
    simp only [hpc, proceed] at hs
    obtain rfl := Option.some.inj hs
    exact Mutex.stays (c := .clearSpin) rfl rfl (by rw [hpc]; rfl)
  | clearSpin =>
    simp only [hpc, proceed] at hs
    obtain rfl := Option.some.inj hs
    exact Mutex.stays (c := .swapTail) rfl rfl (by rw [hpc]; rfl)
  | swapTail =>
    simp only [hpc, proceed] at hs
    split at hs
    · -- the queue was empty: what is left is to note that
      obtain rfl := Option.some.inj hs
      exact Mutex.stays (c := .setSpin) rfl rfl (by rw [hpc]; rfl)
    · rename_i tailNode _
      obtain rfl := Option.some.inj hs
      exact Mutex.stays (c := .link tailNode) rfl rfl (by rw [hpc]; rfl)
  | setSpin =>
    simp only [hpc, proceed] at hs
    obtain rfl := Option.some.inj hs
    exact Mutex.enters (c := .idle) (l := ()) rfl rfl (by rw [hpc]; rfl) rfl
      fun k => by simp
  | link tailNode =>
    simp only [hpc, proceed] at hs
    obtain rfl := Option.some.inj hs
    exact Mutex.stays (c := .spin) rfl rfl (by rw [hpc]; rfl)
  | spin =>
    simp only [hpc, proceed] at hs
    split at hs
    · -- the holder has not passed the lock yet
      obtain rfl := Option.some.inj hs
      exact Mutex.waits s t
    · obtain rfl := Option.some.inj hs
      exact Mutex.enters (c := .idle) (l := ()) rfl rfl (by rw [hpc]; rfl) rfl
        fun k => by simp
  | _ => simp [hpc, Pc.part] at hpart

/-- The accesses of `Release` up to the search. -/
theorem advanced_look {numa : Nat} {keep : Bool} (hpart : (s.pc t).part = .look)
    (hs : proceed s t numa keep (s.pc t) = some s') (hlive : s'.pc t ≠ .crashed) :
    (mutex T).Others t s s' ∧ (mutex T).Advanced t s s' := by
  cases hpc : s.pc t with
  | loadNext =>
    simp only [hpc, proceed] at hs
    split at hs
    · obtain rfl := Option.some.inj hs
      exact Mutex.stays (c := .testOne) rfl rfl (by rw [hpc]; rfl)
    · obtain rfl := Option.some.inj hs
      exact Mutex.stays (c := .keepLocal) rfl rfl (by rw [hpc]; rfl)
  | testOne =>
    simp only [hpc, proceed] at hs
    split at hs
    · obtain rfl := Option.some.inj hs
      exact Mutex.stays (c := .casNull) rfl rfl (by rw [hpc]; rfl)
    · obtain rfl := Option.some.inj hs
      exact Mutex.stays (c := .loadSec) rfl rfl (by rw [hpc]; rfl)
  | casNull =>
    simp only [hpc, proceed] at hs
    split at hs
    · -- no node is left in either queue
      obtain rfl := Option.some.inj hs
      exact Mutex.leaves (c := .idle) (l := ()) rfl rfl (by rw [hpc]; rfl) rfl
    · obtain rfl := Option.some.inj hs
      exact Mutex.stays (c := .awaitNext) rfl rfl (by rw [hpc]; rfl)
  | loadSec =>
    simp only [hpc, proceed] at hs
    split at hs
    · rename_i x _
      obtain rfl := Option.some.inj hs
      exact Mutex.stays (c := .casSec x) rfl rfl (by rw [hpc]; rfl)
    · -- a holder whose `spin` is a node has a secondary queue
      obtain rfl := Option.some.inj hs
      exact absurd (Function.update_self ..) hlive
    · obtain rfl := Option.some.inj hs
      exact absurd (Function.update_self ..) hlive
  | casSec secHead =>
    simp only [hpc, proceed] at hs
    split at hs
    · -- the secondary queue becomes the main one
      obtain rfl := Option.some.inj hs
      exact Mutex.stays (c := .grantSec secHead) rfl rfl (by rw [hpc]; rfl)
    · obtain rfl := Option.some.inj hs
      exact Mutex.stays (c := .awaitNext) rfl rfl (by rw [hpc]; rfl)
  | grantSec secHead =>
    simp only [hpc, proceed] at hs
    obtain rfl := Option.some.inj hs
    exact Mutex.leaves (c := .idle) (l := ()) rfl rfl (by rw [hpc]; rfl) rfl
  | awaitNext =>
    simp only [hpc, proceed] at hs
    split at hs
    · -- the newcomer has yet to link itself
      obtain rfl := Option.some.inj hs
      exact Mutex.waits s t
    · obtain rfl := Option.some.inj hs
      exact Mutex.stays (c := .keepLocal) rfl rfl (by rw [hpc]; rfl)
  | _ => simp [hpc, Pc.part] at hpart

/-- The accesses of `find_successor`. -/
theorem advanced_find {numa : Nat} {keep : Bool} (hpart : (s.pc t).part = .find)
    (hs : proceed s t numa keep (s.pc t) = some s') (hlive : s'.pc t ≠ .crashed) :
    (mutex T).Others t s s' ∧ (mutex T).Advanced t s s' := by
  cases hpc : s.pc t with
  | keepLocal =>
    simp only [hpc, proceed] at hs
    split at hs
    · obtain rfl := Option.some.inj hs
      exact Mutex.stays (c := .findNext) rfl rfl (by rw [hpc]; rfl)
    · obtain rfl := Option.some.inj hs
      exact Mutex.stays (c := .testSec) rfl rfl (by rw [hpc]; rfl)
  | findNext =>
    simp only [hpc, proceed] at hs
    generalize (if s.socket t = -1 then (numa : Int) else s.socket t) = mySocket at hs
    split at hs
    · -- there is a successor, for the call has seen one
      obtain rfl := Option.some.inj hs
      exact absurd (Function.update_self ..) hlive
    · rename_i next _
      split at hs
      · obtain rfl := Option.some.inj hs
        exact Mutex.stays (c := .passLoad next) rfl rfl (by rw [hpc]; rfl)
      · obtain rfl := Option.some.inj hs
        exact Mutex.stays (c := .walk next next mySocket) rfl rfl (by rw [hpc]; rfl)
  | walk head last mySocket =>
    simp only [hpc, proceed] at hs
    split at hs
    · -- the queue ends, with nobody from this socket in it
      obtain rfl := Option.some.inj hs
      exact Mutex.stays (c := .testSec) rfl rfl (by rw [hpc]; rfl)
    · rename_i cur _
      split at hs
      · obtain rfl := Option.some.inj hs
        exact Mutex.stays (c := .testSplice head last cur) rfl rfl (by rw [hpc]; rfl)
      · obtain rfl := Option.some.inj hs
        exact Mutex.stays (c := .walk head cur mySocket) rfl rfl (by rw [hpc]; rfl)
  | testSplice head last cur =>
    simp only [hpc, proceed] at hs
    split at hs
    · obtain rfl := Option.some.inj hs
      exact Mutex.stays (c := .loadSplice head last cur) rfl rfl (by rw [hpc]; rfl)
    · obtain rfl := Option.some.inj hs
      exact Mutex.stays (c := .storeSplice head last cur) rfl rfl (by rw [hpc]; rfl)
    · obtain rfl := Option.some.inj hs
      exact Mutex.stays (c := .storeSplice head last cur) rfl rfl (by rw [hpc]; rfl)
  | loadSplice head last cur =>
    simp only [hpc, proceed] at hs
    split at hs
    · rename_i x _
      obtain rfl := Option.some.inj hs
      exact Mutex.stays (c := .appendSplice head last cur x) rfl rfl (by rw [hpc]; rfl)
    · obtain rfl := Option.some.inj hs
      exact absurd (Function.update_self ..) hlive
    · obtain rfl := Option.some.inj hs
      exact absurd (Function.update_self ..) hlive
  | appendSplice head last cur x =>
    simp only [hpc, proceed] at hs
    split at hs
    · obtain rfl := Option.some.inj hs
      exact absurd (Function.update_self ..) hlive
    · obtain rfl := Option.some.inj hs
      exact Mutex.stays (c := .cut head last cur) rfl rfl (by rw [hpc]; rfl)
  | storeSplice head last cur =>
    simp only [hpc, proceed] at hs
    obtain rfl := Option.some.inj hs
    exact Mutex.stays (c := .cut head last cur) rfl rfl (by rw [hpc]; rfl)
  | cut head last cur =>
    simp only [hpc, proceed] at hs
    obtain rfl := Option.some.inj hs
    exact Mutex.stays (c := .setSecTail last cur) rfl rfl (by rw [hpc]; rfl)
  | setSecTail last cur =>
    simp only [hpc, proceed] at hs
    split at hs
    · obtain rfl := Option.some.inj hs
      exact Mutex.stays (c := .passLoad cur) rfl rfl (by rw [hpc]; rfl)
    · obtain rfl := Option.some.inj hs
      exact absurd (Function.update_self ..) hlive
    · obtain rfl := Option.some.inj hs
      exact absurd (Function.update_self ..) hlive
  | _ => simp [hpc, Pc.part] at hpart

/-- The accesses that pass the lock on. -/
theorem advanced_pass {numa : Nat} {keep : Bool} (hpart : (s.pc t).part = .pass)
    (hs : proceed s t numa keep (s.pc t) = some s') (hlive : s'.pc t ≠ .crashed) :
    (mutex T).Others t s s' ∧ (mutex T).Advanced t s s' := by
  cases hpc : s.pc t with
  | passLoad succ =>
    simp only [hpc, proceed] at hs
    obtain rfl := Option.some.inj hs
    exact Mutex.stays (c := .passStore succ _) rfl rfl (by rw [hpc]; rfl)
  | passStore succ v =>
    simp only [hpc, proceed] at hs
    obtain rfl := Option.some.inj hs
    exact Mutex.leaves (c := .idle) (l := ()) rfl rfl (by rw [hpc]; rfl) rfl
  | testSec =>
    simp only [hpc, proceed] at hs
    split at hs
    · -- waiters of other sockets go in front
      obtain rfl := Option.some.inj hs
      exact Mutex.stays (c := .loadSucc) rfl rfl (by rw [hpc]; rfl)
    · obtain rfl := Option.some.inj hs
      exact Mutex.stays (c := .loadPlain) rfl rfl (by rw [hpc]; rfl)
    · obtain rfl := Option.some.inj hs
      exact Mutex.stays (c := .loadPlain) rfl rfl (by rw [hpc]; rfl)
  | loadSucc =>
    simp only [hpc, proceed] at hs
    split at hs
    · rename_i succ _
      obtain rfl := Option.some.inj hs
      exact Mutex.stays (c := .loadMain succ) rfl rfl (by rw [hpc]; rfl)
    · obtain rfl := Option.some.inj hs
      exact absurd (Function.update_self ..) hlive
    · obtain rfl := Option.some.inj hs
      exact absurd (Function.update_self ..) hlive
  | loadMain succ =>
    simp only [hpc, proceed] at hs
    obtain rfl := Option.some.inj hs
    exact Mutex.stays (c := .flush succ _) rfl rfl (by rw [hpc]; rfl)
  | flush succ n =>
    simp only [hpc, proceed] at hs
    split at hs
    · -- the first node of the secondary queue knows the last one
      obtain rfl := Option.some.inj hs
      exact absurd (Function.update_self ..) hlive
    · obtain rfl := Option.some.inj hs
      exact Mutex.stays (c := .grantFlush succ) rfl rfl (by rw [hpc]; rfl)
  | grantFlush succ =>
    simp only [hpc, proceed] at hs
    obtain rfl := Option.some.inj hs
    exact Mutex.leaves (c := .idle) (l := ()) rfl rfl (by rw [hpc]; rfl) rfl
  | loadPlain =>
    simp only [hpc, proceed] at hs
    split at hs
    · -- there is a successor, for the call has seen one
      obtain rfl := Option.some.inj hs
      exact absurd (Function.update_self ..) hlive
    · rename_i n _
      obtain rfl := Option.some.inj hs
      exact Mutex.stays (c := .grantPlain n) rfl rfl (by rw [hpc]; rfl)
  | grantPlain n =>
    simp only [hpc, proceed] at hs
    obtain rfl := Option.some.inj hs
    exact Mutex.leaves (c := .idle) (l := ()) rfl rfl (by rw [hpc]; rfl) rfl
  | _ => simp [hpc, Pc.part] at hpart

theorem advanced {numa : Nat} {keep : Bool} (hs : proceed s t numa keep (s.pc t) = some s')
    (hlive : s'.pc t ≠ .crashed) :
    (mutex T).Others t s s' ∧ (mutex T).Advanced t s s' := by
  cases hpart : (s.pc t).part with
  | outside =>
    cases hpc : s.pc t with
    | idle | crashed => simp [hpc, proceed] at hs
    | _ => simp [hpc, Pc.part] at hpart
  | acquire => exact advanced_acquire hpart hs
  | look => exact advanced_look hpart hs hlive
  | find => exact advanced_find hpart hs hlive
  | pass => exact advanced_pass hpart hs hlive

/-- `CNALock` is a correct mutex, whatever the environment answers. -/
theorem mutex_correct : (mutex T).Correct (fun _ => True) (Reachable step init) := by
  refine Mutex.correct_ofPc (fun _ => .start trivial) (fun _ _ _ h _ _ hs => h.step hs trivial)
    (fun _ h => (reachable_inv h).not_crashed)
    (fun _ => ⟨nofun, rfl, fun _ h => by cases h⟩) (fun s a s' t l h hs huse => ?_)
    (fun s a s' t l h hs huse => ?_) (fun s a s' t h h' hs huse => ?_)
    fun s l t u h ht hu => ?_
  · -- `Acquire` begins
    cases a with
    | acquire t =>
      obtain ⟨⟨hidle, hfree⟩, hs⟩ := Option.ite_none_right_eq_some.mp hs
      obtain rfl := Option.some.inj hs
      injection huse with ht
      subst ht
      exact ⟨by rw [hidle]; rfl, by simp [hfree], .clearNext, rfl, rfl, rfl⟩
    | release | advance => cases huse
  · -- `Release` begins
    cases a with
    | release t =>
      obtain ⟨⟨hidle, hheld⟩, hs⟩ := Option.ite_none_right_eq_some.mp hs
      obtain rfl := Option.some.inj hs
      injection huse with ht
      subst ht
      exact ⟨by rw [hidle]; rfl, hheld, .loadNext, false, rfl, rfl, rfl, fun k => by simp⟩
    | acquire | advance => cases huse
  · -- an access of a call that has begun
    cases a with
    | advance t numa keep =>
      injection huse with ht
      subst ht
      exact advanced hs ((reachable_inv h').not_crashed t)
    | acquire | release => cases huse
  · -- there is one owner
    have howner := (reachable_inv h).owner_of_holding ht
    rw [(reachable_inv h).owner_of_holding hu] at howner
    exact (Option.some.inj howner).symm

end Cna

end LockShield
