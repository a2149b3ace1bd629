import LockShield.Lib.Lts
import LockShield.Lib.Fifo
import Mathlib.Logic.Function.Basic
import Mathlib.Tactic.Set

/-!
# `HemLock`

A thread owns one word, `Grant`, for all the locks it holds: to pass a lock on
it writes the lock's address there and waits until the successor has cleared it.
A thread's `Thread` object is named by the thread; it is allocated by the first
`Acquire`, with an empty `Grant`.

Threads hold several locks here, so a thread has one arrival number for each
lock. What carries the proof is `Inv.granted` and `Inv.handed`: a lock's address
is in `Grant` exactly while the next arrival at that lock has still to clear it,
and until then the owner of the word does nothing but wait.

## Results

* `Inv.granted_unique`, `Inv.grant_none` — a grant is for one successor, and a thread
  outside its release loop has none out.
* `Inv.arrive`, `Inv.depart` — a thread joins a queue and leaves it.
* `inv_proceed`  — every access keeps the invariant.
* `hem_correct`  — the lock is first come, first served, each grant is cleared by the
  successor alone, once and before the next is written, and no assertion fails.
-/

set_option linter.unusedSectionVars false

namespace LockShield.Hem

open Lib

/-- The next access of a thread. Between calls it is `idle`. -/
inductive Pc (L T : Type) where
  | idle
  /-- `assert(Self->Grant.load() == nullptr)` of `Acquire` -/
  | checkGrant (l : L)
  /-- `Tail.exchange(Self)` -/
  | swapTail (l : L)
  /-- `while (pred->Grant.load() != this)` -/
  | spin (l : L) (pred : T)
  /-- `pred->Grant.store(nullptr)` -/
  | clearGrant (l : L) (pred : T)
  /-- `assert(Tail.load() != nullptr)` -/
  | checkTail (l : L)
  /-- `assert(Self->Grant.load() == nullptr)` of `Release` -/
  | checkEmpty (l : L)
  /-- `Tail.compare_exchange_strong(expected, nullptr)` and `assert(v != nullptr)` -/
  | casTail (l : L)
  /-- `Self->Grant.store(this)` -/
  | storeGrant (l : L)
  /-- `while (Self->Grant.load() != nullptr)` -/
  | awaitClear (l : L)
  /-- an assertion failed -/
  | aborted
  deriving DecidableEq

/-- The lock of the call a thread is in. -/
def Pc.lock {L T : Type} : Pc L T → Option L
  | .idle | .aborted => none
  | .checkGrant l | .swapTail l | .spin l _ | .clearGrant l _ | .checkTail l | .checkEmpty l
  | .casTail l | .storeGrant l | .awaitClear l => some l

/-- The lock whose queue the thread is in because of its call. -/
def Pc.queued {L T : Type} : Pc L T → Option L
  | .spin l _ | .clearGrant l _ | .checkTail l | .checkEmpty l | .casTail l | .storeGrant l =>
    some l
  | .idle | .checkGrant _ | .swapTail _ | .awaitClear _ | .aborted => none

/-- The lock whose turn has come to this thread, as the call can tell. -/
def Pc.turn {L T : Type} : Pc L T → Option L
  | .clearGrant l _ | .checkTail l | .checkEmpty l | .casTail l | .storeGrant l => some l
  | .idle | .checkGrant _ | .swapTail _ | .spin _ _ | .awaitClear _ | .aborted => none

/-- The lock that `Release` has still to pass on. -/
def Pc.owns {L T : Type} : Pc L T → Option L
  | .checkEmpty l | .casTail l | .storeGrant l => some l
  | .idle | .checkGrant _ | .swapTail _ | .spin _ _ | .clearGrant _ _ | .checkTail _
  | .awaitClear _ | .aborted => none

/-- The lock and the predecessor whose `Grant` the thread polls or clears. -/
def Pc.pred {L T : Type} : Pc L T → Option (L × T)
  | .spin l p | .clearGrant l p => some (l, p)
  | .idle | .checkGrant _ | .swapTail _ | .checkTail _ | .checkEmpty _ | .casTail _
  | .storeGrant _ | .awaitClear _ | .aborted => none

/-- History: what happened to one `Grant` word. -/
inductive GrantEvent (L T : Type) where
  /-- the owner of the word stored the lock, which it got with arrival `k` -/
  | stored (l : L) (k : Nat)
  /-- `by` cleared the word, waiting for the lock -/
  | cleared (l : L) (t : T)
  deriving DecidableEq

variable (L T : Type)

structure State where
  Tail : L → Option T
  Grant : T → Option L
  pc : T → Pc L T
  /-- the locks a thread has acquired and not begun to release -/
  held : T → List L
  /-- history: the arrivals at each lock, each thread's last arrival number at
  each lock, and the events of each `Grant` -/
  queue : L → Fifo T
  ticket : T → L → Nat
  log : T → List (GrantEvent L T)

variable {L T}

inductive Action (L T : Type) where
  | acquire (t : T) (l : L)
  | release (t : T) (l : L)
  | advance (t : T)

variable [DecidableEq L] [DecidableEq T]

def init : State L T where
  Tail _ := none
  Grant _ := none
  pc _ := .idle
  held _ := []
  queue _ := .empty
  ticket _ _ := 0
  log _ := []

def State.goto (s : State L T) (t : T) (pc : Pc L T) : State L T :=
  { s with pc := Function.update s.pc t pc }

/-- `Acquire` returns. -/
def State.enter (s : State L T) (t : T) (l : L) : State L T :=
  { s with
    pc := Function.update s.pc t .idle
    held := Function.update s.held t (l :: s.held t)
    queue := Function.update s.queue l ((s.queue l).enter t) }

/-- The next access of a call, and what follows it. -/
def proceed (s : State L T) (t : T) : Pc L T → Option (State L T)
  | .idle => none
  | .checkGrant l =>
    -- a failed assert stops the thread
    if s.Grant t = none then some (s.goto t (.swapTail l)) else some (s.goto t .aborted)
  | .swapTail l =>
    let s' := { s with
      Tail := Function.update s.Tail l (some t)
      queue := Function.update s.queue l ((s.queue l).arrive t)
      ticket := Function.update s.ticket t
        (Function.update (s.ticket t) l (s.queue l).arrivals.length) }
    -- the exchange is the thread's arrival, whatever it finds
    match s.Tail l with
    | none => some (s'.goto t (.checkTail l))
    | some pred => some (s'.goto t (.spin l pred))
  | .spin l pred =>
    if s.Grant pred = some l then some (s.goto t (.clearGrant l pred)) else some s
  | .clearGrant l pred =>
    some ({ s with
      Grant := Function.update s.Grant pred none
      log := Function.update s.log pred (s.log pred ++ [GrantEvent.cleared l t]) }.goto t
        (.checkTail l))
  | .checkTail l => if s.Tail l = none then some (s.goto t .aborted) else some (s.enter t l)
  | .checkEmpty l =>
    if s.Grant t = none then some (s.goto t (.casTail l)) else some (s.goto t .aborted)
  | .casTail l =>
    if s.Tail l = some t then
      some ({ s with
        Tail := Function.update s.Tail l none
        queue := Function.update s.queue l (s.queue l).depart }.goto t .idle)
    -- the CAS failed: `v` is what it read, and `assert(v != nullptr)` checks it
    else if s.Tail l = none then some (s.goto t .aborted)
    else some (s.goto t (.storeGrant l))
  | .storeGrant l =>
    some ({ s with
      Grant := Function.update s.Grant t (some l)
      log := Function.update s.log t (s.log t ++ [GrantEvent.stored l (s.ticket t l)])
      queue := Function.update s.queue l (s.queue l).depart }.goto t (.awaitClear l))
  | .awaitClear _ => if s.Grant t = none then some (s.goto t .idle) else some s
  | .aborted => none

/-- One step of one thread. Threads never acquire what they hold and release
only what they hold. -/
def step (s : State L T) : Action L T → Option (State L T)
  | .acquire t l =>
    if s.pc t = .idle ∧ notHeld (s.held t) l then some (s.goto t (.checkGrant l)) else none
  | .release t l =>
    if s.pc t = .idle ∧ l ∈ s.held t then
      some ({ s with held := Function.update s.held t ((s.held t).erase l) }.goto t (.checkEmpty l))
    else none
  | .advance t => proceed s t (s.pc t)

/-- The thread is in the lock's queue: from its exchange to the CAS or the store
that passes the lock on. -/
def Queued (s : State L T) (t : T) (l : L) : Prop := l ∈ s.held t ∨ (s.pc t).queued = some l

/-- The thread has been let in and has not passed the lock on. -/
def Owns (s : State L T) (t : T) (l : L) : Prop := l ∈ s.held t ∨ (s.pc t).owns = some l

/-- Every lock stored in the word of `p` was cleared before the next store, by
the thread that arrived at that lock right after `p`. -/
inductive Settled (queue : L → Fifo T) (p : T) : List (GrantEvent L T) → Prop where
  | nil : Settled queue p []
  | handOver {log : List (GrantEvent L T)} {l : L} {k : Nat} {u : T} :
      Settled queue p log → (queue l).arrivals[k]? = some p →
      (queue l).arrivals[k + 1]? = some u →
      Settled queue p (log ++ [.stored l k, .cleared l u])

/-- The word is empty and all is settled, or it holds the last lock stored. -/
def GrantLog (s : State L T) (p : T) : Prop :=
  match s.Grant p with
  | none => Settled s.queue p (s.log p)
  | some l => ∃ log, s.log p = log ++ [.stored l (s.ticket p l)] ∧ Settled s.queue p log ∧
      (s.queue l).arrivals[s.ticket p l]? = some p

structure Inv (s : State L T) : Prop where
  alive : ∀ t, s.pc t ≠ .aborted
  nodup : ∀ t, (s.held t).Nodup
  /-- the lock of a call is not held -/
  apart : ∀ t l, (s.pc t).lock = some l → l ∉ s.held t
  /-- who is in a queue is there once, and conversely -/
  place : ∀ l k t, (s.queue l).At k t → Queued s t l ∧ s.ticket t l = k
  queued : ∀ t l, Queued s t l → (s.queue l).At (s.ticket t l) t
  /-- who holds the lock or knows that its turn has come is at the front -/
  turn : ∀ t l, l ∈ s.held t ∨ (s.pc t).turn = some l → s.ticket t l = (s.queue l).departed
  bound : ∀ l, (s.queue l).departed ≤ (s.queue l).arrivals.length
  tail : ∀ l, s.Tail l = if (s.queue l).departed = (s.queue l).arrivals.length then none
    else (s.queue l).arrivals.getLast?
  waits : ∀ t l p, (s.pc t).pred = some (l, p) → 0 < s.ticket t l ∧
    (s.queue l).arrivals[s.ticket t l - 1]? = some p
  contested : ∀ t l, s.pc t = .storeGrant l → s.ticket t l + 1 < (s.queue l).arrivals.length
  /-- a lock in `Grant` waits for the next arrival to clear it -/
  granted : ∀ p l, s.Grant p = some l → s.pc p = .awaitClear l ∧
    s.ticket p l + 1 = (s.queue l).departed ∧
    ∃ u, (s.pc u).pred = some (l, p) ∧ s.ticket u l = (s.queue l).departed
  /-- the next arrival finds the lock in `Grant` -/
  handed : ∀ t l p, (s.pc t).pred = some (l, p) → s.ticket t l = (s.queue l).departed →
    s.Grant p = some l
  logged : ∀ p, GrantLog s p
  serves : ∀ l, (s.queue l).Serves fun t => Owns s t l

variable {s s' : State L T} {t u p : T} {l : L}

theorem inv_init : Inv (init : State L T) :=
  { alive := fun _ h => by cases h
    nodup := fun _ => List.nodup_nil
    apart := fun _ _ h => by cases h
    place := fun _ _ _ h => absurd h Fifo.not_at_empty
    queued := fun _ _ h => by rcases h with h | h <;> cases h
    turn := fun _ _ h => by rcases h with h | h <;> cases h
    bound := fun _ => Nat.le_refl 0
    tail := fun _ => rfl
    waits := fun _ _ _ h => by cases h
    contested := fun _ _ h => by cases h
    granted := fun _ _ h => by cases h
    handed := fun _ _ _ h => by cases h
    logged := fun _ => Settled.nil
    serves := fun _ => Fifo.serves_empty fun _ h => by rcases h with h | h <;> cases h }

/-! ### What the next access tells -/

theorem Pc.queued_of_turn {pc : Pc L T} (h : pc.turn = some l) : pc.queued = some l := by
  cases pc <;> simp_all [Pc.turn, Pc.queued]

theorem Pc.turn_of_owns {pc : Pc L T} (h : pc.owns = some l) : pc.turn = some l := by
  cases pc <;> simp_all [Pc.turn, Pc.owns]

theorem Pc.pred_of_owns {pc : Pc L T} (h : pc.owns = some l) : pc.pred = none := by
  cases pc <;> simp_all [Pc.owns, Pc.pred]

theorem Pc.queued_of_pred {pc : Pc L T} (h : pc.pred = some (l, p)) : pc.queued = some l := by
  cases pc <;> simp_all [Pc.queued, Pc.pred]

theorem Pc.lock_of_queued {pc : Pc L T} (h : pc.queued = some l) : pc.lock = some l := by
  cases pc <;> simp_all [Pc.queued, Pc.lock]

/-- A waiter's predecessor is a queue position that the waiter can see. -/
theorem Pc.pred_cases {pc : Pc L T} (h : pc.queued = some l) :
    (∃ p, pc.pred = some (l, p)) ∨ pc.turn = some l := by
  cases pc <;> simp_all [Pc.queued, Pc.pred, Pc.turn]

theorem Owns.queued (h : Owns s t l) : Queued s t l :=
  h.imp_right fun h => Pc.queued_of_turn (Pc.turn_of_owns h)

theorem Inv.front (h : Inv s) (hown : Owns s t l) : (s.queue l).At (s.queue l).departed t := by
  have hat := h.queued t l hown.queued
  rwa [h.turn t l (hown.imp_right Pc.turn_of_owns)] at hat

/-- A thread that polls its predecessor's word holds none of the two locks. -/
theorem Inv.pred_queued (h : Inv s) (hp : (s.pc t).pred = some (l, p)) :
    (s.queue l).At (s.ticket t l) t :=
  h.queued t l (Or.inr (Pc.queued_of_pred hp))

/-- A thread at the front waits for nobody but a predecessor that has left. -/
theorem Inv.pred_left (h : Inv s) (hp : (s.pc t).pred = some (l, p))
    (hg : s.Grant p = some l) : s.ticket t l = (s.queue l).departed := by
  obtain ⟨hpos, hpred⟩ := h.waits t l p hp
  have hat := h.pred_queued hp
  by_contra hne
  have hlo := hat.2
  -- the predecessor would still be in the queue
  have hatp : (s.queue l).At (s.ticket t l - 1) p := ⟨hpred, by omega⟩
  obtain ⟨hpc, -, -⟩ := h.granted p l hg
  rcases (h.place l _ p hatp).1 with hheld | hq
  · exact h.apart p l (by rw [hpc]; rfl) hheld
  · rw [hpc] at hq
    cases hq

/-- A lock in `Grant` has one thread to clear it. -/
theorem Inv.granted_unique (h : Inv s) (hg : s.Grant p = some l)
    (ht : (s.pc t).pred = some (l, p)) (hu : (s.pc u).pred = some (l, p)) : t = u := by
  have hat := h.pred_queued ht
  have hau := h.pred_queued hu
  rw [h.pred_left ht hg] at hat
  rw [h.pred_left hu hg] at hau
  exact hat.unique hau

theorem Inv.grant_none (h : Inv s) (hpc : ∀ l, s.pc t ≠ .awaitClear l) : s.Grant t = none := by
  cases hg : s.Grant t with
  | none => rfl
  | some l => exact absurd (h.granted t l hg).1 (hpc l)

theorem Inv.tail_eq (h : Inv s) (l : L) : s.Tail l = (s.queue l).last := h.tail l

/-- The thread at the front finds the tail set. -/
theorem Inv.tail_ne_none (h : Inv s) (hat : (s.queue l).At (s.queue l).departed t) :
    s.Tail l ≠ none := by
  rw [h.tail_eq]
  exact hat.last_ne_none

theorem Settled.mono {queue queue' : L → Fifo T} {log : List (GrantEvent L T)}
    (h : Settled queue p log)
    (harr : ∀ (l : L) (k : Nat) (u : T), (queue l).arrivals[k]? = some u →
      (queue' l).arrivals[k]? = some u) :
    Settled queue' p log := by
  induction h with
  | nil => exact Settled.nil
  | handOver _ hp hu ih => exact Settled.handOver ih (harr _ _ _ hp) (harr _ _ _ hu)

theorem GrantLog.mono (h : GrantLog s p) (hgrant : s'.Grant p = s.Grant p)
    (hlog : s'.log p = s.log p) (htick : ∀ l, s.Grant p = some l → s'.ticket p l = s.ticket p l)
    (harr : ∀ (l : L) (k : Nat) (u : T), (s.queue l).arrivals[k]? = some u →
      (s'.queue l).arrivals[k]? = some u) :
    GrantLog s' p := by
  unfold GrantLog at h ⊢
  rw [hgrant, hlog]
  -- a grant that is out is the last entry of the log, and belongs to a ticket
  cases hg : s.Grant p with
  | none =>
    rw [hg] at h
    exact h.mono harr
  | some l =>
    rw [hg] at h
    obtain ⟨log, heq, hsettled, hk⟩ := h
    refine ⟨log, ?_, hsettled.mono harr, ?_⟩
    · rw [htick l hg]
      exact heq
    · rw [htick l hg]
      exact harr _ _ _ hk

/-- A step of thread `t` that changes nothing but its own position. -/
theorem Inv.quiet (h : Inv s) (hqueue : s'.queue = s.queue) (htail : s'.Tail = s.Tail)
    (hgrant : s'.Grant = s.Grant) (htick : s'.ticket = s.ticket) (hlog : s'.log = s.log)
    (hothers : ∀ u, u ≠ t → s'.pc u = s.pc u ∧ s'.held u = s.held u)
    (hnone : s.Grant t = none) (halive : s'.pc t ≠ .aborted) (hnodup : (s'.held t).Nodup)
    (hapart : ∀ l, (s'.pc t).lock = some l → l ∉ s'.held t)
    (hqueued : ∀ l, Queued s' t l ↔ Queued s t l) (howns : ∀ l, Owns s' t l ↔ Owns s t l)
    (hturn : ∀ l, l ∈ s'.held t ∨ (s'.pc t).turn = some l →
      s.ticket t l = (s.queue l).departed)
    (hpred : (s'.pc t).pred = (s.pc t).pred)
    (hcont : ∀ l, s'.pc t = .storeGrant l → s.ticket t l + 1 < (s.queue l).arrivals.length) :
    Inv s' := by
  have hqd : ∀ u l, Queued s' u l ↔ Queued s u l := by
    intro u l
    by_cases hu : u = t
    · rw [hu, hqueued]
    · simp only [Queued, hothers u hu]
  have hown : ∀ u l, Owns s' u l ↔ Owns s u l := by
    intro u l
    by_cases hu : u = t
    · rw [hu, howns]
    · simp only [Owns, hothers u hu]
  have hpr : ∀ u, (s'.pc u).pred = (s.pc u).pred := by
    intro u
    by_cases hu : u = t
    · rw [hu, hpred]
    · rw [(hothers u hu).1]
  refine
    { alive := fun u => ?_
      nodup := fun u => ?_
      apart := fun u l => ?_
      place := by simp only [hqd, hqueue, htick]; exact h.place
      queued := by simp only [hqd, hqueue, htick]; exact h.queued
      turn := fun u l hu => ?_
      bound := by rw [hqueue]; exact h.bound
      tail := by rw [hqueue, htail]; exact h.tail
      waits := by simp only [hpr, hqueue, htick]; exact h.waits
      contested := fun u l hu => ?_
      granted := fun p l hg => ?_
      handed := by simp only [hpr, hqueue, htick, hgrant]; exact h.handed
      logged := fun p => (h.logged p).mono (by rw [hgrant]) (by rw [hlog]) (by simp [htick])
        (by simp [hqueue])
      serves := fun l => by rw [hqueue]; exact (h.serves l).congr fun u => hown u l }
  · by_cases hu : u = t
    · rw [hu]
      exact halive
    · rw [(hothers u hu).1]
      exact h.alive u
  · by_cases hu : u = t
    · rw [hu]
      exact hnodup
    · rw [(hothers u hu).2]
      exact h.nodup u
  · by_cases hu : u = t
    · rw [hu]
      exact hapart l
    · rw [(hothers u hu).1, (hothers u hu).2]
      exact h.apart u l
  · rw [htick, hqueue]
    by_cases hut : u = t
    · subst hut
      exact hturn l hu
    · rw [(hothers u hut).1, (hothers u hut).2] at hu
      exact h.turn u l hu
  · rw [htick, hqueue]
    by_cases hut : u = t
    · subst hut
      exact hcont l hu
    · rw [(hothers u hut).1] at hu
      exact h.contested u l hu
  · rw [hgrant] at hg
    -- a word that holds a lock is not the word of `t`
    have hp : p ≠ t := by
      intro hp
      rw [hp, hnone] at hg
      cases hg
    rw [(hothers p hp).1, htick, hqueue]
    obtain ⟨h1, h2, u, hu, hfront⟩ := h.granted p l hg
    exact ⟨h1, h2, u, by rw [hpr, hu], hfront⟩

/-- A thread that only moves on within a call. -/
theorem inv_goto {pc pc' : Pc L T} (h : Inv s) (hcase : s.pc t = pc) (hnone : s.Grant t = none)
    (halive : pc' ≠ .aborted) (hlock : pc'.lock = pc.lock) (hqueued : pc'.queued = pc.queued)
    (howns : pc'.owns = pc.owns) (hpred : pc'.pred = pc.pred)
    (hturn : ∀ l, pc'.turn = some l → s.ticket t l = (s.queue l).departed)
    (hcont : ∀ l, pc' = .storeGrant l → s.ticket t l + 1 < (s.queue l).arrivals.length) :
    Inv (s.goto t pc') := by
  -- the next access has the same lock, place and predecessor
  subst hcase
  have hpc : (s.goto t pc').pc t = pc' := Function.update_self ..
  refine h.quiet (t := t) rfl rfl rfl rfl rfl (fun u hu => by simp [State.goto, hu]) hnone ?_
    (h.nodup t) ?_ ?_ ?_ ?_ ?_ ?_
  · rw [hpc]
    exact halive
  · rw [hpc, hlock]
    exact h.apart t
  · intro l
    rw [Queued, Queued, hpc, hqueued]
    rfl
  · intro l
    rw [Owns, Owns, hpc, howns]
    rfl
  · rw [hpc]
    intro l hl
    exact hl.elim (fun hl => h.turn t l (Or.inl hl)) (hturn l)
  · rw [hpc, hpred]
  · rw [hpc]
    exact hcont

theorem inv_acquire (h : Inv s) (hidle : s.pc t = .idle) (hl : l ∉ s.held t) :
    Inv (s.goto t (.checkGrant l)) := by
  have hpc : (s.goto t (.checkGrant l)).pc t = .checkGrant l := Function.update_self ..
  -- the thread is in no queue yet, so that only its own part is to be shown
  refine h.quiet (t := t) rfl rfl rfl rfl rfl (fun u hu => by simp [State.goto, hu])
    (h.grant_none (by simp [hidle])) (by simp [hpc]) (h.nodup t) ?_ ?_ ?_ ?_ ?_ ?_
  · intro k hk
    rw [hpc] at hk
    obtain rfl : l = k := Option.some.inj hk
    exact hl
  · intro k
    simp [Queued, hpc, hidle, Pc.queued]
    rfl
  · intro k
    simp [Owns, hpc, hidle, Pc.owns]
    rfl
  · intro k hk
    rw [hpc] at hk
    exact hk.elim (fun hk => h.turn t k (Or.inl hk)) fun hk => by cases hk
  · simp [hpc, hidle, Pc.pred]
  · simp [hpc]

/-- `Release` begins. -/
theorem inv_release (h : Inv s) (hidle : s.pc t = .idle) (hl : l ∈ s.held t) :
    Inv ({ s with held := Function.update s.held t ((s.held t).erase l) }.goto t
      (.checkEmpty l)) := by
  set s' := ({ s with held := Function.update s.held t ((s.held t).erase l) } : State L T).goto t
    (.checkEmpty l) with hs'
  have hpc : s'.pc t = .checkEmpty l := Function.update_self ..
  have hheld : s'.held t = (s.held t).erase l := Function.update_self ..
  have hmem : ∀ k, k ∈ s'.held t ↔ k ≠ l ∧ k ∈ s.held t := by
    intro k
    rw [hheld, (h.nodup t).mem_erase_iff]
  -- what `t` held it holds or is releasing now
  have hiff : ∀ k, k ∈ s'.held t ∨ l = k ↔ k ∈ s.held t := by
    intro k
    rw [hmem]
    constructor
    · rintro (hk | rfl)
      · exact hk.2
      · exact hl
    · intro hk
      by_cases hkl : l = k
      · exact Or.inr hkl
      · exact Or.inl ⟨Ne.symm hkl, hk⟩
  refine h.quiet (t := t) rfl rfl rfl rfl rfl (fun u hu => by simp [hs', State.goto, hu])
    (h.grant_none (by simp [hidle])) (by simp [hpc]) ?_ ?_ ?_ ?_ ?_ ?_ ?_
  · rw [hheld]
    exact (h.nodup t).erase l
  · intro k hk
    rw [hpc] at hk
    obtain rfl : l = k := Option.some.inj hk
    simp [hmem]
  · intro k
    simp [Queued, hpc, hidle, Pc.queued, hiff]
  · intro k
    simp [Owns, hpc, hidle, Pc.owns, hiff]
  · intro k hk
    refine h.turn t k (Or.inl ((hiff k).mp (hk.imp_right fun hk => ?_)))
    rw [hpc] at hk
    exact Option.some.inj hk
  · simp [hpc, hidle, Pc.pred]
  · simp [hpc]

/-- `awaitClear` ends: the successor has cleared the word. -/
theorem inv_awaitClear (h : Inv s) (hcase : s.pc t = .awaitClear l) (hnone : s.Grant t = none) :
    Inv (s.goto t .idle) := by
  have hpc : (s.goto t .idle).pc t = .idle := Function.update_self ..
  -- the thread left the queue when it granted the lock
  refine h.quiet (t := t) rfl rfl rfl rfl rfl (fun u hu => by simp [State.goto, hu]) hnone
    (by simp [hpc]) (h.nodup t) ?_ ?_ ?_ ?_ ?_ ?_
  · intro k hk
    rw [hpc] at hk
    cases hk
  · intro k
    simp [Queued, hpc, hcase, Pc.queued]
    rfl
  · intro k
    simp [Owns, hpc, hcase, Pc.owns]
    rfl
  · intro k hk
    rw [hpc] at hk
    exact hk.elim (fun hk => h.turn t k (Or.inl hk)) fun hk => by cases hk
  · simp [hpc, hcase, Pc.pred]
  · simp [hpc]

/-! ### Joining a queue -/

/-- Where the exchange leads: straight on if the queue is empty, else to the word
of the last in the queue. -/
theorem Inv.newcomer {pc : Pc L T} (h : Inv s)
    (hpc : (s.Tail l = none ∧ pc = .checkTail l) ∨ ∃ p, s.Tail l = some p ∧ pc = .spin l p) :
    (∀ k, pc.turn = some k → k = l ∧ (s.queue l).departed = (s.queue l).arrivals.length) ∧
    ∀ k p, pc.pred = some (k, p) → k = l ∧
      (s.queue l).At ((s.queue l).arrivals.length - 1) p := by
  have hbound := h.bound l
  have htail := h.tail_eq l
  rcases hpc with ⟨hnone, rfl⟩ | ⟨q, hsome, rfl⟩
  · rw [hnone, eq_comm, Fifo.last_eq_none_iff hbound] at htail
    refine ⟨fun k hk => ?_, fun k p hp => by cases hp⟩
    exact ⟨(Option.some.inj hk).symm, htail⟩
  · rw [hsome] at htail
    refine ⟨fun k hk => (by cases hk), fun k p hp => ?_⟩
    obtain ⟨rfl, rfl⟩ := Prod.mk.inj (Option.some.inj hp)
    exact ⟨rfl, Fifo.at_of_last hbound htail.symm⟩

/-- The exchange of `Acquire`. -/
theorem Inv.arrive {pc : Pc L T} (h : Inv s) (hcase : s.pc t = .swapTail l)
    (hpc : (s.Tail l = none ∧ pc = .checkTail l) ∨ ∃ p, s.Tail l = some p ∧ pc = .spin l p) :
    Inv ({ s with
      Tail := Function.update s.Tail l (some t)
      queue := Function.update s.queue l ((s.queue l).arrive t)
      ticket := Function.update s.ticket t
        (Function.update (s.ticket t) l (s.queue l).arrivals.length) }.goto t pc) := by
  have hbound := h.bound l
  obtain ⟨hturnt, hpredt⟩ := h.newcomer hpc
  set s' := ({ s with
      Tail := Function.update s.Tail l (some t)
      queue := Function.update s.queue l ((s.queue l).arrive t)
      ticket := Function.update s.ticket t
        (Function.update (s.ticket t) l (s.queue l).arrivals.length) } : State L T).goto t pc
    with hs'
  have hpct : s'.pc t = pc := Function.update_self ..
  have hothers : ∀ u, u ≠ t → s'.pc u = s.pc u := fun u hu => Function.update_of_ne hu ..
  have htickt : s'.ticket t l = (s.queue l).arrivals.length := by simp [hs', State.goto]
  have hticko : ∀ u k, u ≠ t ∨ k ≠ l → s'.ticket u k = s.ticket u k := by
    intro u k huk
    by_cases hu : u = t
    · subst hu
      simp [hs', State.goto, huk.resolve_left fun hn => hn rfl]
    · simp [hs', State.goto, hu]
  have hat : ∀ k j u, (s'.queue k).At j u ↔
      (s.queue k).At j u ∨ (k = l ∧ j = (s.queue l).arrivals.length ∧ u = t) :=
    fun _ _ _ => Fifo.at_update_arrive hbound
  have hdep : ∀ k, (s'.queue k).departed = (s.queue k).departed := fun _ =>
    Fifo.departed_update_arrive
  have hlen : ∀ k, (s.queue k).arrivals.length ≤ (s'.queue k).arrivals.length := fun _ =>
    Fifo.arrivals_update_arrive.length_le
  have hget : ∀ (k : L) (j : Nat) (u : T), (s.queue k).arrivals[j]? = some u →
      (s'.queue k).arrivals[j]? = some u := fun _ _ _ => Fifo.getElem?_update_arrive
  have hnew : pc.lock = some l ∧ pc.queued = some l ∧ pc.owns = none ∧ pc ≠ .aborted ∧
      (∀ k, pc ≠ .storeGrant k) := by
    rcases hpc with ⟨-, rfl⟩ | ⟨p, -, rfl⟩ <;> simp [Pc.lock, Pc.queued, Pc.owns]
  have hnotheld : l ∉ s.held t := h.apart t l (by rw [hcase]; rfl)
  -- the newcomer joins this queue and no other
  have hqd : ∀ u k, u ≠ t ∨ k ≠ l → (Queued s' u k ↔ Queued s u k) := by
    intro u k huk
    by_cases hu : u = t
    · subst hu
      have hk := huk.resolve_left fun hn => hn rfl
      rw [Queued, Queued, hpct, hnew.2.1, hcase]
      simp [Pc.queued, Ne.symm hk]
      rfl
    · rw [Queued, Queued, hothers u hu]
      rfl
  have hnotin : ∀ u k, Queued s u k → u ≠ t ∨ k ≠ l := by
    intro u k hq
    by_contra hn
    obtain ⟨rfl, rfl⟩ : u = t ∧ k = l := by simpa using hn
    rcases hq with hq | hq
    · exact hnotheld hq
    · rw [hcase] at hq
      cases hq
  refine
    { alive := fun u => ?_
      nodup := h.nodup
      apart := fun u k hk => ?_
      place := fun k j u hj => ?_
      queued := fun u k hq => ?_
      turn := fun u k hk => ?_
      bound := fun k => by rw [hdep]; exact Nat.le_trans (h.bound k) (hlen k)
      tail := Fifo.last_update_arrive hbound h.tail_eq
      waits := fun u k p hp => ?_
      contested := fun u k hu => ?_
      granted := fun p k hg => ?_
      handed := fun u k p hp hfront => ?_
      logged := fun p => (h.logged p).mono rfl rfl (fun k hg => ?_) hget
      serves := Fifo.serves_update_arrive h.serves hbound fun k u => ?_ }
  · by_cases hu : u = t
    · rw [hu, hpct]
      exact hnew.2.2.2.1
    · rw [hothers u hu]
      exact h.alive u
  · by_cases hu : u = t
    · subst hu
      rw [hpct, hnew.1] at hk
      obtain rfl := Option.some.inj hk
      exact hnotheld
    · rw [hothers u hu] at hk
      exact h.apart u k hk
  · rcases (hat k j u).mp hj with hold | ⟨rfl, rfl, rfl⟩
    · obtain ⟨hq, htick⟩ := h.place k j u hold
      have huk := hnotin u k hq
      exact ⟨(hqd u k huk).mpr hq, (hticko u k huk).trans htick⟩
    · exact ⟨Or.inr (by rw [hpct]; exact hnew.2.1), htickt⟩
  · by_cases huk : u ≠ t ∨ k ≠ l
    · rw [hticko u k huk]
      exact (hat ..).mpr (Or.inl (h.queued u k ((hqd u k huk).mp hq)))
    · obtain ⟨rfl, rfl⟩ : u = t ∧ k = l := by simpa using huk
      rw [htickt]
      exact (hat ..).mpr (Or.inr ⟨rfl, rfl, rfl⟩)
  · rw [hdep]
    by_cases hu : u = t
    · subst hu
      rcases hk with hheld | hk
      · rw [hticko u k (hnotin u k (Or.inl hheld))]
        exact h.turn u k (Or.inl hheld)
      · -- its turn has come at once, so the queue is empty
        rw [hpct] at hk
        obtain ⟨rfl, hempty⟩ := hturnt k hk
        rw [htickt, hempty]
    · rw [hothers u hu] at hk
      rw [hticko u k (Or.inl hu)]
      exact h.turn u k hk
  · by_cases hu : u = t
    · subst hu
      rw [hpct] at hp
      obtain ⟨rfl, hlast⟩ := hpredt k p hp
      have hlt := hlast.lt
      rw [htickt]
      exact ⟨by omega, hget _ _ _ hlast.1⟩
    · rw [hothers u hu] at hp
      rw [hticko u k (Or.inl hu)]
      obtain ⟨hpos, hk⟩ := h.waits u k p hp
      exact ⟨hpos, hget _ _ _ hk⟩
  · by_cases hut : u = t
    · subst hut
      rw [hpct] at hu
      exact absurd hu (hnew.2.2.2.2 k)
    · rw [hothers u hut] at hu
      rw [hticko u k (Or.inl hut)]
      exact Nat.lt_of_lt_of_le (h.contested u k hu) (hlen k)
  · have hg : s.Grant p = some k := hg
    obtain ⟨hpc', htick, u, hu, hfront⟩ := h.granted p k hg
    have hp : p ≠ t := by
      intro hp
      rw [hp, hcase] at hpc'
      cases hpc'
    -- neither the granter nor its successor is the newcomer
    have hut : u ≠ t := by
      intro hut
      rw [hut, hcase] at hu
      cases hu
    rw [hothers p hp, hdep, hticko p k (Or.inl hp)]
    exact ⟨hpc', htick, u, by rw [hothers u hut, hu], (hticko u k (Or.inl hut)).trans hfront⟩
  · rw [hdep] at hfront
    by_cases hu : u = t
    · subst hu
      rw [hpct] at hp
      obtain ⟨rfl, hlast⟩ := hpredt k p hp
      -- who waits for a predecessor in the queue is not its front
      have hlo := hlast.2
      have hlt := hlast.lt
      rw [htickt] at hfront
      omega
    · rw [hothers u hu] at hp
      rw [hticko u k (Or.inl hu)] at hfront
      exact h.handed u k p hp hfront
  · have hpc' := (h.granted p k hg).1
    refine hticko p k (Or.inl fun hp => ?_)
    rw [hp, hcase] at hpc'
    cases hpc'
  · by_cases hu : u = t
    · subst hu
      rw [Owns, Owns, hpct, hnew.2.2.1, hcase]
      rfl
    · rw [Owns, Owns, hothers u hu]
      rfl

/-- `Acquire` returns. -/
theorem inv_enter (h : Inv s) (hcase : s.pc t = .checkTail l) : Inv (s.enter t l) := by
  have hat := h.queued t l (Or.inr (by rw [hcase]; rfl))
  have hfront := h.turn t l (Or.inr (by rw [hcase]; rfl))
  rw [hfront] at hat
  have hnotin : l ∉ s.held t := h.apart t l (by rw [hcase]; rfl)
  set s' := s.enter t l with hs'
  have hpc : s'.pc t = .idle := Function.update_self ..
  have hheld : s'.held t = l :: s.held t := Function.update_self ..
  have hothers : ∀ u, u ≠ t → s'.pc u = s.pc u ∧ s'.held u = s.held u := by
    intro u hu
    simp [hs', State.enter, hu]
  have hiff : ∀ k j u, (s'.queue k).At j u ↔ (s.queue k).At j u := fun _ _ _ =>
    Fifo.at_update_enter
  have hdep : ∀ k, (s'.queue k).departed = (s.queue k).departed := fun _ =>
    Fifo.departed_update_enter
  have harr : ∀ k, (s'.queue k).arrivals = (s.queue k).arrivals := fun _ =>
    Fifo.arrivals_update_enter
  -- the lock moves from the call to the locks held, and the queues stay
  have hqd : ∀ u k, Queued s' u k ↔ Queued s u k := by
    intro u k
    by_cases hu : u = t
    · subst hu
      simp [Queued, hpc, hheld, hcase, Pc.queued, or_comm, eq_comm]
    · simp only [Queued, hothers u hu]
  have hpr : ∀ u, (s'.pc u).pred = (s.pc u).pred := by
    intro u
    by_cases hu : u = t
    · rw [hu, hpc, hcase]
      rfl
    · rw [(hothers u hu).1]
  refine
    { alive := fun u => ?_
      nodup := fun u => ?_
      apart := fun u k hk => ?_
      place := fun k j u hj => by rw [hqd]; exact h.place k j u ((hiff ..).mp hj)
      queued := fun u k hq => (hiff ..).mpr (h.queued u k ((hqd u k).mp hq))
      turn := fun u k hk => ?_
      bound := fun k => by rw [harr, hdep]; exact h.bound k
      tail := fun k => by rw [harr, hdep]; exact h.tail k
      waits := fun u k p hp => by rw [harr]; exact h.waits u k p (by rw [← hpr]; exact hp)
      contested := fun u k hu => ?_
      granted := fun p k hg => ?_
      handed := fun u k p hp hd => ?_
      logged := fun p => (h.logged p).mono rfl rfl (fun _ _ => rfl) fun k j u hj => by
        rw [harr]; exact hj
      serves := Fifo.serves_update_enter h.serves hat ?_ ?_ fun k u huk => ?_ }
  · by_cases hu : u = t
    · rw [hu, hpc]
      simp
    · rw [(hothers u hu).1]
      exact h.alive u
  · by_cases hu : u = t
    · rw [hu, hheld]
      exact List.nodup_cons.mpr ⟨hnotin, h.nodup t⟩
    · rw [(hothers u hu).2]
      exact h.nodup u
  · by_cases hu : u = t
    · rw [hu, hpc] at hk
      cases hk
    · rw [(hothers u hu).1] at hk
      rw [(hothers u hu).2]
      exact h.apart u k hk
  · rw [hdep]
    by_cases hu : u = t
    · subst hu
      rw [hheld, hpc] at hk
      -- the front is the place that `t` enters from
      rcases hk with hk | hk
      · rcases List.mem_cons.mp hk with rfl | hk
        · exact hfront
        · exact h.turn u k (Or.inl hk)
      · cases hk
    · rw [(hothers u hu).1, (hothers u hu).2] at hk
      exact h.turn u k hk
  · rw [harr]
    by_cases hut : u = t
    · rw [hut, hpc] at hu
      cases hu
    · rw [(hothers u hut).1] at hu
      exact h.contested u k hu
  · obtain ⟨h1, h2, u, hu, hd⟩ := h.granted p k hg
    -- `t` is not waiting for its own word to be cleared
    have hp : p ≠ t := by
      intro hp
      rw [hp, hcase] at h1
      cases h1
    rw [(hothers p hp).1, hdep]
    exact ⟨h1, h2, u, by rw [hpr, hu], hd⟩
  · rw [hpr] at hp
    rw [hdep] at hd
    exact h.handed u k p hp hd
  · rintro (ho | ho)
    · exact hnotin ho
    · rw [hcase] at ho
      cases ho
  · exact Or.inl (by rw [hheld]; exact List.mem_cons_self)
  · by_cases hu : u = t
    · subst hu
      have hk := huk.resolve_left fun hn => hn rfl
      simp [Owns, hheld, hpc, hcase, Pc.owns, hk]
    · simp only [Owns, hothers u hu]

/-! ### The hand-over -/

/-- The successor clears the word of its predecessor. -/
theorem inv_clearGrant (h : Inv s) (hcase : s.pc t = .clearGrant l p) :
    Inv ({ s with
      Grant := Function.update s.Grant p none
      log := Function.update s.log p (s.log p ++ [GrantEvent.cleared l t]) }.goto t
        (.checkTail l)) := by
  have hpredt : (s.pc t).pred = some (l, p) := by rw [hcase]; rfl
  have hturn := h.turn t l (Or.inr (by rw [hcase]; rfl))
  have hg := h.handed t l p hpredt hturn
  obtain ⟨hpcp, htickp, -⟩ := h.granted p l hg
  set s' := ({ s with
      Grant := Function.update s.Grant p none
      log := Function.update s.log p (s.log p ++ [GrantEvent.cleared l t]) } : State L T).goto t
        (.checkTail l)
    with hs'
  have hpc : s'.pc t = .checkTail l := Function.update_self ..
  have hothers : ∀ u, u ≠ t → s'.pc u = s.pc u := fun u hu => Function.update_of_ne hu ..
  have hgrantp : s'.Grant p = none := Function.update_self ..
  have hgrant : ∀ u, u ≠ p → s'.Grant u = s.Grant u := fun u hu => Function.update_of_ne hu ..
  have hlogp : s'.log p = s.log p ++ [.cleared l t] := Function.update_self ..
  have hlog : ∀ u, u ≠ p → s'.log u = s.log u := fun u hu => Function.update_of_ne hu ..
  have hqd : ∀ u k, Queued s' u k ↔ Queued s u k := by
    intro u k
    by_cases hu : u = t
    · subst hu
      rw [Queued, Queued, hpc, hcase]
      rfl
    · rw [Queued, Queued, hothers u hu]
      rfl
  have hown : ∀ u k, Owns s' u k ↔ Owns s u k := by
    intro u k
    by_cases hu : u = t
    · subst hu
      rw [Owns, Owns, hpc, hcase]
      rfl
    · rw [Owns, Owns, hothers u hu]
      rfl
  have hpr : ∀ u k q, (s'.pc u).pred = some (k, q) → (s.pc u).pred = some (k, q) ∧ u ≠ t := by
    intro u k q hu
    have hut : u ≠ t := by
      intro hut
      rw [hut, hpc] at hu
      cases hu
    rw [hothers u hut] at hu
    exact ⟨hu, hut⟩
  refine
    { alive := fun u => ?_
      nodup := h.nodup
      apart := fun u k hk => ?_
      place := fun k j u hj => by rw [hqd]; exact h.place k j u hj
      queued := fun u k hq => h.queued u k ((hqd u k).mp hq)
      turn := fun u k hk => ?_
      bound := h.bound
      tail := h.tail
      waits := fun u k q hq => h.waits u k q (hpr u k q hq).1
      contested := fun u k hu => ?_
      granted := fun q k hq => ?_
      handed := fun u k q hu hd => ?_
      logged := fun q => ?_
      serves := fun k => (h.serves k).congr fun u => hown u k }
  · by_cases hu : u = t
    · rw [hu, hpc]
      simp
    · rw [hothers u hu]
      exact h.alive u
  · by_cases hu : u = t
    · subst hu
      rw [hpc] at hk
      exact h.apart u k (by rw [hcase]; exact hk)
    · rw [hothers u hu] at hk
      exact h.apart u k hk
  · by_cases hu : u = t
    · subst hu
      rw [hpc] at hk
      exact h.turn u k (by rw [hcase]; exact hk)
    · rw [hothers u hu] at hk
      exact h.turn u k hk
  · by_cases hut : u = t
    · rw [hut, hpc] at hu
      cases hu
    · rw [hothers u hut] at hu
      exact h.contested u k hu
  · have hqp : q ≠ p := by
      intro hqp
      rw [hqp, hgrantp] at hq
      cases hq
    rw [hgrant q hqp] at hq
    obtain ⟨h1, h2, u, hu, hd⟩ := h.granted q k hq
    have hqt : q ≠ t := by
      intro hqt
      rw [hqt, hcase] at h1
      cases h1
    -- `t` was the successor of `p` and of nobody else
    have hut : u ≠ t := by
      intro hut
      rw [hut, hpredt] at hu
      exact hqp (Prod.mk.inj (Option.some.inj hu)).2.symm
    rw [hothers q hqt]
    exact ⟨h1, h2, u, by rw [hothers u hut, hu], hd⟩
  · obtain ⟨hpredu, hut⟩ := hpr u k q hu
    have hq := h.handed u k q hpredu hd
    have hqp : q ≠ p := by
      intro hqp
      -- the word holds one lock, which one thread clears
      subst hqp
      rw [hg] at hq
      obtain rfl := Option.some.inj hq
      exact hut (h.granted_unique hg hpredu hpredt)
    rw [hgrant q hqp]
    exact hq
  · by_cases hqp : q = p
    · subst hqp
      -- the clear completes the hand-over that the log ends with
      have hlog' := h.logged q
      unfold GrantLog at hlog' ⊢
      rw [hg] at hlog'
      obtain ⟨log, heq, hsettled, hk⟩ := hlog'
      have hatt := h.pred_queued hpredt
      rw [hturn, ← htickp] at hatt
      rw [hgrantp, hlogp, heq, List.append_assoc]
      exact hsettled.handOver hk hatt.1
    · exact (h.logged q).mono (hgrant q hqp) (hlog q hqp) (fun _ _ => rfl) fun _ _ _ hj => hj

/-- Nothing is left in a `Grant` word of the lock while somebody owns it. -/
theorem Inv.nothing_granted (h : Inv s) (howns : (s.pc t).owns = some l) : s.Grant p ≠ some l := by
  intro hp
  obtain ⟨-, -, u, hu, hd⟩ := h.granted p l hp
  have hau := h.pred_queued hu
  rw [hd] at hau
  rw [hau.unique (h.front (Or.inr howns)), Pc.pred_of_owns howns] at hu
  cases hu

/-- What the CAS or the store does that passes the lock on. -/
theorem Inv.depart (h : Inv s) (howns : (s.pc t).owns = some l)
    (hqueue : s'.queue = Function.update s.queue l (s.queue l).depart)
    (htick : s'.ticket = s.ticket) (hheld : s'.held = s.held)
    (hothers : ∀ u, u ≠ t → s'.pc u = s.pc u ∧ s'.Grant u = s.Grant u ∧ s'.log u = s.log u)
    (htail : ∀ k, k ≠ l → s'.Tail k = s.Tail k)
    (htaill : s'.Tail l = if (s.queue l).departed + 1 = (s.queue l).arrivals.length then none
      else (s.queue l).arrivals.getLast?)
    (hpc : s'.pc t = .idle ∨ s'.pc t = .awaitClear l)
    (hgranted : ∀ k, s'.Grant t = some k → k = l ∧ s'.pc t = .awaitClear l ∧
      ∃ u, (s.pc u).pred = some (l, t) ∧ s.ticket u l = (s.queue l).departed + 1)
    (hhanded : ∀ u q, (s.pc u).pred = some (l, q) → s.ticket u l = (s.queue l).departed + 1 →
      q = t ∧ s'.Grant t = some l)
    (hlogged : GrantLog s' t) : Inv s' := by
  have hown : Owns s t l := Or.inr howns
  have hfront := h.front hown
  have hticket := (h.place l _ t hfront).2
  have hnotin : l ∉ s.held t :=
    h.apart t l (Pc.lock_of_queued (Pc.queued_of_turn (Pc.turn_of_owns howns)))
  have hnone : s.Grant t = none := h.grant_none fun k hk => by
    rw [hk] at howns
    cases howns
  have hself : s'.queue l = (s.queue l).depart := by rw [hqueue, Function.update_self]
  have hother : ∀ k, k ≠ l → s'.queue k = s.queue k := by
    intro k hk
    rw [hqueue, Function.update_of_ne hk]
  have harr : ∀ k, (s'.queue k).arrivals = (s.queue k).arrivals := by
    intro _
    rw [hqueue, Fifo.arrivals_update_depart]
  -- `t` leaves this queue and no other
  have hat : ∀ k j u, (s'.queue k).At j u ↔ (s.queue k).At j u ∧ (u ≠ t ∨ k ≠ l) := by
    intro _ _ _
    rw [hqueue]
    exact Fifo.at_update_depart_iff_ne hfront fun j hj => (h.place l j t hj).2.symm.trans hticket
  have hidle : (s'.pc t).turn = none ∧ (s'.pc t).pred = none ∧ (s'.pc t).queued = none ∧
      (s'.pc t).owns = none ∧ s'.pc t ≠ .aborted ∧ ∀ k, s'.pc t ≠ .storeGrant k := by
    rcases hpc with hpc | hpc <;> simp [hpc, Pc.turn, Pc.pred, Pc.queued, Pc.owns]
  have hqd : ∀ u k, Queued s' u k ↔ Queued s u k ∧ (u ≠ t ∨ k ≠ l) := by
    intro u k
    rw [Queued, Queued, hheld]
    by_cases hu : u = t
    · subst hu
      rw [hidle.2.2.1, Pc.queued_of_turn (Pc.turn_of_owns howns)]
      by_cases hk : k = l
      · subst hk
        simp [hnotin]
      · simp [hk, Ne.symm hk]
    · simp [hothers u hu, hu]
  have hpr : ∀ u k q, (s'.pc u).pred = some (k, q) → (s.pc u).pred = some (k, q) ∧ u ≠ t := by
    intro u k q hu
    have hut : u ≠ t := by
      intro hut
      rw [hut, hidle.2.1] at hu
      cases hu
    rw [(hothers u hut).1] at hu
    exact ⟨hu, hut⟩
  refine
    { alive := fun u => ?_
      nodup := by rw [hheld]; exact h.nodup
      apart := fun u k hk => ?_
      place := fun k j u hj => ?_
      queued := fun u k hq => ?_
      turn := fun u k hk => ?_
      bound := by rw [hqueue]; exact Fifo.departed_update_depart_le hfront h.bound
      tail := fun k => ?_
      waits := fun u k q hq => by rw [htick, harr]; exact h.waits u k q (hpr u k q hq).1
      contested := fun u k hu => ?_
      granted := fun q k hq => ?_
      handed := fun u k q hu hd => ?_
      logged := fun q => ?_
      serves := ?_ }
  · by_cases hu : u = t
    · rw [hu]
      exact hidle.2.2.2.2.1
    · rw [(hothers u hu).1]
      exact h.alive u
  · rw [hheld]
    by_cases hu : u = t
    · subst hu
      rcases hpc with hpc | hpc <;> rw [hpc] at hk
      · cases hk
      · obtain rfl := Option.some.inj hk
        exact hnotin
    · rw [(hothers u hu).1] at hk
      exact h.apart u k hk
  · obtain ⟨hj, huk⟩ := (hat k j u).mp hj
    obtain ⟨hq, hj⟩ := h.place k j u hj
    rw [htick]
    exact ⟨(hqd u k).mpr ⟨hq, huk⟩, hj⟩
  · obtain ⟨hq, huk⟩ := (hqd u k).mp hq
    rw [htick]
    exact (hat ..).mpr ⟨h.queued u k hq, huk⟩
  · have hold : (k ∈ s.held u ∨ (s.pc u).turn = some k) ∧ (u ≠ t ∨ k ≠ l) := by
      rw [hheld] at hk
      by_cases hu : u = t
      · subst hu
        have hk : k ∈ s.held u := hk.resolve_right (by simp [hidle.1])
        exact ⟨Or.inl hk, Or.inr fun hkl => hnotin (hkl ▸ hk)⟩
      · rw [(hothers u hu).1] at hk
        exact ⟨hk, Or.inl hu⟩
    have hkl : k ≠ l := by
      rintro rfl
      -- whoever's turn it is is `t`, which has just left
      have hau := h.queued u k (hold.1.imp_right Pc.queued_of_turn)
      rw [h.turn u k hold.1] at hau
      exact hold.2.elim (fun hu => hu (hau.unique hfront)) fun hn => hn rfl
    rw [htick, hother k hkl]
    exact h.turn u k hold.1
  · by_cases hk : k = l
    · subst hk
      rw [htaill, hself]
      rfl
    · rw [htail k hk, hother k hk]
      exact h.tail k
  · rw [htick, harr]
    by_cases hut : u = t
    · rw [hut] at hu
      exact absurd hu (hidle.2.2.2.2.2 k)
    · rw [(hothers u hut).1] at hu
      exact h.contested u k hu
  · rw [htick]
    by_cases hqt : q = t
    · subst hqt
      obtain ⟨rfl, hpc', u, hu, hd⟩ := hgranted k hq
      -- the granted thread is the next arrival, and polls the word of `t`
      have hut : u ≠ q := by
        intro hut
        rw [hut, Pc.pred_of_owns howns] at hu
        cases hu
      rw [hself]
      refine ⟨hpc', by rw [hticket]; rfl, u, ?_, hd⟩
      rw [(hothers u hut).1]
      exact hu
    · rw [(hothers q hqt).2.1] at hq
      -- the other words hold other locks
      have hkl : k ≠ l := fun hkl => h.nothing_granted howns (hkl ▸ hq)
      obtain ⟨h1, h2, u, hu, hd⟩ := h.granted q k hq
      have hut : u ≠ t := by
        intro hut
        rw [hut, Pc.pred_of_owns howns] at hu
        cases hu
      rw [(hothers q hqt).1, hother k hkl]
      exact ⟨h1, h2, u, by rw [(hothers u hut).1]; exact hu, hd⟩
  · obtain ⟨hu, hut⟩ := hpr u k q hu
    rw [htick] at hd
    by_cases hk : k = l
    · subst hk
      rw [hself] at hd
      obtain ⟨rfl, hg⟩ := hhanded u q hu hd
      exact hg
    · rw [hother k hk] at hd
      have hq := h.handed u k q hu hd
      -- the word of `t` was empty
      have hqt : q ≠ t := by
        intro hqt
        rw [hqt, hnone] at hq
        cases hq
      rw [(hothers q hqt).2.1]
      exact hq
  · by_cases hqt : q = t
    · rw [hqt]
      exact hlogged
    · exact (h.logged q).mono (hothers q hqt).2.1 (hothers q hqt).2.2 (fun _ _ => by rw [htick])
        fun k j u hj => by rw [harr]; exact hj
  · rw [hqueue]
    refine Fifo.serves_update_depart h.serves hown ?_ fun k u huk => ?_
    · rintro (hu | hu)
      · rw [hheld] at hu
        exact hnotin hu
      · rw [hidle.2.2.2.1] at hu
        cases hu
    · rw [Owns, Owns, hheld]
      by_cases hu : u = t
      · subst hu
        have hk := huk.resolve_left fun hn => hn rfl
        rw [hidle.2.2.2.1, howns]
        simp [Ne.symm hk]
      · rw [(hothers u hu).1]

/-- `Release` finds nobody behind it. -/
theorem inv_casTail (h : Inv s) (hcase : s.pc t = .casTail l) (htail : s.Tail l = some t) :
    Inv ({ s with
      Tail := Function.update s.Tail l none
      queue := Function.update s.queue l (s.queue l).depart }.goto t .idle) := by
  have howns : (s.pc t).owns = some l := by rw [hcase]; rfl
  have hfront := h.front (Or.inr howns)
  have hnone : s.Grant t = none := h.grant_none (by simp [hcase])
  -- `t` is both first and last
  have hlast : (s.queue l).departed + 1 = (s.queue l).arrivals.length := by
    have hend := Fifo.at_of_last (h.bound l) ((h.tail_eq l).symm.trans htail)
    have h1 := (h.place l _ t hend).2
    have h2 := (h.place l _ t hfront).2
    have hlt := hfront.lt
    omega
  refine h.depart howns rfl rfl rfl (fun u hu => ⟨Function.update_of_ne hu .., rfl, rfl⟩)
    (fun k hk => Function.update_of_ne hk ..) ?_ (Or.inl (Function.update_self ..))
    (fun k hk => ?_) (fun u q hu hd => ?_) ?_
  · rw [if_pos hlast]
    exact Function.update_self ..
  · have hk : s.Grant t = some k := hk
    rw [hnone] at hk
    cases hk
  · have := (h.pred_queued hu).lt
    omega
  · refine (h.logged t).mono rfl rfl (fun _ _ => rfl) fun k j u hj => ?_
    show (Function.update s.queue l (s.queue l).depart k).arrivals[j]? = some u
    rw [Fifo.arrivals_update_depart]
    exact hj

/-- `Release` offers the lock to its successor. -/
theorem inv_storeGrant (h : Inv s) (hcase : s.pc t = .storeGrant l) :
    Inv ({ s with
      Grant := Function.update s.Grant t (some l)
      log := Function.update s.log t (s.log t ++ [GrantEvent.stored l (s.ticket t l)])
      queue := Function.update s.queue l (s.queue l).depart }.goto t (.awaitClear l)) := by
  have howns : (s.pc t).owns = some l := by rw [hcase]; rfl
  have hfront := h.front (Or.inr howns)
  have hticket := (h.place l _ t hfront).2
  have hcont := h.contested t l hcase
  rw [hticket] at hcont
  have hnone : s.Grant t = none := h.grant_none (by simp [hcase])
  -- the next arrival polls the word of `t`
  have hnext : ∀ u, (s.queue l).At ((s.queue l).departed + 1) u →
      (s.pc u).pred = some (l, t) := by
    intro u hu
    obtain ⟨hq, htick⟩ := h.place l _ u hu
    have hturn : ¬ (l ∈ s.held u ∨ (s.pc u).turn = some l) := by
      intro hn
      have := h.turn u l hn
      omega
    obtain ⟨p, hp⟩ : ∃ p, (s.pc u).pred = some (l, p) := by
      refine (Pc.pred_cases (hq.resolve_left fun hh => hturn (Or.inl hh))).resolve_right
        fun hn => hturn (Or.inr hn)
    have hpred := (h.waits u l p hp).2
    rw [htick, Nat.add_sub_cancel, hfront.1] at hpred
    rw [hp, Option.some.inj hpred]
  set s' := ({ s with
      Grant := Function.update s.Grant t (some l)
      log := Function.update s.log t (s.log t ++ [GrantEvent.stored l (s.ticket t l)])
      queue := Function.update s.queue l (s.queue l).depart } : State L T).goto t (.awaitClear l)
    with hs'
  have hg : s'.Grant t = some l := Function.update_self ..
  have hpc : s'.pc t = .awaitClear l := Function.update_self ..
  have harr : ∀ k, (s'.queue k).arrivals = (s.queue k).arrivals := fun _ =>
    Fifo.arrivals_update_depart
  refine h.depart howns rfl rfl rfl (fun u hu => ?_) (fun _ _ => rfl) ?_ (Or.inr hpc)
    (fun k hk => ?_) (fun u q hu hd => ?_) ?_
  · exact ⟨Function.update_of_ne hu .., Function.update_of_ne hu .., Function.update_of_ne hu ..⟩
  · have htl := h.tail l
    rw [if_neg (by omega)] at htl ⊢
    exact htl
  · rw [hg] at hk
    obtain rfl := Option.some.inj hk
    -- the CAS failed, so there is a next arrival
    obtain ⟨u, hu⟩ :=
      Fifo.at_of_lt (q := s.queue l) (k := (s.queue l).departed + 1) (by omega) hcont
    exact ⟨rfl, hpc, u, hnext u hu, (h.place l _ u hu).2⟩
  · have hau := h.pred_queued hu
    rw [hd] at hau
    have := hnext u hau
    rw [hu] at this
    exact ⟨(Prod.mk.inj (Option.some.inj this)).2, hg⟩
  · have hlog := h.logged t
    unfold GrantLog at hlog ⊢
    rw [hnone] at hlog
    rw [hg]
    -- the log was settled, and the store opens the next hand-over
    refine ⟨s.log t, Function.update_self .., hlog.mono fun k j u hj => ?_, ?_⟩
    · rw [harr]
      exact hj
    · show (s'.queue l).arrivals[s.ticket t l]? = some t
      rw [harr, hticket]
      exact hfront.1

/-! ### Runs -/

theorem inv_proceed (h : Inv s) (hs : proceed s t (s.pc t) = some s') : Inv s' := by
  cases hcase : s.pc t with
  | idle =>
    rw [hcase] at hs
    cases hs
  | checkGrant l =>
    have hnone : s.Grant t = none := h.grant_none (by simp [hcase])
    simp only [hcase, proceed, hnone] at hs
    obtain rfl := Option.some.inj hs
    exact inv_goto h hcase hnone (by simp) rfl rfl rfl rfl (fun k hk => by cases hk) (by simp)
  | swapTail l =>
    rw [hcase] at hs
    simp only [proceed] at hs
    cases htail : s.Tail l with
    | none =>
      rw [htail] at hs
      obtain rfl := Option.some.inj hs
      exact h.arrive hcase (Or.inl ⟨htail, rfl⟩)
    | some p =>
      rw [htail] at hs
      obtain rfl := Option.some.inj hs
      exact h.arrive hcase (Or.inr ⟨p, htail, rfl⟩)
  | spin l p =>
    rw [hcase] at hs
    simp only [proceed] at hs
    split at hs
    · rename_i hg
      obtain rfl := Option.some.inj hs
      have hpred : (s.pc t).pred = some (l, p) := by rw [hcase]; rfl
      refine inv_goto h hcase (h.grant_none (by simp [hcase])) (by simp) rfl rfl rfl rfl
        (fun k hk => ?_) (by simp)
      obtain rfl : l = k := Option.some.inj hk
      exact h.pred_left hpred hg
    · exact Option.some.inj hs ▸ h
  | clearGrant l p =>
    rw [hcase] at hs
    obtain rfl := Option.some.inj hs
    exact inv_clearGrant h hcase
  | checkTail l =>
    have hat := h.queued t l (Or.inr (by rw [hcase]; rfl))
    rw [h.turn t l (Or.inr (by rw [hcase]; rfl))] at hat
    simp only [hcase, proceed, if_neg (h.tail_ne_none hat)] at hs
    obtain rfl := Option.some.inj hs
    exact inv_enter h hcase
  | checkEmpty l =>
    have hnone : s.Grant t = none := h.grant_none (by simp [hcase])
    simp only [hcase, proceed, hnone] at hs
    obtain rfl := Option.some.inj hs
    refine inv_goto h hcase hnone (by simp) rfl rfl rfl rfl (fun k hk => ?_) (by simp)
    exact h.turn t k (Or.inr (by rw [hcase]; exact hk))
  | casTail l =>
    have hfront := h.front (t := t) (l := l) (Or.inr (by rw [hcase]; rfl))
    rw [hcase] at hs
    simp only [proceed] at hs
    split at hs
    · rename_i htail
      obtain rfl := Option.some.inj hs
      exact inv_casTail h hcase htail
    · rename_i htail
      rw [if_neg (h.tail_ne_none hfront)] at hs
      obtain rfl := Option.some.inj hs
      refine inv_goto h hcase (h.grant_none (by simp [hcase])) (by simp) rfl rfl rfl rfl
        (fun k hk => ?_) fun k hk => ?_
      · exact h.turn t k (Or.inr (by rw [hcase]; exact hk))
      · -- the tail is somebody else, who arrived after `t`
        obtain rfl : l = k := by simpa using hk
        rw [(h.place l _ t hfront).2]
        rw [h.tail_eq] at htail
        exact hfront.lt_of_last_ne htail
  | storeGrant l =>
    rw [hcase] at hs
    obtain rfl := Option.some.inj hs
    exact inv_storeGrant h hcase
  | awaitClear l =>
    rw [hcase] at hs
    simp only [proceed] at hs
    split at hs
    · rename_i hnone
      obtain rfl := Option.some.inj hs
      exact inv_awaitClear h hcase hnone
    · exact Option.some.inj hs ▸ h
  | aborted =>
    rw [hcase] at hs
    cases hs

theorem reachable_inv (h : Reachable step (init : State L T) s) : Inv s := by
  refine h.invariant (fun _ => inv_init) fun s a s' hI _ _ hs => ?_
  cases a with
  | acquire t l =>
    simp only [step] at hs
    split at hs
    · rename_i hcond
      obtain rfl := Option.some.inj hs
      exact inv_acquire hI hcond.1 (notHeld_iff.mp hcond.2)
    · cases hs
  | release t l =>
    simp only [step] at hs
    split at hs
    · rename_i hcond
      obtain rfl := Option.some.inj hs
      exact inv_release hI hcond.1 hcond.2
    · cases hs
  | advance t => exact inv_proceed hI hs

/-! ## What the lock promises -/

/-- The thread is in a call on the lock or holds it. -/
def Uses (s : State L T) (t : T) (l : L) : Prop := (s.pc t).lock = some l ∨ l ∈ s.held t

/-- `p` is the thread in front of the waiter `t`: with its last arrival at the
lock it holds the lock, waits for it, or has just granted it. -/
def Precedes (s : State L T) (l : L) (p t : T) : Prop :=
  (s.queue l).arrivals[s.ticket p l]? = some p ∧ s.ticket p l + 1 = s.ticket t l ∧
  (Queued s p l ∨ s.Grant p = some l)

/-- A lock in a `Grant` word is for the next arrival at that lock, and nobody
else waits for it there. -/
def GrantedToNext (s : State L T) (p : T) (l : L) : Prop :=
  ∃ u, (s.queue l).arrivals[s.ticket p l + 1]? = some u ∧
    ∀ v, (s.pc v).pred = some (l, p) ↔ v = u

theorem Inv.precedes (h : Inv s) (hp : (s.pc t).pred = some (l, p)) : Precedes s l p t := by
  obtain ⟨hpos, hpred⟩ := h.waits t l p hp
  have hat := h.pred_queued hp
  by_cases hfront : s.ticket t l = (s.queue l).departed
  · -- the predecessor has left and is granting
    have hg := h.handed t l p hp hfront
    have htick := (h.granted p l hg).2.1
    refine ⟨?_, by omega, Or.inr hg⟩
    rw [show s.ticket p l = s.ticket t l - 1 by omega]
    exact hpred
  · have hlo := hat.2
    have hatp : (s.queue l).At (s.ticket t l - 1) p := ⟨hpred, by omega⟩
    obtain ⟨hq, htick⟩ := h.place l _ p hatp
    refine ⟨?_, by omega, Or.inl hq⟩
    rw [htick]
    exact hpred

theorem Inv.grantedToNext (h : Inv s) (hg : s.Grant p = some l) : GrantedToNext s p l := by
  obtain ⟨-, htick, u, hu, hd⟩ := h.granted p l hg
  have hau := h.pred_queued hu
  rw [hd, ← htick] at hau
  refine ⟨u, hau.1, fun v => ⟨fun hv => h.granted_unique hg hv hu, ?_⟩⟩
  rintro rfl
  exact hu

/-- `HemLock` is a first-come-first-served lock for threads that hold several at
once, and its single `Grant` word serves them all: each word is written and cleared in
turn, what is in it is for the next arrival at that lock and nobody else, and a thread
waits on the word of the one in front of it. No assertion fails, and a lock that nobody
uses has no tail. -/
theorem hem_correct (h : Reachable step (init : State L T) s) :
    (∀ l t u, Owns s t l → Owns s u l → t = u) ∧
    (∀ l, (s.queue l).entries <+: (s.queue l).arrivals) ∧
    (∀ p, GrantLog s p) ∧
    (∀ p l, s.Grant p = some l → GrantedToNext s p l) ∧
    (∀ t l p, (s.pc t).pred = some (l, p) → Precedes s l p t) ∧
    (∀ t, s.pc t ≠ .aborted) ∧
    (∀ l, (∀ t, ¬ Uses s t l) → s.Tail l = none) := by
  have hI := reachable_inv h
  refine ⟨fun l t u ht hu => (hI.serves l).exclusive ht hu, fun l => (hI.serves l).fair.inOrder,
    hI.logged, fun p l => hI.grantedToNext, fun t l p => hI.precedes, hI.alive, fun l hfree => ?_⟩
  have hbound := hI.bound l
  rw [hI.tail_eq, Fifo.last_eq_none_iff hbound]
  by_contra hne
  -- whoever is at the front uses the lock
  obtain ⟨u, hu⟩ := Fifo.at_of_lt (q := s.queue l) (Nat.le_refl _) (by omega)
  rcases (hI.place l _ u hu).1 with hheld | hq
  · exact hfree u (Or.inr hheld)
  · exact hfree u (Or.inl (Pc.lock_of_queued hq))

/-- The first thread holds two locks and passes one of them on. -/
def handOver : List (Action Bool Bool) :=
  [.acquire false true, .advance false, .advance false, .advance false,
    .acquire false false, .advance false, .advance false, .advance false,
    .acquire true true, .advance true, .advance true,
    .release false true, .advance false, .advance false, .advance false,
    .advance true, .advance true, .advance false, .advance true]

theorem hem_correct_handOver :
    ∃ s : State Bool Bool, perform step (fun _ => True) init handOver = some s ∧
      ∀ p, GrantLog s p := by
  obtain ⟨s, hs⟩ := Option.isSome_iff_exists.mp
    (show (perform step (fun _ => True) (init : State Bool Bool) handOver).isSome = true by decide)
  exact ⟨s, hs, (hem_correct ((ReachableWithin.start trivial).of_perform hs)).2.2.1⟩

end LockShield.Hem
