import LockShield.Lib.Lts
import LockShield.Lib.Fifo
import Mathlib.Logic.Function.Basic
import Mathlib.Tactic.Set

/-!
# `K42Lock`

`Acquire` allocates a queue node and frees it before it returns: the holder hands
its place in the queue over to `lock_head`, which is a node too. An address that
was freed may be allocated again, and an access through one that is not
allocated ends in `crashed`.

The proof gives every thread in the queue a *place*: its node until it has
collapsed the queue onto `lock_head`, and `lock_head` from then on. Links and the
tail always speak about places, and only the first of the queue can be at
`lock_head`.

## Results

* `Inv.place_injective` — different threads of the queue have different places.
* `Inv.arrive`, `Inv.collapse`, `Inv.depart` — a thread joins the queue, collapses it onto
  `lock_head`, and leaves.
* `inv_proceed`  — every access keeps the invariant, and none is to a node that is not
  allocated.
* `Inv.willWake` — whatever access of its call the first thread is at, it leads to waking
  the next one.
* `k42_correct`  — the lock is first come, first served, never touches a node that was
  deleted, and links every waiter to the one in front of it.
-/

set_option linter.unusedSectionVars false

namespace LockShield.K42

open Lib

/-- What `tail` and `predecessor` point to. -/
inductive Ptr (N : Type) where
  | head
  | node (n : N)
  deriving DecidableEq

/-- The next access of a thread; `n` is its node `I`. Between calls it is
`idle`. -/
inductive Pc (N : Type) where
  | idle
  /-- `I->next.store(nullptr)` -/
  | clearNext (n : N)
  /-- `lock_head.tail.exchange(I)` -/
  | swapTail (n : N)
  /-- `I->locked.store(true)` -/
  | setLocked (n : N) (predecessor : Ptr N)
  /-- `predecessor->next.store(I)` -/
  | link (n : N) (predecessor : Ptr N)
  /-- `while (I->locked.load())` -/
  | spin (n : N)
  /-- `successor = I->next.load()` -/
  | loadNext (n : N)
  /-- `lock_head.next.store(nullptr)` -/
  | clearHead (n : N)
  /-- `lock_head.tail.compare_exchange_strong(I, &lock_head)` -/
  | casTail (n : N)
  /-- `while ((successor = I->next.load()) == nullptr)` -/
  | awaitNext (n : N)
  /-- `lock_head.next.store(successor)` -/
  | storeHead (n : N) (successor : N)
  /-- `delete I` -/
  | free (n : N)
  /-- `successor = lock_head.next.load()` of `Release` -/
  | loadHead
  /-- `lock_head.tail.compare_exchange_strong(&lock_head, nullptr)` -/
  | casHead
  /-- `while ((successor = lock_head.next.load()) == nullptr)` -/
  | awaitHead
  /-- `successor->locked.store(false)` -/
  | wake (successor : N)
  /-- an access to a node that was deleted -/
  | crashed
  deriving DecidableEq

/-- The thread's own node, from `new` to `delete`. -/
def Pc.node {N : Type} : Pc N → Option N
  | .clearNext n | .swapTail n | .setLocked n _ | .link n _ | .spin n | .loadNext n
  | .clearHead n | .casTail n | .awaitNext n | .storeHead n _ | .free n => some n
  | .idle | .loadHead | .casHead | .awaitHead | .wake _ | .crashed => none

/-- The thread's place in the queue, as the call can tell. -/
def Pc.place {N : Type} : Pc N → Option (Ptr N)
  | .setLocked n _ | .link n _ | .spin n | .loadNext n | .clearHead n | .casTail n | .awaitNext n
  | .storeHead n _ => some (.node n)
  | .free _ | .loadHead | .casHead | .awaitHead | .wake _ => some .head
  | .idle | .clearNext _ | .swapTail _ | .crashed => none

/-- The predecessor that has still to be linked to this thread. -/
def Pc.linking {N : Type} : Pc N → Option (Ptr N)
  | .setLocked _ p | .link _ p => some p
  | .idle | .clearNext _ | .swapTail _ | .spin _ | .loadNext _ | .clearHead _ | .casTail _
  | .awaitNext _ | .storeHead _ _ | .free _ | .loadHead | .casHead | .awaitHead | .wake _
  | .crashed => none

/-- The call knows that the thread's turn has come. -/
def Pc.turn {N : Type} : Pc N → Bool
  | .loadNext _ | .clearHead _ | .casTail _ | .awaitNext _ | .storeHead _ _ | .free _ | .loadHead
  | .casHead | .awaitHead | .wake _ => true
  | .idle | .clearNext _ | .swapTail _ | .setLocked _ _ | .link _ _ | .spin _ | .crashed => false

/-- The thread is in `Release` and has not passed the lock on. -/
def Pc.releasing {N : Type} : Pc N → Bool
  | .loadHead | .casHead | .awaitHead | .wake _ => true
  | .idle | .clearNext _ | .swapTail _ | .setLocked _ _ | .link _ _ | .spin _ | .loadNext _
  | .clearHead _ | .casTail _ | .awaitNext _ | .storeHead _ _ | .free _ | .crashed => false

variable (N T : Type)

structure State where
  tail : Option (Ptr N)
  headNext : Option N
  next : N → Option N
  locked : N → Bool
  /-- the addresses that are allocated -/
  live : N → Bool
  pc : T → Pc N
  /-- the thread is between its `Acquire` and its `Release` -/
  holding : T → Bool
  /-- history: the arrivals, and each thread's last arrival number -/
  queue : Fifo T
  ticket : T → Nat

variable {N T}

inductive Action (N T : Type) where
  /-- `Acquire` begins, and `new Node()` returns the address `n` -/
  | acquire (t : T) (n : N)
  | release (t : T)
  | advance (t : T)

variable [DecidableEq N] [DecidableEq T]

def init : State N T where
  tail := none
  headNext := none
  next _ := none
  locked _ := false
  live _ := false
  pc _ := .idle
  holding _ := false
  queue := .empty
  ticket _ := 0

def State.goto (s : State N T) (t : T) (pc : Pc N) : State N T :=
  { s with pc := Function.update s.pc t pc }

def State.nextOf (s : State N T) : Ptr N → Option N
  | .head => s.headNext
  | .node n => s.next n

def State.setNext (s : State N T) (p : Ptr N) (m : Option N) : State N T :=
  match p with
  | .head => { s with headNext := m }
  | .node n => { s with next := Function.update s.next n m }

/-- An access through a pointer, with what it leads to. -/
def State.access (s : State N T) (t : T) (p : Ptr N) (s' : State N T) : State N T :=
  match p with
  | .head => s'
  | .node n => if s.live n then s' else s.goto t .crashed

/-- The next access of a call, and what follows it. -/
def proceed (s : State N T) (t : T) : Pc N → Option (State N T)
  | .idle => none
  | .clearNext n => some (s.access t (.node n) ((s.setNext (.node n) none).goto t (.swapTail n)))
  | .swapTail n =>
    let s' := { s with
      tail := some (.node n)
      queue := s.queue.arrive t
      ticket := Function.update s.ticket t s.queue.arrivals.length }
    -- the exchange is the thread's arrival, whatever it finds
    match s.tail with
    | none => some (s'.goto t (.loadNext n))
    | some predecessor => some (s'.goto t (.setLocked n predecessor))
  | .setLocked n p =>
    some (s.access t (.node n)
      ({ s with locked := Function.update s.locked n true }.goto t (.link n p)))
  | .link n p => some (s.access t p ((s.setNext p (some n)).goto t (.spin n)))
  | .spin n => some (s.access t (.node n) (if s.locked n then s else s.goto t (.loadNext n)))
  | .loadNext n =>
    some (s.access t (.node n) (match s.next n with
      | none => s.goto t (.clearHead n)
      | some successor => s.goto t (.storeHead n successor)))
  | .clearHead n => some ((s.setNext .head none).goto t (.casTail n))
  | .casTail n =>
    -- on success the lock itself is the last of the queue and stands for its holder
    if s.tail = some (.node n) then some ({ s with tail := some .head }.goto t (.free n))
    else some (s.goto t (.awaitNext n))
  | .awaitNext n =>
    some (s.access t (.node n) (match s.next n with
      | none => s
      | some successor => s.goto t (.storeHead n successor)))
  | .storeHead n successor => some ((s.setNext .head (some successor)).goto t (.free n))
  | .free n =>
    -- `delete I`, after which `Acquire` returns
    some (s.access t (.node n) ({ s with
      live := Function.update s.live n false
      holding := Function.update s.holding t true
      queue := s.queue.enter t }.goto t .idle))
  | .loadHead =>
    match s.headNext with
    | none => some (s.goto t .casHead)
    | some successor => some (s.goto t (.wake successor))
  | .casHead =>
    -- on success nobody waits: the lock is free again
    if s.tail = some .head then some ({ s with tail := none, queue := s.queue.depart }.goto t .idle)
    else some (s.goto t .awaitHead)
  | .awaitHead =>
    match s.headNext with
    | none => some s
    | some successor => some (s.goto t (.wake successor))
  | .wake successor =>
    some (s.access t (.node successor) ({ s with
      locked := Function.update s.locked successor false
      queue := s.queue.depart }.goto t .idle))
  | .crashed => none

/-- One step of one thread. Every thread acquires and releases in turn. -/
def step (s : State N T) : Action N T → Option (State N T)
  | .acquire t n =>
    -- `new Node()` may give any node that is not in use, one deleted before as well
    if s.pc t = .idle ∧ s.holding t = false ∧ s.live n = false then
      some ({ s with
        live := Function.update s.live n true
        next := Function.update s.next n none
        locked := Function.update s.locked n false }.goto t (.clearNext n))
    else none
  | .release t =>
    if s.pc t = .idle ∧ s.holding t = true then
      some ({ s with holding := Function.update s.holding t false }.goto t .loadHead)
    else none
  | .advance t => proceed s t (s.pc t)

/-- The thread's place in the queue. -/
def placeOf (s : State N T) (t : T) : Option (Ptr N) :=
  if s.holding t then some .head else (s.pc t).place

/-- The thread is between the return of `Acquire` and the step of `Release` that
passes the lock on. -/
def Owns (s : State N T) (t : T) : Prop := s.holding t = true ∨ (s.pc t).releasing = true

def Turn (s : State N T) (t : T) : Prop := s.holding t = true ∨ (s.pc t).turn = true

/-- What a thread's next access tells about it. -/
def PcOk (s : State N T) (t : T) : Prop :=
  match s.pc t with
  | .idle => s.holding t = true → s.ticket t = s.queue.departed
  | .clearNext _ | .setLocked _ _ => True
  | .swapTail n => s.next n = none
  | .link n _ => s.locked n = true
  | .spin n => s.locked n = false ↔ s.ticket t = s.queue.departed
  | .loadNext _ | .clearHead _ | .free _ | .loadHead | .casHead => s.ticket t = s.queue.departed
  | .casTail _ => s.ticket t = s.queue.departed ∧ s.headNext = none
  | .awaitNext _ | .awaitHead => s.ticket t = s.queue.departed ∧
      s.ticket t + 1 < s.queue.arrivals.length
  | .storeHead n m => s.ticket t = s.queue.departed ∧ s.next n = some m
  | .wake m => s.ticket t = s.queue.departed ∧ s.headNext = some m
  | .crashed => False

structure Inv (s : State N T) : Prop where
  pcOk : ∀ t, PcOk s t
  busy : ∀ t, s.holding t = true → s.pc t = .idle
  /-- every thread has its own node, which is allocated -/
  owned : ∀ t n, (s.pc t).node = some n → s.live n = true
  distinct : ∀ t u n, (s.pc t).node = some n → (s.pc u).node = some n → t = u
  /-- who is in the queue is there once, and conversely -/
  placed : ∀ k t, s.queue.At k t → placeOf s t ≠ none ∧ s.ticket t = k
  queued : ∀ t p, placeOf s t = some p → s.queue.At (s.ticket t) t
  bound : s.queue.departed ≤ s.queue.arrivals.length
  tailEmpty : s.queue.departed = s.queue.arrivals.length → s.tail = none
  tailLast : ∀ k t, s.queue.At k t → k + 1 = s.queue.arrivals.length → s.tail = placeOf s t
  /-- a place is linked to the next arrival once that thread has stored the link -/
  linked : ∀ k t p m, s.queue.At k t → placeOf s t = some p → (s.nextOf p = some m ↔
    ∃ u, s.queue.At (k + 1) u ∧ (s.pc u).node = some m ∧ (s.pc u).linking = none)
  /-- who has still to be linked knows the place in front of it -/
  waits : ∀ u p, (s.pc u).linking = some p → s.queue.departed < s.ticket u ∧
    ∃ t, s.queue.At (s.ticket u - 1) t ∧ placeOf s t = some p
  serves : s.queue.Serves (Owns s)

variable {s s' : State N T} {t u : T} {n m : N} {p : Ptr N}

theorem nextOf_goto {pc : Pc N} {q : Ptr N} : (s.goto t pc).nextOf q = s.nextOf q := by
  cases q <;> rfl

theorem nextOf_setNext_self {m : Option N} : (s.setNext p m).nextOf p = m := by
  cases p with
  | head => rfl
  | node n => exact Function.update_self ..

theorem nextOf_setNext_of_ne {q : Ptr N} {m : Option N} (h : q ≠ p) :
    (s.setNext p m).nextOf q = s.nextOf q := by
  cases p with
  | head =>
    cases q with
    | head => exact absurd rfl h
    | node n => rfl
  | node k =>
    cases q with
    | head => rfl
    | node n => exact Function.update_of_ne (fun hnk => h (by rw [hnk])) ..

theorem inv_init : Inv (init : State N T) :=
  { pcOk := fun _ h => by cases h
    busy := fun _ h => by cases h
    owned := fun _ _ h => by cases h
    distinct := fun _ _ _ h => by cases h
    placed := fun _ _ h => absurd h Fifo.not_at_empty
    queued := fun _ _ h => by cases h
    bound := Nat.le_refl 0
    tailEmpty := fun _ => rfl
    tailLast := fun _ _ h => absurd h Fifo.not_at_empty
    linked := fun _ _ _ _ h => absurd h Fifo.not_at_empty
    waits := fun _ _ h => by cases h
    serves := Fifo.serves_empty fun _ h => by rcases h with h | h <;> cases h }

/-- What a step of `t` leaves alone in `t` as in the others, it leaves alone. -/
theorem pc_congr {α : Type} {f : Pc N → α} (hothers : ∀ u, u ≠ t → s'.pc u = s.pc u)
    (hself : f (s'.pc t) = f (s.pc t)) (u : T) : f (s'.pc u) = f (s.pc u) := by
  by_cases hu : u = t
  · rw [hu, hself]
  · rw [hothers u hu]

/-! ### What the next access tells -/

theorem Pc.node_of_place {pc : Pc N} (h : pc.place = some (.node n)) : pc.node = some n := by
  cases pc <;> simp_all [Pc.place, Pc.node]

theorem Pc.turn_of_head {pc : Pc N} (h : pc.place = some .head) : pc.turn = true := by
  cases pc <;> simp_all [Pc.place, Pc.turn]

theorem Pc.turn_of_releasing {pc : Pc N} (h : pc.releasing = true) : pc.turn = true := by
  cases pc <;> simp_all [Pc.releasing, Pc.turn]

theorem Pc.place_of_turn {pc : Pc N} (h : pc.turn = true) : pc.place ≠ none := by
  cases pc <;> simp_all [Pc.place, Pc.turn]

theorem Pc.place_of_linking {pc : Pc N} (h : pc.linking = some p) :
    ∃ n, pc.node = some n ∧ pc.place = some (.node n) := by
  cases pc <;> simp_all [Pc.place, Pc.node, Pc.linking]

theorem node_of_placeOf (h : placeOf s t = some (.node n)) : (s.pc t).node = some n := by
  unfold placeOf at h
  split at h
  · cases h
  · exact Pc.node_of_place h

theorem turn_of_head (h : placeOf s t = some .head) : Turn s t := by
  unfold placeOf at h
  split at h
  · rename_i hh
    exact Or.inl hh
  · exact Or.inr (Pc.turn_of_head h)

theorem Owns.turn (h : Owns s t) : Turn s t := h.imp_right Pc.turn_of_releasing

theorem Turn.placeOf (h : Turn s t) : placeOf s t ≠ none := by
  unfold K42.placeOf
  split
  · simp
  · rename_i hh
    exact Pc.place_of_turn (h.resolve_left hh)

theorem PcOk.turn (h : PcOk s t) (hbusy : s.holding t = true → s.pc t = .idle) (ht : Turn s t) :
    s.ticket t = s.queue.departed := by
  unfold PcOk at h
  unfold Turn at ht
  cases hpc : s.pc t <;> rw [hpc] at h ht hbusy <;>
    simp_all [Pc.turn]

theorem Inv.front (h : Inv s) (ht : Turn s t) : s.queue.At s.queue.departed t := by
  obtain ⟨p, hp⟩ := Option.ne_none_iff_exists'.mp ht.placeOf
  have hat := h.queued t p hp
  rwa [(h.pcOk t).turn (h.busy t) ht] at hat

theorem Inv.turn_unique (h : Inv s) (ht : Turn s t) (hu : Turn s u) : t = u :=
  (h.front ht).unique (h.front hu)

/-- Different threads of the queue have different places. -/
theorem Inv.place_injective (h : Inv s) (ht : placeOf s t = some p) (hu : placeOf s u = some p) :
    t = u := by
  cases p with
  | head => exact h.turn_unique (turn_of_head ht) (turn_of_head hu)
  | node n => exact h.distinct t u n (node_of_placeOf ht) (node_of_placeOf hu)

theorem Inv.not_holding {pc : Pc N} (h : Inv s) (hcase : s.pc t = pc) (hbusy : pc ≠ .idle) :
    s.holding t ≠ true := fun hh => hbusy (hcase.symm.trans (h.busy t hh))

/-- A thread inside a call is where its next access says. -/
theorem Inv.placeOf_eq {pc : Pc N} (h : Inv s) (hcase : s.pc t = pc) (hbusy : pc ≠ .idle) :
    placeOf s t = pc.place := by
  rw [placeOf, if_neg (h.not_holding hcase hbusy), hcase]

/-- A thread that has still to be linked is at its node. -/
theorem Inv.place_of_linking (h : Inv s) (hl : (s.pc t).linking = some p) :
    ∃ n, (s.pc t).node = some n ∧ placeOf s t = some (.node n) := by
  obtain ⟨n, hn, hpl⟩ := Pc.place_of_linking hl
  refine ⟨n, hn, (h.placeOf_eq rfl fun hidle => ?_).trans hpl⟩
  rw [hidle] at hl
  cases hl

theorem Inv.at_of_linking (h : Inv s) (hl : (s.pc t).linking = some p) :
    s.queue.At (s.ticket t) t := by
  obtain ⟨n, -, hpl⟩ := h.place_of_linking hl
  exact h.queued t _ hpl

theorem Inv.at_of_spin (h : Inv s) (hcase : s.pc t = .spin n) : s.queue.At (s.ticket t) t :=
  h.queued t (.node n) (h.placeOf_eq hcase (by simp))

/-- Nobody is in front of the first, so it has nothing to link. -/
theorem Inv.front_linked (h : Inv s) (hfront : s.queue.At s.queue.departed t) :
    (s.pc t).linking = none := by
  cases hl : (s.pc t).linking with
  | none => rfl
  | some q =>
    have hbehind := (h.waits t q hl).1
    rw [(h.placed _ t hfront).2] at hbehind
    exact absurd hbehind (Nat.lt_irrefl _)

/-- A tail that is not null is the place of the last arrival. -/
theorem Inv.tail_place (h : Inv s) (htail : s.tail = some p) :
    ∃ v, s.queue.At (s.queue.arrivals.length - 1) v ∧ placeOf s v = some p := by
  have hbound := h.bound
  have hne : s.queue.departed ≠ s.queue.arrivals.length := by
    intro heq
    rw [h.tailEmpty heq] at htail
    cases htail
  obtain ⟨v, hv⟩ := Fifo.at_of_lt (q := s.queue) (k := s.queue.arrivals.length - 1) (by omega)
    (by omega)
  exact ⟨v, hv, (h.tailLast _ v hv (by omega)).symm.trans htail⟩

theorem Inv.empty_of_tail (h : Inv s) (htail : s.tail = none) :
    s.queue.departed = s.queue.arrivals.length := by
  have hbound := h.bound
  by_contra hne
  obtain ⟨v, hv⟩ := Fifo.at_of_lt (q := s.queue) (k := s.queue.arrivals.length - 1) (by omega)
    (by omega)
  exact (h.placed _ v hv).1 ((h.tailLast _ v hv (by omega)).symm.trans htail)

/-- What a thread's next access tells stays true while its node and its part of
the history are left alone. -/
theorem PcOk.frame (h : PcOk s t) (hpc : s'.pc t = s.pc t) (hholding : s'.holding t = s.holding t)
    (htick : s'.ticket t = s.ticket t)
    (hnext : ∀ n, (s.pc t).node = some n → s'.next n = s.next n)
    (hlocked : ∀ n p, s.pc t = .link n p → s'.locked n = s.locked n)
    (hspin : ∀ n, s.pc t = .spin n →
      (s'.locked n = false ↔ s.ticket t = s'.queue.departed))
    (hhead : Turn s t → s'.headNext = s.headNext)
    (hdep : Turn s t → s'.queue.departed = s.queue.departed)
    (hlen : s.queue.arrivals.length ≤ s'.queue.arrivals.length) : PcOk s' t := by
  unfold PcOk at h ⊢
  unfold Turn at hhead hdep
  rw [hpc]
  cases hcase : s.pc t <;> rw [hcase] at h hnext hlocked hspin hhead hdep <;>
    simp only [hholding, htick] at h hhead hdep ⊢
  -- who has the turn sees the same front
  case idle =>
    intro hh
    rw [hdep (Or.inl hh)]
    exact h hh
  case swapTail n => rw [hnext n rfl]; exact h
  case link n p => rw [hlocked n p rfl]; exact h
  case spin n => exact hspin n rfl
  case casTail n => rw [hdep (Or.inr rfl), hhead (Or.inr rfl)]; exact h
  case awaitNext n => rw [hdep (Or.inr rfl)]; exact ⟨h.1, Nat.lt_of_lt_of_le h.2 hlen⟩
  case awaitHead => rw [hdep (Or.inr rfl)]; exact ⟨h.1, Nat.lt_of_lt_of_le h.2 hlen⟩
  case storeHead n m => rw [hdep (Or.inr rfl), hnext n rfl]; exact h
  case wake m => rw [hdep (Or.inr rfl), hhead (Or.inr rfl)]; exact h
  case loadNext n | clearHead n | free n => rw [hdep (Or.inr rfl)]; exact h
  case loadHead | casHead => rw [hdep (Or.inr rfl)]; exact h

/-- A step of thread `t` that keeps the queue, the places and the links. -/
theorem Inv.quiet (h : Inv s) (hqueue : s'.queue = s.queue) (htail : s'.tail = s.tail)
    (htick : s'.ticket = s.ticket)
    (hothers : ∀ u, u ≠ t → s'.pc u = s.pc u ∧ s'.holding u = s.holding u)
    (hkeep : ∀ u n, u ≠ t → (s.pc u).node = some n →
      s'.next n = s.next n ∧ s'.locked n = s.locked n ∧ s'.live n = true)
    (hhead : ∀ u, u ≠ t → Turn s u → s'.headNext = s.headNext)
    (hnextOf : ∀ p, placeOf s t = some p → s'.nextOf p = s.nextOf p)
    (hpc : PcOk s' t) (hbusy : s'.holding t = true → s'.pc t = .idle)
    (hnode : ∀ n, (s'.pc t).node = some n → s'.live n = true ∧
      ((s.pc t).node = some n ∨ s.live n = false))
    (hsame : placeOf s t ≠ none → (s'.pc t).node = (s.pc t).node)
    (hplace : placeOf s' t = placeOf s t) (hlinking : (s'.pc t).linking = (s.pc t).linking)
    (howns : Owns s' t ↔ Owns s t) : Inv s' := by
  have hpl : ∀ u, placeOf s' u = placeOf s u := by
    intro u
    by_cases hu : u = t
    · rw [hu, hplace]
    · simp only [placeOf, hothers u hu]
  have hlk := pc_congr (fun u hu => (hothers u hu).1) hlinking
  -- the nodes that threads of the queue have are what they were
  have hnd : ∀ u, placeOf s u ≠ none → (s'.pc u).node = (s.pc u).node := by
    intro u hq
    by_cases hu : u = t
    · subst hu
      exact hsame hq
    · rw [(hothers u hu).1]
  refine
    { pcOk := fun u => ?_
      busy := fun u hu => ?_
      owned := fun u n hu => ?_
      distinct := fun u v n hu hv => ?_
      placed := by simp only [hpl, hqueue, htick]; exact h.placed
      queued := by simp only [hpl, hqueue, htick]; exact h.queued
      bound := by rw [hqueue]; exact h.bound
      tailEmpty := by rw [hqueue, htail]; exact h.tailEmpty
      tailLast := by simp only [hpl, hqueue, htail]; exact h.tailLast
      linked := fun k u p m hat hp => ?_
      waits := by simp only [hpl, hlk, hqueue, htick]; exact h.waits
      serves := by
        rw [hqueue]
        refine h.serves.congr fun u => ?_
        by_cases hu : u = t
        · rw [hu, howns]
        · simp only [Owns, hothers u hu] }
  · by_cases hu : u = t
    · rw [hu]
      exact hpc
    · obtain ⟨h1, h2⟩ := hothers u hu
      have hok := h.pcOk u
      refine hok.frame h1 h2 (by rw [htick]) (fun n hn => (hkeep u n hu hn).1)
        (fun n p hn => (hkeep u n hu (by rw [hn]; rfl)).2.1) (fun n hn => ?_) (hhead u hu)
        (fun _ => by rw [hqueue]) (Nat.le_of_eq (by rw [hqueue]))
      rw [(hkeep u n hu (by rw [hn]; rfl)).2.1, hqueue]
      simp only [PcOk, hn] at hok
      exact hok
  · by_cases hut : u = t
    · subst hut
      exact hbusy hu
    · rw [(hothers u hut).1]
      rw [(hothers u hut).2] at hu
      exact h.busy u hu
  · by_cases hut : u = t
    · subst hut
      exact (hnode n hu).1
    · rw [(hothers u hut).1] at hu
      exact (hkeep u n hut hu).2.2
  · -- a new node was not allocated, so nobody else has it
    have hnew : ∀ u, u ≠ t → (s'.pc t).node = some n → (s'.pc u).node = some n → False := by
      intro u hut htn hun
      rw [(hothers u hut).1] at hun
      rcases (hnode n htn).2 with hold | hdead
      · exact hut (h.distinct u t n hun hold)
      · rw [h.owned u n hun] at hdead
        cases hdead
    by_cases hut : u = t
    · by_cases hvt : v = t
      · rw [hut, hvt]
      · rw [hut] at hu
        exact (hnew v hvt hu hv).elim
    · by_cases hvt : v = t
      · rw [hvt] at hv
        exact (hnew u hut hv hu).elim
      · rw [(hothers u hut).1] at hu
        rw [(hothers v hvt).1] at hv
        exact h.distinct u v n hu hv
  · rw [hqueue] at hat ⊢
    rw [hpl] at hp
    -- only the owner of a place could have changed its link
    have hnx : s'.nextOf p = s.nextOf p := by
      by_cases hut : u = t
      · subst hut
        exact hnextOf p hp
      · cases p with
        | head => exact hhead u hut (turn_of_head hp)
        | node n => exact (hkeep u n hut (node_of_placeOf hp)).1
    rw [hnx, h.linked k u p m hat hp]
    refine exists_congr fun v => and_congr_right fun hv => ?_
    rw [hlk, hnd v (h.placed _ v hv).1]

/-! ### The steps that keep the queue -/

/-- A thread that only moves on within a call. -/
theorem inv_goto {pc pc' : Pc N} (h : Inv s) (hcase : s.pc t = pc) (hbusy : pc ≠ .idle)
    (hnode : pc'.node = pc.node) (hplace : pc'.place = pc.place)
    (hlinking : pc'.linking = pc.linking) (hrel : pc'.releasing = pc.releasing)
    (hpc : PcOk (s.goto t pc') t) : Inv (s.goto t pc') := by
  subst hcase
  have hpct : (s.goto t pc').pc t = pc' := Function.update_self ..
  have hhold := h.not_holding rfl hbusy
  refine h.quiet (t := t) rfl rfl rfl (fun u hu => ⟨Function.update_of_ne hu .., rfl⟩)
    (fun u n hu hn => ⟨rfl, rfl, h.owned u n hn⟩) (fun _ _ _ => rfl) (fun p _ => by cases p <;> rfl)
    hpc (fun hh => absurd hh hhold) (fun n hn => ?_) (fun _ => by rw [hpct, hnode])
    ?_ (by rw [hpct, hlinking]) ?_
  · rw [hpct, hnode] at hn
    exact ⟨h.owned t n hn, Or.inl hn⟩
  · rw [placeOf, placeOf, hpct, hplace]
    rfl
  · rw [Owns, Owns, hpct, hrel]
    rfl

/-- `new Node()` returns an address that is not in use. -/
theorem inv_acquire (h : Inv s) (hidle : s.pc t = .idle) (hout : s.holding t = false)
    (hdead : s.live n = false) :
    Inv ({ s with
      live := Function.update s.live n true
      next := Function.update s.next n none
      locked := Function.update s.locked n false }.goto t (.clearNext n)) := by
  set s' := ({ s with
      live := Function.update s.live n true
      next := Function.update s.next n none
      locked := Function.update s.locked n false } : State N T).goto t (.clearNext n) with hs'
  have hpc : s'.pc t = .clearNext n := Function.update_self ..
  have hplace : placeOf s t = none := by simp [placeOf, hout, hidle, Pc.place]
  have hhold : s'.holding t = false := hout
  refine h.quiet (t := t) rfl rfl rfl (fun u hu => ⟨Function.update_of_ne hu .., rfl⟩)
    (fun u m hu hm => ?_) (fun _ _ _ => rfl) (fun p hp => ?_) ?_ (fun hh => ?_) (fun m hm => ?_)
    (fun hq => absurd hplace hq) ?_ (by rw [hpc, hidle]; rfl) ?_
  · -- the others have nodes that are allocated, and `n` was not
    have hne : m ≠ n := by
      intro hmn
      rw [hmn] at hm
      rw [h.owned u n hm] at hdead
      cases hdead
    simp [hs', State.goto, hne, h.owned u m hm]
  · rw [hplace] at hp
    cases hp
  · simp only [PcOk, hpc]
  · rw [hhold] at hh
    cases hh
  · rw [hpc] at hm
    obtain rfl : n = m := Option.some.inj hm
    exact ⟨Function.update_self .., Or.inr hdead⟩
  · rw [hplace]
    simp [placeOf, hhold, hpc, Pc.place]
  · simp [Owns, hhold, hpc, hout, hidle, Pc.releasing]

theorem inv_clearNext (h : Inv s) (hcase : s.pc t = .clearNext n) :
    Inv ((s.setNext (.node n) none).goto t (.swapTail n)) := by
  set s' := (s.setNext (.node n) none).goto t (.swapTail n) with hs'
  have hpc : s'.pc t = .swapTail n := Function.update_self ..
  have hnext : s'.next n = none := Function.update_self ..
  have hnode : (s.pc t).node = some n := by rw [hcase]; rfl
  have hhold := h.not_holding hcase (by simp)
  have hplace : placeOf s t = none := h.placeOf_eq hcase (by simp)
  have hhold' : s'.holding t = s.holding t := rfl
  refine h.quiet (t := t) rfl rfl rfl (fun u hu => ⟨Function.update_of_ne hu .., rfl⟩)
    (fun u m hu hm => ?_) (fun _ _ _ => rfl) (fun p hp => ?_) ?_ (fun hh => absurd hh hhold)
    (fun m hm => ?_) (fun hq => absurd hplace hq) ?_ (by rw [hpc, hcase]; rfl) ?_
  · -- nobody else has the node `n`
    have hne : m ≠ n := fun hmn => hu (h.distinct u t n (hmn ▸ hm) hnode)
    exact ⟨Function.update_of_ne hne .., rfl, h.owned u m hm⟩
  · rw [hplace] at hp
    cases hp
  · simp only [PcOk, hpc]
    exact hnext
  · rw [hpc] at hm
    obtain rfl : n = m := Option.some.inj hm
    exact ⟨h.owned t n hnode, Or.inl hnode⟩
  · rw [hplace, placeOf, hhold', hpc]
    simp [hhold, Pc.place]
  · simp [Owns, hhold', hpc, hcase, Pc.releasing]

theorem inv_setLocked (h : Inv s) (hcase : s.pc t = .setLocked n p) :
    Inv ({ s with locked := Function.update s.locked n true }.goto t (.link n p)) := by
  set s' := ({ s with locked := Function.update s.locked n true } : State N T).goto t (.link n p)
    with hs'
  have hpc : s'.pc t = .link n p := Function.update_self ..
  have hlocked : s'.locked n = true := Function.update_self ..
  have hnode : (s.pc t).node = some n := by rw [hcase]; rfl
  have hhold := h.not_holding hcase (by simp)
  have hhold' : s'.holding t = s.holding t := rfl
  refine h.quiet (t := t) rfl rfl rfl (fun u hu => ⟨Function.update_of_ne hu .., rfl⟩)
    (fun u m hu hm => ?_) (fun _ _ _ => rfl) (fun q _ => by cases q <;> rfl) ?_
    (fun hh => absurd hh hhold) (fun m hm => ?_) (fun _ => by rw [hpc, hcase]; rfl) ?_
    (by rw [hpc, hcase]; rfl) ?_
  · -- the flag of no other thread's node is touched
    have hne : m ≠ n := fun hmn => hu (h.distinct u t n (hmn ▸ hm) hnode)
    exact ⟨rfl, Function.update_of_ne hne .., h.owned u m hm⟩
  · simp only [PcOk, hpc]
    exact hlocked
  · rw [hpc] at hm
    obtain rfl : n = m := Option.some.inj hm
    exact ⟨h.owned t n hnode, Or.inl hnode⟩
  · simp [placeOf, hhold', hpc, hcase, Pc.place]
  · simp [Owns, hhold', hpc, hcase, Pc.releasing]

/-- The holder forgets what an earlier holder left in `lock_head.next`. -/
theorem inv_clearHead (h : Inv s) (hcase : s.pc t = .clearHead n) :
    Inv ((s.setNext .head none).goto t (.casTail n)) := by
  set s' := (s.setNext .head none).goto t (.casTail n) with hs'
  have hpc : s'.pc t = .casTail n := Function.update_self ..
  have hturn : Turn s t := Or.inr (by rw [hcase]; rfl)
  have hok := h.pcOk t
  simp only [PcOk, hcase] at hok
  have hhold := h.not_holding hcase (by simp)
  have hhold' : s'.holding t = s.holding t := rfl
  have hplace : placeOf s t = some (.node n) := h.placeOf_eq hcase (by simp)
  refine h.quiet (t := t) rfl rfl rfl (fun u hu => ⟨Function.update_of_ne hu .., rfl⟩)
    (fun u m hu hm => ⟨rfl, rfl, h.owned u m hm⟩) (fun u hu hut => ?_) (fun q hq => ?_) ?_
    (fun hh => absurd hh hhold) (fun m hm => ?_) (fun _ => by rw [hpc, hcase]; rfl) ?_
    (by rw [hpc, hcase]; rfl) ?_
  · -- only the front reads `lock_head.next`, and that is `t`
    exact absurd (h.turn_unique hut hturn) hu
  · rw [hplace] at hq
    obtain rfl := Option.some.inj hq
    rfl
  · simp only [PcOk, hpc]
    exact ⟨hok, rfl⟩
  · rw [hpc] at hm
    have hnode : (s.pc t).node = some m := by rw [hcase]; exact hm
    exact ⟨h.owned t m hnode, Or.inl hnode⟩
  · simp [placeOf, hhold', hpc, hcase, Pc.place]
  · simp [Owns, hhold', hpc, hcase, Pc.releasing]

/-- `Release` begins. -/
theorem inv_release (h : Inv s) (hidle : s.pc t = .idle) (hhold : s.holding t = true) :
    Inv ({ s with holding := Function.update s.holding t false }.goto t .loadHead) := by
  set s' := ({ s with holding := Function.update s.holding t false } : State N T).goto t .loadHead
    with hs'
  have hpc : s'.pc t = .loadHead := Function.update_self ..
  have hhold' : s'.holding t = false := Function.update_self ..
  have hok := h.pcOk t
  simp only [PcOk, hidle] at hok
  -- the holder keeps its place at the head of the queue
  refine h.quiet (t := t) rfl rfl rfl (fun u hu => ?_)
    (fun u m hu hm => ⟨rfl, rfl, h.owned u m hm⟩) (fun _ _ _ => rfl)
    (fun q _ => by cases q <;> rfl) ?_ (fun hh => ?_) (fun m hm => ?_)
    (fun _ => by rw [hpc, hidle]; rfl) ?_ (by rw [hpc, hidle]; rfl) ?_
  · exact ⟨Function.update_of_ne hu .., Function.update_of_ne hu ..⟩
  · simp only [PcOk, hpc]
    exact hok hhold
  · rw [hhold'] at hh
    cases hh
  · rw [hpc] at hm
    cases hm
  · simp [placeOf, hhold', hpc, hhold, Pc.place]
  · simp [Owns, hhold', hpc, hhold, Pc.releasing]

/-! ### The steps that change the queue or its links -/

/-- `Acquire` deletes its node and returns. -/
theorem inv_free (h : Inv s) (hcase : s.pc t = .free n) :
    Inv ({ s with
      live := Function.update s.live n false
      holding := Function.update s.holding t true
      queue := s.queue.enter t }.goto t .idle) := by
  set s' := ({ s with
      live := Function.update s.live n false
      holding := Function.update s.holding t true
      queue := s.queue.enter t } : State N T).goto t .idle with hs'
  have hpc : s'.pc t = .idle := Function.update_self ..
  have hhold' : s'.holding t = true := Function.update_self ..
  have hok := h.pcOk t
  simp only [PcOk, hcase] at hok
  have hnode : (s.pc t).node = some n := by rw [hcase]; rfl
  have hhold := h.not_holding hcase (by simp)
  have hplace : placeOf s t = some .head := h.placeOf_eq hcase (by simp)
  have hfront := h.front (turn_of_head hplace)
  have hothers : ∀ u, u ≠ t → s'.pc u = s.pc u ∧ s'.holding u = s.holding u := by
    intro u hu
    simp [hs', State.goto, hu]
  -- `t` was at `lock_head` already and stays there as the holder
  have hpl : ∀ u, placeOf s' u = placeOf s u := by
    intro u
    by_cases hu : u = t
    · rw [hu, hplace]
      simp [placeOf, hhold']
    · simp only [placeOf, hothers u hu]
  have hlk : ∀ u, (s'.pc u).linking = (s.pc u).linking :=
    pc_congr (fun u hu => (hothers u hu).1) (by rw [hpc, hcase]; rfl)
  -- `t` gives its node up and the others keep theirs
  have hnd : ∀ u m, (s'.pc u).node = some m ↔ (s.pc u).node = some m ∧ u ≠ t := by
    intro u m
    by_cases hu : u = t
    · subst hu
      simp [hpc, Pc.node]
    · simp [hothers u hu, hu]
  have hown : ∀ u, u ≠ t → (Owns s' u ↔ Owns s u) := fun u hu => by simp only [Owns, hothers u hu]
  refine
    { pcOk := fun u => ?_
      busy := fun u hu => ?_
      owned := fun u m hm => ?_
      distinct := fun u v m hu hv => h.distinct u v m ((hnd u m).mp hu).1 ((hnd v m).mp hv).1
      placed := fun k u hat => by rw [hpl]; exact h.placed k u hat
      queued := fun u p hp => h.queued u p (by rwa [hpl] at hp)
      bound := h.bound
      tailEmpty := h.tailEmpty
      tailLast := fun k u hat => by rw [hpl]; exact h.tailLast k u hat
      linked := fun k u p m hat hp => ?_
      waits := by simp only [hpl, hlk]; exact h.waits
      serves := ?_ }
  · by_cases hu : u = t
    · subst hu
      simp only [PcOk, hpc]
      exact fun _ => hok
    · have hoku := h.pcOk u
      refine hoku.frame (hothers u hu).1 (hothers u hu).2 rfl (fun _ _ => rfl) (fun _ _ _ => rfl)
        (fun m hm => ?_) (fun _ => rfl) (fun _ => rfl) (Nat.le_refl _)
      simp only [PcOk, hm] at hoku
      exact hoku
  · by_cases hut : u = t
    · rw [hut, hpc]
    · rw [(hothers u hut).1]
      rw [(hothers u hut).2] at hu
      exact h.busy u hu
  · obtain ⟨hm, hu⟩ := (hnd u m).mp hm
    have hne : m ≠ n := fun hmn => hu (h.distinct u t n (hmn ▸ hm) hnode)
    exact (Function.update_of_ne hne ..).trans (h.owned u m hm)
  · have hat : s.queue.At k u := hat
    rw [hpl] at hp
    have hnx : s'.nextOf p = s.nextOf p := by cases p <;> rfl
    rw [hnx, h.linked k u p m hat hp]
    refine exists_congr fun v => and_congr_right fun hv => ?_
    have hvt : v ≠ t := by
      intro hvt
      -- `t` is at the front, so nobody is in front of it
      have h1 := (h.placed _ v hv).2
      have h2 := (h.placed _ t hfront).2
      have h3 := hat.2
      rw [hvt] at h1
      omega
    rw [hlk, hnd]
    simp [hvt]
  · -- the front is let in
    refine h.serves.enter hfront (fun ho => ?_) fun u => ?_
    · rcases ho with ho | ho
      · exact hhold ho
      · rw [hcase] at ho
        cases ho
    · by_cases hu : u = t
      · subst hu
        simp [Owns, hhold']
      · refine iff_of_false (fun how => hu ?_) hu
        exact h.turn_unique ((hown u hu).mp how).turn (turn_of_head hplace)

/-- The exchange of `Acquire`. -/
theorem Inv.arrive {pc : Pc N} (h : Inv s) (hcase : s.pc t = .swapTail n)
    (hpc : (s.tail = none ∧ pc = .loadNext n) ∨ ∃ p, s.tail = some p ∧ pc = .setLocked n p) :
    Inv ({ s with
      tail := some (.node n)
      queue := s.queue.arrive t
      ticket := Function.update s.ticket t s.queue.arrivals.length }.goto t pc) := by
  have hok := h.pcOk t
  simp only [PcOk, hcase] at hok
  have hbound := h.bound
  have hnode : (s.pc t).node = some n := by rw [hcase]; rfl
  have hhold := h.not_holding hcase (by simp)
  have hplace : placeOf s t = none := h.placeOf_eq hcase (by simp)
  set s' := ({ s with
      tail := some (.node n)
      queue := s.queue.arrive t
      ticket := Function.update s.ticket t s.queue.arrivals.length } : State N T).goto t pc with hs'
  have hpct : s'.pc t = pc := Function.update_self ..
  have hhold' : s'.holding = s.holding := rfl
  have htickt : s'.ticket t = s.queue.arrivals.length := Function.update_self ..
  have hothers : ∀ u, u ≠ t → s'.pc u = s.pc u ∧ s'.ticket u = s.ticket u := by
    intro u hu
    simp [hs', State.goto, hu]
  have hat : ∀ k u, s'.queue.At k u ↔
      s.queue.At k u ∨ (k = s.queue.arrivals.length ∧ u = t) := fun k u => Fifo.at_arrive hbound
  -- `t` is not in the queue before
  have hnew : ∀ k u, s.queue.At k u → u ≠ t := by
    rintro k u hk rfl
    exact (h.placed k u hk).1 hplace
  have hlen : s'.queue.arrivals.length = s.queue.arrivals.length + 1 := by simp [hs', State.goto]
  have hdep : s'.queue.departed = s.queue.departed := rfl
  -- the newcomer has the lock at once exactly if the queue was empty
  have hpcn : pc.node = some n ∧ pc.place = some (.node n) ∧ pc.releasing = false := by
    rcases hpc with ⟨-, rfl⟩ | ⟨p, -, rfl⟩ <;> exact ⟨rfl, rfl, rfl⟩
  have hplt : placeOf s' t = some (.node n) := by simp [placeOf, hhold', hhold, hpct, hpcn.2.1]
  have hpl : ∀ u, u ≠ t → placeOf s' u = placeOf s u := by
    intro u hu
    simp only [placeOf, hothers u hu, hhold']
  have hlk : ∀ u, u ≠ t → (s'.pc u).linking = (s.pc u).linking := by
    intro u hu
    rw [(hothers u hu).1]
  have hnd : ∀ u, (s'.pc u).node = (s.pc u).node :=
    pc_congr (fun u hu => (hothers u hu).1) (by rw [hpct, hnode, hpcn.1])
  -- what the exchange returned is the place of the last arrival
  have hlinkt : ∀ p, pc.linking = some p → s.queue.departed < s.queue.arrivals.length ∧
      ∃ v, s.queue.At (s.queue.arrivals.length - 1) v ∧ placeOf s v = some p := by
    intro p hp
    rcases hpc with ⟨-, rfl⟩ | ⟨q, htail, rfl⟩
    · cases hp
    · obtain rfl : q = p := Option.some.inj hp
      obtain ⟨v, hv, hplv⟩ := h.tail_place htail
      exact ⟨Nat.lt_of_le_of_lt hv.2 hv.lt, v, hv, hplv⟩
  refine
    { pcOk := fun u => ?_
      busy := fun u hu => ?_
      owned := fun u m hm => h.owned u m (by rwa [hnd] at hm)
      distinct := fun u v m hu hv => h.distinct u v m (by rwa [hnd] at hu) (by rwa [hnd] at hv)
      placed := fun k u hk => ?_
      queued := fun u p hp => ?_
      bound := by rw [hdep, hlen]; omega
      tailEmpty := fun heq => by rw [hdep, hlen] at heq; omega
      tailLast := fun k u hk hlast => ?_
      linked := fun k u p m hk hp => ?_
      waits := fun u p hp => ?_
      serves := ?_ }
  · by_cases hu : u = t
    · subst hu
      unfold PcOk
      rw [hpct]
      rcases hpc with ⟨hnone, rfl⟩ | ⟨p, -, rfl⟩
      · show s'.ticket u = s'.queue.departed
        rw [htickt, hdep, h.empty_of_tail hnone]
      · trivial
    · have hoku := h.pcOk u
      refine hoku.frame (hothers u hu).1 rfl (hothers u hu).2 (fun _ _ => rfl) (fun _ _ _ => rfl)
        (fun m hm => ?_) (fun _ => rfl) (fun _ => rfl) (by omega)
      simp only [PcOk, hm] at hoku
      exact hoku
  · have hut : u ≠ t := fun hut => hhold (hut ▸ hu)
    rw [(hothers u hut).1]
    exact h.busy u hu
  · rcases (hat k u).mp hk with hold | ⟨rfl, rfl⟩
    · have hu := hnew k u hold
      rw [hpl u hu, (hothers u hu).2]
      exact h.placed k u hold
    · exact ⟨by rw [hplt]; simp, htickt⟩
  · by_cases hu : u = t
    · subst hu
      rw [htickt]
      exact (hat _ _).mpr (Or.inr ⟨rfl, rfl⟩)
    · rw [hpl u hu] at hp
      rw [(hothers u hu).2]
      exact (hat _ _).mpr (Or.inl (h.queued u p hp))
  · -- the newcomer is the last arrival, and the tail is its node
    rcases (hat k u).mp hk with hold | ⟨rfl, rfl⟩
    · have := hold.lt
      omega
    · exact hplt.symm
  · have hnx : s'.nextOf p = s.nextOf p := by cases p <;> rfl
    rw [hnx]
    rcases (hat k u).mp hk with hold | ⟨rfl, rfl⟩
    · rw [hpl u (hnew k u hold)] at hp
      rw [h.linked k u p m hold hp]
      constructor
      · rintro ⟨v, hv, hm, hl⟩
        exact ⟨v, (hat _ v).mpr (Or.inl hv), by rw [hnd]; exact hm,
          by rw [hlk v (hnew _ v hv)]; exact hl⟩
      · rintro ⟨v, hv, hm, hl⟩
        rcases (hat _ v).mp hv with hv | ⟨hlast, rfl⟩
        · rw [hnd] at hm
          rw [hlk v (hnew _ v hv)] at hl
          exact ⟨v, hv, hm, hl⟩
        · -- the newcomer has somebody in front of it, so it has still to link
          rw [hpct] at hl
          rcases hpc with ⟨hnone, rfl⟩ | ⟨q, -, rfl⟩
          · have := h.empty_of_tail hnone
            have := hold.2
            omega
          · cases hl
    · rw [hplt] at hp
      obtain rfl := Option.some.inj hp
      show s.next n = some m ↔ _
      rw [hok]
      -- nobody is behind the newcomer yet
      refine iff_of_false (by simp) ?_
      rintro ⟨v, hv, -, -⟩
      rcases (hat _ v).mp hv with hv | ⟨hlast, -⟩
      · have := hv.lt
        omega
      · omega
  · have hkeep : ∀ k v q, s.queue.At k v → placeOf s v = some q →
        s'.queue.At k v ∧ placeOf s' v = some q := fun k v q hv hq =>
      ⟨(hat k v).mpr (Or.inl hv), by rw [hpl v (hnew k v hv)]; exact hq⟩
    by_cases hu : u = t
    · subst hu
      rw [hpct] at hp
      obtain ⟨hlt, v, hv, hq⟩ := hlinkt p hp
      rw [htickt]
      exact ⟨hlt, v, hkeep _ v p hv hq⟩
    · rw [hlk u hu] at hp
      rw [(hothers u hu).2]
      obtain ⟨hlt, v, hv, hq⟩ := h.waits u p hp
      exact ⟨hlt, v, hkeep _ v p hv hq⟩
  · refine (h.serves.arrive hbound).congr fun u => ?_
    by_cases hu : u = t
    · subst hu
      have hnewr : (s'.pc u).releasing = false := by rw [hpct]; exact hpcn.2.2
      have holdr : (s.pc u).releasing = false := by rw [hcase]; rfl
      simp [Owns, hhold', hnewr, holdr]
    · simp only [Owns, hothers u hu, hhold']

/-- A waiter stores its link. -/
theorem inv_link (h : Inv s) (hcase : s.pc t = .link n p) :
    Inv ((s.setNext p (some n)).goto t (.spin n)) := by
  have hok := h.pcOk t
  simp only [PcOk, hcase] at hok
  have hlinkt : (s.pc t).linking = some p := by rw [hcase]; rfl
  obtain ⟨hlt, v, hv, hplv⟩ := h.waits t p hlinkt
  have hnode : (s.pc t).node = some n := by rw [hcase]; rfl
  have hhold := h.not_holding hcase (by simp)
  have hplace : placeOf s t = some (.node n) := h.placeOf_eq hcase (by simp)
  have hatt := h.queued t _ hplace
  have hsucc : s.ticket t - 1 + 1 = s.ticket t := by omega
  -- nothing is linked to this place yet
  have hunlinked : ∀ m, s.nextOf p ≠ some m := by
    intro m hm
    obtain ⟨u, hu, -, hl⟩ := (h.linked _ v p m hv hplv).mp hm
    rw [hsucc] at hu
    rw [hu.unique hatt, hlinkt] at hl
    cases hl
  set s' := (s.setNext p (some n)).goto t (.spin n) with hs'
  have hfields : s'.queue = s.queue ∧ s'.ticket = s.ticket ∧ s'.tail = s.tail ∧
      s'.live = s.live ∧ s'.locked = s.locked ∧ s'.holding = s.holding := by
    cases p <;> exact ⟨rfl, rfl, rfl, rfl, rfl, rfl⟩
  obtain ⟨hqueue, htick, htail, hlive, hlocked, hholding⟩ := hfields
  have hpc : s'.pc t = .spin n := by cases p <;> exact Function.update_self ..
  have hothers : ∀ u, u ≠ t → s'.pc u = s.pc u := by
    intro u hu
    cases p <;> exact Function.update_of_ne hu ..
  have hnextp : s'.nextOf p = some n := nextOf_goto.trans nextOf_setNext_self
  have hnext : ∀ q, q ≠ p → s'.nextOf q = s.nextOf q := fun q hq =>
    nextOf_goto.trans (nextOf_setNext_of_ne hq)
  have hpl : ∀ u, placeOf s' u = placeOf s u := by
    intro u
    by_cases hu : u = t
    · rw [hu, hplace, placeOf, hholding, hpc]
      simp [hhold, Pc.place]
    · simp only [placeOf, hothers u hu, hholding]
  have hnd : ∀ u, (s'.pc u).node = (s.pc u).node :=
    pc_congr hothers (by rw [hpc, hnode]; rfl)
  have hlk : ∀ u q, (s'.pc u).linking = some q ↔ (s.pc u).linking = some q ∧ u ≠ t := by
    intro u q
    by_cases hu : u = t
    · subst hu
      simp [hpc, Pc.linking]
    · simp [hothers u hu, hu]
  -- only the thread in front of `t` could have learnt something about the link
  have hother : ∀ u q m, u ≠ t → placeOf s u = some q → s.nextOf q = some m →
      s'.nextOf q = some m := by
    intro u q m hu hq hm
    rw [hnext q fun hqp => hunlinked m (hqp ▸ hm)]
    exact hm
  have hown : ∀ u, Owns s' u ↔ Owns s u := by
    intro u
    by_cases hu : u = t
    · subst hu
      simp [Owns, hholding, hpc, hcase, Pc.releasing]
    · simp only [Owns, hothers u hu, hholding]
  refine
    { pcOk := fun u => ?_
      busy := fun u hu => ?_
      owned := fun u m hm => by rw [hlive]; exact h.owned u m (by rwa [hnd] at hm)
      distinct := fun u w m hu hw => h.distinct u w m (by rwa [hnd] at hu) (by rwa [hnd] at hw)
      placed := by simp only [hpl, hqueue, htick]; exact h.placed
      queued := by simp only [hpl, hqueue, htick]; exact h.queued
      bound := by rw [hqueue]; exact h.bound
      tailEmpty := by rw [hqueue, htail]; exact h.tailEmpty
      tailLast := by simp only [hpl, hqueue, htail]; exact h.tailLast
      linked := fun k u q m hk hq => ?_
      waits := fun u q hq => ?_
      serves := by rw [hqueue]; exact h.serves.congr hown }
  · by_cases hu : u = t
    · subst hu
      simp only [PcOk, hpc, hlocked, htick, hqueue, hok]
      -- `t` is not the front: somebody is in front of it
      refine iff_of_false (by simp) ?_
      omega
    · have hoku := h.pcOk u
      unfold PcOk at hoku ⊢
      rw [hothers u hu, hqueue, htick, hlocked, hholding]
      have hplu : ∀ q, (s.pc u).place = some q → placeOf s u = some q := by
        intro q hq
        have hnh : s.holding u ≠ true := by
          intro hh
          rw [h.busy u hh] at hq
          cases hq
        simp [placeOf, hnh, hq]
      cases hpcu : s.pc u <;> rw [hpcu] at hoku hplu <;> simp only at hoku ⊢
      case swapTail m =>
        -- a node outside the queue is nobody's predecessor
        have hnm : (s.pc u).node = some m := by rw [hpcu]; rfl
        have hne : Ptr.node m ≠ p := by
          intro hmp
          have huv := h.distinct u v m hnm (node_of_placeOf (hmp ▸ hplv))
          have hnone : placeOf s u = none := h.placeOf_eq hpcu (by simp)
          rw [huv, hplv] at hnone
          cases hnone
        have := hnext _ hne
        exact this.trans hoku
      case casTail m =>
        refine ⟨hoku.1, ?_⟩
        have hne : Ptr.head ≠ p := by
          intro hmp
          -- the thread at `lock_head` would be the first, which is `u`
          subst hmp
          have hvu : v = u := h.turn_unique (turn_of_head hplv) (Or.inr (by rw [hpcu]; rfl))
          rw [hvu, hplu _ rfl] at hplv
          cases hplv
        exact (hnext _ hne).trans hoku.2
      case storeHead m k =>
        exact ⟨hoku.1, hother u (.node m) k hu (hplu _ rfl) hoku.2⟩
      case wake m => exact ⟨hoku.1, hother u .head m hu (hplu _ rfl) hoku.2⟩
      all_goals exact hoku
  · rw [hholding] at hu
    have hut : u ≠ t := fun hut => hhold (hut ▸ hu)
    rw [hothers u hut]
    exact h.busy u hu
  · rw [hqueue] at hk ⊢
    rw [hpl] at hq
    by_cases huv : u = v
    · subst huv
      rw [hplv] at hq
      obtain rfl := Option.some.inj hq
      -- the place that gets the link is the one right in front of `t`
      obtain rfl : k = s.ticket t - 1 := by
        rw [← (h.placed k u hk).2, (h.placed _ u hv).2]
      rw [hnextp, hsucc]
      constructor
      · intro heq
        obtain rfl := Option.some.inj heq
        refine ⟨t, hatt, by rw [hnd, hnode], ?_⟩
        rw [hpc]
        rfl
      · rintro ⟨w, hw, hm, -⟩
        obtain rfl := hw.unique hatt
        rw [hnd, hnode] at hm
        exact hm
    · -- the other places keep their links, and `t` is behind none of them
      have hqp : q ≠ p := fun hqp => huv (h.place_injective hq (hqp ▸ hplv))
      rw [hnext q hqp, h.linked k u q m hk hq]
      refine exists_congr fun w => and_congr_right fun hw => ?_
      have hwt : w ≠ t := by
        intro hwt
        subst hwt
        have h1 := (h.placed _ w hw).2
        have hkt : k = s.ticket w - 1 := by omega
        exact huv ((hkt ▸ hk).unique hv)
      rw [hnd, hothers w hwt]
  · obtain ⟨hq, hut⟩ := (hlk u q).mp hq
    rw [hqueue, htick]
    obtain ⟨hlt, w, hw, hplw⟩ := h.waits u q hq
    exact ⟨hlt, w, hw, by rw [hpl]; exact hplw⟩

/-- The first of the queue moves from its node to `lock_head`. -/
theorem Inv.collapse (h : Inv s) (hplace : placeOf s t = some (.node n)) (hturn : Turn s t)
    (hqueue : s'.queue = s.queue) (htick : s'.ticket = s.ticket) (hlive : s'.live = s.live)
    (hnext : s'.next = s.next) (hlocked : s'.locked = s.locked) (hholding : s'.holding = s.holding)
    (hpc : s'.pc t = .free n) (hothers : ∀ u, u ≠ t → s'.pc u = s.pc u)
    (hhead : s'.headNext = s.next n)
    (hunlinking : ∀ u, s.queue.At (s.queue.departed + 1) u → (s.pc u).linking = none)
    (htail : s'.tail = if s.queue.departed + 1 = s.queue.arrivals.length then some .head
      else s.tail) : Inv s' := by
  have hhold : s.holding t ≠ true := fun hh => by simp [placeOf, hh] at hplace
  have hnode := node_of_placeOf hplace
  have hfront := h.front hturn
  have hticket := (h.placed _ t hfront).2
  have hnl := h.front_linked hfront
  have hplt : placeOf s' t = some .head := by simp [placeOf, hholding, hhold, hpc, Pc.place]
  have hpl : ∀ u, u ≠ t → placeOf s' u = placeOf s u := by
    intro u hu
    simp only [placeOf, hothers u hu, hholding]
  have hnd : ∀ u, (s'.pc u).node = (s.pc u).node :=
    pc_congr hothers (by rw [hpc, hnode]; rfl)
  have hlk : ∀ u, (s'.pc u).linking = (s.pc u).linking := pc_congr hothers (by rw [hpc, hnl]; rfl)
  -- nobody else is at the front
  have hturnu : ∀ u, u ≠ t → ¬ Turn s u := fun u hu hut => hu (h.turn_unique hut hturn)
  have hrel : (s.pc t).releasing = false := by
    unfold placeOf at hplace
    rw [if_neg hhold] at hplace
    cases hcase : s.pc t <;> rw [hcase] at hplace <;> first | rfl | cases hplace
  refine
    { pcOk := fun u => ?_
      busy := fun u hu => ?_
      owned := fun u m hm => by rw [hlive]; exact h.owned u m (by rwa [hnd] at hm)
      distinct := fun u w m hu hw => h.distinct u w m (by rwa [hnd] at hu) (by rwa [hnd] at hw)
      placed := fun k u hk => ?_
      queued := fun u p hp => ?_
      bound := by rw [hqueue]; exact h.bound
      tailEmpty := fun heq => ?_
      tailLast := fun k u hk hlast => ?_
      linked := fun k u p m hk hp => ?_
      waits := fun u p hp => ?_
      serves := ?_ }
  · by_cases hu : u = t
    · subst hu
      simp only [PcOk, hpc, htick, hqueue]
      exact hticket
    · have hoku := h.pcOk u
      refine hoku.frame (hothers u hu) (by rw [hholding]) (by rw [htick]) (fun _ _ => by rw [hnext])
        (fun _ _ _ => by rw [hlocked]) (fun m hm => ?_) (fun hut => absurd hut (hturnu u hu))
        (fun _ => by rw [hqueue]) (Nat.le_of_eq (by rw [hqueue]))
      rw [hlocked, hqueue]
      simp only [PcOk, hm] at hoku
      exact hoku
  · rw [hholding] at hu
    have hut : u ≠ t := fun hut => hhold (hut ▸ hu)
    rw [hothers u hut]
    exact h.busy u hu
  · rw [hqueue] at hk
    rw [htick]
    refine ⟨?_, (h.placed k u hk).2⟩
    by_cases hu : u = t
    · rw [hu, hplt]
      simp
    · rw [hpl u hu]
      exact (h.placed k u hk).1
  · rw [hqueue, htick]
    by_cases hu : u = t
    · rw [hu]
      exact h.queued t _ hplace
    · rw [hpl u hu] at hp
      exact h.queued u p hp
  · rw [hqueue] at heq
    have := hfront.lt
    omega
  · rw [hqueue] at hk hlast
    -- the tail moves along exactly if `t` is the last
    rw [htail]
    by_cases hu : u = t
    · subst hu
      rw [hplt, if_pos (by rw [← hlast, ← (h.placed k u hk).2, hticket])]
    · rw [hpl u hu, if_neg fun heq => hu ?_]
      · exact h.tailLast k u hk hlast
      · obtain rfl : k = s.queue.departed := by omega
        exact hk.unique hfront
  · rw [hqueue] at hk ⊢
    simp only [hnd, hlk]
    by_cases hu : u = t
    · subst hu
      rw [hplt] at hp
      obtain rfl := Option.some.inj hp
      -- `lock_head` takes over the link of the node of `t`
      show s'.headNext = some m ↔ _
      rw [hhead]
      exact h.linked k u (.node n) m hk hplace
    · rw [hpl u hu] at hp
      -- the others are still at their nodes
      have hpn : ∃ j, p = .node j := by
        cases p with
        | head => exact absurd (turn_of_head hp) (hturnu u hu)
        | node j => exact ⟨j, rfl⟩
      obtain ⟨j, rfl⟩ := hpn
      show s'.next j = some m ↔ _
      rw [hnext]
      exact h.linked k u (.node j) m hk hp
  · rw [hlk] at hp
    rw [hqueue, htick]
    obtain ⟨hlt, w, hw, hplw⟩ := h.waits u p hp
    refine ⟨hlt, w, hw, ?_⟩
    have hwt : w ≠ t := by
      intro hwt
      -- the next arrival has already stored its link
      subst hwt
      have h1 := (h.placed _ w hw).2
      have hau := h.at_of_linking hp
      rw [show s.ticket u = s.queue.departed + 1 by omega] at hau
      rw [hunlinking u hau] at hp
      cases hp
    rw [hpl w hwt]
    exact hplw
  · rw [hqueue]
    refine h.serves.congr fun u => ?_
    by_cases hu : u = t
    · subst hu
      have hnew : (s'.pc u).releasing = false := by rw [hpc]; rfl
      simp [Owns, hholding, hnew, hrel]
    · simp only [Owns, hothers u hu, hholding]

/-- The last step of `Release`, whether it wakes somebody or not. -/
theorem Inv.depart (h : Inv s) (hrel : (s.pc t).releasing = true)
    (hqueue : s'.queue = s.queue.depart) (htick : s'.ticket = s.ticket)
    (hlive : s'.live = s.live) (hnext : s'.next = s.next) (hholding : s'.holding = s.holding)
    (hhead : s'.headNext = s.headNext) (hpc : s'.pc t = .idle)
    (hothers : ∀ u, u ≠ t → s'.pc u = s.pc u)
    (hlocked : ∀ u n p, s.pc u = .link n p → s'.locked n = s.locked n)
    (hspin : ∀ u n, s.pc u = .spin n → (s'.locked n = false ↔
      s.locked n = false ∨ s.ticket u = s.queue.departed + 1))
    (hunlinking : ∀ u, s.queue.At (s.queue.departed + 1) u → (s.pc u).linking = none)
    (htail : s'.tail = if s.queue.departed + 1 = s.queue.arrivals.length then none
      else s.tail) : Inv s' := by
  have howns : Owns s t := Or.inr hrel
  have hturn := howns.turn
  have hfront := h.front hturn
  have hticket := (h.placed _ t hfront).2
  have hlt := hfront.lt
  have hhold : s.holding t ≠ true := by
    intro hh
    rw [h.busy t hh] at hrel
    cases hrel
  have hplt : placeOf s' t = none := by simp [placeOf, hholding, hhold, hpc, Pc.place]
  have hpl : ∀ u, u ≠ t → placeOf s' u = placeOf s u := by
    intro u hu
    simp only [placeOf, hothers u hu, hholding]
  have hturnu : ∀ u, u ≠ t → ¬ Turn s u := fun u hu hut => hu (h.turn_unique hut hturn)
  have hnt : (s.pc t).node = none ∧ (s.pc t).linking = none := by
    cases hcase : s.pc t <;> rw [hcase] at hrel <;> first | exact ⟨rfl, rfl⟩ | cases hrel
  have hnd : ∀ u, (s'.pc u).node = (s.pc u).node := pc_congr hothers (by rw [hpc, hnt.1]; rfl)
  have hlk : ∀ u, (s'.pc u).linking = (s.pc u).linking :=
    pc_congr hothers (by rw [hpc, hnt.2]; rfl)
  -- exactly `t` leaves the queue
  have hback : ∀ k u, s'.queue.At k u → s.queue.At k u ∧ u ≠ t := by
    intro k u hk
    rw [hqueue, Fifo.at_depart] at hk
    refine ⟨hk.1, fun hu => hk.2 ?_⟩
    rw [← (h.placed k u hk.1).2, hu, hticket]
  have hkeep : ∀ k u, u ≠ t → s.queue.At k u → s'.queue.At k u := by
    intro k u hu hk
    rw [hqueue, Fifo.at_depart]
    refine ⟨hk, fun hkd => hu ?_⟩
    rw [hkd] at hk
    exact hk.unique hfront
  refine
    { pcOk := fun u => ?_
      busy := fun u hu => ?_
      owned := fun u m hm => by rw [hlive]; exact h.owned u m (by rwa [hnd] at hm)
      distinct := fun u w m hu hw => h.distinct u w m (by rwa [hnd] at hu) (by rwa [hnd] at hw)
      placed := fun k u hk => ?_
      queued := fun u p hp => ?_
      bound := by rw [hqueue]; exact hlt
      tailEmpty := fun heq => ?_
      tailLast := fun k u hk hlast => ?_
      linked := fun k u p m hk hp => ?_
      waits := fun u p hp => ?_
      serves := ?_ }
  · by_cases hu : u = t
    · subst hu
      simp only [PcOk, hpc, hholding]
      exact fun hh => absurd hh hhold
    · have hoku := h.pcOk u
      refine hoku.frame (hothers u hu) (by rw [hholding]) (by rw [htick]) (fun _ _ => by rw [hnext])
        (hlocked u) (fun m hm => ?_) (fun _ => hhead) (fun hut => absurd hut (hturnu u hu))
        (Nat.le_of_eq (by rw [hqueue]; rfl))
      simp only [PcOk, hm] at hoku
      rw [hspin u m hm, hoku, hqueue]
      -- the spinner that is let through is the next arrival
      have hne : s.ticket u ≠ s.queue.departed := by
        intro heq
        have hau := h.at_of_spin hm
        rw [heq] at hau
        exact hu (hau.unique hfront)
      exact ⟨fun hor => hor.resolve_left hne, Or.inr⟩
  · rw [hholding] at hu
    have hut : u ≠ t := fun hut => hhold (hut ▸ hu)
    rw [hothers u hut]
    exact h.busy u hu
  · obtain ⟨hk, hu⟩ := hback k u hk
    rw [hpl u hu, htick]
    exact h.placed k u hk
  · have hu : u ≠ t := by
      intro hu
      rw [hu, hplt] at hp
      cases hp
    rw [hpl u hu] at hp
    rw [htick]
    exact hkeep _ u hu (h.queued u p hp)
  · rw [hqueue] at heq
    exact htail.trans (if_pos heq)
  · obtain ⟨hk', hu⟩ := hback k u hk
    rw [hqueue] at hlast
    -- somebody is left, so `t` was not the last
    have hne : s.queue.departed + 1 ≠ s.queue.arrivals.length := by
      intro heq
      have h1 : k + 1 = s.queue.arrivals.length := hlast
      rw [hqueue, Fifo.at_depart] at hk
      exact hk.2 (by omega)
    rw [htail, if_neg hne, hpl u hu]
    exact h.tailLast k u hk' hlast
  · obtain ⟨hk', hu⟩ := hback k u hk
    rw [hpl u hu] at hp
    have hnx : s'.nextOf p = s.nextOf p := by
      cases p with
      | head => exact hhead
      | node j => exact congrFun hnext j
    rw [hnx, h.linked k u p m hk' hp]
    refine exists_congr fun v => ?_
    rw [hnd, hlk]
    refine and_congr_left fun _ =>
      ⟨fun hv => hkeep _ v (fun hvt => ?_) hv, fun hv => (hback _ v hv).1⟩
    -- `t` was at the front, so nobody is in front of it
    have h1 := (h.placed _ v hv).2
    have h2 := hk'.2
    rw [hvt] at h1
    omega
  · rw [hlk] at hp
    obtain ⟨hltu, w, hw, hplw⟩ := h.waits u p hp
    have hau := h.at_of_linking hp
    -- the next arrival has stored its link, so `u` comes later
    have hne : s.ticket u ≠ s.queue.departed + 1 := by
      intro heq
      rw [heq] at hau
      rw [hunlinking u hau] at hp
      cases hp
    have hwt : w ≠ t := by
      intro hwt
      have h1 := (h.placed _ w hw).2
      rw [hwt] at h1
      omega
    rw [htick, hqueue]
    refine ⟨?_, w, by rw [← hqueue]; exact hkeep _ w hwt hw, by rw [hpl w hwt]; exact hplw⟩
    show s.queue.departed + 1 < s.ticket u
    omega
  · rw [hqueue]
    refine h.serves.depart howns fun u hu => ?_
    by_cases hut : u = t
    · subst hut
      rcases hu with hu | hu
      · rw [hholding] at hu
        exact hhold hu
      · rw [hpc] at hu
        cases hu
    · simp only [Owns, hothers u hut, hholding] at hu
      exact hut (h.serves.exclusive hu howns)

/-- The tail is the place of the last arrival; here it is the front's. -/
theorem Inv.front_last (h : Inv s) (hturn : Turn s t) (hplace : placeOf s t = some p)
    (htail : s.tail = some p) : s.queue.departed + 1 = s.queue.arrivals.length := by
  have hfront := h.front hturn
  have hlt := hfront.lt
  obtain ⟨v, hv, hplv⟩ := h.tail_place htail
  have hvt := h.place_injective hplv hplace
  have h1 := (h.placed _ v hv).2
  have h2 := (h.placed _ t hfront).2
  rw [hvt] at h1
  omega

/-- The tail is not the front's place, so somebody arrived behind it. -/
theorem Inv.not_last (h : Inv s) (hturn : Turn s t) (hplace : placeOf s t = some p)
    (htail : s.tail ≠ some p) : s.ticket t + 1 < s.queue.arrivals.length := by
  have hfront := h.front hturn
  have hlt := hfront.lt
  rw [(h.placed _ t hfront).2]
  by_contra hge
  have hlast := h.tailLast _ t hfront (by omega)
  exact htail (hlast.trans hplace)

/-- A link from the front leads to the next arrival, which spins. -/
theorem Inv.front_link (h : Inv s) (hturn : Turn s t) (hplace : placeOf s t = some p)
    (hm : s.nextOf p = some m) : ∃ u, s.queue.At (s.queue.departed + 1) u ∧ s.pc u = .spin m := by
  have hfront := h.front hturn
  obtain ⟨u, hu, hnode, hl⟩ := (h.linked _ t p m hfront hplace).mp hm
  refine ⟨u, hu, ?_⟩
  obtain ⟨hplu, htick⟩ := h.placed _ u hu
  -- the next arrival is not the front, and has stored its link
  have hnt : ¬ Turn s u := by
    intro hut
    have := (h.pcOk u).turn (h.busy u) hut
    omega
  have hnh : s.holding u ≠ true := fun hh => hnt (Or.inl hh)
  have hnp : (s.pc u).turn ≠ true := fun hp => hnt (Or.inr hp)
  rw [placeOf, if_neg hnh] at hplu
  cases hcase : s.pc u <;> rw [hcase] at hnode hl hnp hplu <;>
    simp_all [Pc.node, Pc.linking, Pc.turn, Pc.place]

/-- The collapse onto `lock_head` with nobody waiting. -/
theorem inv_casTail (h : Inv s) (hcase : s.pc t = .casTail n) (htail : s.tail = some (.node n)) :
    Inv ({ s with tail := some .head }.goto t (.free n)) := by
  have hok := h.pcOk t
  simp only [PcOk, hcase] at hok
  have hturn : Turn s t := Or.inr (by rw [hcase]; rfl)
  have hhold := h.not_holding hcase (by simp)
  have hplace : placeOf s t = some (.node n) := h.placeOf_eq hcase (by simp)
  have hlast := h.front_last hturn hplace htail
  have hnobody : ∀ u, ¬ s.queue.At (s.queue.departed + 1) u := by
    intro u hu
    have := hu.lt
    omega
  refine h.collapse hplace hturn rfl rfl rfl rfl rfl rfl (Function.update_self ..)
    (fun u hu => Function.update_of_ne hu ..) ?_ (fun u hu => absurd hu (hnobody u))
    (by rw [if_pos hlast]; rfl)
  show s.headNext = s.next n
  -- nobody is linked to the node, so its `next` is what `lock_head.next` is
  rw [hok.2]
  cases hm : s.next n with
  | none => rfl
  | some m =>
    obtain ⟨u, hu, -⟩ := h.front_link hturn hplace hm
    exact absurd hu (hnobody u)

/-- The collapse onto `lock_head` with a successor. -/
theorem inv_storeHead (h : Inv s) (hcase : s.pc t = .storeHead n m) :
    Inv ((s.setNext .head (some m)).goto t (.free n)) := by
  have hok := h.pcOk t
  simp only [PcOk, hcase] at hok
  have hturn : Turn s t := Or.inr (by rw [hcase]; rfl)
  have hhold := h.not_holding hcase (by simp)
  have hplace : placeOf s t = some (.node n) := h.placeOf_eq hcase (by simp)
  obtain ⟨v, hv, hspin⟩ := h.front_link hturn hplace hok.2
  have hlt := hv.lt
  refine h.collapse hplace hturn rfl rfl rfl rfl rfl rfl (Function.update_self ..)
    (fun u hu => Function.update_of_ne hu ..) hok.2.symm (fun u hu => ?_)
    (by rw [if_neg (by omega)]; rfl)
  rw [hu.unique hv, hspin]
  rfl

/-- `Release` finds nobody behind it. -/
theorem inv_casHead (h : Inv s) (hcase : s.pc t = .casHead) (htail : s.tail = some .head) :
    Inv ({ s with tail := none, queue := s.queue.depart }.goto t .idle) := by
  have hrel : (s.pc t).releasing = true := by rw [hcase]; rfl
  have hturn : Turn s t := Or.inr (by rw [hcase]; rfl)
  have hhold := h.not_holding hcase (by simp)
  have hplace : placeOf s t = some .head := h.placeOf_eq hcase (by simp)
  have hlast := h.front_last hturn hplace htail
  have hspin : ∀ u m, s.pc u = .spin m → s.ticket u ≠ s.queue.departed + 1 := by
    intro u m hu heq
    have := (h.at_of_spin hu).lt
    omega
  refine h.depart hrel rfl rfl rfl rfl rfl rfl (Function.update_self ..)
    (fun u hu => Function.update_of_ne hu ..) (fun _ _ _ _ => rfl) (fun u m hu => ?_)
    (fun u hu => ?_) (by rw [if_pos hlast]; rfl)
  · exact (or_iff_left (hspin u m hu)).symm
  · have := hu.lt
    omega

/-- `Release` wakes the next arrival. -/
theorem inv_wake (h : Inv s) (hcase : s.pc t = .wake m) :
    s.live m = true ∧ Inv ({ s with
      locked := Function.update s.locked m false
      queue := s.queue.depart }.goto t .idle) := by
  have hok := h.pcOk t
  simp only [PcOk, hcase] at hok
  have hrel : (s.pc t).releasing = true := by rw [hcase]; rfl
  have hturn : Turn s t := Or.inr (by rw [hcase]; rfl)
  have hhold := h.not_holding hcase (by simp)
  have hplace : placeOf s t = some .head := h.placeOf_eq hcase (by simp)
  obtain ⟨v, hv, hspinv⟩ := h.front_link hturn hplace hok.2
  have hnodev : (s.pc v).node = some m := by rw [hspinv]; rfl
  have hlt := hv.lt
  refine ⟨h.owned v m hnodev, h.depart hrel rfl rfl rfl rfl rfl rfl (Function.update_self ..)
    (fun u hu => Function.update_of_ne hu ..) (fun u k p hu => ?_) (fun u k hu => ?_)
    (fun u hu => ?_) (by rw [if_neg (by omega)]; rfl)⟩
  · refine Function.update_of_ne (fun hkm => ?_) ..
    -- the node belongs to the successor, which has stored its link
    have huv := h.distinct u v m (by rw [hu, hkm]; rfl) hnodev
    rw [huv, hspinv] at hu
    cases hu
  · show Function.update s.locked m false k = false ↔ _
    by_cases hkm : k = m
    · subst hkm
      have huv := h.distinct u v k (by rw [hu]; rfl) hnodev
      rw [huv, (h.placed _ v hv).2]
      simp
    · -- no other spinner is the next arrival
      rw [Function.update_of_ne hkm]
      refine (or_iff_left fun heq => hkm ?_).symm
      have hau := h.at_of_spin hu
      rw [heq] at hau
      rw [hau.unique hv, hspinv] at hu
      exact (Pc.spin.inj hu).symm
  · rw [hu.unique hv, hspinv]
    rfl

/-! ### Runs -/

theorem access_live {p : Ptr N} (hlive : ∀ n, p = .node n → s.live n = true) :
    s.access t p s' = s' := by
  cases p with
  | head => rfl
  | node n => simp [State.access, hlive n rfl]

theorem Inv.access_own (h : Inv s) (hnode : (s.pc t).node = some n) :
    s.access t (.node n) s' = s' :=
  access_live fun m hm => by
    obtain rfl := Ptr.node.inj hm
    exact h.owned t n hnode

/-- The predecessor that a thread links from is allocated. -/
theorem Inv.linking_live (h : Inv s) (hl : (s.pc t).linking = some (.node m)) :
    s.live m = true := by
  obtain ⟨-, w, -, hplw⟩ := h.waits t _ hl
  exact h.owned w m (node_of_placeOf hplw)

theorem inv_proceed (h : Inv s) (hs : proceed s t (s.pc t) = some s') : Inv s' := by
  have hok := h.pcOk t
  -- a thread's own node is alive during its call
  have hown : ∀ n r, (s.pc t).node = some n → s.access t (.node n) r = r := fun n r hn =>
    h.access_own hn
  cases hcase : s.pc t with
  | idle =>
    rw [hcase] at hs
    cases hs
  | clearNext n =>
    simp only [hcase, proceed, hown n _ (by rw [hcase]; rfl)] at hs
    obtain rfl := Option.some.inj hs
    exact inv_clearNext h hcase
  | swapTail n =>
    simp only [hcase, proceed] at hs
    cases htail : s.tail with
    | none =>
      rw [htail] at hs
      obtain rfl := Option.some.inj hs
      exact h.arrive hcase (Or.inl ⟨htail, rfl⟩)
    | some p =>
      rw [htail] at hs
      obtain rfl := Option.some.inj hs
      exact h.arrive hcase (Or.inr ⟨p, htail, rfl⟩)
  | setLocked n p =>
    simp only [hcase, proceed, hown n _ (by rw [hcase]; rfl)] at hs
    obtain rfl := Option.some.inj hs
    exact inv_setLocked h hcase
  | link n p =>
    -- so is the node of a predecessor whose link is missing
    have hlive : ∀ m, p = .node m → s.live m = true := fun m hm =>
      h.linking_live (t := t) (by rw [hcase, hm]; rfl)
    simp only [hcase, proceed, access_live hlive] at hs
    obtain rfl := Option.some.inj hs
    exact inv_link h hcase
  | spin n =>
    simp only [hcase, proceed, hown n _ (by rw [hcase]; rfl)] at hs
    simp only [PcOk, hcase] at hok
    split at hs
    · exact Option.some.inj hs ▸ h
    · rename_i hfree
      obtain rfl := Option.some.inj hs
      refine inv_goto h hcase (by simp) rfl rfl rfl rfl ?_
      simp only [PcOk, State.goto, Function.update_self]
      exact hok.mp (by simpa using hfree)
  | loadNext n =>
    simp only [hcase, proceed, hown n _ (by rw [hcase]; rfl)] at hs
    simp only [PcOk, hcase] at hok
    cases hm : s.next n with
    | none =>
      rw [hm] at hs
      obtain rfl := Option.some.inj hs
      refine inv_goto h hcase (by simp) rfl rfl rfl rfl ?_
      simp only [PcOk, State.goto, Function.update_self]
      exact hok
    | some m =>
      rw [hm] at hs
      obtain rfl := Option.some.inj hs
      refine inv_goto h hcase (by simp) rfl rfl rfl rfl ?_
      simp only [PcOk, State.goto, Function.update_self]
      exact ⟨hok, hm⟩
  | clearHead n =>
    simp only [hcase, proceed] at hs
    obtain rfl := Option.some.inj hs
    exact inv_clearHead h hcase
  | casTail n =>
    simp only [hcase, proceed] at hs
    simp only [PcOk, hcase] at hok
    -- a failed exchange means that somebody has arrived since
    have hturn : Turn s t := Or.inr (by rw [hcase]; rfl)
    have hplace : placeOf s t = some (.node n) := h.placeOf_eq hcase (by simp)
    split at hs
    · rename_i htail
      obtain rfl := Option.some.inj hs
      exact inv_casTail h hcase htail
    · rename_i htail
      obtain rfl := Option.some.inj hs
      refine inv_goto h hcase (by simp) rfl rfl rfl rfl ?_
      simp only [PcOk, State.goto, Function.update_self]
      refine ⟨hok.1, ?_⟩
      exact h.not_last hturn hplace htail
  | awaitNext n =>
    simp only [hcase, proceed, hown n _ (by rw [hcase]; rfl)] at hs
    simp only [PcOk, hcase] at hok
    cases hm : s.next n with
    | none =>
      rw [hm] at hs
      exact Option.some.inj hs ▸ h
    | some m =>
      rw [hm] at hs
      obtain rfl := Option.some.inj hs
      refine inv_goto h hcase (by simp) rfl rfl rfl rfl ?_
      simp only [PcOk, State.goto, Function.update_self]
      exact ⟨hok.1, hm⟩
  | storeHead n m =>
    simp only [hcase, proceed] at hs
    obtain rfl := Option.some.inj hs
    exact inv_storeHead h hcase
  | free n =>
    simp only [hcase, proceed, hown n _ (by rw [hcase]; rfl)] at hs
    obtain rfl := Option.some.inj hs
    exact inv_free h hcase
  | loadHead =>
    simp only [hcase, proceed] at hs
    simp only [PcOk, hcase] at hok
    cases hm : s.headNext with
    | none =>
      rw [hm] at hs
      obtain rfl := Option.some.inj hs
      refine inv_goto h hcase (by simp) rfl rfl rfl rfl ?_
      simp only [PcOk, State.goto, Function.update_self]
      exact hok
    | some m =>
      rw [hm] at hs
      obtain rfl := Option.some.inj hs
      refine inv_goto h hcase (by simp) rfl rfl rfl rfl ?_
      simp only [PcOk, State.goto, Function.update_self]
      exact ⟨hok, hm⟩
  | casHead =>
    simp only [hcase, proceed] at hs
    simp only [PcOk, hcase] at hok
    have hturn : Turn s t := Or.inr (by rw [hcase]; rfl)
    have hplace : placeOf s t = some .head := h.placeOf_eq hcase (by simp)
    split at hs
    · rename_i htail
      obtain rfl := Option.some.inj hs
      exact inv_casHead h hcase htail
    · rename_i htail
      obtain rfl := Option.some.inj hs
      refine inv_goto h hcase (by simp) rfl rfl rfl rfl ?_
      simp only [PcOk, State.goto, Function.update_self]
      exact ⟨hok, h.not_last hturn hplace htail⟩
  | awaitHead =>
    simp only [hcase, proceed] at hs
    simp only [PcOk, hcase] at hok
    cases hm : s.headNext with
    | none =>
      rw [hm] at hs
      exact Option.some.inj hs ▸ h
    | some m =>
      rw [hm] at hs
      obtain rfl := Option.some.inj hs
      refine inv_goto h hcase (by simp) rfl rfl rfl rfl ?_
      simp only [PcOk, State.goto, Function.update_self]
      exact ⟨hok.1, hm⟩
  | wake m =>
    -- and so is the node of the waiter
    obtain ⟨hlive, hI⟩ := inv_wake h hcase
    have hacc : ∀ r, s.access t (.node m) r = r := fun r =>
      access_live fun k hk => by
        obtain rfl := Ptr.node.inj hk
        exact hlive
    simp only [hcase, proceed, hacc] at hs
    obtain rfl := Option.some.inj hs
    exact hI
  | crashed =>
    rw [hcase] at hs
    cases hs

theorem reachable_inv (h : Reachable step (init : State N T) s) : Inv s := by
  refine h.invariant (fun _ => inv_init) fun s a s' hI _ _ hs => ?_
  cases a with
  | acquire t n =>
    simp only [step] at hs
    split at hs
    · rename_i hcond
      obtain rfl := Option.some.inj hs
      exact inv_acquire hI hcond.1 hcond.2.1 hcond.2.2
    · cases hs
  | release t =>
    simp only [step] at hs
    split at hs
    · rename_i hcond
      obtain rfl := Option.some.inj hs
      exact inv_release hI hcond.1 hcond.2
    · cases hs
  | advance t => exact inv_proceed hI hs

/-! ## What the lock promises -/

/-- The thread is in the queue and has not been woken. -/
def Waits (s : State N T) (t : T) : Prop :=
  (s.pc t).linking ≠ none ∨ ∃ n, s.pc t = .spin n ∧ s.locked n = true

/-- The place of `t` is linked to the node of `u`, or about to be. -/
def LinkedFrom (s : State N T) (t u : T) : Prop :=
  ∃ p n, placeOf s t = some p ∧ (s.pc u).node = some n ∧
    (s.nextOf p = some n ∨ (s.pc u).linking = some p)

/-- The thread owns the lock, is finishing `Acquire` or is inside `Release`. -/
def Granted (s : State N T) (t : T) : Prop :=
  Turn s t ∨ ∃ n, s.pc t = .spin n ∧ s.locked n = false

/-- Whatever access the thread is at, it leads to waking `first`. -/
def WillWake (s : State N T) (t first : T) : Prop :=
  LinkedFrom s t first ∧
  (∀ n, s.pc t = .casTail n → s.tail ≠ some (.node n)) ∧
  (∀ n m, s.pc t = .storeHead n m → (s.pc first).node = some m) ∧
  (s.pc t = .casHead → s.tail ≠ some .head) ∧
  (∀ m, s.pc t = .wake m → (s.pc first).node = some m)

/-- A waiter has a node and has not reached the front. -/
theorem Inv.waits_place (h : Inv s) (hw : Waits s t) :
    (∃ n, (s.pc t).node = some n ∧ placeOf s t = some (.node n)) ∧
      s.queue.departed < s.ticket t := by
  rcases hw with hl | ⟨n, hcase, hlocked⟩
  · obtain ⟨p, hp⟩ := Option.ne_none_iff_exists'.mp hl
    exact ⟨h.place_of_linking hp, (h.waits t p hp).1⟩
  · have hok := h.pcOk t
    simp only [PcOk, hcase] at hok
    have hlo := (h.at_of_spin hcase).2
    have hne : s.ticket t ≠ s.queue.departed := by
      intro heq
      rw [hok.mpr heq] at hlocked
      cases hlocked
    exact ⟨⟨n, by rw [hcase]; rfl, h.placeOf_eq hcase (by simp)⟩, by omega⟩

/-- Whoever is behind somebody still has its node. -/
theorem Inv.node_behind {k : Nat} (h : Inv s) (hu : s.queue.At k u) (hlt : s.queue.departed < k) :
    ∃ n, (s.pc u).node = some n := by
  obtain ⟨hpl, htick⟩ := h.placed k u hu
  obtain ⟨p, hp⟩ := Option.ne_none_iff_exists'.mp hpl
  cases p with
  | head =>
    have := (h.pcOk u).turn (h.busy u) (turn_of_head hp)
    omega
  | node n => exact ⟨n, node_of_placeOf hp⟩

/-- Neighbours in the queue are linked, or about to be. -/
theorem Inv.linkedFrom {k : Nat} (h : Inv s) (ht : s.queue.At k t) (hu : s.queue.At (k + 1) u) :
    LinkedFrom s t u := by
  obtain ⟨p, hp⟩ := Option.ne_none_iff_exists'.mp (h.placed k t ht).1
  have hlo := ht.2
  obtain ⟨n, hn⟩ := h.node_behind hu (by omega)
  refine ⟨p, n, hp, hn, ?_⟩
  cases hl : (s.pc u).linking with
  | none => exact Or.inl ((h.linked k t p n ht hp).mpr ⟨u, hu, hn, hl⟩)
  | some q =>
    obtain ⟨-, w, hw, hplw⟩ := h.waits u q hl
    rw [(h.placed _ u hu).2, Nat.add_sub_cancel] at hw
    rw [hw.unique ht, hp] at hplw
    exact Or.inr (by rw [← Option.some.inj hplw])

/-- The front of the queue has the lock or has just been given it. -/
theorem Inv.granted_front (h : Inv s) (ht : s.queue.At s.queue.departed t) : Granted s t := by
  obtain ⟨hpl, htick⟩ := h.placed _ t ht
  by_cases hturn : Turn s t
  · exact Or.inl hturn
  · refine Or.inr ?_
    have hok := h.pcOk t
    have hnh : s.holding t ≠ true := fun hh => hturn (Or.inl hh)
    have hnp : (s.pc t).turn ≠ true := fun hp => hturn (Or.inr hp)
    have hnl := h.front_linked ht
    rw [placeOf, if_neg hnh] at hpl
    unfold PcOk at hok
    cases hcase : s.pc t <;> rw [hcase] at hok hnp hnl hpl <;>
      simp_all [Pc.linking, Pc.turn, Pc.place]

theorem Inv.willWake (h : Inv s) (ht : s.queue.At s.queue.departed t)
    (hu : s.queue.At (s.queue.departed + 1) u) : WillWake s t u := by
  have hlt := hu.lt
  have hok := h.pcOk t
  -- a link from the place of `t` is a link to `u`
  have hnext : ∀ p m, Turn s t → placeOf s t = some p → s.nextOf p = some m →
      (s.pc u).node = some m := by
    intro p m hturn hp hm
    obtain ⟨v, hv, hspin⟩ := h.front_link hturn hp hm
    rw [hu.unique hv, hspin]
    rfl
  refine ⟨h.linkedFrom ht hu, fun n hcase htail => ?_, fun n m hcase => ?_, fun hcase htail => ?_,
    fun m hcase => ?_⟩
  · -- a tail at the place of `t` would make `t` the last
    have hp : placeOf s t = some (.node n) := h.placeOf_eq hcase (by simp)
    have := h.front_last (Or.inr (by rw [hcase]; rfl)) hp htail
    omega
  · simp only [PcOk, hcase] at hok
    have hp : placeOf s t = some (.node n) := h.placeOf_eq hcase (by simp)
    exact hnext _ m (Or.inr (by rw [hcase]; rfl)) hp hok.2
  · have hp : placeOf s t = some .head := h.placeOf_eq hcase (by simp)
    have := h.front_last (Or.inr (by rw [hcase]; rfl)) hp htail
    omega
  · simp only [PcOk, hcase] at hok
    have hp : placeOf s t = some .head := h.placeOf_eq hcase (by simp)
    exact hnext _ m (Or.inr (by rw [hcase]; rfl)) hp hok.2

/-- The tail is allocated whenever it is a node. -/
theorem Inv.tail_live (h : Inv s) (htail : s.tail = some (.node n)) : s.live n = true := by
  obtain ⟨v, -, hplv⟩ := h.tail_place htail
  exact h.owned v n (node_of_placeOf hplv)

/-- `K42Lock` is a first-come-first-served lock, and never touches a node that
was deleted: no access crashes, and the tail, the predecessors that threads have still to
link from, and the links of those in the queue all lead to allocated nodes. Between the
first of the queue and a waiter every two neighbours are linked, or about to be, and
whatever access the first is at leads to waking the next. With nobody in a call and
nobody holding the lock the tail is null. -/
theorem k42_correct (h : Reachable step (init : State N T) s) :
    (∀ t u, Owns s t → Owns s u → t = u) ∧
    s.queue.entries <+: s.queue.arrivals ∧
    (∀ t, s.pc t ≠ .crashed) ∧
    (∀ n, s.tail = some (.node n) → s.live n = true) ∧
    (∀ t n, (s.pc t).linking = some (.node n) → s.live n = true) ∧
    (∀ t p n, placeOf s t = some p → s.nextOf p = some n → s.live n = true) ∧
    (∀ t, Waits s t →
      (∀ k, s.queue.departed ≤ k → k < s.ticket t →
        ∃ u v, s.queue.At k u ∧ s.queue.At (k + 1) v ∧ LinkedFrom s u v) ∧
      ∃ f first, s.queue.At s.queue.departed f ∧ s.queue.At (s.queue.departed + 1) first ∧
        Granted s f ∧ WillWake s f first) ∧
    ((∀ t, s.pc t = .idle ∧ s.holding t = false) → s.tail = none) := by
  have hI := reachable_inv h
  refine ⟨fun t u ht hu => hI.serves.exclusive ht hu, hI.serves.fair.inOrder, fun t hcase => ?_,
    fun n => hI.tail_live, fun t n => hI.linking_live, fun t p n hp hn => ?_,
    fun t hw => ⟨fun k hlo hhi => ?_, ?_⟩, fun hfree => ?_⟩
  · have hok := hI.pcOk t
    simp only [PcOk, hcase] at hok
  · obtain ⟨u, -, hnode, -⟩ := (hI.linked _ t p n (hI.queued t p hp) hp).mp hn
    exact hI.owned u n hnode
  · -- every two neighbours up to `t` are linked
    obtain ⟨⟨n, -, hpl⟩, -⟩ := hI.waits_place hw
    have hlen := (hI.queued t _ hpl).lt
    obtain ⟨u, hu⟩ := Fifo.at_of_lt hlo (Nat.lt_trans hhi hlen)
    obtain ⟨v, hv⟩ := Fifo.at_of_lt (q := s.queue) (k := k + 1) (by omega) (by omega)
    exact ⟨u, v, hu, hv, hI.linkedFrom hu hv⟩
  · -- the front and the arrival behind it
    obtain ⟨⟨n, -, hpl⟩, hlt⟩ := hI.waits_place hw
    have hlen := (hI.queued t _ hpl).lt
    obtain ⟨f, hf⟩ := Fifo.at_of_lt (q := s.queue) (Nat.le_refl _) (by omega)
    obtain ⟨u, hu⟩ := Fifo.at_of_lt (q := s.queue) (k := s.queue.departed + 1) (by omega) (by omega)
    exact ⟨f, u, hf, hu, hI.granted_front hf, hI.willWake hf hu⟩
  · -- with nobody at a place the queue is empty
    refine hI.tailEmpty ?_
    have hbound := hI.bound
    by_contra hne
    obtain ⟨u, hu⟩ := Fifo.at_of_lt (q := s.queue) (Nat.le_refl _) (by omega)
    refine (hI.placed _ u hu).1 ?_
    simp [placeOf, (hfree u).1, (hfree u).2, Pc.place]

/-- The second thread queues behind the first one's node while that is being
collapsed, and the first comes back with the address that it freed. -/
def handOver : List (Action Bool Bool) :=
  [.acquire false false, .advance false, .advance false, .advance false, .advance false,
    .acquire true true, .advance true, .advance true, .advance false, .advance true,
    .advance true, .advance false, .advance false, .advance false, .release false,
    .advance false, .advance false, .acquire false false, .advance false, .advance true,
    .advance false]

theorem k42_correct_handOver :
    ∃ s : State Bool Bool, perform step (fun _ => True) init handOver = some s ∧
      ∀ t, s.pc t ≠ .crashed := by
  obtain ⟨s, hs⟩ := Option.isSome_iff_exists.mp
    (show (perform step (fun _ => True) (init : State Bool Bool) handOver).isSome = true by decide)
  exact ⟨s, hs, (k42_correct ((ReachableWithin.start trivial).of_perform hs)).2.2.1⟩

end LockShield.K42
