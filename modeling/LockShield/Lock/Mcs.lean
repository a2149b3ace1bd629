import LockShield.Lib.Lts
import LockShield.Lib.Fifo
import Mathlib.Logic.Function.Basic
import Mathlib.Tactic.Set

/-!
# `MCSLock`

Every thread has one node, its thread-local `myNode`, which all `MCSLock`s share
and which the next `Acquire` reuses. Each access of `next`, `locked` or a `tail`
is one step.

The proof follows the arrival numbers of `Fifo`: the thread at number `k + 1`
spins on its own node and is linked from the node of the thread at number `k`,
and the thread whose number is `departed` is the only one that may pass the lock
on. The threads use one lock at a time (`oneAtATime`); what is left without that is
the subject of `McsNested`.

## Results

* `Inv.quiet`, `Inv.arrive`, `Inv.depart` — a step that leaves the queues alone, an arrival
  and a departure keep the invariant.
* `inv_proceed`  — so does every access.
* `Inv.willWake` — whatever access of `Release` the first thread is at, it leads to waking
  the next one.
* `mcs_correct`  — the lock is first come, first served, stores only into nodes that are in
  use for it, and links every waiter to the one in front of it.
-/

set_option linter.unusedSectionVars false

namespace LockShield.Mcs

open Lib

/-- The next access of a thread. Between calls it is `idle`. -/
inductive Pc (L T : Type) where
  | idle
  /-- `myNode.next.store(nullptr)` -/
  | clearNext (l : L)
  /-- `myNode.locked.store(true)` -/
  | setLocked (l : L)
  /-- `tail.exchange(&myNode)` -/
  | swapTail (l : L)
  /-- `prev->next.store(&myNode)` -/
  | link (l : L) (prev : T)
  /-- `while (myNode.locked.load())` -/
  | spin (l : L)
  /-- `if (!myNode.next.load())` -/
  | checkNext (l : L)
  /-- `tail.compare_exchange_strong(expected, nullptr)` -/
  | casTail (l : L)
  /-- `while (myNode.next.load() == nullptr)` -/
  | awaitNext (l : L)
  /-- `myNode.next.load()` of the last line -/
  | loadNext (l : L)
  /-- `succ->locked.store(false)` -/
  | wake (l : L) (succ : T)
  /-- an access through `nullptr` -/
  | crashed
  deriving DecidableEq

variable (L T : Type)

structure State where
  tail : L → Option T
  next : T → Option T
  locked : T → Bool
  pc : T → Pc L T
  /-- the locks a thread has acquired and not begun to release -/
  held : T → List L
  /-- history: the arrivals at each lock, and each thread's last arrival number -/
  queue : L → Fifo T
  ticket : T → Nat

variable {L T}

inductive Action (L T : Type) where
  | acquire (t : T) (l : L)
  | release (t : T) (l : L)
  | advance (t : T)

variable [DecidableEq L] [DecidableEq T]

def init : State L T where
  tail _ := none
  next _ := none
  locked _ := true
  pc _ := .idle
  held _ := []
  queue _ := .empty
  ticket _ := 0

def State.goto (s : State L T) (t : T) (pc : Pc L T) : State L T :=
  { s with pc := Function.update s.pc t pc }

/-- `Acquire` returns. -/
def State.enter (s : State L T) (t : T) (l : L) : State L T :=
  { s with
    pc := Function.update s.pc t .idle
    held := Function.update s.held t (l :: s.held t)
    queue := Function.update s.queue l ((s.queue l).enter t) }

/-- The lock is passed on or left free. -/
def State.depart (s : State L T) (t : T) (l : L) : State L T :=
  { s with
    pc := Function.update s.pc t .idle
    queue := Function.update s.queue l (s.queue l).depart }

/-- The next access of a call, and what follows it. -/
def proceed (s : State L T) (t : T) : Pc L T → Option (State L T)
  | .idle => none
  | .clearNext l => some ({ s with next := Function.update s.next t none }.goto t (.setLocked l))
  | .setLocked l => some ({ s with locked := Function.update s.locked t true }.goto t (.swapTail l))
  | .swapTail l =>
    let s' := { s with
      tail := Function.update s.tail l (some t)
      queue := Function.update s.queue l ((s.queue l).arrive t)
      ticket := Function.update s.ticket t (s.queue l).arrivals.length }
    -- the exchange is the thread's arrival; an empty queue lets it in at once
    match s.tail l with
    | none => some (s'.enter t l)
    | some prev => some (s'.goto t (.link l prev))
  | .link l prev =>
    some ({ s with next := Function.update s.next prev (some t) }.goto t (.spin l))
  | .spin l => if s.locked t then some s else some (s.enter t l)
  | .checkNext l =>
    if s.next t = none then some (s.goto t (.casTail l)) else some (s.goto t (.loadNext l))
  | .casTail l =>
    if s.tail l = some t then
      some ({ s with tail := Function.update s.tail l none }.depart t l)
    else some (s.goto t (.awaitNext l))
  | .awaitNext l => if s.next t = none then some s else some (s.goto t (.loadNext l))
  | .loadNext l =>
    match s.next t with
    | some succ => some (s.goto t (.wake l succ))
    -- a store through `nullptr`
    | none => some (s.goto t .crashed)
  | .wake l succ => some ({ s with locked := Function.update s.locked succ false }.depart t l)
  | .crashed => none

/-- One step of one thread. `mayAcquire` says which locks the threads acquire
while holding which; they release only what they hold. -/
def step (mayAcquire : List L → L → Bool) (s : State L T) : Action L T → Option (State L T)
  | .acquire t l =>
    if s.pc t = .idle ∧ mayAcquire (s.held t) l then some (s.goto t (.clearNext l)) else none
  | .release t l =>
    if s.pc t = .idle ∧ l ∈ s.held t then
      some ({ s with held := Function.update s.held t ((s.held t).erase l) }.goto t (.checkNext l))
    else none
  | .advance t => proceed s t (s.pc t)

/-- The lock whose queue the thread is in: from its exchange to the end of
`Release`. -/
def queuedOn (s : State L T) (t : T) : Option L :=
  match s.pc t with
  | .idle => (s.held t).head?
  | .link l _ | .spin l | .checkNext l | .casTail l | .awaitNext l | .loadNext l | .wake l _ =>
    some l
  | .clearNext _ | .setLocked _ | .swapTail _ | .crashed => none

/-- The thread has been let in and has not passed the lock on. -/
def Owns (s : State L T) (t : T) (l : L) : Prop :=
  match s.pc t with
  | .idle => l ∈ s.held t
  | .checkNext k | .casTail k | .awaitNext k | .loadNext k | .wake k _ => k = l
  | .clearNext _ | .setLocked _ | .swapTail _ | .link _ _ | .spin _ | .crashed => False

/-- The thread has joined a queue and is not linked from its predecessor yet. -/
def Linking (s : State L T) (t : T) : Prop := ∃ l prev, s.pc t = .link l prev

/-- What a thread's next access tells about it. -/
def PcOk (s : State L T) (t : T) : Prop :=
  match s.pc t with
  | .idle => s.held t = [] ∨ ∃ l, s.held t = [l] ∧ (s.queue l).At (s.ticket t) t ∧
      s.ticket t = (s.queue l).departed
  | .clearNext _ => s.held t = []
  | .setLocked _ => s.held t = [] ∧ s.next t = none
  | .swapTail _ => s.held t = [] ∧ s.next t = none ∧ s.locked t = true
  | .link l prev => s.held t = [] ∧ (s.queue l).At (s.ticket t) t ∧ s.locked t = true ∧
      (s.queue l).departed < s.ticket t ∧ (s.queue l).At (s.ticket t - 1) prev
  | .spin l => s.held t = [] ∧ (s.queue l).At (s.ticket t) t ∧
      (s.locked t = false ↔ s.ticket t = (s.queue l).departed)
  | .checkNext l | .casTail l => s.held t = [] ∧ (s.queue l).At (s.ticket t) t ∧
      s.ticket t = (s.queue l).departed
  | .awaitNext l => s.held t = [] ∧ (s.queue l).At (s.ticket t) t ∧
      s.ticket t = (s.queue l).departed ∧ s.ticket t + 1 < (s.queue l).arrivals.length
  | .loadNext l => s.held t = [] ∧ (s.queue l).At (s.ticket t) t ∧
      s.ticket t = (s.queue l).departed ∧ s.next t ≠ none
  | .wake l succ => s.held t = [] ∧ (s.queue l).At (s.ticket t) t ∧
      s.ticket t = (s.queue l).departed ∧ s.next t = some succ
  | .crashed => False

structure Inv (s : State L T) : Prop where
  pcOk : ∀ t, PcOk s t
  /-- who is in a queue is there once, for its current use -/
  place : ∀ l k t, (s.queue l).At k t → queuedOn s t = some l ∧ s.ticket t = k
  bound : ∀ l, (s.queue l).departed ≤ (s.queue l).arrivals.length
  tail : ∀ l, s.tail l = if (s.queue l).departed = (s.queue l).arrivals.length then none
    else (s.queue l).arrivals.getLast?
  /-- a node is linked to the next arrival once that thread has stored the link -/
  linked : ∀ l k t u, (s.queue l).At k t → (s.next t = some u ↔
    (s.queue l).At (k + 1) u ∧ ¬ Linking s u)
  serves : ∀ l, (s.queue l).Serves fun t => Owns s t l

variable {s s' : State L T} {t u : T} {l : L}

theorem inv_init : Inv (init : State L T) :=
  { pcOk := fun _ => Or.inl rfl
    place := fun _ _ _ h => absurd h Fifo.not_at_empty
    bound := fun _ => Nat.le_refl 0
    tail := fun _ => rfl
    linked := fun _ _ _ _ h => absurd h Fifo.not_at_empty
    serves := fun _ => Fifo.serves_empty fun _ h => absurd h List.not_mem_nil }

/-- An owner is at the front of its queue. -/
theorem PcOk.front (h : PcOk s t) (hown : Owns s t l) :
    (s.queue l).At (s.ticket t) t ∧ s.ticket t = (s.queue l).departed := by
  unfold Owns at hown
  unfold PcOk at h
  cases hpc : s.pc t <;> rw [hpc] at h hown <;> simp only at h hown
  case idle =>
    rcases h with h | ⟨k, hheld, hat, hfront⟩
    · rw [h] at hown
      exact absurd hown List.not_mem_nil
    · rw [hheld] at hown
      obtain rfl := List.mem_singleton.mp hown
      exact ⟨hat, hfront⟩
  case checkNext k => subst hown; exact h.2
  case casTail k => subst hown; exact h.2
  case awaitNext k => subst hown; exact ⟨h.2.1, h.2.2.1⟩
  case loadNext k => subst hown; exact ⟨h.2.1, h.2.2.1⟩
  case wake k succ => subst hown; exact ⟨h.2.1, h.2.2.1⟩

/-- What a thread's next access tells stays true while its node and its part of
the history are left alone. -/
theorem PcOk.frame (h : PcOk s t) (hpc : s'.pc t = s.pc t) (hheld : s'.held t = s.held t)
    (hnext : s'.next t = s.next t) (hlocked : s'.locked t = s.locked t)
    (htick : s'.ticket t = s.ticket t)
    (hat : ∀ l k u, (s.queue l).At k u → (s'.queue l).At k u)
    (hdep : ∀ l, (s'.queue l).departed = (s.queue l).departed)
    (hlen : ∀ l, (s.queue l).arrivals.length ≤ (s'.queue l).arrivals.length) : PcOk s' t := by
  unfold PcOk at h ⊢
  rw [hpc]
  cases hcase : s.pc t <;> rw [hcase] at h <;> simp only [hheld, hnext, hlocked, htick, hdep] at h ⊢
  case idle => exact h.imp_right fun ⟨l, h1, h2, h3⟩ => ⟨l, h1, hat _ _ _ h2, h3⟩
  case clearNext l => exact h
  case setLocked l => exact h
  case swapTail l => exact h
  case link l prev => exact ⟨h.1, hat _ _ _ h.2.1, h.2.2.1, h.2.2.2.1, hat _ _ _ h.2.2.2.2⟩
  case awaitNext l => exact ⟨h.1, hat _ _ _ h.2.1, h.2.2.1, Nat.lt_of_lt_of_le h.2.2.2 (hlen l)⟩
  all_goals exact ⟨h.1, hat _ _ _ h.2.1, h.2.2⟩

theorem Inv.tail_eq (h : Inv s) (l : L) : s.tail l = (s.queue l).last := h.tail l

/-- A step of thread `t` that leaves the queues and the other threads alone. -/
theorem Inv.quiet (h : Inv s) (hqueue : s'.queue = s.queue) (htail : s'.tail = s.tail)
    (htick : s'.ticket = s.ticket)
    (hothers : ∀ u, u ≠ t → s'.pc u = s.pc u ∧ s'.held u = s.held u ∧ s'.next u = s.next u ∧
      s'.locked u = s.locked u)
    (hpc : PcOk s' t) (hplace : queuedOn s' t = queuedOn s t)
    (hlinking : Linking s' t ↔ Linking s t)
    (hnext : queuedOn s t ≠ none → s'.next t = s.next t)
    (howns : ∀ l, Owns s' t l ↔ Owns s t l) : Inv s' := by
  -- places, links under way and ownership are the same for every thread
  have hqo : ∀ u, queuedOn s' u = queuedOn s u := by
    intro u
    by_cases hu : u = t
    · rw [hu, hplace]
    · unfold queuedOn
      rw [(hothers u hu).1, (hothers u hu).2.1]
  have hlk : ∀ u, Linking s' u ↔ Linking s u := by
    intro u
    by_cases hu : u = t
    · rw [hu, hlinking]
    · unfold Linking
      rw [(hothers u hu).1]
  have hown : ∀ u l, Owns s' u l ↔ Owns s u l := by
    intro u l
    by_cases hu : u = t
    · rw [hu, howns l]
    · unfold Owns
      rw [(hothers u hu).1, (hothers u hu).2.1]
  refine
    { pcOk := fun u => ?_
      place := fun l k u hat => ?_
      bound := by rw [hqueue]; exact h.bound
      tail := by rw [hqueue, htail]; exact h.tail
      linked := fun l k v u hat => ?_
      serves := fun l => by rw [hqueue]; exact (h.serves l).congr fun u => hown u l }
  · by_cases hu : u = t
    · rw [hu]
      exact hpc
    · obtain ⟨h1, h2, h3, h4⟩ := hothers u hu
      exact (h.pcOk u).frame h1 h2 h3 h4 (by rw [htick]) (fun l k v hv => by rw [hqueue]; exact hv)
        (fun l => by rw [hqueue]) fun l => Nat.le_of_eq (by rw [hqueue])
  · rw [hqueue] at hat
    rw [hqo, htick]
    exact h.place l k u hat
  · rw [hqueue] at hat ⊢
    -- a queued node keeps its link
    have hsame : s'.next v = s.next v := by
      by_cases hv : v = t
      · subst hv
        exact hnext fun hnone => by rw [(h.place l k v hat).1] at hnone; cases hnone
      · exact (hothers v hv).2.2.1
    rw [hsame, hlk]
    exact h.linked l k v u hat

/-! ### The steps that leave the queues alone -/

theorem inv_acquire (h : Inv s) (hidle : s.pc t = .idle) (hheld : s.held t = []) :
    Inv (s.goto t (.clearNext l)) := by
  have hpc : (s.goto t (.clearNext l)).pc t = .clearNext l := Function.update_self ..
  have hheld' : (s.goto t (.clearNext l)).held t = [] := hheld
  refine h.quiet (t := t) rfl rfl rfl (fun u hu => ?_) ?_ ?_ ?_ (fun _ => rfl) fun k => ?_
  · simp [State.goto, hu]
  · simp only [PcOk, hpc, hheld']
  · simp [queuedOn, hpc, hidle, hheld]
  · simp [Linking, hpc, hidle]
  · simp [Owns, hpc, hidle, hheld]

theorem inv_clearNext (h : Inv s) (hcase : s.pc t = .clearNext l) :
    Inv ({ s with next := Function.update s.next t none }.goto t (.setLocked l)) := by
  set s' := ({ s with next := Function.update s.next t none } : State L T).goto t (.setLocked l)
    with hs'
  have hpc : s'.pc t = .setLocked l := Function.update_self ..
  have hnext : s'.next t = none := Function.update_self ..
  have hok := h.pcOk t
  simp only [PcOk, hcase] at hok
  refine h.quiet (t := t) rfl rfl rfl (fun u hu => ?_) ?_ ?_ ?_ (fun hq => ?_) fun k => ?_
  · simp [hs', State.goto, hu]
  · simp only [PcOk, hpc]
    exact ⟨hok, hnext⟩
  · simp [queuedOn, hpc, hcase]
  · simp [Linking, hpc, hcase]
  · exact absurd (by simp [queuedOn, hcase]) hq
  · simp [Owns, hpc, hcase]

theorem inv_setLocked (h : Inv s) (hcase : s.pc t = .setLocked l) :
    Inv ({ s with locked := Function.update s.locked t true }.goto t (.swapTail l)) := by
  set s' := ({ s with locked := Function.update s.locked t true } : State L T).goto t (.swapTail l)
    with hs'
  have hpc : s'.pc t = .swapTail l := Function.update_self ..
  have hlocked : s'.locked t = true := Function.update_self ..
  have hok := h.pcOk t
  simp only [PcOk, hcase] at hok
  refine h.quiet (t := t) rfl rfl rfl (fun u hu => ?_) ?_ ?_ ?_ (fun _ => rfl) fun k => ?_
  · simp [hs', State.goto, hu]
  · simp only [PcOk, hpc]
    exact ⟨hok.1, hok.2, hlocked⟩
  · simp [queuedOn, hpc, hcase]
  · simp [Linking, hpc, hcase]
  · simp [Owns, hpc, hcase]

/-- `Release` begins. -/
theorem inv_release (h : Inv s) (hidle : s.pc t = .idle) (hl : l ∈ s.held t) :
    Inv ({ s with held := Function.update s.held t ((s.held t).erase l) }.goto t
      (.checkNext l)) := by
  set s' := ({ s with held := Function.update s.held t ((s.held t).erase l) } : State L T).goto t
    (.checkNext l) with hs'
  have hpc : s'.pc t = .checkNext l := Function.update_self ..
  have hok := h.pcOk t
  simp only [PcOk, hidle] at hok
  -- one lock at a time: what is released is all that is held
  obtain ⟨k, hheld, hat, hfront⟩ := hok.resolve_left (List.ne_nil_of_mem hl)
  rw [hheld, List.mem_singleton] at hl
  subst hl
  have hheld' : s'.held t = [] := by simp [hs', State.goto, hheld]
  refine h.quiet (t := t) rfl rfl rfl (fun u hu => ?_) ?_ ?_ ?_ (fun _ => rfl) fun j => ?_
  · simp [hs', State.goto, hu]
  · simp only [PcOk, hpc]
    exact ⟨hheld', hat, hfront⟩
  · simp [queuedOn, hpc, hidle, hheld]
  · simp [Linking, hpc, hidle]
  · simp [Owns, hpc, hidle, hheld, eq_comm]

/-- A thread of `Release` that only moves on. -/
theorem inv_goto (h : Inv s) {pc : Pc L T} (hown : Owns s t l) (hbusy : s.pc t ≠ .idle)
    (hpc : PcOk (s.goto t pc) t)
    (hrel : pc = .casTail l ∨ pc = .awaitNext l ∨ pc = .loadNext l ∨ ∃ u, pc = .wake l u) :
    Inv (s.goto t pc) := by
  have hpct : (s.goto t pc).pc t = pc := Function.update_self ..
  -- before and after the thread is queued on `l`, owns it and links nothing
  have hold : queuedOn s t = some l ∧ ¬ Linking s t ∧ ∀ k, Owns s t k ↔ l = k := by
    unfold Owns at hown
    cases hcase : s.pc t <;> rw [hcase] at hown <;> simp only at hown
    case idle => exact absurd hcase hbusy
    all_goals
      subst hown
      simp [queuedOn, Linking, Owns, hcase]
  have hnew : queuedOn (s.goto t pc) t = some l ∧ ¬ Linking (s.goto t pc) t ∧
      ∀ k, Owns (s.goto t pc) t k ↔ l = k := by
    rcases hrel with rfl | rfl | rfl | ⟨u, rfl⟩ <;> simp [queuedOn, Linking, Owns, hpct]
  refine h.quiet (t := t) rfl rfl rfl (fun u hu => ?_) hpc ?_ ?_ (fun _ => rfl) fun k => ?_
  · simp [State.goto, hu]
  · rw [hnew.1, hold.1]
  · exact iff_of_false hnew.2.1 hold.2.1
  · rw [hnew.2.2, hold.2.2]

/-- The first of a queue returns from `Acquire`. -/
theorem inv_enter (h : Inv s) (hcase : s.pc t = .spin l) (hfree : s.locked t = false) :
    Inv (s.enter t l) := by
  have hok := h.pcOk t
  simp only [PcOk, hcase] at hok
  obtain ⟨hheld, hat, hspin⟩ := hok
  have hfront := hspin.mp hfree
  set s' := s.enter t l with hs'
  have hpc : s'.pc t = .idle := Function.update_self ..
  have hheld' : s'.held t = [l] := by simp [hs', State.enter, hheld]
  have hothers : ∀ u, u ≠ t → s'.pc u = s.pc u ∧ s'.held u = s.held u := by
    intro u hu
    simp [hs', State.enter, hu]
  have hiff : ∀ k j u, (s'.queue k).At j u ↔ (s.queue k).At j u := fun _ _ _ =>
    Fifo.at_update_enter
  have hdep : ∀ k, (s'.queue k).departed = (s.queue k).departed := fun _ =>
    Fifo.departed_update_enter
  have harr : ∀ k, (s'.queue k).arrivals = (s.queue k).arrivals := fun _ =>
    Fifo.arrivals_update_enter
  -- queues and places stay, only the entry is recorded
  have hqo : ∀ u, queuedOn s' u = queuedOn s u := by
    intro u
    by_cases hu : u = t
    · subst hu
      simp [queuedOn, hpc, hheld', hcase]
    · simp only [queuedOn, hothers u hu]
  have hlk : ∀ u, Linking s' u ↔ Linking s u := by
    intro u
    by_cases hu : u = t
    · subst hu
      simp [Linking, hpc, hcase]
    · simp only [Linking, hothers u hu]
  refine
    { pcOk := fun u => ?_
      place := fun k j u hj => by rw [hqo]; exact h.place k j u ((hiff ..).mp hj)
      bound := fun k => by rw [harr, hdep]; exact h.bound k
      tail := fun k => by rw [harr, hdep]; exact h.tail k
      linked := fun k j v u hj => by rw [hlk, hiff]; exact h.linked k j v u ((hiff ..).mp hj)
      serves := Fifo.serves_update_enter h.serves (hfront ▸ hat) (by simp [Owns, hcase])
        (by simp [Owns, hpc, hheld']) fun k u huk => ?_ }
  · by_cases hu : u = t
    · subst hu
      simp only [PcOk, hpc]
      exact Or.inr ⟨l, hheld', (hiff ..).mpr hat, hfront.trans (hdep l).symm⟩
    · exact (h.pcOk u).frame (hothers u hu).1 (hothers u hu).2 rfl rfl rfl
        (fun k j v => (hiff k j v).mpr) hdep fun k => Nat.le_of_eq (by rw [harr])
  · by_cases hu : u = t
    · subst hu
      have hk := huk.resolve_left fun hn => hn rfl
      simp [Owns, hpc, hheld', hcase, hk]
    · simp only [Owns, hothers u hu]

/-- A waiter links its node from its predecessor's. -/
theorem inv_link {prev : T} (h : Inv s) (hcase : s.pc t = .link l prev) :
    Inv ({ s with next := Function.update s.next prev (some t) }.goto t (.spin l)) := by
  have hok := h.pcOk t
  simp only [PcOk, hcase] at hok
  obtain ⟨hheld, hat, hlocked, hlt, hprev⟩ := hok
  have hlinking : Linking s t := ⟨l, prev, hcase⟩
  have hsucc : s.ticket t - 1 + 1 = s.ticket t := by omega
  obtain ⟨hqprev, htprev⟩ := h.place l _ prev hprev
  -- the predecessor's link is still empty
  have hnone : s.next prev = none := by
    cases hn : s.next prev with
    | none => rfl
    | some v =>
      obtain ⟨hv, hnot⟩ := (h.linked l _ prev v hprev).mp hn
      rw [hsucc] at hv
      obtain rfl := hv.unique hat
      exact absurd hlinking hnot
  have hne : prev ≠ t := by
    intro heq
    rw [heq] at htprev
    omega
  set s' := ({ s with next := Function.update s.next prev (some t) } : State L T).goto t (.spin l)
    with hs'
  have hpc : s'.pc t = .spin l := Function.update_self ..
  have hothers : ∀ u, u ≠ t → s'.pc u = s.pc u := fun u hu => Function.update_of_ne hu ..
  have hnextp : s'.next prev = some t := Function.update_self ..
  have hnext : ∀ u, u ≠ prev → s'.next u = s.next u := fun u hu => Function.update_of_ne hu ..
  have hqo : ∀ u, queuedOn s' u = queuedOn s u := by
    intro u
    by_cases hu : u = t
    · subst hu
      simp [queuedOn, hpc, hcase]
    · unfold queuedOn
      rw [hothers u hu]
      rfl
  have hlk : ∀ u, Linking s' u ↔ Linking s u ∧ u ≠ t := by
    intro u
    by_cases hu : u = t
    · subst hu
      simp [Linking, hpc]
    · simp [Linking, hothers u hu, hu]
  refine
    { pcOk := fun u => ?_
      place := fun k j u hj => by rw [hqo]; exact h.place k j u hj
      bound := h.bound
      tail := h.tail
      linked := fun k j v u hj => ?_
      serves := fun k => ?_ }
  · by_cases hu : u = t
    · subst hu
      simp only [PcOk, hpc]
      refine ⟨hheld, hat, iff_of_false ?_ (Nat.ne_of_gt hlt)⟩
      show ¬ s.locked u = false
      rw [hlocked]
      simp
    · by_cases hup : u = prev
      · subst hup
        -- the predecessor is queued, and what it knows of its link survives
        have hu' := h.pcOk u
        unfold PcOk at hu' ⊢
        rw [hothers u hu]
        cases hpcu : s.pc u <;> rw [hpcu] at hu' <;> simp only at hu' ⊢
        case setLocked k => simp [queuedOn, hpcu] at hqprev
        case swapTail k => simp [queuedOn, hpcu] at hqprev
        case loadNext k => exact ⟨hu'.1, hu'.2.1, hu'.2.2.1, by rw [hnextp]; simp⟩
        case wake k v =>
          rw [hnone] at hu'
          exact absurd hu'.2.2.2 (by simp)
        all_goals exact hu'
      · exact (h.pcOk u).frame (hothers u hu) rfl (hnext u hup) rfl rfl (fun _ _ _ hv => hv)
          (fun _ => rfl) fun _ => Nat.le_refl _
  · rw [hlk]
    by_cases hv : v = prev
    · subst hv
      obtain ⟨hqv, htv⟩ := h.place k j v hj
      rw [hqprev] at hqv
      obtain rfl := Option.some.inj hqv
      obtain rfl : j = s.ticket t - 1 := by omega
      -- the link that is stored is to the arrival behind `prev`
      rw [hnextp, hsucc]
      constructor
      · intro heq
        obtain rfl := Option.some.inj heq
        exact ⟨hat, fun hn => hn.2 rfl⟩
      · rintro ⟨hatu, -⟩
        rw [hat.unique hatu]
    · rw [hnext v hv, h.linked k j v u hj]
      refine and_congr_right fun hatu => not_congr (iff_self_and.mpr fun _ hut => hv ?_)
      -- only `prev` is in front of `t`
      subst hut
      obtain ⟨hqu, htu⟩ := h.place k (j + 1) u hatu
      rw [(h.place l _ u hat).1] at hqu
      obtain rfl := Option.some.inj hqu
      obtain rfl : j = s.ticket u - 1 := by omega
      exact hj.unique hprev
  · refine (h.serves k).congr fun u => ?_
    by_cases hu : u = t
    · subst hu
      simp [Owns, hpc, hcase]
    · unfold Owns
      rw [hothers u hu]
      rfl

/-! ### Joining a queue -/

/-- What the exchange does, whether the thread is let in at once or not. -/
theorem Inv.arrive (h : Inv s) (hcase : s.pc t = .swapTail l)
    (hqueue : ∀ k, k ≠ l → s'.queue k = s.queue k)
    (harr : (s'.queue l).arrivals = (s.queue l).arrivals ++ [t])
    (hdep : (s'.queue l).departed = (s.queue l).departed)
    (htail : s'.tail = Function.update s.tail l (some t))
    (htick : s'.ticket = Function.update s.ticket t (s.queue l).arrivals.length)
    (hnext : s'.next = s.next) (hlocked : s'.locked = s.locked)
    (hothers : ∀ u, u ≠ t → s'.pc u = s.pc u ∧ s'.held u = s.held u)
    (hpc : PcOk s' t) (hplace : queuedOn s' t = some l)
    (hlinking : Linking s' t ↔ (s.queue l).departed < (s.queue l).arrivals.length)
    (howns : ∀ k, k ≠ l → ¬ Owns s' t k) (hserves : (s'.queue l).Serves fun u => Owns s' u l) :
    Inv s' := by
  have hok := h.pcOk t
  simp only [PcOk, hcase] at hok
  have hat : ∀ j u, (s'.queue l).At j u ↔
      (s.queue l).At j u ∨ (j = (s.queue l).arrivals.length ∧ u = t) := by
    intro j u
    rw [← Fifo.at_arrive (h.bound l)]
    exact Fifo.at_congr harr hdep
  -- the newcomer was in no queue
  have hnew : ∀ k j u, (s.queue k).At j u → u ≠ t := by
    rintro k j u hj rfl
    have := (h.place k j u hj).1
    simp [queuedOn, hcase] at this
  have hticko : ∀ u, u ≠ t → s'.ticket u = s.ticket u := by
    intro u hu
    rw [htick, Function.update_of_ne hu]
  have htickt : s'.ticket t = (s.queue l).arrivals.length := by rw [htick, Function.update_self]
  have hqo : ∀ u, u ≠ t → queuedOn s' u = queuedOn s u := by
    intro u hu
    simp only [queuedOn, hothers u hu]
  have hlko : ∀ u, u ≠ t → (Linking s' u ↔ Linking s u) := by
    intro u hu
    simp only [Linking, hothers u hu]
  -- the other queues are as they were
  have hatk : ∀ k j u, (s'.queue k).At j u ↔
      (s.queue k).At j u ∨ (k = l ∧ j = (s.queue l).arrivals.length ∧ u = t) := by
    intro k j u
    by_cases hk : k = l
    · subst hk
      simp [hat]
    · simp [hqueue k hk, hk]
  have hdepk : ∀ k, (s'.queue k).departed = (s.queue k).departed := by
    intro k
    by_cases hk : k = l
    · rw [hk, hdep]
    · rw [hqueue k hk]
  have hlenk : ∀ k, (s.queue k).arrivals.length ≤ (s'.queue k).arrivals.length := by
    intro k
    by_cases hk : k = l
    · rw [hk, harr]
      simp
    · exact Nat.le_of_eq (by rw [hqueue k hk])
  refine
    { pcOk := fun u => ?_
      place := fun k j u hj => ?_
      bound := fun k => by rw [hdepk]; exact Nat.le_trans (h.bound k) (hlenk k)
      tail := fun k => ?_
      linked := fun k j v u hj => ?_
      serves := fun k => ?_ }
  · by_cases hu : u = t
    · rw [hu]
      exact hpc
    · exact (h.pcOk u).frame (hothers u hu).1 (hothers u hu).2 (by rw [hnext]) (by rw [hlocked])
        (hticko u hu) (fun k j v hv => (hatk k j v).mpr (Or.inl hv)) hdepk hlenk
  · rcases (hatk k j u).mp hj with hj | ⟨rfl, rfl, rfl⟩
    · have hu := hnew k j u hj
      rw [hqo u hu, hticko u hu]
      exact h.place k j u hj
    · exact ⟨hplace, htickt⟩
  · by_cases hk : k = l
    · subst hk
      have hbound := h.bound k
      rw [htail, Function.update_self, hdep, harr, if_neg (by simp; omega)]
      simp
    · rw [htail, Function.update_of_ne hk, hqueue k hk]
      exact h.tail k
  · rw [hnext, hatk]
    rcases (hatk k j v).mp hj with hj | ⟨rfl, rfl, rfl⟩
    · rw [h.linked k j v u hj]
      constructor
      · rintro ⟨hatu, hlk⟩
        exact ⟨Or.inl hatu, by rwa [hlko u (hnew k _ u hatu)]⟩
      · rintro ⟨hatu | ⟨rfl, hlast, rfl⟩, hlk⟩
        · exact ⟨hatu, by rwa [hlko u (hnew k _ u hatu)] at hlk⟩
        · -- the newcomer has somebody in front of it, so it is still linking
          have hlt := hj.lt
          have hge := hj.2
          exact absurd (hlinking.mpr (by omega)) hlk
    · -- nobody is behind the newcomer
      rw [hok.2.1]
      refine iff_of_false (by simp) ?_
      rintro ⟨hatu | ⟨-, hlast, -⟩, -⟩
      · have := hatu.lt
        omega
      · omega
  · by_cases hk : k = l
    · subst hk
      exact hserves
    · rw [hqueue k hk]
      refine (h.serves k).congr fun u => ?_
      by_cases hu : u = t
      · subst hu
        exact iff_of_false (howns k hk) (by simp [Owns, hcase])
      · simp only [Owns, hothers u hu]

/-- The exchange of a thread that has to wait. -/
theorem inv_swapTail_wait {prev : T} (h : Inv s) (hcase : s.pc t = .swapTail l)
    (hprev : s.tail l = some prev) :
    Inv ({ s with
      tail := Function.update s.tail l (some t)
      queue := Function.update s.queue l ((s.queue l).arrive t)
      ticket := Function.update s.ticket t (s.queue l).arrivals.length }.goto t
        (.link l prev)) := by
  have hok := h.pcOk t
  simp only [PcOk, hcase] at hok
  have hbound := h.bound l
  -- the old tail is the last arrival, right in front of the newcomer
  have hlast := Fifo.at_of_last hbound ((h.tail_eq l).symm.trans hprev)
  have hlt : (s.queue l).departed < (s.queue l).arrivals.length :=
    Nat.lt_of_le_of_lt hlast.2 hlast.lt
  set s' := ({ s with
      tail := Function.update s.tail l (some t)
      queue := Function.update s.queue l ((s.queue l).arrive t)
      ticket := Function.update s.ticket t (s.queue l).arrivals.length } : State L T).goto t
        (.link l prev) with hs'
  have hpc : s'.pc t = .link l prev := Function.update_self ..
  have hself : s'.queue l = (s.queue l).arrive t := Function.update_self ..
  have htick : s'.ticket t = (s.queue l).arrivals.length := Function.update_self ..
  have hothers : ∀ u, u ≠ t → s'.pc u = s.pc u ∧ s'.held u = s.held u := by
    intro u hu
    simp [hs', State.goto, hu]
  have hat : ∀ j u, (s'.queue l).At j u ↔
      (s.queue l).At j u ∨ (j = (s.queue l).arrivals.length ∧ u = t) := by
    intro j u
    rw [hself]
    exact Fifo.at_arrive (h.bound l)
  refine h.arrive hcase (fun k hk => Function.update_of_ne hk ..) (by rw [hself]; rfl)
    (by rw [hself]; rfl) rfl rfl rfl rfl hothers ?_ ?_ ?_ (fun k hk => ?_) ?_
  · simp only [PcOk, hpc, htick]
    refine ⟨hok.1, (hat ..).mpr (Or.inr ⟨rfl, rfl⟩), hok.2.2, ?_, (hat ..).mpr (Or.inl hlast)⟩
    rw [hself]
    exact hlt
  · simp [queuedOn, hpc]
  · exact iff_of_true ⟨l, prev, hpc⟩ hlt
  · simp [Owns, hpc]
  · rw [hself]
    refine ((h.serves l).arrive hbound).congr fun u => ?_
    by_cases hu : u = t
    · subst hu
      simp [Owns, hpc, hcase]
    · simp only [Owns, hothers u hu]

/-- The exchange of a thread that finds the lock free. -/
theorem inv_swapTail_free (h : Inv s) (hcase : s.pc t = .swapTail l) (hnone : s.tail l = none) :
    Inv ({ s with
      tail := Function.update s.tail l (some t)
      queue := Function.update s.queue l ((s.queue l).arrive t)
      ticket := Function.update s.ticket t (s.queue l).arrivals.length }.enter t l) := by
  have hok := h.pcOk t
  simp only [PcOk, hcase] at hok
  -- without a tail the queue is empty, and the newcomer is its front
  have hempty : (s.queue l).departed = (s.queue l).arrivals.length :=
    (Fifo.last_eq_none_iff (h.bound l)).mp ((h.tail_eq l).symm.trans hnone)
  have hnobody : ∀ j u, ¬ (s.queue l).At j u := by
    intro j u hj
    have := hj.lt
    have := hj.2
    omega
  set s' := ({ s with
      tail := Function.update s.tail l (some t)
      queue := Function.update s.queue l ((s.queue l).arrive t)
      ticket := Function.update s.ticket t (s.queue l).arrivals.length } : State L T).enter t l
    with hs'
  have hpc : s'.pc t = .idle := Function.update_self ..
  have hheld : s'.held t = [l] := by simp [hs', State.enter, hok.1]
  have hself : s'.queue l = ((s.queue l).arrive t).enter t := by simp [hs', State.enter]
  have htick : s'.ticket t = (s.queue l).arrivals.length := Function.update_self ..
  have hothers : ∀ u, u ≠ t → s'.pc u = s.pc u ∧ s'.held u = s.held u := by
    intro u hu
    simp [hs', State.enter, hu]
  have hatt : ((s.queue l).arrive t).At (s.queue l).arrivals.length t :=
    (Fifo.at_arrive (h.bound l)).mpr (Or.inr ⟨rfl, rfl⟩)
  refine h.arrive hcase (fun k hk => by simp [hs', State.enter, hk]) (by rw [hself]; rfl)
    (by rw [hself]; rfl) rfl rfl rfl rfl hothers ?_ ?_ ?_ (fun k hk => ?_) ?_
  · simp only [PcOk, hpc]
    refine Or.inr ⟨l, hheld, ?_, ?_⟩
    · rw [hself, htick]
      exact hatt
    · rw [hself, htick]
      exact hempty.symm
  · simp [queuedOn, hpc, hheld]
  · refine iff_of_false ?_ (by omega)
    simp [Linking, hpc]
  · simp [Owns, hpc, hheld, hk]
  · rw [hself]
    have hfront : ((s.queue l).arrive t).At ((s.queue l).arrive t).departed t := by
      rw [Fifo.departed_arrive, hempty]
      exact hatt
    refine ((h.serves l).arrive (h.bound l)).enter hfront (by simp [Owns, hcase]) fun u => ?_
    by_cases hu : u = t
    · subst hu
      simp [Owns, hpc, hheld]
    · refine iff_of_false (fun how => ?_) hu
      simp only [Owns, hothers u hu] at how
      exact hnobody _ _ ((h.serves l).front u how)

/-! ### Passing the lock on -/

/-- What the others' next access tells stays true when the first of a queue
leaves: they are not at the front, and only a waiter's flag may change. -/
theorem Inv.departOk (h : Inv s) (hfront : (s.queue l).At (s.queue l).departed t)
    (hself : s'.queue l = (s.queue l).depart) (hother : ∀ k, k ≠ l → s'.queue k = s.queue k)
    (hkeep : ∀ k j u, u ≠ t → (s.queue k).At j u → (s'.queue k).At j u)
    (hsame : s'.pc u = s.pc u ∧ s'.held u = s.held u) (hnext : s'.next u = s.next u)
    (htick : s'.ticket u = s.ticket u) (hu : u ≠ t)
    (hspin : ∀ k, s.pc u = .spin k → (s'.locked u = false ↔
      s.locked u = false ∨ (k = l ∧ s.ticket u = (s.queue l).departed + 1)))
    (hlocked : (∀ k, s.pc u ≠ .spin k) → s'.locked u = s.locked u)
    (hunlinked : (s.queue l).At ((s.queue l).departed + 1) u → ¬ Linking s u) : PcOk s' u := by
  have hok := h.pcOk u
  -- `t` was at the front of `l`, so `u` can only be at the front of another
  have hnotfront : ∀ k, Owns s u k → k ≠ l := by
    rintro k hk rfl
    obtain ⟨hat, hd⟩ := hok.front hk
    rw [hd] at hat
    exact hu (hat.unique hfront)
  unfold PcOk at hok ⊢
  rw [hsame.1, hsame.2, hnext, htick]
  cases hcase : s.pc u <;> rw [hcase] at hok <;> simp only at hok ⊢
  case idle =>
    refine hok.imp_right fun ⟨k, hk, hat, hd⟩ => ⟨k, hk, hkeep _ _ _ hu hat, ?_⟩
    rw [hother k (hnotfront k (by simp [Owns, hcase, hk]))]
    exact hd
  case clearNext k => exact hok
  case setLocked k => exact hok
  case swapTail k =>
    rw [hlocked (by simp [hcase])]
    exact hok
  case link k prev =>
    obtain ⟨h1, hat, hl, hlt, hprev⟩ := hok
    rw [hlocked (by simp [hcase])]
    by_cases hk : k = l
    · -- the next in line is linked already
      subst hk
      have hne : s.ticket u ≠ (s.queue k).departed + 1 := by
        intro heq
        rw [heq] at hat
        exact hunlinked hat ⟨k, prev, hcase⟩
      refine ⟨h1, hkeep _ _ _ hu hat, hl, ?_, ?_⟩
      · rw [hself, Fifo.departed_depart]
        omega
      · rw [hself, Fifo.at_depart]
        exact ⟨hprev, by omega⟩
    · rw [hother k hk]
      exact ⟨h1, hat, hl, hlt, hprev⟩
  case spin k =>
    obtain ⟨h1, hat, hiff⟩ := hok
    refine ⟨h1, hkeep _ _ _ hu hat, ?_⟩
    rw [hspin k hcase, hiff]
    by_cases hk : k = l
    · subst hk
      -- the spinner that is let through is the next arrival
      have hne : s.ticket u ≠ (s.queue k).departed := by
        intro heq
        rw [heq] at hat
        exact hu (hat.unique hfront)
      rw [hself, Fifo.departed_depart]
      simp [hne]
    · rw [hother k hk]
      simp [hk]
  case checkNext k | casTail k | awaitNext k | loadNext k | wake k succ =>
    rw [hother k (hnotfront k (by simp [Owns, hcase]))]
    exact hok

/-- What the last step of `Release` does, whether it wakes somebody or not. -/
theorem Inv.depart (h : Inv s) (hown : Owns s t l) (hbusy : s.pc t ≠ .idle)
    (hpc : s'.pc t = .idle) (hheld : s'.held t = [])
    (hqueue : s'.queue = Function.update s.queue l (s.queue l).depart)
    (htick : s'.ticket = s.ticket) (hnext : s'.next = s.next)
    (hothers : ∀ u, u ≠ t → s'.pc u = s.pc u ∧ s'.held u = s.held u)
    (htail : ∀ k, k ≠ l → s'.tail k = s.tail k)
    (htaill : s'.tail l = if (s.queue l).departed + 1 = (s.queue l).arrivals.length then none
      else (s.queue l).arrivals.getLast?)
    (hspin : ∀ u k, s.pc u = .spin k → (s'.locked u = false ↔
      s.locked u = false ∨ (k = l ∧ s.ticket u = (s.queue l).departed + 1)))
    (hlocked : ∀ u, (∀ k, s.pc u ≠ .spin k) → s'.locked u = s.locked u)
    (hunlinked : ∀ u, (s.queue l).At ((s.queue l).departed + 1) u → ¬ Linking s u) : Inv s' := by
  obtain ⟨hfront, hticket⟩ := (h.pcOk t).front hown
  rw [hticket] at hfront
  have hself : s'.queue l = (s.queue l).depart := by rw [hqueue, Function.update_self]
  have hother : ∀ k, k ≠ l → s'.queue k = s.queue k := by
    intro k hk
    rw [hqueue, Function.update_of_ne hk]
  -- `t` was in the queue of `l` only
  have hone : ∀ k j, (s.queue k).At j t → k = l := by
    intro k j hj
    have hq := (h.place k j t hj).1
    rw [(h.place l _ t hfront).1] at hq
    exact (Option.some.inj hq).symm
  -- everybody but `t` keeps its place
  have hat : ∀ k j u, (s'.queue k).At j u ↔ (s.queue k).At j u ∧ u ≠ t := by
    intro k j u
    rw [hqueue, Fifo.at_update_depart_iff_ne hfront fun j hj =>
      (h.place l j t hj).2.symm.trans hticket]
    exact and_congr_right fun hj => or_iff_left_of_imp fun hk hu => hk (hone k j (hu ▸ hj))
  have hkeep : ∀ k j u, u ≠ t → (s.queue k).At j u → (s'.queue k).At j u := fun k j u hu hj =>
    (hat k j u).mpr ⟨hj, hu⟩
  have hqo : ∀ u, u ≠ t → queuedOn s' u = queuedOn s u := by
    intro u hu
    simp only [queuedOn, hothers u hu]
  have hlko : ∀ u, u ≠ t → (Linking s' u ↔ Linking s u) := by
    intro u hu
    simp only [Linking, hothers u hu]
  refine
    { pcOk := fun u => ?_
      place := fun k j u hj => ?_
      bound := by rw [hqueue]; exact Fifo.departed_update_depart_le hfront h.bound
      tail := fun k => ?_
      linked := fun k j v u hj => ?_
      serves := ?_ }
  · by_cases hu : u = t
    · subst hu
      simp only [PcOk, hpc]
      exact Or.inl hheld
    · exact h.departOk hfront hself hother hkeep (hothers u hu) (by rw [hnext]) (by rw [htick]) hu
        (hspin u) (hlocked u) (hunlinked u)
  · obtain ⟨hj, hu⟩ := (hat k j u).mp hj
    rw [hqo u hu, htick]
    exact h.place k j u hj
  · by_cases hk : k = l
    · subst hk
      rw [htaill, hself]
      rfl
    · rw [htail k hk, hother k hk]
      exact h.tail k
  · obtain ⟨hjv, hv⟩ := (hat k j v).mp hj
    rw [hnext, h.linked k j v u hjv, hat]
    constructor
    · rintro ⟨hju, hlk⟩
      have hu : u ≠ t := by
        intro hu
        -- `t` is at the front, so nobody is in front of it
        subst hu
        obtain rfl := hone k _ hju
        have hju' := (h.place k _ u hju).2
        have hlo := hjv.2
        omega
      exact ⟨⟨hju, hu⟩, by rwa [hlko u hu]⟩
    · rintro ⟨⟨hju, hu⟩, hlk⟩
      exact ⟨hju, by rwa [hlko u hu] at hlk⟩
  · rw [hqueue]
    refine Fifo.serves_update_depart h.serves hown (by simp [Owns, hpc, hheld]) fun k u huk => ?_
    by_cases hu : u = t
    · subst hu
      have hk := huk.resolve_left fun hn => hn rfl
      refine iff_of_false (by simp [Owns, hpc, hheld]) fun hown' => hk ?_
      exact hone k _ ((h.serves k).front u hown')
    · simp only [Owns, hothers u hu]

/-- `Release` finds nobody behind it. -/
theorem inv_casTail (h : Inv s) (hcase : s.pc t = .casTail l) (htail : s.tail l = some t) :
    Inv ({ s with tail := Function.update s.tail l none }.depart t l) := by
  have hok := h.pcOk t
  simp only [PcOk, hcase] at hok
  obtain ⟨hheld, hat, hfront⟩ := hok
  -- `t` is both first and last
  have hlast : (s.queue l).departed + 1 = (s.queue l).arrivals.length := by
    have hlt := hat.lt
    have hend := Fifo.at_of_last (h.bound l) ((h.tail_eq l).symm.trans htail)
    have := (h.place l _ t hend).2
    omega
  refine h.depart (t := t) (l := l) (by simp [Owns, hcase]) (by simp [hcase])
    (Function.update_self ..) hheld rfl rfl rfl (fun u hu => by simp [State.depart, hu])
    (fun k hk => Function.update_of_ne hk ..) ?_ (fun u k hu => ?_) (fun _ _ => rfl)
    fun u hu => ?_
  · rw [if_pos hlast]
    exact Function.update_self ..
  · -- there is no next arrival to let through
    refine (or_iff_left ?_).symm
    rintro ⟨rfl, hu1⟩
    have hoku := h.pcOk u
    simp only [PcOk, hu] at hoku
    have := hoku.2.1.lt
    omega
  · have := hu.lt
    omega

/-- `Release` hands the lock to its successor. -/
theorem inv_wake {succ : T} (h : Inv s) (hcase : s.pc t = .wake l succ) :
    Inv ({ s with locked := Function.update s.locked succ false }.depart t l) := by
  have hok := h.pcOk t
  simp only [PcOk, hcase] at hok
  obtain ⟨hheld, hat, hfront, hsucc⟩ := hok
  obtain ⟨hats, hnotl⟩ := (h.linked l _ t succ hat).mp hsucc
  rw [hfront] at hats
  have htick := (h.place l _ succ hats).2
  -- the successor waits for its flag
  have hspin : s.pc succ = .spin l := by
    have hq := (h.place l _ succ hats).1
    have hoks := h.pcOk succ
    have hnot : ¬ Owns s succ l := by
      intro how
      have := (hoks.front how).2
      omega
    unfold queuedOn at hq
    cases hpcs : s.pc succ <;> rw [hpcs] at hq <;> simp only at hq
    case idle => exact absurd (List.mem_of_mem_head? hq) (by simpa [Owns, hpcs] using hnot)
    case link k prev => exact absurd ⟨k, prev, hpcs⟩ hnotl
    case spin k => rw [Option.some.inj hq]
    all_goals first
      | cases hq; done
      | exact absurd (by simpa [Owns, hpcs] using hq) hnot
  have hlt := hats.lt
  refine h.depart (t := t) (l := l) (by simp [Owns, hcase]) (by simp [hcase])
    (Function.update_self ..) hheld rfl rfl rfl (fun u hu => by simp [State.depart, hu])
    (fun _ _ => rfl) ?_ (fun u k hu => ?_) (fun u hu => ?_) fun u hu => ?_
  · have htl := h.tail l
    rw [if_neg (by omega)] at htl ⊢
    exact htl
  · show Function.update s.locked succ false u = false ↔ _
    -- only the successor is the next arrival
    by_cases hus : u = succ
    · subst hus
      rw [hspin] at hu
      obtain rfl : l = k := by simpa using hu
      simp [htick]
    · rw [Function.update_of_ne hus]
      refine (or_iff_left ?_).symm
      rintro ⟨rfl, hu1⟩
      have hoku := h.pcOk u
      simp only [PcOk, hu] at hoku
      rw [hu1] at hoku
      exact hus (hoku.2.1.unique hats)
  · show Function.update s.locked succ false u = _
    rw [Function.update_of_ne fun hus => hu l (by rw [hus]; exact hspin)]
  · rw [hu.unique hats]
    exact hnotl

/-! ### Runs -/

theorem inv_proceed (h : Inv s) (hs : proceed s t (s.pc t) = some s') : Inv s' := by
  have hok := h.pcOk t
  cases hcase : s.pc t with
  | idle =>
    rw [hcase] at hs
    cases hs
  | clearNext l =>
    rw [hcase] at hs
    obtain rfl := Option.some.inj hs
    exact inv_clearNext h hcase
  | setLocked l =>
    rw [hcase] at hs
    obtain rfl := Option.some.inj hs
    exact inv_setLocked h hcase
  | swapTail l =>
    rw [hcase] at hs
    simp only [proceed] at hs
    cases htail : s.tail l with
    | none =>
      rw [htail] at hs
      obtain rfl := Option.some.inj hs
      exact inv_swapTail_free h hcase htail
    | some prev =>
      rw [htail] at hs
      obtain rfl := Option.some.inj hs
      exact inv_swapTail_wait h hcase htail
  | link l prev =>
    rw [hcase] at hs
    obtain rfl := Option.some.inj hs
    exact inv_link h hcase
  | spin l =>
    rw [hcase] at hs
    simp only [proceed] at hs
    split at hs
    · exact Option.some.inj hs ▸ h
    · rename_i hfree
      obtain rfl := Option.some.inj hs
      exact inv_enter h hcase (by simpa using hfree)
  | checkNext l =>
    rw [hcase] at hs
    simp only [PcOk, hcase] at hok
    have hown : Owns s t l := by simp [Owns, hcase]
    simp only [proceed] at hs
    split at hs
    · obtain rfl := Option.some.inj hs
      refine inv_goto h hown (by simp [hcase]) ?_ (Or.inl rfl)
      simp only [PcOk, State.goto, Function.update_self]
      exact hok
    · rename_i hnext
      obtain rfl := Option.some.inj hs
      refine inv_goto h hown (by simp [hcase]) ?_ (Or.inr (Or.inr (Or.inl rfl)))
      simp only [PcOk, State.goto, Function.update_self]
      exact ⟨hok.1, hok.2.1, hok.2.2, hnext⟩
  | casTail l =>
    rw [hcase] at hs
    simp only [PcOk, hcase] at hok
    have hown : Owns s t l := by simp [Owns, hcase]
    simp only [proceed] at hs
    split at hs
    · rename_i htail
      obtain rfl := Option.some.inj hs
      exact inv_casTail h hcase htail
    · rename_i htail
      obtain rfl := Option.some.inj hs
      refine inv_goto h hown (by simp [hcase]) ?_ (Or.inr (Or.inl rfl))
      simp only [PcOk, State.goto, Function.update_self]
      rw [h.tail_eq] at htail
      -- the tail is somebody else, who arrived after `t`
      exact ⟨hok.1, hok.2.1, hok.2.2, hok.2.1.lt_of_last_ne htail⟩
  | awaitNext l =>
    rw [hcase] at hs
    simp only [PcOk, hcase] at hok
    have hown : Owns s t l := by simp [Owns, hcase]
    simp only [proceed] at hs
    split at hs
    · exact Option.some.inj hs ▸ h
    · rename_i hnext
      obtain rfl := Option.some.inj hs
      refine inv_goto h hown (by simp [hcase]) ?_ (Or.inr (Or.inr (Or.inl rfl)))
      simp only [PcOk, State.goto, Function.update_self]
      exact ⟨hok.1, hok.2.1, hok.2.2.1, hnext⟩
  | loadNext l =>
    rw [hcase] at hs
    simp only [PcOk, hcase] at hok
    have hown : Owns s t l := by simp [Owns, hcase]
    simp only [proceed] at hs
    cases hnext : s.next t with
    | none => exact absurd hnext hok.2.2.2
    | some succ =>
      rw [hnext] at hs
      obtain rfl := Option.some.inj hs
      refine inv_goto h hown (by simp [hcase]) ?_ (Or.inr (Or.inr (Or.inr ⟨succ, rfl⟩)))
      simp only [PcOk, State.goto, Function.update_self]
      exact ⟨hok.1, hok.2.1, hok.2.2.1, hnext⟩
  | wake l succ =>
    rw [hcase] at hs
    obtain rfl := Option.some.inj hs
    exact inv_wake h hcase
  | crashed =>
    rw [hcase] at hs
    cases hs

theorem reachable_inv (h : Reachable (step oneAtATime) (init : State L T) s) : Inv s := by
  refine h.invariant (fun _ => inv_init) fun s a s' hI _ _ hs => ?_
  cases a with
  | acquire t l =>
    simp only [step] at hs
    split at hs
    · rename_i hcond
      obtain rfl := Option.some.inj hs
      exact inv_acquire hI hcond.1 (oneAtATime_iff.mp hcond.2)
    · cases hs
  | release t l =>
    simp only [step] at hs
    split at hs
    · rename_i hcond
      obtain rfl := Option.some.inj hs
      exact inv_release hI hcond.1 hcond.2
    · cases hs
  | advance t => exact inv_proceed hI hs

/-! ## What the lock promises -/

/-- The lock of the call a thread is in. -/
def Pc.lock : Pc L T → Option L
  | .idle | .crashed => none
  | .clearNext l | .setLocked l | .swapTail l | .link l _ | .spin l | .checkNext l | .casTail l
  | .awaitNext l | .loadNext l | .wake l _ => some l

/-- The thread is in a call on the lock or holds it. -/
def Uses (s : State L T) (t : T) (l : L) : Prop := (s.pc t).lock = some l ∨ l ∈ s.held t

/-- The thread is in the queue and has not been woken. -/
def Waits (s : State L T) (t : T) (l : L) : Prop :=
  (s.pc t = .spin l ∧ s.locked t = true) ∨ ∃ prev, s.pc t = .link l prev

/-- The node of `u` is in use for arrival `k` on lock `l`, and that use is not
over. -/
def InUse (s : State L T) (u : T) (l : L) (k : Nat) : Prop :=
  (s.queue l).At k u ∧ queuedOn s u = some l ∧ s.ticket u = k

/-- A waiter is linked from the node in front of it, or about to be. -/
def LinkedFrom (s : State L T) (l : L) (u v : T) : Prop :=
  s.next u = some v ∨ s.pc v = .link l u

/-- The thread owns the lock or has been woken to take it. -/
def Granted (s : State L T) (t : T) (l : L) : Prop :=
  Owns s t l ∨ (s.pc t = .spin l ∧ s.locked t = false)

/-- Whatever access of `Release` the thread is at, it leads to waking `first`. -/
def WillWake (s : State L T) (t first : T) (l : L) : Prop :=
  LinkedFrom s l t first ∧
  (s.pc t = .casTail l → s.tail l ≠ some t) ∧
  (s.pc t = .loadNext l → s.next t = some first) ∧
  (∀ succ, s.pc t = .wake l succ → succ = first)

theorem Inv.inUse {k : Nat} (h : Inv s) (hat : (s.queue l).At k u) : InUse s u l k :=
  ⟨hat, h.place l k u hat⟩

/-- Neighbours in a queue are linked, or about to be. -/
theorem Inv.linkedFrom {k : Nat} (h : Inv s) (ht : (s.queue l).At k t)
    (hu : (s.queue l).At (k + 1) u) : LinkedFrom s l t u := by
  by_cases hlk : Linking s u
  · obtain ⟨j, prev, hcase⟩ := hlk
    have hok := h.pcOk u
    simp only [PcOk, hcase] at hok
    obtain ⟨hq, htick⟩ := h.place l _ u hu
    simp only [queuedOn, hcase, Option.some.injEq] at hq
    subst hq
    -- the predecessor it is about to link from is the one in front of it
    have hprev := hok.2.2.2.2
    rw [htick, Nat.add_sub_cancel] at hprev
    rw [ht.unique hprev]
    exact Or.inr hcase
  · exact Or.inl ((h.linked l k t u ht).mpr ⟨hu, hlk⟩)

/-- The front of a queue has the lock or has just been given it. -/
theorem Inv.granted_front (h : Inv s) (ht : (s.queue l).At (s.queue l).departed t) :
    Granted s t l := by
  have hok := h.pcOk t
  obtain ⟨hq, htick⟩ := h.place l _ t ht
  unfold queuedOn at hq
  unfold PcOk at hok
  unfold Granted Owns
  cases hcase : s.pc t <;> rw [hcase] at hq hok <;> simp only at hq hok ⊢
  case idle => exact Or.inl (List.mem_of_mem_head? hq)
  -- a thread that is still to link itself has somebody in front
  case link k prev =>
    obtain rfl := Option.some.inj hq
    have hlt := hok.2.2.2.1
    omega
  case spin k =>
    obtain rfl := Option.some.inj hq
    exact Or.inr ⟨rfl, hok.2.2.mpr htick⟩
  all_goals first
    | exact Or.inl (Option.some.inj hq)
    | cases hq

theorem Inv.willWake (h : Inv s) (ht : (s.queue l).At (s.queue l).departed t)
    (hu : (s.queue l).At ((s.queue l).departed + 1) u) : WillWake s t u l := by
  have hok := h.pcOk t
  refine ⟨h.linkedFrom ht hu, fun hcase htail => ?_, fun hcase => ?_, fun succ hcase => ?_⟩
  · -- the tail belongs to the last arrival, and `u` came after `t`
    have hlt := hu.lt
    have hlast := Fifo.at_of_last (h.bound l) ((h.tail_eq l).symm.trans htail)
    have h1 := (h.place l _ t hlast).2
    have h2 := (h.place l _ t ht).2
    omega
  · simp only [PcOk, hcase] at hok
    cases hnext : s.next t with
    | none => exact absurd hnext hok.2.2.2
    | some v =>
      rw [((h.linked l _ t v ht).mp hnext).1.unique hu]
  · simp only [PcOk, hcase] at hok
    exact ((h.linked l _ t succ ht).mp hok.2.2.2).1.unique hu

theorem Inv.waits_place (h : Inv s) (hw : Waits s t l) :
    (s.queue l).At (s.ticket t) t ∧ (s.queue l).departed < s.ticket t := by
  have hok := h.pcOk t
  rcases hw with ⟨hcase, hlocked⟩ | ⟨prev, hcase⟩
  · simp only [PcOk, hcase] at hok
    have hne : s.ticket t ≠ (s.queue l).departed := by
      intro heq
      rw [hok.2.2.mpr heq] at hlocked
      cases hlocked
    have := hok.2.1.2
    exact ⟨hok.2.1, by omega⟩
  · simp only [PcOk, hcase] at hok
    exact ⟨hok.2.1, hok.2.2.2.1⟩

/-- `MCSLock` with one node per thread is a first-come-first-served lock, for
threads that use one lock at a time. The stores of `Acquire` and `Release` into the node
of another thread are made while that node is in use for the same lock, as the neighbour
in the queue. Between the first of the queue and a waiter every two neighbours are linked,
or about to be, and whatever access of `Release` the first is at leads to waking the
next. A lock that nobody uses has no tail. -/
theorem mcs_correct (h : Reachable (step oneAtATime) (init : State L T) s) :
    (∀ l t u, Owns s t l → Owns s u l → t = u) ∧
    (∀ l, (s.queue l).entries <+: (s.queue l).arrivals) ∧
    (∀ l t prev, s.pc t = .link l prev → InUse s prev l (s.ticket t - 1)) ∧
    (∀ l t succ, s.pc t = .wake l succ → InUse s succ l (s.ticket t + 1)) ∧
    (∀ l t, Waits s t l →
      (∀ k, (s.queue l).departed ≤ k → k < s.ticket t →
        ∃ u v, InUse s u l k ∧ InUse s v l (k + 1) ∧ LinkedFrom s l u v) ∧
      ∃ f first, InUse s f l (s.queue l).departed ∧ InUse s first l ((s.queue l).departed + 1) ∧
        Granted s f l ∧ WillWake s f first l) ∧
    (∀ l, (∀ t, ¬ Uses s t l) → s.tail l = none) := by
  have hI := reachable_inv h
  refine ⟨fun l t u ht hu => ?_, fun l => (hI.serves l).fair.inOrder, fun l t prev hcase => ?_,
    fun l t succ hcase => ?_, fun l t hw => ⟨fun k hlo hhi => ?_, ?_⟩, fun l hfree => ?_⟩
  · exact (hI.serves l).exclusive ht hu
  · have hok := hI.pcOk t
    simp only [PcOk, hcase] at hok
    exact hI.inUse hok.2.2.2.2
  · have hok := hI.pcOk t
    simp only [PcOk, hcase] at hok
    exact hI.inUse ((hI.linked l _ t succ hok.2.1).mp hok.2.2.2).1
  · have hlen := (hI.waits_place hw).1.lt
    obtain ⟨u, hu⟩ := Fifo.at_of_lt hlo (Nat.lt_trans hhi hlen)
    obtain ⟨v, hv⟩ := Fifo.at_of_lt (q := s.queue l) (k := k + 1) (by omega) (by omega)
    exact ⟨u, v, hI.inUse hu, hI.inUse hv, hI.linkedFrom hu hv⟩
  · obtain ⟨hat, hlt⟩ := hI.waits_place hw
    have hlen := hat.lt
    -- somebody is in front of the waiter, so the queue has a first and a second
    obtain ⟨f, hf⟩ := Fifo.at_of_lt (q := s.queue l) (Nat.le_refl _) (by omega)
    obtain ⟨u, hu⟩ := Fifo.at_of_lt (q := s.queue l) (k := (s.queue l).departed + 1) (by omega)
      (by omega)
    exact ⟨f, u, hI.inUse hf, hI.inUse hu, hI.granted_front hf, hI.willWake hf hu⟩
  · have hbound := hI.bound l
    rw [hI.tail_eq, Fifo.last_eq_none_iff hbound]
    by_contra hne
    -- whoever is at the front uses the lock
    obtain ⟨u, hu⟩ := Fifo.at_of_lt (q := s.queue l) (Nat.le_refl _) (by omega)
    have hq := (hI.place l _ u hu).1
    refine hfree u ?_
    unfold queuedOn at hq
    unfold Uses Pc.lock
    cases hcase : s.pc u <;> rw [hcase] at hq <;> simp only at hq ⊢
    case idle => exact Or.inr (List.mem_of_mem_head? hq)
    all_goals first
      | exact Or.inl hq
      | cases hq

/-- Two threads meet at one lock, and the second waits for the first. -/
def handOver : List (Action Bool Bool) :=
  [.acquire false true, .advance false, .advance false, .advance false, .acquire true true,
    .advance true, .advance true, .advance true, .release false true, .advance false,
    .advance false, .advance true, .advance true]

theorem mcs_correct_handOver :
    ∃ s : State Bool Bool, perform (step oneAtATime) (fun _ => True) init handOver = some s ∧
      ∀ l, (s.queue l).entries <+: (s.queue l).arrivals := by
  obtain ⟨s, hs⟩ := Option.isSome_iff_exists.mp
    (show (perform (step oneAtATime) (fun _ => True) (init : State Bool Bool)
      handOver).isSome = true by decide)
  exact ⟨s, hs, (mcs_correct ((ReachableWithin.start trivial).of_perform hs)).2.1⟩

end LockShield.Mcs
