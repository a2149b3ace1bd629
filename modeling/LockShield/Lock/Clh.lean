import LockShield.Lib.Lts
import LockShield.Lib.Fifo
import Mathlib.Logic.Equiv.Basic
import Mathlib.SetTheory.Cardinal.Finite
import Mathlib.Tactic.Set

/-!
# `CLHLock`

Every lock and every thread allocates one node when it is built; after that
nodes only move. `Acquire` puts `myNode` into the lock's `tail` and keeps what
was there as `myPred`, and `Release` takes `myPred` for the next `myNode`.

The proof reads the exchange as a swap: the node of the lock's tail and the node
in the thread's own hands change places, so at any time `handed` is a bijection
from locks and threads to nodes.

## Results

* `Inv.pred`, `Inv.myNode_injective` — the node that a waiter polls is that of the thread
  in front of it, and no two threads have one node.
* `inv_proceed`   — every access keeps the invariant.
* `Inv.liesAt_iff` — every node lies in one place.
* `clh_recycles`  — the lock is first come, first served, no node is polled by two threads,
  and the nodes go round among the threads and locks that there are.
-/

set_option linter.unusedSectionVars false

namespace LockShield.Clh

open Lib

/-- A node, named by the lock or the thread that allocated it. -/
abbrev Node (L T : Type) := L ⊕ T

/-- The next access of a thread. Between calls it is `idle`. -/
inductive Pc (L : Type) where
  | idle
  /-- `myNode->locked.store(true)` -/
  | setLocked (l : L)
  /-- `myPred = tail.exchange(myNode)` -/
  | swapTail (l : L)
  /-- `while (myPred->locked.load())` -/
  | spin (l : L)
  /-- `myNode->locked.store(false)` -/
  | clearLocked (l : L)
  /-- `std::swap(myNode, myPred)` -/
  | swapNodes (l : L)
  /-- an access through `nullptr` -/
  | crashed
  deriving DecidableEq

variable (L T : Type)

structure State where
  tail : L → Node L T
  locked : Node L T → Bool
  myNode : T → Node L T
  myPred : T → Option (Node L T)
  pc : T → Pc L
  /-- the locks a thread has acquired and not begun to release -/
  held : T → List L
  /-- history: the arrivals at each lock, and each thread's last arrival number -/
  queue : L → Fifo T
  ticket : T → Nat

variable {L T}

inductive Action (L T : Type) where
  | acquire (t : T) (l : L)
  | release (t : T) (l : L)
  | advance (t : T)

variable [DecidableEq L] [DecidableEq T]

def init : State L T where
  tail := .inl
  locked _ := false
  myNode := .inr
  myPred _ := none
  pc _ := .idle
  held _ := []
  queue _ := .empty
  ticket _ := 0

def State.goto (s : State L T) (t : T) (pc : Pc L) : State L T :=
  { s with pc := Function.update s.pc t pc }

/-- `Acquire` returns. -/
def State.enter (s : State L T) (t : T) (l : L) : State L T :=
  { s with
    pc := Function.update s.pc t .idle
    held := Function.update s.held t (l :: s.held t)
    queue := Function.update s.queue l ((s.queue l).enter t) }

/-- The next access of a call, and what follows it. -/
def proceed (s : State L T) (t : T) : Pc L → Option (State L T)
  | .idle => none
  | .setLocked l =>
    some ({ s with locked := Function.update s.locked (s.myNode t) true }.goto t (.swapTail l))
  | .swapTail l =>
    some ({ s with
      -- the thread waits on what it finds and leaves its own node there
      myPred := Function.update s.myPred t (some (s.tail l))
      tail := Function.update s.tail l (s.myNode t)
      queue := Function.update s.queue l ((s.queue l).arrive t)
      ticket := Function.update s.ticket t (s.queue l).arrivals.length }.goto t (.spin l))
  | .spin l =>
    match s.myPred t with
    | none => some (s.goto t .crashed)
    | some pred => if s.locked pred then some s else some (s.enter t l)
  | .clearLocked l =>
    some ({ s with
      locked := Function.update s.locked (s.myNode t) false
      queue := Function.update s.queue l (s.queue l).depart }.goto t (.swapNodes l))
  | .swapNodes _ =>
    match s.myPred t with
    -- `myNode` would be `nullptr` from here on
    | none => some (s.goto t .crashed)
    | some pred =>
      some ({ s with
        myNode := Function.update s.myNode t pred
        myPred := Function.update s.myPred t (some (s.myNode t)) }.goto t .idle)
  | .crashed => none

/-- One step of one thread. `mayAcquire` says which locks the threads acquire
while holding which; they release only what they hold. -/
def step (mayAcquire : List L → L → Bool) (s : State L T) : Action L T → Option (State L T)
  | .acquire t l =>
    if s.pc t = .idle ∧ mayAcquire (s.held t) l then some (s.goto t (.setLocked l)) else none
  | .release t l =>
    if s.pc t = .idle ∧ l ∈ s.held t then
      some ({ s with held := Function.update s.held t ((s.held t).erase l) }.goto t
        (.clearLocked l))
    else none
  | .advance t => proceed s t (s.pc t)

/-- The lock whose queue the thread is in: from its exchange to the store that
passes the lock on. -/
def queuedOn (s : State L T) (t : T) : Option L :=
  match s.pc t with
  | .idle => (s.held t).head?
  | .spin l | .clearLocked l => some l
  | .setLocked _ | .swapTail _ | .swapNodes _ | .crashed => none

/-- The thread has been let in and has not passed the lock on. -/
def Owns (s : State L T) (t : T) (l : L) : Prop :=
  match s.pc t with
  | .idle => l ∈ s.held t
  | .clearLocked k => k = l
  | .setLocked _ | .swapTail _ | .spin _ | .swapNodes _ | .crashed => False

/-- The thread has given its node away and not taken `myPred` for it. -/
def exchanged (s : State L T) (t : T) : Bool :=
  match s.pc t with
  | .idle => !(s.held t).isEmpty
  | .spin _ | .clearLocked _ | .swapNodes _ => true
  | .setLocked _ | .swapTail _ | .crashed => false

/-- What lies at a lock's tail, and the node that a thread brings to its next
exchange. -/
def handed (s : State L T) : L ⊕ T → Node L T
  | .inl l => s.tail l
  | .inr t => if exchanged s t then (s.myPred t).getD (s.myNode t) else s.myNode t

/-- What a thread's next access tells about it. -/
def PcOk (s : State L T) (t : T) : Prop :=
  match s.pc t with
  | .idle => s.held t = [] ∨ ∃ l, s.held t = [l] ∧ (s.queue l).At (s.ticket t) t ∧
      s.ticket t = (s.queue l).departed
  | .setLocked _ => s.held t = []
  | .swapTail _ => s.held t = [] ∧ s.locked (s.myNode t) = true
  | .spin l => s.held t = [] ∧ (s.queue l).At (s.ticket t) t
  | .clearLocked l => s.held t = [] ∧ (s.queue l).At (s.ticket t) t ∧
      s.ticket t = (s.queue l).departed
  | .swapNodes _ => s.held t = [] ∧ s.myPred t ≠ none
  | .crashed => False

structure Inv (s : State L T) : Prop where
  pcOk : ∀ t, PcOk s t
  /-- who is in a queue is there once -/
  place : ∀ l k t, (s.queue l).At k t → queuedOn s t = some l ∧ s.ticket t = k
  bound : ∀ l, (s.queue l).departed ≤ (s.queue l).arrivals.length
  /-- every node is in one place -/
  owners : Function.Bijective (handed s)
  armed : ∀ l k t, (s.queue l).At k t → s.locked (s.myNode t) = true
  tailFree : ∀ l, (s.queue l).departed = (s.queue l).arrivals.length → s.locked (s.tail l) = false
  tailLast : ∀ l k t, (s.queue l).At k t → k + 1 = (s.queue l).arrivals.length →
    s.tail l = s.myNode t
  /-- nobody is in front of the first -/
  front : ∀ l t, (s.queue l).At (s.queue l).departed t →
    ∃ pred, s.myPred t = some pred ∧ s.locked pred = false
  /-- everybody else polls the node of the one in front -/
  behind : ∀ l k t u, (s.queue l).At k t → (s.queue l).At (k + 1) u →
    s.myPred u = some (s.myNode t)
  serves : ∀ l, (s.queue l).Serves fun t => Owns s t l

variable {s s' : State L T} {t u : T} {l : L}

theorem handed_init : handed (init : State L T) = id := by
  funext n
  cases n <;> simp [handed, init, exchanged]

theorem inv_init : Inv (init : State L T) :=
  { pcOk := fun _ => Or.inl rfl
    place := fun _ _ _ h => absurd h Fifo.not_at_empty
    bound := fun _ => Nat.le_refl 0
    owners := by rw [handed_init]; exact Function.bijective_id
    armed := fun _ _ _ h => absurd h Fifo.not_at_empty
    tailFree := fun _ _ => rfl
    tailLast := fun _ _ _ h => absurd h Fifo.not_at_empty
    front := fun _ _ h => absurd h Fifo.not_at_empty
    behind := fun _ _ _ _ h => absurd h Fifo.not_at_empty
    serves := fun _ => Fifo.serves_empty fun _ h => absurd h List.not_mem_nil }

/-- A thread queued on a lock is at its ticket there. -/
theorem PcOk.at (h : PcOk s t) (hq : queuedOn s t = some l) :
    (s.queue l).At (s.ticket t) t := by
  unfold queuedOn at hq
  unfold PcOk at h
  cases hpc : s.pc t <;> rw [hpc] at h hq <;> simp only at h hq
  -- between the calls only a holder is queued
  case idle =>
    rcases h with h | ⟨k, hheld, hat, -⟩
    · rw [h] at hq
      cases hq
    · rw [hheld] at hq
      obtain rfl := Option.some.inj hq
      exact hat
  case spin k =>
    obtain rfl := Option.some.inj hq
    exact h.2
  case clearLocked k =>
    obtain rfl := Option.some.inj hq
    exact h.2.1
  all_goals cases hq

theorem exchanged_of_queuedOn (hq : queuedOn s t = some l) : exchanged s t = true := by
  unfold queuedOn at hq
  unfold exchanged
  cases hpc : s.pc t <;> rw [hpc] at hq <;> simp only at hq ⊢
  case idle => simp [List.ne_nil_of_mem (List.mem_of_mem_head? hq)]
  all_goals cases hq

/-- A queued thread keeps the node in front of it. -/
theorem Inv.pred {k : Nat} (h : Inv s) (hat : (s.queue l).At k t) :
    ∃ pred, s.myPred t = some pred ∧ handed s (.inr t) = pred := by
  have hq := (h.place l k t hat).1
  obtain ⟨pred, hpred⟩ : ∃ pred, s.myPred t = some pred := by
    -- the front has the node it entered through, the others the one in front
    by_cases hk : k = (s.queue l).departed
    · subst hk
      obtain ⟨pred, hpred, -⟩ := h.front l t hat
      exact ⟨pred, hpred⟩
    · have hlo := hat.2
      have hlt := hat.lt
      obtain ⟨v, hv⟩ := Fifo.at_of_lt (q := s.queue l) (k := k - 1) (by omega) (by omega)
      rw [show k = k - 1 + 1 by omega] at hat
      exact ⟨_, h.behind l _ v t hv hat⟩
  exact ⟨pred, hpred, by simp [handed, exchanged_of_queuedOn hq, hpred]⟩

/-- The node of a queued thread lies at the tail or is kept by the next in the
queue. -/
theorem Inv.nodeOwner {k : Nat} (h : Inv s) (hat : (s.queue l).At k t) :
    (k + 1 = (s.queue l).arrivals.length ∧ handed s (.inl l) = s.myNode t) ∨
    ∃ u, (s.queue l).At (k + 1) u ∧ handed s (.inr u) = s.myNode t := by
  have hlt := hat.lt
  by_cases hlast : k + 1 = (s.queue l).arrivals.length
  · exact Or.inl ⟨hlast, h.tailLast l k t hat hlast⟩
  · have hlo := hat.2
    obtain ⟨u, hu⟩ := Fifo.at_of_lt (q := s.queue l) (k := k + 1) (by omega) (by omega)
    obtain ⟨pred, hpred, howner⟩ := h.pred hu
    rw [h.behind l k t u hat hu] at hpred
    refine Or.inr ⟨u, hu, ?_⟩
    rw [howner, Option.some.inj hpred]

/-- Two queued threads have different nodes. -/
theorem Inv.myNode_injective {j k : Nat} {m : L} (h : Inv s) (ht : (s.queue l).At j t)
    (hu : (s.queue m).At k u) (heq : s.myNode t = s.myNode u) : t = u := by
  have hinj := h.owners.1
  rcases h.nodeOwner ht with ⟨hlt, hot⟩ | ⟨v, hv, hot⟩ <;>
    rcases h.nodeOwner hu with ⟨hlu, hou⟩ | ⟨w, hw, hou⟩
  · -- both are last, so on the same lock
    obtain rfl := Sum.inl.inj (hinj (hot.trans (heq.trans hou.symm)))
    obtain rfl : j = k := by omega
    exact ht.unique hu
  · cases hinj (hot.trans (heq.trans hou.symm))
  · cases hinj (hot.trans (heq.trans hou.symm))
  · -- both are in front of the same thread
    obtain rfl := Sum.inr.inj (hinj (hot.trans (heq.trans hou.symm)))
    obtain ⟨hqv, htv⟩ := h.place l _ v hv
    obtain ⟨hqw, htw⟩ := h.place m _ v hw
    rw [hqv] at hqw
    obtain rfl := Option.some.inj hqw
    obtain rfl : j = k := by omega
    exact ht.unique hu

/-- What a thread's next access tells stays true while its nodes and its part of
the history are left alone. -/
theorem PcOk.frame (h : PcOk s t) (hpc : s'.pc t = s.pc t) (hheld : s'.held t = s.held t)
    (hnode : s'.myNode t = s.myNode t) (hpred : s'.myPred t = s.myPred t)
    (hlocked : s.locked (s.myNode t) = true → s'.locked (s.myNode t) = true)
    (htick : s'.ticket t = s.ticket t)
    (hat : ∀ l k, (s.queue l).At k t → (s'.queue l).At k t)
    (hdep : ∀ l, Owns s t l → (s'.queue l).departed = (s.queue l).departed) : PcOk s' t := by
  unfold PcOk at h ⊢
  unfold Owns at hdep
  rw [hpc]
  cases hcase : s.pc t <;> rw [hcase] at h hdep <;>
    simp only [hheld, hnode, hpred, htick] at h hdep ⊢
  case idle =>
    refine h.imp_right fun ⟨l, hl, hat', hfront⟩ => ⟨l, hl, hat _ _ hat', ?_⟩
    -- a holder stays in front of its queue
    rw [hdep l (by rw [hl]; exact List.mem_singleton_self l)]
    exact hfront
  case setLocked l => exact h
  case swapTail l => exact ⟨h.1, hlocked h.2⟩
  case spin l => exact ⟨h.1, hat _ _ h.2⟩
  case clearLocked l =>
    rw [hdep l rfl]
    exact ⟨h.1, hat _ _ h.2.1, h.2.2⟩
  case swapNodes l => exact h

/-- Whom `handed` gives a node to depends only on the thread's own variables. -/
theorem handed_congr (hpc : s'.pc t = s.pc t) (hheld : s'.held t = s.held t)
    (hnode : s'.myNode t = s.myNode t) (hpred : s'.myPred t = s.myPred t) :
    handed s' (.inr t) = handed s (.inr t) := by
  have hex : exchanged s' t = exchanged s t := by simp only [exchanged, hpc, hheld]
  simp only [handed, hex, hnode, hpred]

/-- A step of thread `t` that leaves the queues and the other threads alone. It
may set the flag of the node in its own hands. -/
theorem Inv.quiet (h : Inv s) (hqueue : s'.queue = s.queue) (htail : s'.tail = s.tail)
    (htick : s'.ticket = s.ticket)
    (hothers : ∀ u, u ≠ t → s'.pc u = s.pc u ∧ s'.held u = s.held u ∧ s'.myNode u = s.myNode u ∧
      s'.myPred u = s.myPred u)
    (hset : ∀ n, s.locked n = true → s'.locked n = true)
    (hkeep : ∀ n, n ≠ handed s (.inr t) ∨ queuedOn s t ≠ none → s'.locked n = s.locked n)
    (hpc : PcOk s' t) (hplace : queuedOn s' t = queuedOn s t)
    (hhanded : handed s' (.inr t) = handed s (.inr t))
    (hnodes : queuedOn s t ≠ none → s'.myNode t = s.myNode t ∧ s'.myPred t = s.myPred t)
    (howns : ∀ l, Owns s' t l ↔ Owns s t l) : Inv s' := by
  have hqo : ∀ u, queuedOn s' u = queuedOn s u := by
    intro u
    by_cases hu : u = t
    · rw [hu, hplace]
    · unfold queuedOn
      rw [(hothers u hu).1, (hothers u hu).2.1]
  have hown : ∀ u l, Owns s' u l ↔ Owns s u l := by
    intro u l
    by_cases hu : u = t
    · rw [hu, howns l]
    · unfold Owns
      rw [(hothers u hu).1, (hothers u hu).2.1]
  have hsame : handed s' = handed s := by
    funext n
    rcases n with l | u
    · show s'.tail l = s.tail l
      rw [htail]
    · by_cases hu : u = t
      · rw [hu, hhanded]
      · obtain ⟨h1, h2, h3, h4⟩ := hothers u hu
        exact handed_congr h1 h2 h3 h4
  -- a queued thread has the nodes it had
  have hqueued : ∀ l k u, (s.queue l).At k u →
      s'.myNode u = s.myNode u ∧ s'.myPred u = s.myPred u := by
    intro l k u hat
    by_cases hu : u = t
    · subst hu
      exact hnodes fun hnone => by rw [(h.place l k u hat).1] at hnone; cases hnone
    · exact (hothers u hu).2.2
  refine
    { pcOk := fun u => ?_
      place := fun l k u hat => ?_
      bound := by rw [hqueue]; exact h.bound
      owners := by rw [hsame]; exact h.owners
      armed := fun l k u hat => ?_
      tailFree := fun l hfree => ?_
      tailLast := fun l k u hat hlast => ?_
      front := fun l u hat => ?_
      behind := fun l k u v hat hnext => ?_
      serves := fun l => by rw [hqueue]; exact (h.serves l).congr fun u => hown u l }
  · by_cases hu : u = t
    · rw [hu]
      exact hpc
    · obtain ⟨h1, h2, h3, h4⟩ := hothers u hu
      exact (h.pcOk u).frame h1 h2 h3 h4 (hset _) (by rw [htick])
        (fun l k hv => by rw [hqueue]; exact hv) fun l _ => by rw [hqueue]
  · rw [hqueue] at hat
    rw [hqo, htick]
    exact h.place l k u hat
  · rw [hqueue] at hat
    rw [(hqueued l k u hat).1]
    exact hset _ (h.armed l k u hat)
  · rw [hqueue] at hfree
    -- the node at a tail is not in the hands of `t`
    have hne : handed s (.inl l) ≠ handed s (.inr t) := by
      intro heq
      cases h.owners.1 heq
    have hsame : s'.locked (s.tail l) = s.locked (s.tail l) := hkeep _ (Or.inl hne)
    rw [htail, hsame]
    exact h.tailFree l hfree
  · rw [hqueue] at hat hlast
    rw [htail, (hqueued l k u hat).1]
    exact h.tailLast l k u hat hlast
  · rw [hqueue] at hat
    obtain ⟨pred, hpred, hfree⟩ := h.front l u hat
    obtain ⟨pred', hpred', howner⟩ := h.pred hat
    rw [hpred] at hpred'
    obtain rfl := Option.some.inj hpred'
    refine ⟨pred, by rw [(hqueued l _ u hat).2, hpred], ?_⟩
    -- the node that `u` keeps is `t`'s only if `u` is `t`, which is queued then
    have hfar : pred ≠ handed s (.inr t) ∨ queuedOn s t ≠ none := by
      by_cases hu : u = t
      · subst hu
        rw [(h.place l _ u hat).1]
        exact Or.inr (by simp)
      · refine Or.inl fun heq => hu ?_
        rw [← howner] at heq
        exact Sum.inr.inj (h.owners.1 heq)
    rw [hkeep pred hfar]
    exact hfree
  · rw [hqueue] at hat hnext
    rw [(hqueued l k u hat).1, (hqueued l _ v hnext).2]
    exact h.behind l k u v hat hnext

/-! ### The steps that leave the queues alone -/

theorem inv_acquire (h : Inv s) (hidle : s.pc t = .idle) (hheld : s.held t = []) :
    Inv (s.goto t (.setLocked l)) := by
  have hpc : (s.goto t (.setLocked l)).pc t = .setLocked l := Function.update_self ..
  have hheld' : (s.goto t (.setLocked l)).held t = [] := hheld
  refine h.quiet (t := t) rfl rfl rfl (fun u hu => ?_) (fun _ hn => hn) (fun _ _ => rfl) ?_ ?_ ?_
    (fun _ => ⟨rfl, rfl⟩) fun k => ?_
  · simp [State.goto, hu]
  · simp only [PcOk, hpc, hheld']
  · simp [queuedOn, hpc, hidle, hheld]
  · simp [handed, exchanged, hpc, hidle, hheld]
    rfl
  · simp [Owns, hpc, hidle, hheld]

theorem inv_setLocked (h : Inv s) (hcase : s.pc t = .setLocked l) :
    Inv ({ s with locked := Function.update s.locked (s.myNode t) true }.goto t
      (.swapTail l)) := by
  set s' := ({ s with locked := Function.update s.locked (s.myNode t) true } : State L T).goto t
    (.swapTail l) with hs'
  have hpc : s'.pc t = .swapTail l := Function.update_self ..
  have hok := h.pcOk t
  simp only [PcOk, hcase] at hok
  -- before the exchange the thread has its own node in its hands
  have hmine : handed s (.inr t) = s.myNode t := by simp [handed, exchanged, hcase]
  refine h.quiet (t := t) rfl rfl rfl (fun u hu => ?_) (fun n hn => ?_) (fun n hn => ?_) ?_ ?_ ?_
    (fun _ => ⟨rfl, rfl⟩) fun k => ?_
  · simp [hs', State.goto, hu]
  · show Function.update s.locked (s.myNode t) true n = true
    by_cases hn' : n = s.myNode t
    · rw [hn', Function.update_self]
    · rw [Function.update_of_ne hn', hn]
  · rw [hmine] at hn
    have hne := hn.resolve_right (by simp [queuedOn, hcase])
    exact Function.update_of_ne hne ..
  · simp only [PcOk, hpc]
    exact ⟨hok, Function.update_self ..⟩
  · simp [queuedOn, hpc, hcase]
  · simp [handed, exchanged, hpc, hcase]
    rfl
  · simp [Owns, hpc, hcase]

/-- `Release` begins. -/
theorem inv_release (h : Inv s) (hidle : s.pc t = .idle) (hl : l ∈ s.held t) :
    Inv ({ s with held := Function.update s.held t ((s.held t).erase l) }.goto t
      (.clearLocked l)) := by
  set s' := ({ s with held := Function.update s.held t ((s.held t).erase l) } : State L T).goto t
    (.clearLocked l) with hs'
  have hpc : s'.pc t = .clearLocked l := Function.update_self ..
  have hok := h.pcOk t
  simp only [PcOk, hidle] at hok
  -- one lock at a time: this is the one that is held
  obtain ⟨k, hheld, hat, hfront⟩ := hok.resolve_left (List.ne_nil_of_mem hl)
  rw [hheld, List.mem_singleton] at hl
  subst hl
  have hheld' : s'.held t = [] := by simp [hs', State.goto, hheld]
  refine h.quiet (t := t) rfl rfl rfl (fun u hu => ?_) (fun _ hn => hn) (fun _ _ => rfl) ?_ ?_ ?_
    (fun _ => ⟨rfl, rfl⟩) fun j => ?_
  · simp [hs', State.goto, hu]
  · simp only [PcOk, hpc]
    exact ⟨hheld', hat, hfront⟩
  · simp [queuedOn, hpc, hidle, hheld]
  · simp [handed, exchanged, hpc, hidle, hheld]
    rfl
  · simp [Owns, hpc, hidle, hheld, eq_comm]

/-- `Release` takes the predecessor's node. -/
theorem inv_swapNodes {pred : Node L T} (h : Inv s) (hcase : s.pc t = .swapNodes l)
    (hpred : s.myPred t = some pred) :
    Inv ({ s with
      myNode := Function.update s.myNode t pred
      myPred := Function.update s.myPred t (some (s.myNode t)) }.goto t .idle) := by
  set s' := ({ s with
      myNode := Function.update s.myNode t pred
      myPred := Function.update s.myPred t (some (s.myNode t)) } : State L T).goto t .idle with hs'
  have hpc : s'.pc t = .idle := Function.update_self ..
  have hok := h.pcOk t
  simp only [PcOk, hcase] at hok
  have hheld' : s'.held t = [] := hok.1
  have hnode : s'.myNode t = pred := Function.update_self ..
  refine h.quiet (t := t) rfl rfl rfl (fun u hu => ?_) (fun _ hn => hn) (fun _ _ => rfl) ?_ ?_ ?_
    (fun hq => ?_) fun j => ?_
  · simp [hs', State.goto, hu]
  · simp only [PcOk, hpc]
    exact Or.inl hheld'
  · simp [queuedOn, hpc, hheld', hcase]
  · -- the node in its hands only changes its name
    simp [handed, exchanged, hpc, hheld', hcase, hnode, hpred]
  · exact absurd (by simp [queuedOn, hcase]) hq
  · simp [Owns, hpc, hheld', hcase]

/-! ### The steps that change a queue -/

/-- The first of a queue returns from `Acquire`. -/
theorem inv_enter {pred : Node L T} (h : Inv s) (hcase : s.pc t = .spin l)
    (hpred : s.myPred t = some pred) (hfree : s.locked pred = false) : Inv (s.enter t l) := by
  have hok := h.pcOk t
  simp only [PcOk, hcase] at hok
  obtain ⟨hheld, hat⟩ := hok
  have hfront : s.ticket t = (s.queue l).departed := by
    -- anybody in front of `t` would keep its flag set
    by_contra hne
    have hlo := hat.2
    have hlt := hat.lt
    obtain ⟨v, hv⟩ := Fifo.at_of_lt (q := s.queue l) (k := s.ticket t - 1) (by omega) (by omega)
    rw [show s.ticket t = s.ticket t - 1 + 1 by omega] at hat
    have hbehind := h.behind l _ v t hv hat
    rw [hpred] at hbehind
    rw [Option.some.inj hbehind, h.armed l _ v hv] at hfree
    cases hfree
  set s' := s.enter t l with hs'
  have hpc : s'.pc t = .idle := Function.update_self ..
  have hheld' : s'.held t = [l] := by simp [hs', State.enter, hheld]
  have hothers : ∀ u, u ≠ t → s'.pc u = s.pc u ∧ s'.held u = s.held u := by
    intro u hu
    simp [hs', State.enter, hu]
  have hiff : ∀ k j u, (s'.queue k).At j u ↔ (s.queue k).At j u := fun _ _ _ =>
    Fifo.at_update_enter
  have hdep : ∀ k, (s'.queue k).departed = (s.queue k).departed := fun _ =>
    Fifo.departed_update_enter
  have harr : ∀ k, (s'.queue k).arrivals = (s.queue k).arrivals := fun _ =>
    Fifo.arrivals_update_enter
  have hqo : ∀ u, queuedOn s' u = queuedOn s u := by
    intro u
    by_cases hu : u = t
    · subst hu
      simp [queuedOn, hpc, hheld', hcase]
    · simp only [queuedOn, hothers u hu]
  have hsame : handed s' = handed s := by
    funext n
    rcases n with k | u
    · rfl
    · by_cases hu : u = t
      · subst hu
        simp [handed, exchanged, hpc, hheld', hcase]
        rfl
      · exact handed_congr (hothers u hu).1 (hothers u hu).2 rfl rfl
  refine
    { pcOk := fun u => ?_
      place := fun k j u hj => by rw [hqo]; exact h.place k j u ((hiff ..).mp hj)
      bound := fun k => by rw [harr, hdep]; exact h.bound k
      owners := by rw [hsame]; exact h.owners
      armed := fun k j u hj => h.armed k j u ((hiff ..).mp hj)
      tailFree := fun k => by rw [harr, hdep]; exact h.tailFree k
      tailLast := fun k j u hj => by rw [harr]; exact h.tailLast k j u ((hiff ..).mp hj)
      front := fun k u hj => h.front k u ((hiff ..).mp (by rwa [hdep] at hj))
      behind := fun k j u v hj hv => h.behind k j u v ((hiff ..).mp hj) ((hiff ..).mp hv)
      serves := Fifo.serves_update_enter h.serves (hfront ▸ hat) (by simp [Owns, hcase])
        (by simp [Owns, hpc, hheld']) fun k u huk => ?_ }
  · by_cases hu : u = t
    · subst hu
      simp only [PcOk, hpc]
      exact Or.inr ⟨l, hheld', (hiff ..).mpr hat, hfront.trans (hdep l).symm⟩
    · exact (h.pcOk u).frame (hothers u hu).1 (hothers u hu).2 rfl rfl (fun hn => hn) rfl
        (fun k j => (hiff k j u).mpr) fun k _ => hdep k
  · by_cases hu : u = t
    · subst hu
      have hk := huk.resolve_left fun hn => hn rfl
      simp [Owns, hpc, hheld', hcase, hk]
    · simp only [Owns, hothers u hu]

/-- The exchange of `Acquire`: the node at the tail and the thread's own change
hands. -/
theorem inv_swapTail (h : Inv s) (hcase : s.pc t = .swapTail l) :
    Inv ({ s with
      myPred := Function.update s.myPred t (some (s.tail l))
      tail := Function.update s.tail l (s.myNode t)
      queue := Function.update s.queue l ((s.queue l).arrive t)
      ticket := Function.update s.ticket t (s.queue l).arrivals.length }.goto t (.spin l)) := by
  have hok := h.pcOk t
  simp only [PcOk, hcase] at hok
  obtain ⟨hheld, harmed⟩ := hok
  have hbound := h.bound l
  set s' := ({ s with
      myPred := Function.update s.myPred t (some (s.tail l))
      tail := Function.update s.tail l (s.myNode t)
      queue := Function.update s.queue l ((s.queue l).arrive t)
      ticket := Function.update s.ticket t (s.queue l).arrivals.length } : State L T).goto t
        (.spin l)
    with hs'
  have hpc : s'.pc t = .spin l := Function.update_self ..
  have htickt : s'.ticket t = (s.queue l).arrivals.length := Function.update_self ..
  have hpredt : s'.myPred t = some (s.tail l) := Function.update_self ..
  have htaill : s'.tail l = s.myNode t := Function.update_self ..
  have htail : ∀ k, k ≠ l → s'.tail k = s.tail k := fun k hk => Function.update_of_ne hk ..
  have hothers : ∀ u, u ≠ t → s'.pc u = s.pc u ∧ s'.myPred u = s.myPred u ∧
      s'.ticket u = s.ticket u := by
    intro u hu
    simp [hs', State.goto, hu]
  have hat : ∀ k j u, (s'.queue k).At j u ↔
      (s.queue k).At j u ∨ (k = l ∧ j = (s.queue l).arrivals.length ∧ u = t) :=
    fun _ _ _ => Fifo.at_update_arrive hbound
  have hdep : ∀ k, (s'.queue k).departed = (s.queue k).departed := fun _ =>
    Fifo.departed_update_arrive
  have hlen : ∀ k, (s.queue k).arrivals.length ≤ (s'.queue k).arrivals.length := fun _ =>
    Fifo.arrivals_update_arrive.length_le
  have hlenl : (s'.queue l).arrivals.length = (s.queue l).arrivals.length + 1 := by
    simp [hs', State.goto]
  have hother : ∀ k, k ≠ l → s'.queue k = s.queue k := fun k hk => Function.update_of_ne hk ..
  -- the newcomer was in no queue
  have hnew : ∀ k j u, (s.queue k).At j u → u ≠ t := by
    rintro k j u hj rfl
    have := (h.place k j u hj).1
    simp [queuedOn, hcase] at this
  have hown : ∀ u k, Owns s' u k ↔ Owns s u k := by
    intro u k
    by_cases hu : u = t
    · subst hu
      simp [Owns, hpc, hcase]
    · simp only [Owns, (hothers u hu).1]
      rfl
  -- the tail and the thread change hands, so each node still has one owner
  have hswap : handed s' = handed s ∘ Equiv.swap (Sum.inl l) (Sum.inr t) := by
    have hmine : handed s (.inr t) = s.myNode t := by simp [handed, exchanged, hcase]
    funext n
    rcases n with k | u
    · by_cases hk : k = l
      · subst hk
        rw [Function.comp_apply, Equiv.swap_apply_left, hmine]
        exact htaill
      · rw [Function.comp_apply, Equiv.swap_apply_of_ne_of_ne (by simpa using hk) (by simp)]
        exact htail k hk
    · by_cases hu : u = t
      · subst hu
        rw [Function.comp_apply, Equiv.swap_apply_right]
        simp [handed, exchanged, hpc, hpredt]
      · rw [Function.comp_apply, Equiv.swap_apply_of_ne_of_ne (by simp) (by simpa using hu)]
        exact handed_congr (hothers u hu).1 rfl rfl (hothers u hu).2.1
  refine
    { pcOk := fun u => ?_
      place := fun k j u hj => ?_
      bound := fun k => by rw [hdep]; exact Nat.le_trans (h.bound k) (hlen k)
      owners := by rw [hswap]; exact h.owners.comp (Equiv.bijective _)
      armed := fun k j u hj => ?_
      tailFree := fun k hfree => ?_
      tailLast := fun k j u hj hlast => ?_
      front := fun k u hj => ?_
      behind := fun k j u v hj hv => ?_
      serves := Fifo.serves_update_arrive h.serves hbound fun k u => hown u k }
  · by_cases hu : u = t
    · subst hu
      simp only [PcOk, hpc]
      exact ⟨hheld, (hat ..).mpr (Or.inr ⟨rfl, htickt, rfl⟩)⟩
    · obtain ⟨h1, h2, h3⟩ := hothers u hu
      exact (h.pcOk u).frame h1 rfl rfl h2 (fun hn => hn) h3
        (fun k j hj => (hat k j u).mpr (Or.inl hj)) fun k _ => hdep k
  · rcases (hat k j u).mp hj with hold | ⟨rfl, rfl, rfl⟩
    · obtain ⟨h1, -, h3⟩ := hothers u (hnew k j u hold)
      rw [h3, ← (h.place k j u hold).1]
      refine ⟨?_, (h.place k j u hold).2⟩
      simp only [queuedOn, h1]
      rfl
    · exact ⟨by simp [queuedOn, hpc], htickt⟩
  · rcases (hat k j u).mp hj with hold | ⟨rfl, rfl, rfl⟩
    · exact h.armed k j u hold
    · exact harmed
  · rw [hdep] at hfree
    by_cases hk : k = l
    · subst hk
      -- the newcomer has not left, so this queue is not empty
      rw [hlenl] at hfree
      omega
    · rw [hother k hk] at hfree
      rw [htail k hk]
      exact h.tailFree k hfree
  · rcases (hat k j u).mp hj with hold | ⟨rfl, rfl, rfl⟩
    · have hk : k ≠ l := by
        intro hk
        -- the newcomer is the last of this queue
        have hlt := hold.lt
        rw [hk] at hlt hlast
        omega
      rw [hother k hk] at hlast
      rw [htail k hk]
      exact h.tailLast k j u hold hlast
    · exact htaill
  · rw [hdep] at hj
    rcases (hat k _ u).mp hj with hold | ⟨rfl, hempty, rfl⟩
    · rw [(hothers u (hnew k _ u hold)).2.1]
      exact h.front k u hold
    · -- an empty queue, whose tail is free
      exact ⟨_, hpredt, h.tailFree k hempty⟩
  · rcases (hat k _ v).mp hv with hold | ⟨rfl, hlast, rfl⟩
    · rw [(hothers v (hnew k _ v hold)).2.1]
      rcases (hat k j u).mp hj with hu | ⟨rfl, rfl, rfl⟩
      · exact h.behind k j u v hu hold
      · have := hold.lt
        omega
    · -- the newcomer takes the last one's node
      have hu : (s.queue k).At j u := ((hat k j u).mp hj).resolve_right fun hn => by
        have := hn.2.1
        omega
      rw [hpredt, h.tailLast k j u hu hlast]
      rfl

/-- The node in the hands of a thread about to exchange it is in no queue. -/
theorem Inv.myNode_ne {k : Nat} (h : Inv s) (hat : (s.queue l).At k t)
    (hout : exchanged s u = false) (hq : queuedOn s u = none) : s.myNode u ≠ s.myNode t := by
  intro heq
  have hmine : handed s (.inr u) = s.myNode u := by simp [handed, hout]
  rcases h.nodeOwner hat with ⟨-, howner⟩ | ⟨v, hv, howner⟩
  · cases h.owners.1 (hmine.trans (heq.trans howner.symm))
  · obtain rfl := Sum.inr.inj (h.owners.1 (hmine.trans (heq.trans howner.symm)))
    rw [(h.place l _ u hv).1] at hq
    cases hq

/-- The store of `Release` lets the next thread in. -/
theorem inv_clearLocked (h : Inv s) (hcase : s.pc t = .clearLocked l) :
    Inv ({ s with
      locked := Function.update s.locked (s.myNode t) false
      queue := Function.update s.queue l (s.queue l).depart }.goto t (.swapNodes l)) := by
  have hok := h.pcOk t
  simp only [PcOk, hcase] at hok
  obtain ⟨hheld, hfront, hticket⟩ := hok
  rw [hticket] at hfront
  obtain ⟨pred, hpredt, -⟩ := h.front l t hfront
  set s' := ({ s with
      locked := Function.update s.locked (s.myNode t) false
      queue := Function.update s.queue l (s.queue l).depart } : State L T).goto t (.swapNodes l)
    with hs'
  have hpc : s'.pc t = .swapNodes l := Function.update_self ..
  have hself : s'.queue l = (s.queue l).depart := Function.update_self ..
  have hother : ∀ k, k ≠ l → s'.queue k = s.queue k := fun k hk => Function.update_of_ne hk ..
  have hothers : ∀ u, u ≠ t → s'.pc u = s.pc u := fun u hu => Function.update_of_ne hu ..
  have hclear : s'.locked (s.myNode t) = false := Function.update_self ..
  have hflag : ∀ n, n ≠ s.myNode t → s'.locked n = s.locked n := fun n hn =>
    Function.update_of_ne hn ..
  -- no flag is set
  have hstill : ∀ n, s.locked n = false → s'.locked n = false := by
    intro n hn
    by_cases hn' : n = s.myNode t
    · rw [hn', hclear]
    · rw [hflag n hn', hn]
  have hone : ∀ k j, (s.queue k).At j t → k = l := by
    intro k j hj
    have hq := (h.place k j t hj).1
    rw [(h.place l _ t hfront).1] at hq
    exact (Option.some.inj hq).symm
  -- everybody but `t` keeps its place
  have hat : ∀ k j u, (s'.queue k).At j u ↔ (s.queue k).At j u ∧ u ≠ t := by
    intro k j u
    rw [show (s'.queue k).At j u ↔ _ from Fifo.at_update_depart_iff_ne hfront fun j hj =>
      (h.place l j t hj).2.symm.trans hticket]
    exact and_congr_right fun hj => or_iff_left_of_imp fun hk hu => hk (hone k j (hu ▸ hj))
  have harr : ∀ k, (s'.queue k).arrivals = (s.queue k).arrivals := fun _ =>
    Fifo.arrivals_update_depart
  have hown : ∀ u k, u ≠ t → (Owns s' u k ↔ Owns s u k) := by
    intro u k hu
    simp only [Owns, hothers u hu]
    rfl
  have hsame : handed s' = handed s := by
    funext n
    rcases n with k | u
    · rfl
    · by_cases hu : u = t
      · subst hu
        simp [handed, exchanged, hpc, hcase]
        rfl
      · exact handed_congr (hothers u hu) rfl rfl rfl
  refine
    { pcOk := fun u => ?_
      place := fun k j u hj => ?_
      bound := Fifo.departed_update_depart_le hfront h.bound
      owners := by rw [hsame]; exact h.owners
      armed := fun k j u hj => ?_
      tailFree := fun k hfree => ?_
      tailLast := fun k j u hj hlast => h.tailLast k j u ((hat k j u).mp hj).1 (harr k ▸ hlast)
      front := fun k u hj => ?_
      behind := fun k j u v hj hv =>
        h.behind k j u v ((hat k j u).mp hj).1 ((hat k _ v).mp hv).1
      serves := Fifo.serves_update_depart h.serves (t := t) (by simp [Owns, hcase])
        (by simp [Owns, hpc]) fun k u huk => ?_ }
  · by_cases hu : u = t
    · subst hu
      simp only [PcOk, hpc]
      refine ⟨hheld, ?_⟩
      show s.myPred u ≠ none
      rw [hpredt]
      simp
    · have hok := h.pcOk u
      unfold PcOk at hok ⊢
      rw [hothers u hu]
      -- an owner of `l` would be at the front, where `t` is
      have hqueue : ∀ k, Owns s u k → s'.queue k = s.queue k := by
        intro k hk
        refine hother k fun hkl => hu ?_
        rw [hkl] at hk
        exact ((h.serves l).front u hk).unique hfront
      cases hpcu : s.pc u <;> rw [hpcu] at hok <;> simp only at hok ⊢
      case idle =>
        refine hok.imp_right fun ⟨k, hk, hatu, hd⟩ => ⟨k, hk, (hat k _ u).mpr ⟨hatu, hu⟩, ?_⟩
        rw [hqueue k (by simp [Owns, hpcu, hk])]
        exact hd
      case setLocked k => exact hok
      case swapTail k =>
        -- a node about to be exchanged is not the one whose flag is cleared
        have hne :=
          h.myNode_ne (u := u) hfront (by simp [exchanged, hpcu]) (by simp [queuedOn, hpcu])
        exact ⟨hok.1, (hflag _ hne).trans hok.2⟩
      case spin k => exact ⟨hok.1, (hat k _ u).mpr ⟨hok.2, hu⟩⟩
      case clearLocked k =>
        rw [hqueue k (by simp [Owns, hpcu])]
        exact hok
      case swapNodes k => exact hok
  · obtain ⟨hj, hu⟩ := (hat k j u).mp hj
    have hq : queuedOn s' u = queuedOn s u := by
      simp only [queuedOn, hothers u hu]
      rfl
    rw [hq]
    exact h.place k j u hj
  · -- clearing the flag of `t`'s node clears nobody else's
    obtain ⟨hj, hu⟩ := (hat k j u).mp hj
    exact (hflag _ fun heq => hu (h.myNode_injective hj hfront heq)).trans (h.armed k j u hj)
  · by_cases hk : k = l
    · subst hk
      rw [hself] at hfree
      show s'.locked (s.tail k) = false
      -- with `t` the last its node is at the tail, and free
      rw [h.tailLast k _ t hfront hfree, hclear]
    · rw [hother k hk] at hfree
      exact hstill _ (h.tailFree k hfree)
  · by_cases hk : k = l
    · -- the next one polls the node whose flag is cleared
      subst hk
      rw [hself] at hj
      exact ⟨_, h.behind k _ t u hfront (Fifo.at_depart.mp hj).1, hclear⟩
    · rw [hother k hk] at hj
      obtain ⟨p, hp, hfree⟩ := h.front k u hj
      exact ⟨p, hp, hstill p hfree⟩
  · by_cases hu : u = t
    · subst hu
      have hk := huk.resolve_left fun hn => hn rfl
      simp [Owns, hpc, hcase, Ne.symm hk]
    · exact hown u k hu

/-! ### Runs -/

theorem inv_proceed (h : Inv s) (hs : proceed s t (s.pc t) = some s') : Inv s' := by
  have hok := h.pcOk t
  cases hcase : s.pc t with
  | idle =>
    rw [hcase] at hs
    cases hs
  | setLocked l =>
    rw [hcase] at hs
    obtain rfl := Option.some.inj hs
    exact inv_setLocked h hcase
  | swapTail l =>
    rw [hcase] at hs
    obtain rfl := Option.some.inj hs
    exact inv_swapTail h hcase
  | spin l =>
    rw [hcase] at hs
    simp only [PcOk, hcase] at hok
    -- a thread that spins has found a predecessor
    obtain ⟨pred, hpred, -⟩ := h.pred hok.2
    simp only [proceed, hpred] at hs
    split at hs
    · exact Option.some.inj hs ▸ h
    · rename_i hfree
      obtain rfl := Option.some.inj hs
      exact inv_enter h hcase hpred (by simpa using hfree)
  | clearLocked l =>
    rw [hcase] at hs
    obtain rfl := Option.some.inj hs
    exact inv_clearLocked h hcase
  | swapNodes l =>
    rw [hcase] at hs
    simp only [PcOk, hcase] at hok
    -- and still has it after its `Release`
    obtain ⟨pred, hpred⟩ := Option.ne_none_iff_exists'.mp hok.2
    simp only [proceed, hpred] at hs
    obtain rfl := Option.some.inj hs
    exact inv_swapNodes h hcase hpred
  | crashed =>
    rw [hcase] at hs
    cases hs

theorem reachable_inv (h : Reachable (step oneAtATime) (init : State L T) s) : Inv s := by
  refine h.invariant (fun _ => inv_init) fun s a s' hI _ _ hs => ?_
  -- the beginnings of the two calls, and their accesses
  cases a with
  | acquire t l =>
    simp only [step] at hs
    split at hs
    · rename_i hcond
      obtain rfl := Option.some.inj hs
      exact inv_acquire hI hcond.1 (oneAtATime_iff.mp hcond.2)
    · cases hs
  | release t l =>
    simp only [step] at hs
    split at hs
    · rename_i hcond
      obtain rfl := Option.some.inj hs
      exact inv_release hI hcond.1 hcond.2
    · cases hs
  | advance t => exact inv_proceed hI hs

/-! ## What the lock promises -/

/-- The lock of the call a thread is in. -/
def Pc.lock : Pc L → Option L
  | .idle | .crashed => none
  | .setLocked l | .swapTail l | .spin l | .clearLocked l | .swapNodes l => some l

/-- The thread is in a call on the lock or holds it. -/
def Uses (s : State L T) (t : T) (l : L) : Prop := (s.pc t).lock = some l ∨ l ∈ s.held t

/-- Where a node can be: at a lock's tail, at a queue position (the thread there
waits for it or entered through it), or in the hands of a thread outside every
queue. -/
inductive Place (L T : Type) where
  | tail (l : L)
  | position (l : L) (t : T)
  | spare (t : T)

/-- The thread's node outside of queues. Between the two halves of `Release` it
is still called `myPred`. -/
def spareNode (s : State L T) (t : T) : Option (Node L T) :=
  match s.pc t with
  | .swapNodes _ => s.myPred t
  | .idle | .setLocked _ | .swapTail _ | .spin _ | .clearLocked _ | .crashed => some (s.myNode t)

def LiesAt (s : State L T) (n : Node L T) : Place L T → Prop
  | .tail l => s.tail l = n
  | .position l t => queuedOn s t = some l ∧ s.myPred t = some n
  | .spare t => queuedOn s t = none ∧ spareNode s t = some n

/-- The thread's next access reads the node's flag. -/
def Polls (s : State L T) (t : T) (n : Node L T) : Prop :=
  ∃ l, s.pc t = .spin l ∧ s.myPred t = some n

/-- Where the node is that `handed` gives to a lock or a thread. -/
def placeOf (s : State L T) : L ⊕ T → Place L T
  | .inl l => .tail l
  | .inr t => match queuedOn s t with
    | some l => .position l t
    | none => .spare t

theorem Inv.handed_queued (h : Inv s) (hq : queuedOn s t = some l) :
    s.myPred t = some (handed s (.inr t)) := by
  obtain ⟨pred, hpred, howner⟩ := h.pred ((h.pcOk t).at hq)
  rw [hpred, howner]

theorem Inv.handed_spare (h : Inv s) (hq : queuedOn s t = none) :
    spareNode s t = some (handed s (.inr t)) := by
  have hok := h.pcOk t
  unfold PcOk at hok
  unfold queuedOn at hq
  cases hpc : s.pc t <;> rw [hpc] at hok hq <;> simp only at hok hq
  case idle =>
    rw [List.head?_eq_none_iff] at hq
    simp [spareNode, handed, exchanged, hpc, hq]
  case setLocked l | swapTail l => simp [spareNode, handed, exchanged, hpc]
  case swapNodes l =>
    -- after the store of `Release` the node is still called `myPred`
    obtain ⟨pred, hpred⟩ := Option.ne_none_iff_exists'.mp hok.2
    simp [spareNode, handed, exchanged, hpc, hpred]
  all_goals cases hq

/-- A node lies where the lock or the thread it is handed to has it, and nowhere
else. -/
theorem Inv.liesAt_iff (h : Inv s) (n : L ⊕ T) (p : Place L T) :
    LiesAt s (handed s n) p ↔ p = placeOf s n := by
  have hinj := h.owners.1
  cases p with
  | tail l =>
    -- a tail holds what its queue has handed on
    show handed s (.inl l) = handed s n ↔ _
    constructor
    · intro heq
      rw [← hinj heq]
      rfl
    · intro heq
      cases n with
      | inl k =>
        obtain rfl : l = k := by simpa [placeOf] using heq
        rfl
      | inr u =>
        unfold placeOf at heq
        simp only at heq
        split at heq <;> cases heq
  | position l t =>
    -- a queued thread polls the node that was handed to it
    show queuedOn s t = some l ∧ s.myPred t = some (handed s n) ↔ _
    constructor
    · rintro ⟨hq, hpred⟩
      rw [h.handed_queued hq] at hpred
      rw [← hinj (Option.some.inj hpred)]
      simp [placeOf, hq]
    · intro heq
      cases n with
      | inl k => cases heq
      | inr u =>
        unfold placeOf at heq
        simp only at heq
        split at heq
        · rename_i k hq
          cases heq
          exact ⟨hq, h.handed_queued hq⟩
        · cases heq
  | spare t =>
    -- and a thread in no queue has its spare node
    show queuedOn s t = none ∧ spareNode s t = some (handed s n) ↔ _
    constructor
    · rintro ⟨hq, hspare⟩
      rw [h.handed_spare hq] at hspare
      rw [← hinj (Option.some.inj hspare)]
      simp [placeOf, hq]
    · intro heq
      cases n with
      | inl k => cases heq
      | inr u =>
        unfold placeOf at heq
        simp only at heq
        split at heq
        · cases heq
        · rename_i hq
          cases heq
          exact ⟨hq, h.handed_spare hq⟩

theorem Inv.place_unique (h : Inv s) (n : Node L T) : ∃! p, LiesAt s n p := by
  obtain ⟨m, rfl⟩ := h.owners.2 n
  exact ⟨placeOf s m, (h.liesAt_iff m _).mpr rfl, fun p hp => (h.liesAt_iff m p).mp hp⟩

/-- Whoever polls a node has its queue position. -/
theorem Inv.polls (h : Inv s) {n : Node L T} (hp : Polls s t n) : handed s (.inr t) = n := by
  obtain ⟨l, hcase, hpred⟩ := hp
  have hq : queuedOn s t = some l := by simp [queuedOn, hcase]
  rw [h.handed_queued hq] at hpred
  exact Option.some.inj hpred

/-- `CLHLock` moves its nodes without losing or sharing one, and is a
first-come-first-served lock, for threads that use one lock at a time: every node lies in
one place, there are as many as locks and threads, and no two threads poll the same one.
A lock that nobody uses is left with a tail whose flag is down. -/
theorem clh_recycles (h : Reachable (step oneAtATime) (init : State L T) s) :
    (∀ n, ∃! p, LiesAt s n p) ∧
    (∀ [Finite L] [Finite T], Nat.card {n // ∃ p, LiesAt s n p} = Nat.card L + Nat.card T) ∧
    (∀ n t u, Polls s t n → Polls s u n → t = u) ∧
    (∀ l t u, Owns s t l → Owns s u l → t = u) ∧
    (∀ l, (s.queue l).entries <+: (s.queue l).arrivals) ∧
    (∀ l, (∀ t, ¬ Uses s t l) → s.locked (s.tail l) = false) := by
  have hI := reachable_inv h
  refine ⟨hI.place_unique, ?_, fun n t u ht hu => ?_, fun l t u ht hu => ?_,
    fun l => (hI.serves l).fair.inOrder, fun l hfree => ?_⟩
  · intro _ _
    rw [← Nat.card_sum]
    exact Nat.card_congr (Equiv.subtypeUnivEquiv fun n => (hI.place_unique n).exists)
  · -- each node is in the hands of one thread, and a poller has it
    exact Sum.inr.inj (hI.owners.1 ((hI.polls ht).trans (hI.polls hu).symm))
  · exact (hI.serves l).exclusive ht hu
  · refine hI.tailFree l ?_
    have hbound := hI.bound l
    by_contra hne
    -- whoever is at the front uses the lock
    obtain ⟨u, hu⟩ := Fifo.at_of_lt (q := s.queue l) (Nat.le_refl _) (by omega)
    have hq := (hI.place l _ u hu).1
    refine hfree u ?_
    unfold queuedOn at hq
    unfold Uses Pc.lock
    cases hcase : s.pc u <;> rw [hcase] at hq <;> simp only at hq ⊢
    case idle => exact Or.inr (List.mem_of_mem_head? hq)
    all_goals first
      | exact Or.inl hq
      | cases hq

/-- Two threads meet at one lock, and the first moves on with the lock's old
node to another lock. -/
def handOver : List (Action Bool Bool) :=
  [.acquire false true, .advance false, .advance false, .advance false, .acquire true true,
    .advance true, .advance true, .advance true, .release false true, .advance false,
    .advance false, .advance true, .acquire false false, .advance false, .advance false]

theorem clh_recycles_handOver :
    ∃ s : State Bool Bool, perform (step oneAtATime) (fun _ => True) init handOver = some s ∧
      ∀ n, ∃! p, LiesAt s n p := by
  obtain ⟨s, hs⟩ := Option.isSome_iff_exists.mp
    (show (perform (step oneAtATime) (fun _ => True) (init : State Bool Bool)
      handOver).isSome = true by decide)
  exact ⟨s, hs, (clh_recycles ((ReachableWithin.start trivial).of_perform hs)).1⟩

end LockShield.Clh
