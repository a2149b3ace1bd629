import LockShield.Lib.Lts
import LockShield.Lib.Fifo
import LockShield.Lib.MachineInt
import Mathlib.Data.Fintype.Basic

/-!
# `ABQLLock`

A ring of flags: `Acquire` draws a ticket from `tail`, which names the slot it
waits at, and `Release` clears the flag of its slot and sets the next one. The
thread remembers its slot in `slot`, one `thread_local static` for all locks.

Ticket number `k` belongs to slot `k % 256`. That is the slot the code computes
as long as `tail` has not wrapped (`Fits`), and the slot it gives back as long as the
thread has drawn no other slot since (`Kept`). A slot belongs to one thread at a time
while there are at most 256 threads.

## Results

* `inv_step`       — every access keeps the invariant: one flag is set, and it is that of
  the ticket whose turn it is, unless its owner holds the lock.
* `Inv.release_steps` — what the two accesses of `Release` do.
* `Inv.usesSlot_iff` — which thread a slot belongs to.
* `abql_correct`   — threads that use one lock at a time exclude each other, in the order
  of their tickets, while fewer than `2 ^ 31` tickets of a lock have been drawn (`Few`).
-/

set_option linter.unusedSectionVars false

namespace LockShield.Abql

open Lib

/-- `ABQL_MAX_THREADS`. -/
def maxThreads : Int := 256

/-- The next access of a thread. Between calls it is `idle`. -/
inductive Pc (L : Type) where
  | idle
  /-- `mySlot = tail.fetch_add(1) % ABQL_MAX_THREADS` and `slot = mySlot` -/
  | fetchAdd (l : L)
  /-- `while (!flags[mySlot].load())` -/
  | spin (l : L) (mySlot : Int)
  /-- `flags[slot].store(false)` -/
  | clearFlag (l : L)
  /-- `flags[(slot + 1) % ABQL_MAX_THREADS].store(true)` -/
  | wakeNext (l : L)
  /-- an access outside `flags` -/
  | outOfBounds
  deriving DecidableEq

variable (L T : Type)

structure State where
  tail : L → Int
  flags : L → Int → Bool
  slot : T → Int
  pc : T → Pc L
  /-- the locks a thread has acquired and not begun to release -/
  held : T → List L
  /-- history: the arrivals at each lock, each thread's last arrival number at
  each lock, and the slots drawn from each lock -/
  queue : L → Fifo T
  ticket : T → L → Nat
  drawn : L → List Int

variable {L T}

inductive Action (L T : Type) where
  | acquire (t : T) (l : L)
  | release (t : T) (l : L)
  | advance (t : T)

/-- The thread that acts. -/
def Action.thread : Action L T → T
  | .acquire t _ | .release t _ | .advance t => t

variable [DecidableEq L] [DecidableEq T]

def init : State L T where
  tail _ := 0
  flags _ i := decide (i = 0)
  slot _ := 0
  pc _ := .idle
  held _ := []
  queue _ := .empty
  ticket _ _ := 0
  drawn _ := []

def State.goto (s : State L T) (t : T) (pc : Pc L) : State L T :=
  { s with pc := Function.update s.pc t pc }

/-- `Acquire` returns. -/
def State.enter (s : State L T) (t : T) (l : L) : State L T :=
  { s with
    pc := Function.update s.pc t .idle
    held := Function.update s.held t (l :: s.held t)
    queue := Function.update s.queue l ((s.queue l).enter t) }

/-- An access to `flags[i]`, with what it leads to. -/
def State.access (s : State L T) (t : T) (i : Int) (s' : State L T) : State L T :=
  if 0 ≤ i ∧ i < maxThreads then s' else s.goto t .outOfBounds

/-- `flags[i].store(v)`. -/
def State.setFlag (s : State L T) (l : L) (i : Int) (v : Bool) : State L T :=
  { s with flags := Function.update s.flags l (Function.update (s.flags l) i v) }

/-- The next access of a call, and what follows it. -/
def proceed (s : State L T) (t : T) : Pc L → Option (State L T)
  | .idle => none
  | .fetchAdd l =>
    -- `%` truncates towards zero
    let mySlot := (s.tail l).tmod maxThreads
    some ({ s with
      tail := Function.update s.tail l (int32 (s.tail l + 1))
      slot := Function.update s.slot t mySlot
      queue := Function.update s.queue l ((s.queue l).arrive t)
      ticket := Function.update s.ticket t
        (Function.update (s.ticket t) l (s.queue l).arrivals.length)
      drawn := Function.update s.drawn l (s.drawn l ++ [mySlot]) }.goto t (.spin l mySlot))
  | .spin l mySlot =>
    some (s.access t mySlot (if s.flags l mySlot then s.enter t l else s))
  | .clearFlag l =>
    some (s.access t (s.slot t) ((s.setFlag l (s.slot t) false).goto t (.wakeNext l)))
  | .wakeNext l =>
    let next := (s.slot t + 1).tmod maxThreads
    some (s.access t next ({ s.setFlag l next true with
      queue := Function.update s.queue l (s.queue l).depart }.goto t .idle))
  | .outOfBounds => none

/-- One step of one thread. `mayAcquire` says which locks the threads acquire
while holding which; they release only what they hold. -/
def step (mayAcquire : List L → L → Bool) (s : State L T) : Action L T → Option (State L T)
  | .acquire t l =>
    if s.pc t = .idle ∧ mayAcquire (s.held t) l then some (s.goto t (.fetchAdd l)) else none
  | .release t l =>
    if s.pc t = .idle ∧ l ∈ s.held t then
      some ({ s with held := Function.update s.held t ((s.held t).erase l) }.goto t (.clearFlag l))
    else none
  | .advance t => proceed s t (s.pc t)

/-- The index in `flags` of the thread's next access. -/
def accessed (s : State L T) (t : T) : Option Int :=
  match s.pc t with
  | .spin _ mySlot => some mySlot
  | .clearFlag _ => some (s.slot t)
  | .wakeNext _ => some ((s.slot t + 1).tmod maxThreads)
  | .idle | .fetchAdd _ | .outOfBounds => none

/-- The thread has been let in and has not passed the lock on. -/
def Owns (s : State L T) (t : T) (l : L) : Prop :=
  l ∈ s.held t ∨ s.pc t = .clearFlag l ∨ s.pc t = .wakeNext l

/-- The thread waits for the lock. -/
def Waits (s : State L T) (t : T) (l : L) : Prop := ∃ mySlot, s.pc t = .spin l mySlot

/-- The thread has a ticket: it waits with it or was let in with it. -/
def HasTicket (s : State L T) (t : T) (l : L) : Prop := Waits s t l ∨ Owns s t l

/-- The slot of a ticket. -/
def slotAt (k : Nat) : Int := ((k % 256 : Nat) : Int)

/-- The thread waits at slot `i` of the lock, or is inside with it. -/
def UsesSlot (s : State L T) (t : T) (l : L) (i : Int) : Prop :=
  s.pc t = .spin l i ∨ (Owns s t l ∧ s.slot t = i)

/-- The number of tickets that name their slot: up to `INT_MAX`, and one more. -/
def ticketLimit : Nat := 2 ^ 31 + 1

/-- `tail` has not gone past the tickets that name their slot. -/
def Fits (s : State L T) : Prop := ∀ l, (s.queue l).arrivals.length ≤ ticketLimit

/-- Fewer than `2^31` calls of `Acquire` have drawn a ticket of each lock. -/
def Few (s : State L T) : Prop := ∀ l, (s.queue l).arrivals.length < 2 ^ 31

/-- A thread that releases a lock still has the slot that it drew there. -/
def Kept (s : State L T) : Prop :=
  ∀ t l, s.pc t = .clearFlag l → s.slot t = slotAt (s.ticket t l)

instance [Fintype L] [Fintype T] (s : State L T) : Decidable (Kept s) :=
  inferInstanceAs (Decidable (∀ t l, s.pc t = .clearFlag l → s.slot t = slotAt (s.ticket t l)))

instance [Fintype L] (s : State L T) : Decidable (Few s) :=
  inferInstanceAs (Decidable (∀ l, (s.queue l).arrivals.length < 2 ^ 31))

/-- What a thread's next access tells about it. -/
def PcOk (s : State L T) (t : T) : Prop :=
  match s.pc t with
  | .idle => True
  | .fetchAdd l => l ∉ s.held t
  | .spin l mySlot => l ∉ s.held t ∧ mySlot = slotAt (s.ticket t l)
  | .clearFlag l | .wakeNext l => l ∉ s.held t ∧ s.slot t = slotAt (s.ticket t l)
  | .outOfBounds => False

structure Inv (s : State L T) : Prop where
  pcOk : ∀ t, PcOk s t
  heldNodup : ∀ t, (s.held t).Nodup
  /-- a ticket is an arrival that is not over -/
  out : ∀ l t, HasTicket s t l ↔ ∃ k, (s.queue l).At k t
  ticket : ∀ l k t, (s.queue l).At k t → s.ticket t l = k
  tail : ∀ l, s.tail l = int32 (s.queue l).arrivals.length
  bound : ∀ l, (s.queue l).departed ≤ (s.queue l).arrivals.length
  /-- the first may enter, unless the one before it is between its two stores -/
  flags : ∀ l i, s.flags l i = true ↔
    i = slotAt (s.queue l).departed ∧ ∀ t, s.pc t ≠ .wakeNext l
  slot : ∀ t, ∃ k, s.slot t = slotAt k
  serves : ∀ l, (s.queue l).Serves fun t => Owns s t l

variable {s s' : State L T} {t u : T} {l m : L} {i : Int} {k : Nat}

/-! ## Slots -/

theorem slotAt_range (k : Nat) : 0 ≤ slotAt k ∧ slotAt k < maxThreads := by
  unfold slotAt maxThreads
  omega

theorem slotAt_succ (k : Nat) : (slotAt k + 1).tmod maxThreads = slotAt (k + 1) := by
  unfold slotAt maxThreads
  rw [Int.tmod_eq_emod_of_nonneg (by omega)]
  omega

theorem slotAt_succ_ne (k : Nat) : slotAt (k + 1) ≠ slotAt k := by
  unfold slotAt
  omega

/-- Less than a lap apart, two tickets have two slots. -/
theorem slotAt_inj {j k : Nat} (hjk : j < k + 256) (hkj : k < j + 256)
    (h : slotAt j = slotAt k) : j = k := by
  unfold slotAt at h
  omega

/-- The code finds the slot of every ticket within the limit. -/
theorem tmod_int32 (hk : k < ticketLimit) : (int32 k).tmod maxThreads = slotAt k := by
  unfold slotAt maxThreads
  unfold ticketLimit at hk
  by_cases hlast : k = 2 ^ 31
  · -- the last one is `INT_MIN`, which 256 divides
    subst hlast
    decide
  · rw [int32_of_range (by omega) (by omega), Int.tmod_eq_emod_of_nonneg (by omega)]
    omega

theorem inv_init : Inv (init : State L T) := by
  have hnone : ∀ (l : L) (t : T), ¬ Owns init t l := fun l t h => by simp [Owns, init] at h
  exact
    { pcOk := fun _ => trivial
      heldNodup := fun _ => List.nodup_nil
      out := fun l t => iff_of_false (fun h => h.elim (fun ⟨_, h⟩ => by cases h) (hnone l t))
        fun ⟨_, h⟩ => Fifo.not_at_empty h
      ticket := fun _ _ _ h => absurd h Fifo.not_at_empty
      tail := fun _ => (int32_of_range (x := 0) (by omega) (by omega)).symm
      bound := fun _ => Nat.le_refl 0
      flags := fun l i => by
        simp [init, slotAt, Fifo.empty]
      slot := fun _ => ⟨0, rfl⟩
      serves := fun l => Fifo.serves_empty (hnone l) }

theorem Inv.once (h : Inv s) {j k : Nat} (hj : (s.queue l).At j t) (hk : (s.queue l).At k t) :
    j = k := by
  rw [← h.ticket l j t hj, h.ticket l k t hk]

theorem Inv.at_ticket (h : Inv s) (ht : HasTicket s t l) : (s.queue l).At (s.ticket t l) t := by
  obtain ⟨k, hk⟩ := (h.out l t).mp ht
  rw [h.ticket l k t hk]
  exact hk

/-- The thread inside has the first ticket. -/
theorem Inv.owner_ticket (h : Inv s) (hown : Owns s t l) :
    s.ticket t l = (s.queue l).departed :=
  h.ticket l _ t ((h.serves l).front t hown)

/-- Nobody else is between its two stores while a thread is inside before them. -/
theorem Inv.no_wake (h : Inv s) (hown : Owns s t l) (hpc : s.pc t ≠ .wakeNext l) (u : T) :
    s.pc u ≠ .wakeNext l := by
  intro hu
  have hut := (h.serves l).exclusive (Or.inr (Or.inr hu)) hown
  exact hpc (hut ▸ hu)

/-! ## The steps -/

theorem PcOk.congr (h : PcOk s u) (hpc : s'.pc u = s.pc u) (hheld : s'.held u = s.held u)
    (htick : s'.ticket u = s.ticket u) (hslot : s'.slot u = s.slot u) : PcOk s' u := by
  unfold PcOk at h ⊢
  rw [hpc, hheld, htick, hslot]
  exact h

/-- A flag stays what it should be when its lock is not the one that the acting
thread passes on. -/
theorem Inv.flag_kept (h : Inv s) (hothers : ∀ u, u ≠ t → s'.pc u = s.pc u)
    (hflag : s'.flags m i = s.flags m i) (hold : s.pc t ≠ .wakeNext m)
    (hnew : s'.pc t ≠ .wakeNext m) :
    s'.flags m i = true ↔ i = slotAt (s.queue m).departed ∧ ∀ u, s'.pc u ≠ .wakeNext m := by
  rw [hflag, h.flags m i]
  refine and_congr_right fun _ => forall_congr' fun u => ?_
  by_cases hut : u = t
  · subst hut
    exact iff_of_true hold hnew
  · rw [hothers u hut]

/-- A step that leaves the queues and the other threads alone. -/
theorem Inv.quiet (h : Inv s) (hqueue : s'.queue = s.queue) (htick : s'.ticket = s.ticket)
    (htail : s'.tail = s.tail) (hslot : s'.slot = s.slot)
    (hothers : ∀ u, u ≠ t → s'.pc u = s.pc u ∧ s'.held u = s.held u)
    (hpc : PcOk s' t) (hheld : (s'.held t).Nodup)
    (hwaits : ∀ m, Waits s' t m ↔ Waits s t m) (howns : ∀ m, Owns s' t m ↔ Owns s t m)
    (hflags : ∀ m i, s'.flags m i = true ↔
      i = slotAt (s.queue m).departed ∧ ∀ u, s'.pc u ≠ .wakeNext m) : Inv s' := by
  -- who is inside is the same for all threads, not only for `t`
  have hown : ∀ m u, Owns s' u m ↔ Owns s u m := by
    intro m u
    by_cases hut : u = t
    · rw [hut]
      exact howns m
    · rw [Owns, Owns, (hothers u hut).1, (hothers u hut).2]
  refine
    { pcOk := fun u => ?_
      heldNodup := fun u => ?_
      out := fun m u => ?_
      ticket := by rw [hqueue, htick]; exact h.ticket
      tail := by rw [hqueue, htail]; exact h.tail
      bound := by rw [hqueue]; exact h.bound
      flags := by rw [hqueue]; exact hflags
      slot := by rw [hslot]; exact h.slot
      serves := fun m => by rw [hqueue]; exact (h.serves m).congr (hown m) }
  · by_cases hut : u = t
    · rw [hut]
      exact hpc
    · exact (h.pcOk u).congr (hothers u hut).1 (hothers u hut).2 (by rw [htick]) (by rw [hslot])
  · by_cases hut : u = t
    · rw [hut]
      exact hheld
    · rw [(hothers u hut).2]
      exact h.heldNodup u
  · rw [hqueue, ← h.out m u, HasTicket, HasTicket, hown]
    by_cases hut : u = t
    · rw [hut, hwaits]
    · simp only [Waits, (hothers u hut).1]

theorem inv_acquire (h : Inv s) (hidle : s.pc t = .idle) (hl : l ∉ s.held t) :
    Inv (s.goto t (.fetchAdd l)) := by
  refine h.quiet (t := t) rfl rfl rfl rfl (fun u hut => by simp [State.goto, hut])
    (by simpa [PcOk, State.goto] using hl) (h.heldNodup t)
    (fun m => by simp [Waits, State.goto, hidle]) (fun m => by simp [Owns, State.goto, hidle])
    fun m i => ?_
  exact h.flag_kept (t := t) (fun u hut => by simp [State.goto, hut]) rfl (by simp [hidle])
    (by simp [State.goto])

theorem inv_release (h : Inv s) (hidle : s.pc t = .idle) (hl : l ∈ s.held t)
    (hkept : s.slot t = slotAt (s.ticket t l)) :
    Inv ({ s with held := Function.update s.held t ((s.held t).erase l) }.goto t
      (.clearFlag l)) := by
  have hgone : l ∉ (s.held t).erase l := (h.heldNodup t).not_mem_erase
  refine h.quiet (t := t) rfl rfl rfl rfl (fun u hut => by simp [State.goto, hut])
    (by simpa [PcOk, State.goto] using ⟨hgone, hkept⟩)
    (by simpa [State.goto] using (h.heldNodup t).erase l)
    (fun m => by simp [Waits, State.goto, hidle]) (fun m => ?_) fun m i => ?_
  · -- at `l` the thread goes from holding to releasing, and it stays inside
    by_cases hm : m = l
    · subst hm
      simp [Owns, State.goto, hl]
    · simp [Owns, State.goto, hidle, List.mem_erase_of_ne hm, Ne.symm hm]
  · exact h.flag_kept (t := t) (fun u hut => by simp [State.goto, hut]) rfl (by simp [hidle])
      (by simp [State.goto])

/-- Drawing a ticket is the arrival. -/
theorem inv_fetchAdd (h : Inv s) (hcase : s.pc t = .fetchAdd l)
    (hs : proceed s t (.fetchAdd l) = some s') (hfits : Fits s') : Inv s' := by
  have hl : l ∉ s.held t := by simpa [PcOk, hcase] using h.pcOk t
  obtain rfl := Option.some.inj hs
  set s' : State L T := ({ s with
    tail := Function.update s.tail l (int32 (s.tail l + 1))
    slot := Function.update s.slot t ((s.tail l).tmod maxThreads)
    queue := Function.update s.queue l ((s.queue l).arrive t)
    ticket := Function.update s.ticket t
      (Function.update (s.ticket t) l (s.queue l).arrivals.length)
    drawn := Function.update s.drawn l (s.drawn l ++ [(s.tail l).tmod maxThreads]) } :
      State L T).goto t (.spin l ((s.tail l).tmod maxThreads)) with hs'
  -- the counter has not wrapped past the last ticket that names its slot
  have hlen : (s.queue l).arrivals.length < ticketLimit := by
    have := hfits l
    simp only [hs', State.goto, Function.update_self, Fifo.arrivals_arrive, List.length_append,
      List.length_singleton] at this
    exact this
  have hmy : (s.tail l).tmod maxThreads = slotAt (s.queue l).arrivals.length := by
    rw [h.tail l, tmod_int32 hlen]
  -- the thread is at no other place of this queue
  have hnew : ∀ k, ¬ (s.queue l).At k t := by
    intro k hk
    have := (h.out l t).mpr ⟨k, hk⟩
    simp [HasTicket, Waits, Owns, hcase, hl] at this
  have hat : ∀ m k u, (s'.queue m).At k u ↔
      (s.queue m).At k u ∨ (m = l ∧ k = (s.queue l).arrivals.length ∧ u = t) :=
    fun m k u => Fifo.at_update_arrive (h.bound l)
  have hpcs : ∀ u, u ≠ t → s'.pc u = s.pc u := fun u hut => by simp [hs', State.goto, hut]
  have howns : ∀ m u, Owns s' u m ↔ Owns s u m := by
    intro m u
    by_cases hut : u = t
    · subst hut
      simp [hs', State.goto, Owns, hcase]
    · rw [Owns, Owns, hpcs u hut]
      rfl
  refine
    { pcOk := fun u => ?_
      heldNodup := h.heldNodup
      out := fun m u => ?_
      ticket := fun m k u hk => ?_
      tail := fun m => ?_
      bound := fun m => ?_
      flags := fun m i => ?_
      slot := fun u => ?_
      serves := Fifo.serves_update_arrive h.serves (h.bound l) howns }
  · by_cases hut : u = t
    · subst hut
      simpa [PcOk, hs', State.goto, hmy] using hl
    · exact (h.pcOk u).congr (hpcs u hut) rfl (by simp [hs', State.goto, hut])
        (by simp [hs', State.goto, hut])
  · rw [HasTicket, howns]
    by_cases hut : u = t
    · subst hut
      by_cases hm : m = l
      · subst hm
        exact iff_of_true (Or.inl ⟨(s.tail m).tmod maxThreads, by simp [hs', State.goto]⟩)
          ⟨_, (hat m _ u).mpr (Or.inr ⟨rfl, rfl, rfl⟩)⟩
      · simp only [hat, hm, false_and, or_false, ← h.out m u]
        simp [HasTicket, Waits, hs', State.goto, hcase, Ne.symm hm]
    · simp only [hat, hut, and_false, or_false, ← h.out m u]
      simp only [HasTicket, Waits, hpcs u hut]
  · -- an old place, or the new one at the end
    rcases (hat m k u).mp hk with hold | ⟨rfl, rfl, rfl⟩
    · rw [← h.ticket m k u hold]
      by_cases hut : u = t
      · subst hut
        have hm : m ≠ l := fun hm => hnew k (hm ▸ hold)
        simp [hs', State.goto, hm]
      · simp [hs', State.goto, hut]
    · simp [hs', State.goto]
  · by_cases hm : m = l
    · subst hm
      show Function.update s.tail m (int32 (s.tail m + 1)) m = int32
        (Function.update s.queue m ((s.queue m).arrive t) m).arrivals.length
      rw [Function.update_self, Function.update_self, Fifo.arrivals_arrive, List.length_append,
        List.length_singleton, h.tail m]
      exact wrap_add 32 _ _
    · simpa [hs', State.goto, hm] using h.tail m
  · by_cases hm : m = l
    · subst hm
      simpa [hs', State.goto] using Nat.le_succ_of_le (h.bound m)
    · simpa [hs', State.goto, hm] using h.bound m
  · have hdep : (s'.queue m).departed = (s.queue m).departed := Fifo.departed_update_arrive
    rw [hdep]
    exact h.flag_kept hpcs rfl (by simp [hcase]) (by simp [hs', State.goto])
  · by_cases hut : u = t
    · subst hut
      exact ⟨_, by simpa [hs', State.goto] using hmy⟩
    · simpa [hs', State.goto, hut] using h.slot u

/-- The first store of `Release`. -/
theorem inv_clearFlag (h : Inv s) (hcase : s.pc t = .clearFlag l) :
    Inv ((s.setFlag l (s.slot t) false).goto t (.wakeNext l)) := by
  have hok : l ∉ s.held t ∧ s.slot t = slotAt (s.ticket t l) := by
    simpa [PcOk, hcase] using h.pcOk t
  have hown : Owns s t l := Or.inr (Or.inl hcase)
  have hdep := h.owner_ticket hown
  refine h.quiet (t := t) rfl rfl rfl rfl (fun u hut => by simp [State.goto, State.setFlag, hut])
    (by simpa [PcOk, State.goto, State.setFlag] using hok) (h.heldNodup t)
    (fun m => by simp [Waits, State.goto, State.setFlag, hcase])
    (fun m => by simp [Owns, State.goto, State.setFlag, hcase]) fun m i => ?_
  by_cases hm : m = l
  · subst hm
    -- the flag of the first is the only one
    have hclear : ((s.setFlag m (s.slot t) false).goto t (.wakeNext m)).flags m i = false := by
      by_cases hi : i = s.slot t
      · simp [State.goto, State.setFlag, hi]
      · have hflag := h.flags m i
        rw [← hdep, ← hok.2] at hflag
        simpa [State.goto, State.setFlag, hi] using hflag
    rw [hclear]
    exact iff_of_false (by simp) fun hall => hall.2 t (by simp [State.goto, State.setFlag])
  · -- the flags of the other locks are as they were
    have hsame : ((s.setFlag l (s.slot t) false).goto t (.wakeNext l)).flags m i = s.flags m i := by
      simp [State.goto, State.setFlag, hm]
    exact h.flag_kept (t := t) (fun u hut => by simp [State.goto, State.setFlag, hut]) hsame
      (by simp [hcase]) (by simp [State.goto, Ne.symm hm])

/-- The second store of `Release` is the departure. -/
theorem inv_wakeNext (h : Inv s) (hcase : s.pc t = .wakeNext l)
    (hs' : s' = { s.setFlag l ((s.slot t + 1).tmod maxThreads) true with
      queue := Function.update s.queue l (s.queue l).depart }.goto t .idle) : Inv s' := by
  have hok : l ∉ s.held t ∧ s.slot t = slotAt (s.ticket t l) := by
    simpa [PcOk, hcase] using h.pcOk t
  have hown : Owns s t l := Or.inr (Or.inr hcase)
  have hfront := (h.serves l).front t hown
  have hpcs : ∀ u, u ≠ t → s'.pc u = s.pc u := by
    intro u hut
    simp [hs', State.goto, State.setFlag, hut]
  have hheld : s'.held = s.held := by rw [hs']; rfl
  have hpct : s'.pc t = .idle := by simp [hs', State.goto]
  have hqueue : s'.queue = Function.update s.queue l (s.queue l).depart := by rw [hs']; rfl
  have hothers : ∀ m u, u ≠ t ∨ m ≠ l → (Owns s' u m ↔ Owns s u m) := by
    intro m u hne
    by_cases hut : u = t
    · subst hut
      have hm : m ≠ l := hne.resolve_left fun h => h rfl
      simp [Owns, hpct, hheld, hcase, Ne.symm hm]
    · rw [Owns, Owns, hpcs u hut, hheld]
  -- this departure takes `t` out of this queue and nobody else
  have hout : ¬ Owns s' t l := by simp [Owns, hpct, hheld, hok.1]
  have hat : ∀ m j u, (s'.queue m).At j u ↔ (s.queue m).At j u ∧ (u ≠ t ∨ m ≠ l) := by
    intro m j u
    rw [hqueue]
    exact Fifo.at_update_depart_iff_ne hfront fun j hj => h.once hj hfront
  refine
    { pcOk := fun u => ?_
      heldNodup := by rw [hheld]; exact h.heldNodup
      out := fun m u => ?_
      ticket := fun m k u hk => ?_
      tail := fun m => ?_
      bound := ?_
      flags := fun m i => ?_
      slot := by rw [hs']; exact h.slot
      serves := ?_ }
  · by_cases hut : u = t
    · rw [hut]
      simp [PcOk, hpct]
    · exact (h.pcOk u).congr (hpcs u hut) (by rw [hheld]) (by rw [hs']; rfl) (by rw [hs']; rfl)
  · simp only [hat]
    by_cases hum : u ≠ t ∨ m ≠ l
    · simp only [hum, and_true, ← h.out m u, HasTicket, hothers m u hum]
      by_cases hut : u = t
      · subst hut
        simp [Waits, hpct, hcase]
      · simp only [Waits, hpcs u hut]
    · simp only [hum, and_false, exists_const, iff_false]
      have hut : u = t := by
        by_contra hut
        exact hum (Or.inl hut)
      have hm : m = l := by
        by_contra hm
        exact hum (Or.inr hm)
      subst hut hm
      simp [HasTicket, Waits, hpct, hout]
  · rw [hs']
    exact h.ticket m k u ((hat m k u).mp hk).1
  · have htail : s'.tail m = s.tail m := by rw [hs']; rfl
    rw [htail, hqueue, Fifo.arrivals_update_depart]
    exact h.tail m
  · rw [hqueue]
    exact Fifo.departed_update_depart_le hfront h.bound
  · by_cases hm : m = l
    · subst hm
      -- every flag was false, and now the next one is true
      have hwas : s.flags m i = false := by
        rw [← Bool.not_eq_true, h.flags m i]
        exact fun hall => hall.2 t hcase
      have hnow : s'.flags m i = true ↔ i = slotAt ((s.queue m).departed + 1) := by
        rw [← h.owner_ticket hown, ← slotAt_succ, ← hok.2, hs']
        by_cases hi : i = (s.slot t + 1).tmod maxThreads
        · simp [State.goto, State.setFlag, hi]
        · simpa [State.goto, State.setFlag, hi] using hwas
      have hdep : (s'.queue m).departed = (s.queue m).departed + 1 := by simp [hqueue]
      rw [hnow, hdep]
      refine (and_iff_left fun u hu => ?_).symm
      have hu' : Owns s' u m := Or.inr (Or.inr hu)
      by_cases hut : u = t
      · exact hout (hut ▸ hu')
      · exact hut ((h.serves m).exclusive ((hothers m u (Or.inl hut)).mp hu') hown)
    · have hsame : s'.flags m i = s.flags m i := by simp [hs', State.goto, State.setFlag, hm]
      have hq : s'.queue m = s.queue m := by simp [hqueue, hm]
      rw [hq]
      exact h.flag_kept hpcs hsame (by simp [hcase, Ne.symm hm]) (by simp [hpct])
  · rw [hqueue]
    exact Fifo.serves_update_depart h.serves hown hout hothers

theorem access_of_slotAt (hi : i = slotAt k) (s' : State L T) : s.access t i s' = s' := by
  subst hi
  exact if_pos (slotAt_range k)

/-- Nobody accesses `flags` out of its bounds. -/
theorem Inv.proceed_eq (h : Inv s) :
    proceed s t (s.pc t) = match s.pc t with
      | .idle | .outOfBounds => none
      | .fetchAdd l => proceed s t (.fetchAdd l)
      | .spin l i => some (if s.flags l i then s.enter t l else s)
      | .clearFlag l => some ((s.setFlag l (s.slot t) false).goto t (.wakeNext l))
      | .wakeNext l => some ({ s.setFlag l ((s.slot t + 1).tmod maxThreads) true with
          queue := Function.update s.queue l (s.queue l).depart }.goto t .idle) := by
  have hok := h.pcOk t
  unfold PcOk at hok
  cases hcase : s.pc t <;> rw [hcase] at hok <;> simp only at hok ⊢
  case spin l i => rw [proceed, access_of_slotAt hok.2]
  case clearFlag l => rw [proceed, access_of_slotAt hok.2]
  case wakeNext l =>
    -- `(slot + 1) % 256` is a slot again
    have hnext : (s.slot t + 1).tmod maxThreads = slotAt (s.ticket t l + 1) := by
      rw [hok.2, slotAt_succ]
    simp only [proceed]
    rw [access_of_slotAt hnext]
  all_goals rfl

section Bounded

variable [Finite T]

/-- The waiter whose flag is true is the first. -/
theorem Inv.front_of_flag (hcard : Nat.card T ≤ 256) (h : Inv s) (hcase : s.pc t = .spin l i)
    (hflag : s.flags l i = true) : (s.queue l).At (s.queue l).departed t := by
  have hok : l ∉ s.held t ∧ i = slotAt (s.ticket t l) := by simpa [PcOk, hcase] using h.pcOk t
  have hat := h.at_ticket (l := l) (t := t) (Or.inl ⟨i, hcase⟩)
  have hlo := hat.2
  have hhi := hat.lt_add_card fun j k u hj hk => h.once hj hk
  have hslot := ((h.flags l i).mp hflag).1
  rw [hok.2] at hslot
  have heq := slotAt_inj (by omega) (by omega) hslot
  rw [heq] at hat
  exact hat

theorem inv_enter (hcard : Nat.card T ≤ 256) (h : Inv s) (hcase : s.pc t = .spin l i)
    (hflag : s.flags l i = true) : Inv (s.enter t l) := by
  have hfront := h.front_of_flag hcard hcase hflag
  have hl : l ∉ s.held t := by
    have hok : l ∉ s.held t ∧ i = slotAt (s.ticket t l) := by simpa [PcOk, hcase] using h.pcOk t
    exact hok.1
  have hpcs : ∀ u, u ≠ t → (s.enter t l).pc u = s.pc u ∧ (s.enter t l).held u = s.held u :=
    fun u hut => by simp [State.enter, hut]
  have hpct : (s.enter t l).pc t = .idle := by simp [State.enter]
  have hheld : (s.enter t l).held t = l :: s.held t := by simp [State.enter]
  have hout : ¬ Owns s t l := by simp [Owns, hcase, hl]
  -- `t` is inside now, and for all others nothing changes
  have hin : Owns (s.enter t l) t l := by simp [Owns, hheld]
  have hothers : ∀ m u, u ≠ t ∨ m ≠ l → (Owns (s.enter t l) u m ↔ Owns s u m) := by
    intro m u hne
    by_cases hut : u = t
    · subst hut
      have hm : m ≠ l := hne.resolve_left fun h => h rfl
      simp [Owns, hpct, hheld, hcase, hm]
    · rw [Owns, Owns, (hpcs u hut).1, (hpcs u hut).2]
  have hat : ∀ m j u, ((s.enter t l).queue m).At j u ↔ (s.queue m).At j u :=
    fun m j u => Fifo.at_update_enter
  have hdep : ∀ m, ((s.enter t l).queue m).departed = (s.queue m).departed :=
    fun m => Fifo.departed_update_enter
  have harr : ∀ m, ((s.enter t l).queue m).arrivals = (s.queue m).arrivals :=
    fun m => Fifo.arrivals_update_enter
  refine
    { pcOk := fun u => ?_
      heldNodup := fun u => ?_
      out := fun m u => ?_
      ticket := fun m k u hk => h.ticket m k u ((hat m k u).mp hk)
      tail := fun m => by rw [harr]; exact h.tail m
      bound := fun m => by rw [hdep, harr]; exact h.bound m
      flags := fun m i => ?_
      slot := h.slot
      serves := Fifo.serves_update_enter h.serves hfront hout hin hothers }
  · by_cases hut : u = t
    · rw [hut]
      simp [PcOk, hpct]
    · exact (h.pcOk u).congr (hpcs u hut).1 (hpcs u hut).2 rfl rfl
  · by_cases hut : u = t
    · rw [hut, hheld]
      exact List.nodup_cons.mpr ⟨hl, h.heldNodup t⟩
    · rw [(hpcs u hut).2]
      exact h.heldNodup u
  · simp only [hat, ← h.out m u]
    by_cases hut : u = t
    · subst hut
      by_cases hm : m = l
      · subst hm
        exact iff_of_true (Or.inr hin) (Or.inl ⟨i, hcase⟩)
      · simp [HasTicket, Waits, hpct, hcase, hothers m u (Or.inr hm), Ne.symm hm]
    · simp only [HasTicket, Waits, (hpcs u hut).1, hothers m u (Or.inl hut)]
  · rw [hdep]
    exact h.flag_kept (fun u hut => (hpcs u hut).1) rfl (by simp [hcase]) (by simp [hpct])

/-! ## All runs -/

theorem inv_proceed (hcard : Nat.card T ≤ 256) (h : Inv s) (hfits : Fits s')
    (hs : proceed s t (s.pc t) = some s') : Inv s' := by
  rw [h.proceed_eq] at hs
  cases hcase : s.pc t <;> rw [hcase] at hs <;> simp only at hs
  case fetchAdd l => exact inv_fetchAdd h hcase hs hfits
  case spin l i =>
    obtain rfl := Option.some.inj hs
    split
    · rename_i hflag
      exact inv_enter hcard h hcase hflag
    · exact h
  case clearFlag l =>
    obtain rfl := Option.some.inj hs
    exact inv_clearFlag h hcase
  case wakeNext l => exact inv_wakeNext h hcase (Option.some.inj hs).symm
  all_goals cases hs

theorem inv_step (hcard : Nat.card T ≤ 256) {a : Action L T} (h : Inv s) (hkept : Kept s')
    (hfits : Fits s') (hs : step notHeld s a = some s') : Inv s' := by
  cases a with
  | acquire t l =>
    obtain ⟨hc, hs⟩ := Option.ite_none_right_eq_some.mp hs
    obtain rfl := Option.some.inj hs
    exact inv_acquire h hc.1 (notHeld_iff.mp hc.2)
  | release t l =>
    obtain ⟨hc, hs⟩ := Option.ite_none_right_eq_some.mp hs
    obtain rfl := Option.some.inj hs
    exact inv_release h hc.1 hc.2 (hkept t l (by simp [State.goto]))
  | advance t => exact inv_proceed hcard h hfits hs

/-- The runs whose releases find the slot that their acquisitions drew. -/
theorem reachable_inv (hcard : Nat.card T ≤ 256)
    (h : ReachableWithin (step notHeld) (fun s => Kept s ∧ Fits s) (init : State L T) s) : Inv s :=
  h.invariant (fun _ => inv_init) fun _ _ _ hI _ hP hs => inv_step hcard hI hP.1 hP.2 hs

end Bounded

/-! ## What the invariant gives in one state -/

/-- When nobody is inside, a waiter may enter. -/
theorem Inv.shown (h : Inv s) (hw : Waits s t l) (hfree : ∀ t, ¬ Owns s t l) :
    ∃ t i, s.pc t = .spin l i ∧ s.flags l i = true := by
  have hat := h.at_ticket (Or.inl hw)
  have hlt := hat.lt
  have hlo := hat.2
  -- the first has a ticket and is not inside, so it waits, and nobody blocks its flag
  obtain ⟨f, hf⟩ := Fifo.at_of_lt (q := s.queue l) (Nat.le_refl _) (by omega)
  obtain ⟨i, hcase⟩ := ((h.out l f).mpr ⟨_, hf⟩).resolve_right (hfree f)
  have hpc := h.pcOk f
  simp only [PcOk, hcase] at hpc
  refine ⟨f, i, hcase, (h.flags l i).mpr ⟨?_, fun u hu => hfree u (Or.inr (Or.inr hu))⟩⟩
  rw [hpc.2, h.ticket l _ f hf]

/-- `Release` as a whole, while the other threads stand still. -/
theorem Inv.release_steps (mayAcquire : List L → L → Bool) (h : Inv s) (hidle : s.pc t = .idle)
    (hl : l ∈ s.held t) : ∃ s₁ s₂ s₃, step mayAcquire s (.release t l) = some s₁ ∧
      step mayAcquire s₁ (.advance t) = some s₂ ∧ step mayAcquire s₂ (.advance t) = some s₃ ∧
      (s₁.queue = s.queue ∧ s₂.queue = s.queue ∧
        s₃.queue = Function.update s.queue l (s.queue l).depart ∧ s₃.pc t = .idle ∧
        s₃.held t = (s.held t).erase l) ∧
      ∀ i, s₃.flags l i = if i = (s.slot t + 1).tmod maxThreads then true
        else if i = s.slot t then false else s.flags l i := by
  obtain ⟨k, hk⟩ := h.slot t
  have hnext : (s.slot t + 1).tmod maxThreads = slotAt (k + 1) := by rw [hk, slotAt_succ]
  -- the three states of the call: begun, flag cleared, next flag set
  let s₁ := ({ s with held := Function.update s.held t ((s.held t).erase l) } : State L T).goto t
    (.clearFlag l)
  let s₂ := (s₁.setFlag l (s.slot t) false).goto t (.wakeNext l)
  let s₃ := ({ s₂.setFlag l ((s.slot t + 1).tmod maxThreads) true with
    queue := Function.update s.queue l (s.queue l).depart } : State L T).goto t .idle
  -- both indices are slots, so no access is out of bounds
  have h₂ : step mayAcquire s₁ (.advance t) = some s₂ := by
    have hpc : s₁.pc t = .clearFlag l := by simp [s₁, State.goto]
    show proceed s₁ t (s₁.pc t) = some s₂
    rw [hpc, proceed, access_of_slotAt (show s₁.slot t = slotAt k from hk)]
    rfl
  have h₃ : step mayAcquire s₂ (.advance t) = some s₃ := by
    have hpc : s₂.pc t = .wakeNext l := by simp [s₂, State.goto]
    show proceed s₂ t (s₂.pc t) = some s₃
    rw [hpc]
    simp only [proceed]
    rw [access_of_slotAt (show (s₂.slot t + 1).tmod maxThreads = slotAt (k + 1) from hnext)]
    rfl
  refine ⟨s₁, s₂, s₃, if_pos ⟨hidle, hl⟩, h₂, h₃, ⟨rfl, rfl, rfl, ?_, ?_⟩, fun i => ?_⟩
  · simp [s₃, State.goto]
  · simp [s₃, s₂, s₁, State.goto, State.setFlag]
  · simp only [s₃, s₂, s₁, State.goto, State.setFlag, Function.update_self, Function.update_apply]

/-! ## One lock at a time -/

theorem proceed_others {pc : Pc L} (hs : proceed s t pc = some s') (hut : u ≠ t) :
    s'.pc u = s.pc u ∧ s'.held u = s.held u ∧ s'.slot u = s.slot u ∧ s'.ticket u = s.ticket u := by
  -- an access within bounds does what it does, and one outside moves `t` only
  have haccess : ∀ i (s₁ : State L T), s.access t i s₁ = s' →
      (s₁.pc u = s.pc u ∧ s₁.held u = s.held u ∧ s₁.slot u = s.slot u ∧
        s₁.ticket u = s.ticket u) →
      s'.pc u = s.pc u ∧ s'.held u = s.held u ∧ s'.slot u = s.slot u ∧
        s'.ticket u = s.ticket u := by
    rintro i s₁ rfl hsame
    unfold State.access
    split
    · exact hsame
    · simp [State.goto, hut]
  cases pc with
  | idle | outOfBounds => cases hs
  | fetchAdd l =>
    obtain rfl := Option.some.inj hs
    simp [State.goto, hut]
  | spin l i =>
    refine haccess i _ (Option.some.inj hs) ?_
    split
    · simp [State.enter, hut]
    · exact ⟨rfl, rfl, rfl, rfl⟩
  | clearFlag l =>
    exact haccess _ _ (Option.some.inj hs) (by simp [State.goto, State.setFlag, hut])
  | wakeNext l =>
    exact haccess _ _ (Option.some.inj hs) (by simp [State.goto, State.setFlag, hut])

theorem step_others {mayAcquire : List L → L → Bool} {a : Action L T}
    (hs : step mayAcquire s a = some s') (hu : u ≠ a.thread) :
    s'.pc u = s.pc u ∧ s'.held u = s.held u ∧ s'.slot u = s.slot u ∧ s'.ticket u = s.ticket u := by
  cases a with
  | acquire t l =>
    obtain ⟨-, hs⟩ := Option.ite_none_right_eq_some.mp hs
    obtain rfl := Option.some.inj hs
    simp [State.goto, show u ≠ t from hu]
  | release t l =>
    obtain ⟨-, hs⟩ := Option.ite_none_right_eq_some.mp hs
    obtain rfl := Option.some.inj hs
    simp [State.goto, show u ≠ t from hu]
  | advance t => exact proceed_others hs hu

/-- A thread that uses one lock at a time has the slot of its last ticket. -/
def SlotOk (s : State L T) (t : T) : Prop :=
  match s.pc t with
  | .idle => s.held t = [] ∨ ∃ l, s.held t = [l] ∧ s.slot t = slotAt (s.ticket t l)
  | .spin _ mySlot => s.held t = [] ∧ s.slot t = mySlot
  | .fetchAdd _ | .clearFlag _ | .wakeNext _ | .outOfBounds => s.held t = []

/-- Between calls it holds at most that one lock. -/
theorem SlotOk.only (hok : SlotOk s t) (hidle : s.pc t = .idle) (hl : l ∈ s.held t) :
    s.held t = [l] ∧ s.slot t = slotAt (s.ticket t l) := by
  simp only [SlotOk, hidle] at hok
  obtain ⟨m, hheld, hslot⟩ := hok.resolve_left fun hnil => by
    rw [hnil] at hl
    exact List.not_mem_nil hl
  rw [hheld, List.mem_singleton] at hl
  subst hl
  exact ⟨hheld, hslot⟩

theorem slotOk_step (h : Inv s) (hok : ∀ t, SlotOk s t) {a : Action L T}
    (hs : step oneAtATime s a = some s') : ∀ t, SlotOk s' t := by
  intro u
  by_cases hu : u = a.thread
  · subst hu
    cases a with
    | acquire t l =>
      obtain ⟨hc, hs⟩ := Option.ite_none_right_eq_some.mp hs
      obtain rfl := Option.some.inj hs
      -- it holds nothing, or it may not acquire
      simpa [SlotOk, State.goto, Action.thread] using oneAtATime_iff.mp hc.2
    | release t l =>
      obtain ⟨hc, hs⟩ := Option.ite_none_right_eq_some.mp hs
      obtain rfl := Option.some.inj hs
      -- the only lock held is the one released
      obtain ⟨hheld, -⟩ := (hok t).only hc.1 hc.2
      simp [SlotOk, State.goto, Action.thread, hheld]
    | advance t =>
      change proceed s t (s.pc t) = some s' at hs
      have hokT := hok t
      have hpc := h.pcOk t
      rw [h.proceed_eq] at hs
      unfold SlotOk at hokT
      unfold PcOk at hpc
      cases hcase : s.pc t <;> rw [hcase] at hs hokT hpc <;> simp only at hs hokT hpc
      case fetchAdd l =>
        obtain rfl := Option.some.inj hs
        simpa [SlotOk, State.goto, Action.thread] using hokT
      case spin l i =>
        obtain rfl := Option.some.inj hs
        split
        · refine (?_ : SlotOk (s.enter t l) t)
          -- the lock it enters is then the only one, with the slot just drawn
          simp [SlotOk, State.enter, hokT.1, hokT.2, hpc.2]
        · simpa [SlotOk, Action.thread, hcase] using hokT
      case clearFlag l =>
        obtain rfl := Option.some.inj hs
        simpa [SlotOk, State.goto, State.setFlag, Action.thread] using hokT
      case wakeNext l =>
        obtain rfl := Option.some.inj hs
        simp [SlotOk, State.goto, State.setFlag, Action.thread, hokT]
      all_goals cases hs
  · obtain ⟨h1, h2, h3, h4⟩ := step_others hs hu
    have hokU := hok u
    unfold SlotOk at hokU ⊢
    rw [h1, h2, h3, h4]
    exact hokU

/-- Threads that use one lock at a time always release it with its own slot. -/
theorem kept_step (h : Inv s) (hok : ∀ t, SlotOk s t) (hkept : Kept s) {a : Action L T}
    (hs : step oneAtATime s a = some s') : Kept s' := by
  intro u m hm
  by_cases hu : u = a.thread
  · subst hu
    cases a with
    | acquire t l =>
      obtain ⟨-, hs⟩ := Option.ite_none_right_eq_some.mp hs
      obtain rfl := Option.some.inj hs
      simp [State.goto, Action.thread] at hm
    | release t l =>
      obtain ⟨hc, hs⟩ := Option.ite_none_right_eq_some.mp hs
      obtain rfl := Option.some.inj hs
      -- the release begins with the slot of the only lock held
      obtain rfl : l = m := by simpa [State.goto, Action.thread] using hm
      exact ((hok t).only hc.1 hc.2).2
    | advance t =>
      -- no access is followed by the first store of `Release`
      change proceed s t (s.pc t) = some s' at hs
      have hpc := h.pcOk t
      rw [h.proceed_eq] at hs
      unfold PcOk at hpc
      cases hcase : s.pc t <;> rw [hcase] at hs hpc <;> simp only at hs hpc
      case fetchAdd l =>
        obtain rfl := Option.some.inj hs
        simp [State.goto, Action.thread] at hm
      case spin l i =>
        obtain rfl := Option.some.inj hs
        split at hm
        · simp [State.enter, Action.thread] at hm
        · simp [Action.thread, hcase] at hm
      case clearFlag l | wakeNext l =>
        obtain rfl := Option.some.inj hs
        simp [State.goto, Action.thread] at hm
      all_goals cases hs
  · obtain ⟨h1, -, h3, h4⟩ := step_others hs hu
    rw [h1] at hm
    rw [h3, h4]
    exact hkept u m hm

theorem step_notHeld {a : Action L T}
    (hs : step oneAtATime s a = some s') : step notHeld s a = some s' := by
  cases a with
  | acquire t l =>
    obtain ⟨hc, hs⟩ := Option.ite_none_right_eq_some.mp hs
    have hfree : notHeld (s.held t) l = true := by
      rw [notHeld_iff, oneAtATime_iff.mp hc.2]
      exact List.not_mem_nil
    simpa [step, hc.1, hfree] using hs
  | release t l => exact hs
  | advance t => exact hs

section Bounded

variable [Finite T]

theorem reachable_one (hcard : Nat.card T ≤ 256)
    (h : ReachableWithin (step oneAtATime) Fits (init : State L T) s) :
    ReachableWithin (step notHeld) (fun s => Kept s ∧ Fits s) (init : State L T) s ∧
      ∀ t, SlotOk s t := by
  induction h with
  | start hfits => exact ⟨.start ⟨fun _ _ h => (by cases h), hfits⟩, fun _ => Or.inl rfl⟩
  | step _ hs hfits ih =>
    obtain ⟨hreach, hok⟩ := ih
    have hI := reachable_inv hcard hreach
    exact ⟨hreach.step (step_notHeld hs) ⟨kept_step hI hok hreach.within.1 hs, hfits⟩,
      slotOk_step hI hok hs⟩

theorem Few.fits (h : Few s) : Fits s := fun l => by
  have := h l
  unfold ticketLimit
  omega

theorem Inv.owner_slot (h : Inv s) (hok : SlotOk s t) (hown : Owns s t l) :
    s.slot t = slotAt (s.ticket t l) := by
  have hpc := h.pcOk t
  rcases hown with hheld | hcase | hcase
  · by_cases hidle : s.pc t = .idle
    · exact (hok.only hidle hheld).2
    · -- inside a call it holds nothing
      have hnil : s.held t = [] := by
        unfold SlotOk at hok
        cases hcase : s.pc t <;> rw [hcase] at hok <;> simp only at hok
        case idle => exact absurd hcase hidle
        case spin => exact hok.1
        all_goals exact hok
      rw [hnil] at hheld
      exact absurd hheld List.not_mem_nil
  · simp only [PcOk, hcase] at hpc
    exact hpc.2
  · simp only [PcOk, hcase] at hpc
    exact hpc.2

/-- Whoever uses a slot uses the one of its ticket. -/
theorem Inv.usesSlot_iff (h : Inv s) (hok : SlotOk s t) :
    UsesSlot s t l i ↔ HasTicket s t l ∧ i = slotAt (s.ticket t l) := by
  constructor
  · rintro (hcase | ⟨hown, rfl⟩)
    · have hpc := h.pcOk t
      simp only [PcOk, hcase] at hpc
      exact ⟨Or.inl ⟨i, hcase⟩, hpc.2⟩
    · exact ⟨Or.inr hown, h.owner_slot hok hown⟩
  · rintro ⟨⟨j, hcase⟩ | hown, rfl⟩
    · have hpc := h.pcOk t
      simp only [PcOk, hcase] at hpc
      exact Or.inl (hpc.2 ▸ hcase)
    · exact Or.inr ⟨hown, h.owner_slot hok hown⟩

/-- `ABQLLock` is a first-come-first-served lock for up to 256 threads that use
one lock at a time: no slot is two threads', one flag is up at most, and none only while
a `Release` is between its two stores. The flag that is up is that of the first in the
queue or, when nobody has a ticket, of the slot that the next one will draw. -/
theorem abql_correct (hcard : Nat.card T ≤ 256)
    (h : ReachableWithin (step oneAtATime) Few (init : State L T) s) :
    (∀ l t u, Owns s t l → Owns s u l → t = u) ∧
    (∀ l, (s.queue l).entries <+: (s.queue l).arrivals) ∧
    (∀ l t u i, UsesSlot s t l i → UsesSlot s u l i → t = u) ∧
    (∀ l i j, s.flags l i = true → s.flags l j = true → i = j) ∧
    (∀ l, (∀ i, 0 ≤ i → i < maxThreads → s.flags l i = false) → ∃ t, s.pc t = .wakeNext l) ∧
    (∀ l i, s.flags l i = true →
      (∃ t, (s.queue l).At (s.queue l).departed t ∧ UsesSlot s t l i) ∨
      ((∀ t, ¬ HasTicket s t l) ∧ i = (s.tail l).tmod maxThreads)) := by
  obtain ⟨hreach, hok⟩ := reachable_one hcard (h.mono fun _ => Few.fits)
  have hI := reachable_inv hcard hreach
  refine ⟨fun l t u ht hu => (hI.serves l).exclusive ht hu, fun l => (hI.serves l).fair.inOrder,
    fun l t u i ht hu => ?_, fun l i j hi hj => ?_, fun l hall => ?_, fun l i hi => ?_⟩
  · obtain ⟨ht, hi⟩ := (hI.usesSlot_iff (hok t)).mp ht
    obtain ⟨hu, hj⟩ := (hI.usesSlot_iff (hok u)).mp hu
    have hatT := hI.at_ticket ht
    have hatU := hI.at_ticket hu
    have hlt := hatT.lt_add_card fun j k u hj hk => hI.once hj hk
    have hlu := hatU.lt_add_card fun j k u hj hk => hI.once hj hk
    have hloT := hatT.2
    have hloU := hatU.2
    -- the tickets that are out are less than a lap apart
    have heq := slotAt_inj (by omega) (by omega) (hi.symm.trans hj)
    exact (heq ▸ hatT).unique hatU
  · rw [((hI.flags l i).mp hi).1, ((hI.flags l j).mp hj).1]
  · by_contra hnone
    obtain ⟨hlo, hhi⟩ := slotAt_range (s.queue l).departed
    have htrue := (hI.flags l _).mpr ⟨rfl, fun t ht => hnone ⟨t, ht⟩⟩
    rw [hall _ hlo hhi] at htrue
    cases htrue
  · obtain ⟨rfl, -⟩ := (hI.flags l i).mp hi
    have hbound := hI.bound l
    by_cases hempty : (s.queue l).departed = (s.queue l).arrivals.length
    · refine Or.inr ⟨fun t ht => ?_, ?_⟩
      · have hlt := (hI.at_ticket ht).lt
        have hlo := (hI.at_ticket ht).2
        omega
      · rw [hI.tail l, tmod_int32 (Nat.lt_succ_of_lt (h.within l)), hempty]
    · obtain ⟨f, hf⟩ := Fifo.at_of_lt (q := s.queue l) (Nat.le_refl _) (by omega)
      refine Or.inl ⟨f, hf, (hI.usesSlot_iff (hok f)).mpr ⟨(hI.out l f).mpr ⟨_, hf⟩, ?_⟩⟩
      rw [hI.ticket l _ f hf]

/-- Two threads meet at the lock, and the first lets the second in. -/
def handOver : List (Action Unit Bool) :=
  [.acquire false (), .advance false, .advance false, .acquire true (), .advance true,
    .advance true, .release false (), .advance false, .advance false, .advance true]

theorem abql_correct_handOver :
    ∃ s : State Unit Bool, perform (step oneAtATime) Few init handOver = some s ∧
      (s.queue ()).entries <+: (s.queue ()).arrivals := by
  obtain ⟨s, hs⟩ := Option.isSome_iff_exists.mp
    (show (perform (step oneAtATime) Few (init : State Unit Bool) handOver).isSome = true by decide)
  have hreach := (ReachableWithin.start (by decide)).of_perform hs
  exact ⟨s, hs, (abql_correct (by simp) hreach).2.1 ()⟩

end Bounded

end LockShield.Abql
