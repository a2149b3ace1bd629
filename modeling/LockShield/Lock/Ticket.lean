import LockShield.Lib.Lts
import LockShield.Lib.Fifo
import LockShield.Lib.MachineInt

/-!
# `TicketLock`

Two counters: `Acquire` draws a ticket from one and waits until the other shows
it, `Release` advances the other. Both are 32 bits wide and wrap.

The arrival numbers of `Fifo` are the tickets without the wrap. As no thread has
two tickets, those that are out span less than `2^32` numbers as long as there
are at most `2^32` threads, and there an `int` tells them apart.

## Results

* `inv_drawTicket`, `inv_enter`, `inv_serveNext` — the three accesses keep the invariant.
* `Inv.front_of_shown` — a thread that sees its ticket shown is the first of the queue.
* `ticket_correct`     — the lock is first come, first served, past any number of wraps.
-/

set_option linter.unusedSectionVars false

namespace LockShield.Ticket

open Lib

/-- The next access of a thread. Between calls it is `idle`. -/
inductive Pc where
  | idle
  /-- `my_ticket = next_ticket.fetch_add(1)` -/
  | drawTicket
  /-- `while (now_serving.load() != my_ticket)` -/
  | spin
  /-- `now_serving.fetch_add(1)` -/
  | serveNext
  deriving DecidableEq

variable (T : Type)

structure State where
  nextTicket : Int
  nowServing : Int
  /-- the local variable of `Acquire`, kept after the call as history -/
  myTicket : T → Int
  pc : T → Pc
  /-- the thread is between its `Acquire` and its `Release` -/
  holding : T → Bool
  /-- history: the arrivals at the lock -/
  queue : Fifo T

variable {T}

/-- What a thread does: it begins a call, or makes the next access of the one it is in. -/
inductive Action (T : Type) where
  | acquire (t : T)
  | release (t : T)
  | advance (t : T)

variable [DecidableEq T]

/-- The first ticket is the one that is shown. -/
def init : State T where
  nextTicket := 0
  nowServing := 0
  myTicket _ := 0
  pc _ := .idle
  holding _ := false
  queue := .empty

/-- Thread `t`'s next access is `pc`. -/
def State.goto (s : State T) (t : T) (pc : Pc) : State T :=
  { s with pc := Function.update s.pc t pc }

/-- The next access of a call, and what follows it. -/
def proceed (s : State T) (t : T) : Pc → Option (State T)
  | .idle => none
  | .drawTicket =>
    some ({ s with
      myTicket := Function.update s.myTicket t s.nextTicket
      -- `fetch_add` of an atomic `int` wraps
      nextTicket := int32 (s.nextTicket + 1)
      queue := s.queue.arrive t }.goto t .spin)
  | .spin =>
    if s.nowServing ≠ s.myTicket t then some s
    else some ({ s with
      holding := Function.update s.holding t true
      queue := s.queue.enter t }.goto t .idle)
  | .serveNext =>
    some ({ s with
      nowServing := int32 (s.nowServing + 1)
      queue := s.queue.depart }.goto t .idle)

/-- One step of one thread. Every thread acquires and releases in turn. -/
def step (s : State T) : Action T → Option (State T)
  | .acquire t =>
    if s.pc t = .idle ∧ s.holding t = false then some (s.goto t .drawTicket) else none
  | .release t =>
    if s.pc t = .idle ∧ s.holding t = true then
      some ({ s with holding := Function.update s.holding t false }.goto t .serveNext)
    else none
  | .advance t => proceed s t (s.pc t)

/-- The thread has been let in and has not passed the lock on. -/
def Owns (s : State T) (t : T) : Prop := s.holding t = true ∨ s.pc t = .serveNext

/-- The thread has a ticket: it waits with it or was let in with it. -/
def HasTicket (s : State T) (t : T) : Prop := s.pc t = .spin ∨ Owns s t

/-- The counters are the numbers of arrivals and departures, as an `int` shows them, and a
thread is in the queue exactly while it has a ticket. -/
structure Inv (s : State T) : Prop where
  /-- who has returned from `Acquire` is in no call -/
  busy : ∀ t, s.holding t = true → s.pc t = .idle
  /-- a ticket is an arrival that is not over -/
  out : ∀ t, HasTicket s t ↔ ∃ k, s.queue.At k t
  once : ∀ j k t, s.queue.At j t → s.queue.At k t → j = k
  ticket : ∀ k t, s.queue.At k t → s.myTicket t = int32 k
  next : s.nextTicket = int32 s.queue.arrivals.length
  serving : s.nowServing = int32 s.queue.departed
  bound : s.queue.departed ≤ s.queue.arrivals.length
  serves : s.queue.Serves (Owns s)

variable {s s' : State T} {t u : T}

/-- No ticket is out at the start. -/
theorem inv_init : Inv (init : State T) := by
  have hnone : ∀ t, ¬ Owns (init : State T) t := fun t h => by simp [Owns, init] at h
  exact
    { busy := fun _ h => by cases h
      out := fun t => iff_of_false (fun h => h.elim (fun h => by cases h) (hnone t))
        fun ⟨_, h⟩ => Fifo.not_at_empty h
      once := fun _ _ _ h => absurd h Fifo.not_at_empty
      ticket := fun _ _ h => absurd h Fifo.not_at_empty
      next := (int32_of_range (x := 0) (by omega) (by omega)).symm
      serving := (int32_of_range (x := 0) (by omega) (by omega)).symm
      bound := Nat.le_refl 0
      serves := Fifo.serves_empty hnone }

/-! ## The steps -/

/-- Who is in a call does not hold the lock. -/
theorem Inv.not_holding (h : Inv s) (hbusy : s.pc t ≠ .idle) : s.holding t = false := by
  cases hh : s.holding t with
  | false => rfl
  | true => exact absurd (h.busy t hh) hbusy

/-- A step between the accesses: only the position of one thread changes, and it
keeps its ticket. -/
theorem Inv.quiet (h : Inv s) (hqueue : s'.queue = s.queue) (htick : s'.myTicket = s.myTicket)
    (hnext : s'.nextTicket = s.nextTicket) (hserving : s'.nowServing = s.nowServing)
    (hbusy : ∀ u, s'.holding u = true → s'.pc u = .idle)
    (hspin : ∀ u, s'.pc u = .spin ↔ s.pc u = .spin) (howns : ∀ u, Owns s' u ↔ Owns s u) :
    Inv s' := by
  refine
    { busy := hbusy
      out := fun u => ?_
      once := by rw [hqueue]; exact h.once
      ticket := by rw [hqueue, htick]; exact h.ticket
      next := by rw [hqueue, hnext]; exact h.next
      serving := by rw [hqueue, hserving]; exact h.serving
      bound := by rw [hqueue]; exact h.bound
      serves := by rw [hqueue]; exact h.serves.congr howns }
  -- a ticket is held by who spins or is inside, and neither changes
  rw [hqueue, ← h.out u, HasTicket, HasTicket, hspin, howns]

/-- `Acquire` begins. -/
theorem inv_acquire (h : Inv s) (hidle : s.pc t = .idle) (hfree : s.holding t = false) :
    Inv (s.goto t .drawTicket) := by
  refine h.quiet rfl rfl rfl rfl (fun u hu => ?_) (fun u => ?_) (fun u => ?_)
  · have hut : u ≠ t := by
      intro hut
      rw [hut] at hu
      exact absurd hu (by simp [State.goto, hfree])
    simpa [State.goto, hut] using h.busy u hu
  · by_cases hut : u = t
    · subst hut
      simp [State.goto, hidle]
    · simp [State.goto, hut]
  · by_cases hut : u = t
    · subst hut
      simp [State.goto, Owns, hidle]
    · simp [State.goto, Owns, hut]

/-- `Release` begins; the thread stays inside. -/
theorem inv_release (h : Inv s) (hidle : s.pc t = .idle) (hheld : s.holding t = true) :
    Inv ({ s with holding := Function.update s.holding t false }.goto t .serveNext) := by
  refine h.quiet rfl rfl rfl rfl (fun u hu => ?_) (fun u => ?_) (fun u => ?_)
  · have hut : u ≠ t := by
      intro hut
      rw [hut] at hu
      exact absurd hu (by simp [State.goto])
    have hu' : s.holding u = true := by simpa [State.goto, hut] using hu
    simpa [State.goto, hut] using h.busy u hu'
  · by_cases hut : u = t
    · subst hut
      simp [State.goto, hidle]
    · simp [State.goto, hut]
  · -- `t` goes from holding to serving and stays inside
    by_cases hut : u = t
    · subst hut
      simp [State.goto, Owns, hheld]
    · simp [State.goto, Owns, hut]

/-- Drawing a ticket is the arrival. -/
theorem inv_drawTicket (h : Inv s) (hcase : s.pc t = .drawTicket)
    (hs : proceed s t .drawTicket = some s') : Inv s' := by
  obtain rfl := Option.some.inj hs
  have hfree := h.not_holding (t := t) (by simp [hcase])
  -- the thread has no other ticket
  have hnew : ∀ k, ¬ s.queue.At k t := by
    intro k hk
    have := (h.out t).mpr ⟨k, hk⟩
    simp [HasTicket, Owns, hcase, hfree] at this
  have hat : ∀ k u, (s.queue.arrive t).At k u ↔
      s.queue.At k u ∨ (k = s.queue.arrivals.length ∧ u = t) := fun k u => Fifo.at_arrive h.bound
  -- drawing a ticket lets nobody in or out
  have howns : ∀ u, Owns ({ s with
      myTicket := Function.update s.myTicket t s.nextTicket
      nextTicket := int32 (s.nextTicket + 1)
      queue := s.queue.arrive t }.goto t .spin) u ↔ Owns s u := fun u => by
    by_cases hut : u = t
    · subst hut
      simp [State.goto, Owns, hcase]
    · simp [State.goto, Owns, hut]
  refine
    { busy := fun u hu => ?_
      out := fun u => ?_
      once := fun j k u hj hk => ?_
      ticket := fun k u hk => ?_
      next := ?_
      serving := h.serving
      bound := by simpa [State.goto] using Nat.le_succ_of_le h.bound
      serves := (h.serves.arrive h.bound).congr howns }
  · have hut : u ≠ t := by
      intro hut
      rw [hut] at hu
      exact absurd hu (by simp [State.goto, hfree])
    simpa [State.goto, hut] using h.busy u hu
  · rw [HasTicket, howns]
    show _ ↔ ∃ k, (s.queue.arrive t).At k u
    by_cases hut : u = t
    · refine iff_of_true (Or.inl (by simp [State.goto, hut])) ⟨_, (hat _ u).mpr (Or.inr ⟨rfl, hut⟩)⟩
    · simp only [hat, hut, and_false, or_false, ← h.out u]
      simp [State.goto, hut, HasTicket]
  · -- both tickets are old, or one is the new one and the other cannot be
    rcases (hat j u).mp hj with hj | ⟨rfl, rfl⟩ <;> rcases (hat k u).mp hk with hk | ⟨rfl, hut⟩
    · exact h.once j k u hj hk
    · exact absurd (hut ▸ hj) (hnew j)
    · exact absurd hk (hnew k)
    · rfl
  · -- an old ticket is untouched, the new one is the counter
    rcases (hat k u).mp hk with hk | ⟨rfl, rfl⟩
    · have hut : u ≠ t := fun hut => hnew k (hut ▸ hk)
      simpa [State.goto, hut] using h.ticket k u hk
    · simpa [State.goto] using h.next
  · show int32 (s.nextTicket + 1) = int32 ((s.queue.arrivals ++ [t]).length : Nat)
    rw [h.next, List.length_append, List.length_singleton]
    exact wrap_add 32 _ _

section Bounded

variable [Finite T]

/-- The waiter whose ticket is shown is the first. -/
theorem Inv.front_of_shown (hcard : Nat.card T ≤ 2 ^ 32) (h : Inv s) {k : Nat}
    (hat : s.queue.At k t) (hshown : s.nowServing = s.myTicket t) : k = s.queue.departed := by
  have hlo := hat.2
  have hhi := hat.lt_add_card h.once
  rw [h.serving, h.ticket k t hat] at hshown
  -- two numbers less than `2^32` apart
  exact (int32_inj (by omega) (by omega) hshown).symm

/-- The thread whose ticket is shown is let in. -/
theorem inv_enter (hcard : Nat.card T ≤ 2 ^ 32) (h : Inv s) (hcase : s.pc t = .spin)
    (hshown : s.nowServing = s.myTicket t) :
    Inv ({ s with
      holding := Function.update s.holding t true
      queue := s.queue.enter t }.goto t .idle) := by
  obtain ⟨k, hat⟩ := (h.out t).mp (Or.inl hcase)
  have hfront := h.front_of_shown hcard hat hshown
  subst hfront
  have hout : ¬ Owns s t := fun h' => by simp [Owns, hcase, h.not_holding] at h'
  -- an owner would be at the front, where `t` still waits
  have hnobody : ∀ u, ¬ Owns s u := by
    intro u hu
    have hut := (h.serves.front u hu).unique hat
    exact hout (hut ▸ hu)
  -- afterwards `t` is the only one inside
  have hin : ∀ u, Owns ({ s with
      holding := Function.update s.holding t true
      queue := s.queue.enter t }.goto t .idle) u ↔ u = t := fun u => by
    by_cases hut : u = t
    · subst hut
      simp [State.goto, Owns]
    · have := hnobody u
      simpa [State.goto, Owns, hut] using this
  refine
    { busy := fun u hu => ?_
      out := fun u => ?_
      once := h.once
      ticket := h.ticket
      next := h.next
      serving := h.serving
      bound := h.bound
      serves := h.serves.enter hat hout hin }
  · by_cases hut : u = t
    · subst hut
      simp [State.goto]
    · have hu' : s.holding u = true := by simpa [State.goto, hut] using hu
      simpa [State.goto, hut] using h.busy u hu'
  · rw [HasTicket, hin]
    show _ ↔ ∃ k, s.queue.At k u
    rw [← h.out u]
    by_cases hut : u = t
    · subst hut
      simp [HasTicket, hcase]
    · simp [HasTicket, State.goto, hut, hnobody u]

end Bounded

/-- The next ticket is shown, and the one inside leaves. -/
theorem inv_serveNext (h : Inv s) (hcase : s.pc t = .serveNext)
    (hs : proceed s t .serveNext = some s') : Inv s' := by
  obtain rfl := Option.some.inj hs
  have hown : Owns s t := Or.inr hcase
  have hfront := h.serves.front t hown
  have hfree := h.not_holding (t := t) (by simp [hcase])
  have hout : ∀ u, ¬ Owns ({ s with
      nowServing := int32 (s.nowServing + 1)
      queue := s.queue.depart }.goto t .idle) u := fun u hu => by
    by_cases hut : u = t
    · subst hut
      simp [State.goto, Owns, hfree] at hu
    · -- another owner would be at the front, where `t` is
      have hu' : Owns s u := by simpa [State.goto, Owns, hut] using hu
      exact hut (h.serves.exclusive hu' hown)
  refine
    { busy := fun u hu => ?_
      out := fun u => ?_
      once := fun j k u hj hk =>
        h.once j k u (Fifo.at_depart.mp hj).1 (Fifo.at_depart.mp hk).1
      ticket := fun k u hk => h.ticket k u (Fifo.at_depart.mp hk).1
      next := h.next
      serving := ?_
      bound := hfront.lt
      serves := h.serves.depart hown hout }
  · by_cases hut : u = t
    · subst hut
      simp [State.goto]
    · simpa [State.goto, hut] using h.busy u hu
  · rw [HasTicket, or_iff_left (hout u)]
    show _ ↔ ∃ k, s.queue.depart.At k u
    by_cases hut : u = t
    · subst hut
      refine iff_of_false (by simp [State.goto]) fun ⟨k, hk⟩ => ?_
      -- the only place of `t` is gone
      obtain ⟨hk, hne⟩ := Fifo.at_depart.mp hk
      exact hne (h.once k _ u hk hfront)
    · have hold := h.out u
      have hnot : ¬ Owns s u := fun hu => hut (h.serves.exclusive hu hown)
      rw [HasTicket, or_iff_left hnot] at hold
      have hpc : ({ s with
          nowServing := int32 (s.nowServing + 1)
          queue := s.queue.depart }.goto t .idle).pc u = s.pc u := by simp [State.goto, hut]
      rw [hpc, hold]
      refine exists_congr fun k => ?_
      rw [Fifo.at_depart, iff_self_and]
      rintro hk rfl
      exact hut (hk.unique hfront)
  · show int32 (s.nowServing + 1) = int32 ((s.queue.departed + 1 : Nat) : Int)
    rw [h.serving]
    exact wrap_add 32 _ _

/-! ## All runs -/

section Bounded

variable [Finite T]

/-- Every step keeps the invariant, while the tickets that are out can be told apart. -/
theorem inv_step (hcard : Nat.card T ≤ 2 ^ 32) {a : Action T} (h : Inv s)
    (hs : step s a = some s') : Inv s' := by
  cases a with
  | acquire t =>
    obtain ⟨hc, hs⟩ := Option.ite_none_right_eq_some.mp hs
    obtain rfl := Option.some.inj hs
    exact inv_acquire h hc.1 hc.2
  | release t =>
    obtain ⟨hc, hs⟩ := Option.ite_none_right_eq_some.mp hs
    obtain rfl := Option.some.inj hs
    exact inv_release h hc.1 hc.2
  | advance t =>
    change proceed s t (s.pc t) = some s' at hs
    cases hcase : s.pc t <;> rw [hcase] at hs
    case idle => cases hs
    case drawTicket => exact inv_drawTicket h hcase hs
    case spin =>
      simp only [proceed] at hs
      split at hs
      · obtain rfl := Option.some.inj hs
        exact h
      · -- the loop ends at the thread's own ticket
        rename_i hshown
        obtain rfl := Option.some.inj hs
        exact inv_enter hcard h hcase (not_not.mp hshown)
    case serveNext => exact inv_serveNext h hcase hs

/-- So it holds in every run. -/
theorem reachable_inv (hcard : Nat.card T ≤ 2 ^ 32) (h : Reachable step (init : State T) s) :
    Inv s :=
  h.invariant (fun _ => inv_init) fun _ _ _ hI _ _ hs => inv_step hcard hI hs

/-- `TicketLock` is a first-come-first-served lock for up to `2^32` threads,
however often its counters wrap: no two tickets that are out look the same, while nobody
is inside the ticket that is shown is that of one waiter, and once nobody has a ticket the
next one to be drawn is the one that is shown. -/
theorem ticket_correct (hcard : Nat.card T ≤ 2 ^ 32) (h : Reachable step (init : State T) s) :
    (∀ t u, Owns s t → Owns s u → t = u) ∧
    s.queue.entries <+: s.queue.arrivals ∧
    (∀ t u, HasTicket s t → HasTicket s u → s.myTicket t = s.myTicket u → t = u) ∧
    ((∃ t, s.pc t = .spin) → (∀ t, ¬ Owns s t) →
      ∃! t, s.pc t = .spin ∧ s.myTicket t = s.nowServing) ∧
    ((∀ t, ¬ HasTicket s t) → s.nextTicket = s.nowServing) := by
  have hI := reachable_inv hcard h
  refine ⟨fun t u ht hu => hI.serves.exclusive ht hu, hI.serves.fair.inOrder,
    fun t u ht hu heq => ?_, fun ⟨t, ht⟩ hfree => ?_, fun hfree => ?_⟩
  · -- equal tickets are equal numbers
    obtain ⟨j, hj⟩ := (hI.out t).mp ht
    obtain ⟨k, hk⟩ := (hI.out u).mp hu
    rw [hI.ticket j t hj, hI.ticket k u hk] at heq
    -- both numbers are in the window of those that are out
    have hj1 := hj.2
    have hk1 := hk.2
    have hj2 := hj.lt_add_card hI.once
    have hk2 := hk.lt_add_card hI.once
    obtain rfl := int32_inj (by omega) (by omega) heq
    exact hj.unique hk
  · obtain ⟨k, hk⟩ := (hI.out t).mp (Or.inl ht)
    have hlo := hk.2
    have hlt := hk.lt
    obtain ⟨f, hf⟩ := Fifo.at_of_lt (q := s.queue) (Nat.le_refl _) (by omega)
    -- the first has a ticket and is not inside, so it waits
    have hspin : s.pc f = .spin := ((hI.out f).mpr ⟨_, hf⟩).resolve_right (hfree f)
    refine ⟨f, ⟨hspin, by rw [hI.ticket _ f hf, hI.serving]⟩, fun u ⟨hu, hshown⟩ => ?_⟩
    obtain ⟨j, hj⟩ := (hI.out u).mp (Or.inl hu)
    have hfront := hI.front_of_shown hcard hj hshown.symm
    exact (hfront ▸ hj).unique hf
  · -- counters that differ would leave somebody in between
    have hbound := hI.bound
    rw [hI.next, hI.serving]
    by_contra hne
    have hlt : s.queue.departed ≠ s.queue.arrivals.length := fun heq => hne (by rw [heq])
    obtain ⟨f, hf⟩ := Fifo.at_of_lt (q := s.queue) (Nat.le_refl _) (by omega)
    exact hfree f ((hI.out f).mpr ⟨_, hf⟩)

end Bounded

/-- The second thread draws its ticket while the first is inside, and is let in
by its release. -/
def handOver : List (Action Bool) :=
  [.acquire false, .advance false, .advance false, .acquire true, .advance true, .advance true,
    .release false, .advance false, .advance true]

theorem ticket_correct_handOver :
    ∃ s : State Bool, perform step (fun _ => True) init handOver = some s ∧
      s.queue.entries <+: s.queue.arrivals := by
  obtain ⟨s, hs⟩ := Option.isSome_iff_exists.mp
    (show (perform step (fun _ => True) (init : State Bool) handOver).isSome = true by decide)
  exact ⟨s, hs, (ticket_correct (by simp) ((ReachableWithin.start trivial).of_perform hs)).2.1⟩

end LockShield.Ticket
