import LockShield.Lib.Mutex

/-!
# Programs around a lock

A `Program` says what threads do between the calls of a lock: each takes the lock
over and over, with steps of its own in between, some of them in the critical
section. `Client` runs the threads over a mutex, in any interleaving of their own
steps and of the accesses inside the calls.

Nothing is assumed of the mutex but that it works (`Mutex.Works`) for as many
acquisitions as the program has ahead (`Program.quota`); nothing is assumed of the
scheduler.

## Results

* `Client.client_inv`        — the program uses its lock properly, in every interleaving.
* `Client.Inv.exclusive`     — one thread is in its critical section at a time.
* `Client.program_invariant` — what holds of the program when nothing but the exclusion
  of the critical sections is known about the lock, holds over every mutex that works.
* `Client.can_rest`          — from every state the threads can run on until each of them
  waits for the others or is at its end.
-/

namespace LockShield.Lib

/-- Where a thread is, as its lock sees it. -/
inductive Spot where
  /-- without the lock, and not about to take it -/
  | outside
  /-- before the call that takes the lock -/
  | acquire
  | acquiring
  /-- in the critical section -/
  | inside
  /-- before the call that gives the lock back -/
  | release
  | releasing
  deriving DecidableEq

/-- Where a step of its own may take a thread. -/
def Spot.Leads : Spot → Spot → Prop
  | .outside, b | .releasing, b => b = .outside ∨ b = .acquire
  | .acquiring, b | .inside, b => b = .inside ∨ b = .release
  | .acquire, _ | .release, _ => False

/-- The thread stands before a call. -/
def Spot.Calls (a : Spot) : Prop := a = .acquire ∨ a = .release

/-- The thread has taken the lock and knows it. -/
def Spot.Owns (a : Spot) : Prop := a = .inside ∨ a = .release

/-- What the threads `T` do. -/
structure Program (T : Type) where
  Pc : Type
  Shared : Type
  start : T → Pc
  shared : Shared
  spot : Pc → Spot
  /-- where a thread goes on in the call that it stands before -/
  call : Pc → Pc
  /-- a thread's own step; one that cannot go on waits, or is at its end -/
  own : T → Pc → Shared → Option (Pc × Shared)
  /-- the acquisitions that a thread has ahead -/
  ahead : T → Pc → Nat
  /-- the steps and calls that a thread has ahead -/
  fuel : T → Pc → Nat
  spot_start : ∀ t, (Spot.outside).Leads (spot (start t))
  spot_acquire : ∀ p, spot p = .acquire → spot (call p) = .acquiring
  spot_release : ∀ p, spot p = .release → spot (call p) = .releasing
  spot_own : ∀ t p d p' d', own t p d = some (p', d') → (spot p).Leads (spot p')
  /-- outside the calls, only a thread without the lock waits -/
  goes_on : ∀ t p d, spot p ≠ .outside → ¬ (spot p).Calls → (own t p d).isSome = true
  ahead_acquire : ∀ t p, spot p = .acquire → ahead t (call p) < ahead t p
  ahead_release : ∀ t p, spot p = .release → ahead t (call p) ≤ ahead t p
  ahead_own : ∀ t p d p' d', own t p d = some (p', d') → ahead t p' ≤ ahead t p
  fuel_call : ∀ t p, (spot p).Calls → fuel t (call p) < fuel t p
  fuel_own : ∀ t p d p' d', own t p d = some (p', d') → fuel t p' < fuel t p

variable {L T : Type}

/-- The acquisitions of the whole program. -/
def Program.quota [Fintype T] (prog : Program T) : Nat := ∑ t, prog.ahead t (prog.start t)

/-- The threads of a program, over a mutex. -/
structure Client (X : Mutex L T) (prog : Program T) where
  lock : X.State
  pc : T → prog.Pc
  shared : prog.Shared

inductive ClientAct (X : Mutex L T) where
  /-- an access of the lock -/
  | lock (a : X.Act)
  /-- a thread's own step -/
  | own (t : T)

namespace Client

variable {X : Mutex L T} {prog : Program T}

variable (X prog) in
def init : Client X prog where
  lock := X.init
  pc := prog.start
  shared := prog.shared

variable [DecidableEq T]

/-- Thread `t` has moved on. -/
def moved (s : Client X prog) (t : T) (lock : X.State) (p : prog.Pc) (d : prog.Shared) :
    Client X prog where
  lock
  pc := Function.update s.pc t p
  shared := d

/-- An access of the lock, by a thread whose program goes on at `p`. -/
def onLock (s : Client X prog) (a : X.Act) (t : T) (p : prog.Pc) : Option (Client X prog) :=
  (X.step s.lock a).map fun lock => s.moved t lock p s.shared

/-- The thread is not in a call, or its call has returned. -/
def Returned (s : Client X prog) (t : T) : Prop :=
  prog.spot (s.pc t) = .acquiring ∨ prog.spot (s.pc t) = .releasing → X.phase s.lock t = .out

variable [DecidableEq L]

instance {s : Client X prog} {t : T} : Decidable (s.Returned t) :=
  inferInstanceAs (Decidable (_ → _))

/-- One step of the program around the lock `l`. -/
def step (l : L) (s : Client X prog) : ClientAct X → Option (Client X prog)
  | .lock a =>
    match X.use a with
    | .acquire t k =>
      if prog.spot (s.pc t) = .acquire ∧ k = l then s.onLock a t (prog.call (s.pc t)) else none
    | .release t k =>
      if prog.spot (s.pc t) = .release ∧ k = l then s.onLock a t (prog.call (s.pc t)) else none
    | .advance t =>
      if prog.spot (s.pc t) = .acquiring ∨ prog.spot (s.pc t) = .releasing then
        s.onLock a t (s.pc t)
      else none
  | .own t =>
    if s.Returned t then
      (prog.own t (s.pc t) s.shared).map fun x => s.moved t s.lock x.1 x.2
    else none

/-! ### What a step can do -/

inductive Happens (l : L) (s : Client X prog) : ClientAct X → Client X prog → Prop where
  | acquire {a t lock} : X.use a = .acquire t l → X.step s.lock a = some lock →
      prog.spot (s.pc t) = .acquire →
      Happens l s (.lock a) (s.moved t lock (prog.call (s.pc t)) s.shared)
  | release {a t lock} : X.use a = .release t l → X.step s.lock a = some lock →
      prog.spot (s.pc t) = .release →
      Happens l s (.lock a) (s.moved t lock (prog.call (s.pc t)) s.shared)
  | advance {a t lock} : X.use a = .advance t → X.step s.lock a = some lock →
      prog.spot (s.pc t) = .acquiring ∨ prog.spot (s.pc t) = .releasing →
      Happens l s (.lock a) (s.moved t lock (s.pc t) s.shared)
  | own {t p d} : s.Returned t → prog.own t (s.pc t) s.shared = some (p, d) →
      Happens l s (.own t) (s.moved t s.lock p d)

variable {n : Nat} {l : L} {s s' : Client X prog} {t u : T} {a : ClientAct X}

theorem happens (hs : step l s a = some s') : Happens l s a s' := by
  cases a with
  | own t =>
    simp only [step, Option.ite_none_right_eq_some] at hs
    obtain ⟨hret, hs⟩ := hs
    obtain ⟨⟨p, d⟩, hown, rfl⟩ := Option.map_eq_some_iff.mp hs
    exact .own hret hown
  | lock b =>
    -- an access of the lock that the step function lets through
    have key : ∀ t p, s.onLock b t p = some s' →
        ∃ lock, X.step s.lock b = some lock ∧ s' = s.moved t lock p s.shared := by
      intro t p hon
      obtain ⟨lock, hlock, rfl⟩ := Option.map_eq_some_iff.mp hon
      exact ⟨lock, hlock, rfl⟩
    simp only [step] at hs
    cases huse : X.use b with
    | acquire t k =>
      simp only [huse, Option.ite_none_right_eq_some] at hs
      obtain ⟨⟨hspot, rfl⟩, hs⟩ := hs
      obtain ⟨lock, hlock, rfl⟩ := key _ _ hs
      exact .acquire huse hlock hspot
    | release t k =>
      simp only [huse, Option.ite_none_right_eq_some] at hs
      obtain ⟨⟨hspot, rfl⟩, hs⟩ := hs
      obtain ⟨lock, hlock, rfl⟩ := key _ _ hs
      exact .release huse hlock hspot
    | advance t =>
      simp only [huse, Option.ite_none_right_eq_some] at hs
      obtain ⟨hspot, hs⟩ := hs
      obtain ⟨lock, hlock, rfl⟩ := key _ _ hs
      exact .advance huse hlock hspot

/-! ### The threads use the lock properly -/

/-- What the spot of a thread says about the lock. -/
def SpotOk (l : L) (t : T) (lock : X.State) : Spot → Prop
  | .outside | .acquire => X.phase lock t = .out ∧ ¬ X.held lock t l
  | .acquiring => (X.phase lock t = .acquiring l ∧ ¬ X.held lock t l) ∨
      (X.phase lock t = .out ∧ X.held lock t l)
  | .inside | .release => X.phase lock t = .out ∧ X.held lock t l
  | .releasing => (X.phase lock t = .releasing l ∨ X.phase lock t = .out) ∧ ¬ X.held lock t l

variable [Fintype T]

structure Inv (hX : X.Works n) (l : L) (s : Client X prog) : Prop where
  lock : hX.inv s.lock
  live : X.live s.lock
  spotOk : ∀ t, SpotOk l t s.lock (prog.spot (s.pc t))
  only : ∀ t k, X.held s.lock t k → k = l
  cost : hX.limited.cost s.lock + ∑ t, prog.ahead t (s.pc t) ≤ prog.quota

omit [DecidableEq T] [DecidableEq L] [Fintype T] in
theorem SpotOk.frame {lock lock' : X.State} {a : Spot} (h : SpotOk l t lock a)
    (hphase : X.phase lock' t = X.phase lock t) (hheld : X.held lock' t l ↔ X.held lock t l) :
    SpotOk l t lock' a := by
  cases a with
  | outside | acquire | acquiring | inside | release | releasing =>
    simp only [SpotOk, hphase, hheld] at h ⊢
    exact h

omit [DecidableEq T] [DecidableEq L] [Fintype T] in
/-- A step of its own leaves a thread at a spot of the same side. -/
theorem SpotOk.leads {lock : X.State} {a b : Spot} (h : SpotOk l t lock a) (hab : a.Leads b)
    (hret : a = .acquiring ∨ a = .releasing → X.phase lock t = .out) : SpotOk l t lock b := by
  cases a with
  | outside =>
    rcases hab with rfl | rfl
    · exact h
    · exact h
  -- the call has returned, so the lock is released
  | releasing =>
    have hout : SpotOk (X := X) l t lock .outside := ⟨hret (Or.inr rfl), h.2⟩
    rcases hab with rfl | rfl
    · exact hout
    · exact hout
  -- the call has returned, so the thread holds the lock
  | acquiring =>
    have hin : SpotOk (X := X) l t lock .inside := by
      rcases h with ⟨hphase, -⟩ | hin
      · rw [hret (Or.inl rfl)] at hphase
        cases hphase
      · exact hin
    rcases hab with rfl | rfl
    · exact hin
    · exact hin
  | inside =>
    rcases hab with rfl | rfl
    · exact h
    · exact h
  | acquire | release => exact hab.elim

omit [DecidableEq L] [DecidableEq T] in
theorem inv_init (hX : X.Works n) (hquota : prog.quota < n) : Inv hX l (init X prog) where
  lock := hX.correct.init (Nat.lt_of_le_of_lt (Nat.le_of_eq hX.limited.start) (by omega))
  live := hX.correct.start.1
  spotOk t := by
    have hout := (hX.correct.start.2 t).1
    have hnone := (hX.correct.start.2 t).2 l
    show SpotOk l t X.init (prog.spot (prog.start t))
    rcases prog.spot_start t with h | h
    · rw [h]
      exact ⟨hout, hnone⟩
    · rw [h]
      exact ⟨hout, hnone⟩
  only t k hk := absurd hk ((hX.correct.start.2 t).2 k)
  cost := by
    show hX.limited.cost X.init + prog.quota ≤ prog.quota
    rw [hX.limited.start, Nat.zero_add]

omit [DecidableEq L] in
/-- A step of thread `t` keeps the invariant if its own part holds afterwards. -/
theorem Inv.moved {hX : X.Works n} (h : Inv hX l s) {lock : X.State} {p : prog.Pc}
    {d : prog.Shared} (hlock : hX.inv lock) (hlive : X.live lock)
    (hothers : X.Others t s.lock lock) (hspot : SpotOk l t lock (prog.spot p))
    (honly : ∀ k, X.held lock t k → k = l)
    (hcost : hX.limited.cost lock + prog.ahead t p ≤
      hX.limited.cost s.lock + prog.ahead t (s.pc t)) :
    Inv hX l (s.moved t lock p d) where
  lock := hlock
  live := hlive
  spotOk u := by
    show SpotOk l u lock (prog.spot (Function.update s.pc t p u))
    -- the other threads are where they were, and see the lock as before
    by_cases hu : u = t
    · subst hu
      rw [Function.update_self]
      exact hspot
    · rw [Function.update_of_ne hu]
      exact (h.spotOk u).frame (hothers u hu).1 ((hothers u hu).2 l)
  only u k hk := by
    by_cases hu : u = t
    · subst hu
      exact honly k hk
    · exact h.only u k (((hothers u hu).2 k).mp hk)
  cost := by
    -- one thread's part of the cost changes
    have hsum := sum_update_family (d := prog.ahead) (f := s.pc) (t := t) (c := p)
    have hbefore := h.cost
    show hX.limited.cost lock + ∑ u, prog.ahead u (Function.update s.pc t p u) ≤ prog.quota
    omega

omit [DecidableEq T] [DecidableEq L] in
/-- An access of `t` that the acquisitions ahead of it pay for. -/
theorem Inv.access {hX : X.Works n} (h : Inv hX l s) (hquota : prog.quota < n) {b : X.Act}
    {lock : X.State} {p : prog.Pc} (hlock : X.step s.lock b = some lock)
    (hcost : hX.limited.cost lock + prog.ahead t p ≤
      hX.limited.cost s.lock + prog.ahead t (s.pc t)) :
    hX.inv lock ∧ X.Others (X.use b).thread s.lock lock := by
  have hbefore := h.cost
  have hone : prog.ahead t (s.pc t) ≤ ∑ u, prog.ahead u (s.pc u) :=
    Finset.single_le_sum (f := fun u => prog.ahead u (s.pc u)) (fun _ _ => Nat.zero_le _)
      (Finset.mem_univ t)
  -- the acquisitions made and those ahead are within the program's quota
  have hbelow : hX.limited.Below n s.lock := by
    show hX.limited.cost s.lock < n
    omega
  have hbelow' : hX.limited.Below n lock := by
    show hX.limited.cost lock < n
    omega
  have hI : hX.inv lock := hX.correct.keep _ _ _ h.lock hbelow hbelow' hlock
  exact ⟨hI, hX.correct.others _ _ _ h.lock hI hlock⟩

omit [DecidableEq L] in
theorem Inv.step {hX : X.Works n} (hquota : prog.quota < n) (h : Inv hX l s)
    (hs : Happens l s a s') : Inv hX l s' := by
  cases hs with
  | @acquire a t lock huse hlock hspot =>
    have hok := h.spotOk t
    rw [hspot] at hok
    obtain ⟨hout, hnone⟩ := hok
    -- the acquisition is one of those ahead of the thread
    have hpaid := prog.ahead_acquire t _ hspot
    have hcost := hX.limited.acquire _ _ _ _ _ h.lock hlock huse
    obtain ⟨hI, hothers⟩ := h.access hquota (t := t) (p := prog.call (s.pc t)) hlock (by omega)
    rw [huse] at hothers
    obtain ⟨hlive, hphase, hheld⟩ := hX.correct.acquire _ _ _ _ _ h.lock hI hlock huse hout hnone
    refine h.moved hI hlive hothers ?_ (fun k hk => h.only t k ((hheld k).mp hk)) (by omega)
    rw [prog.spot_acquire _ hspot]
    exact Or.inl ⟨hphase, fun hl => hnone ((hheld l).mp hl)⟩
  | @release a t lock huse hlock hspot =>
    have hok := h.spotOk t
    rw [hspot] at hok
    obtain ⟨hout, hin⟩ := hok
    have hpaid := prog.ahead_release t _ hspot
    have hcost := hX.limited.other _ _ _ h.lock hlock (by rw [huse]; simp)
    obtain ⟨hI, hothers⟩ := h.access hquota (t := t) (p := prog.call (s.pc t)) hlock (by omega)
    rw [huse] at hothers
    obtain ⟨hlive, hphase, hheld⟩ := hX.correct.release _ _ _ _ _ h.lock hI hlock huse hout hin
    refine h.moved hI hlive hothers ?_ (fun k hk => h.only t k ((hheld k).mp hk).2) (by omega)
    rw [prog.spot_release _ hspot]
    exact ⟨Or.inl hphase, fun hl => ((hheld l).mp hl).1 rfl⟩
  | @advance a t lock huse hlock hspot =>
    have hok := h.spotOk t
    have hcost := hX.limited.other _ _ _ h.lock hlock (by rw [huse]; simp)
    obtain ⟨hI, hothers⟩ := h.access hquota (t := t) (p := s.pc t) hlock (by omega)
    rw [huse] at hothers
    obtain ⟨hlive, hadv⟩ := hX.correct.advance _ _ _ _ h.lock hI hlock huse
    -- the access ends the call or not
    rcases hadv with ⟨hphase, hheld⟩ | ⟨k, hphase, hphase', hheld⟩ | ⟨k, hphase, hphase', hheld⟩
    · exact h.moved hI hlive hothers (hok.frame hphase (hheld l))
        (fun k hk => h.only t k ((hheld k).mp hk)) (by omega)
    · -- `Acquire` returns, and the thread stood at an acquisition
      rcases hspot with hspot | hspot
      · rw [hspot] at hok
        simp only [SpotOk, hphase] at hok
        rcases hok with ⟨hacq, -⟩ | ⟨hout, -⟩
        · obtain rfl : k = l := by injection hacq
          refine h.moved hI hlive hothers ?_ (fun j hj => ?_) (by omega)
          · rw [hspot]
            exact Or.inr ⟨hphase', (hheld k).mpr (Or.inl rfl)⟩
          · exact ((hheld j).mp hj).elim id (h.only t j)
        · cases hout
      · rw [hspot] at hok
        simp [SpotOk, hphase] at hok
    · -- `Release` returns, and the thread stood at a release
      rcases hspot with hspot | hspot
      · rw [hspot] at hok
        simp [SpotOk, hphase] at hok
      · rw [hspot] at hok
        refine h.moved hI hlive hothers ?_ (fun j hj => h.only t j ((hheld j).mp hj)) (by omega)
        rw [hspot]
        exact ⟨Or.inr hphase', fun hl => hok.2 ((hheld l).mp hl)⟩
  | @own t p d hret hown =>
    have hpaid := prog.ahead_own _ _ _ _ _ hown
    exact h.moved h.lock h.live (fun _ _ => ⟨rfl, fun _ => Iff.rfl⟩)
      ((h.spotOk t).leads (prog.spot_own _ _ _ _ _ hown) hret) (h.only t) (by omega)

/-- The threads of a program whose acquisitions stay below the limit of the mutex use
it properly, in every interleaving. -/
theorem client_inv (hX : X.Works n) (hquota : prog.quota < n)
    (h : Reachable (step l) (init X prog) s) : Inv hX l s :=
  h.invariant (fun _ => inv_init hX hquota) fun _ _ _ hI _ _ hs => hI.step hquota (happens hs)

omit [DecidableEq T] [DecidableEq L] in
/-- One thread is in its critical section at a time. -/
theorem Inv.exclusive {hX : X.Works n} (h : Inv hX l s) (ht : (prog.spot (s.pc t)).Owns)
    (hu : (prog.spot (s.pc u)).Owns) : t = u := by
  have howns : ∀ v, (prog.spot (s.pc v)).Owns → X.held s.lock v l := by
    intro v hv
    have hok := h.spotOk v
    rcases hv with hv | hv
    · rw [hv] at hok
      exact hok.2
    · rw [hv] at hok
      exact hok.2
  exact hX.correct.exclusive _ _ _ _ h.lock (howns t ht) (howns u hu)

/-! ### What holds of the program -/

/-- What holds at the start of a program and is kept by every call and by every step of
a thread, made while nobody else is in the critical section if that thread is, holds in
every interleaving over every mutex that works. -/
theorem program_invariant (hX : X.Works n) (hquota : prog.quota < n)
    {J : (T → prog.Pc) → prog.Shared → Prop} (hinit : J prog.start prog.shared)
    (hcall : ∀ t pc d, J pc d → (prog.spot (pc t)).Calls →
      J (Function.update pc t (prog.call (pc t))) d)
    (hown : ∀ t pc d p d', J pc d → prog.own t (pc t) d = some (p, d') →
      ((prog.spot (pc t)).Owns → ∀ u, (prog.spot (pc u)).Owns → u = t) →
      J (Function.update pc t p) d')
    (h : Reachable (step l) (init X prog) s) : J s.pc s.shared := by
  induction h with
  | start => exact hinit
  | step hr hs _ ih =>
    have hI := client_inv hX hquota hr
    cases happens hs with
    | acquire _ _ hspot => exact hcall _ _ _ ih (Or.inl hspot)
    | release _ _ hspot => exact hcall _ _ _ ih (Or.inr hspot)
    | advance =>
      -- an access inside a call moves no thread of the program
      show J (Function.update _ _ _) _
      rw [Function.update_eq_self]
      exact ih
    | own _ hstep => exact hown _ _ _ _ _ ih hstep fun ht u hu => hI.exclusive hu ht

/-! ### The threads can go on -/

/-- The runs that go on from a state. -/
def Leads (l : L) : Client X prog → Client X prog → Prop :=
  Relation.ReflTransGen fun s s' => ∃ a, step l s a = some s'

omit [Fintype T] in
theorem Leads.reachable (h : Leads l s s') {s₀ : Client X prog} (hs : Reachable (step l) s₀ s) :
    Reachable (step l) s₀ s' := by
  induction h with
  | refl => exact hs
  | tail _ hstep ih =>
    obtain ⟨a, ha⟩ := hstep
    exact ih.step ha trivial

/-- No thread is in a call or can go on: each waits for the others or is at its end. -/
def Resting (s : Client X prog) : Prop :=
  ∀ t, prog.spot (s.pc t) = .outside ∧ prog.own t (s.pc t) s.shared = none

/-- How far the threads are from their ends. -/
def distance (s : Client X prog) : Nat := ∑ t, prog.fuel t (s.pc t)

omit [DecidableEq L] in
theorem distance_moved {lock : X.State} {p : prog.Pc} {d : prog.Shared}
    (ht : prog.fuel t p < prog.fuel t (s.pc t)) : (s.moved t lock p d).distance < s.distance := by
  have hsum := sum_update_family (d := prog.fuel) (f := s.pc) (t := t) (c := p)
  show ∑ u, prog.fuel u (Function.update s.pc t p u) < ∑ u, prog.fuel u (s.pc u)
  omega

/-- A thread that stands before a call can begin it. -/
theorem exists_call {hX : X.Works n} (h : Inv hX l s) (ht : (prog.spot (s.pc t)).Calls) :
    ∃ a s', step l s a = some s' ∧ s'.distance < s.distance := by
  have hok := h.spotOk t
  have hless := prog.fuel_call t _ ht
  rcases ht with hspot | hspot
  · rw [hspot] at hok
    have hnone : ∀ k, ¬ X.held s.lock t k := fun k hk => hok.2 (h.only t k hk ▸ hk)
    obtain ⟨a, lock, huse, hlock⟩ := hX.progress.acquire _ _ l h.lock h.live hok.1 hnone
    refine ⟨.lock a, s.moved t lock (prog.call (s.pc t)) s.shared, ?_, distance_moved hless⟩
    simp only [step, huse, hspot, and_self, if_true, onLock, hlock, Option.map_some]
  · rw [hspot] at hok
    obtain ⟨a, lock, huse, hlock⟩ := hX.progress.release _ _ _ h.lock h.live hok.1 hok.2
    refine ⟨.lock a, s.moved t lock (prog.call (s.pc t)) s.shared, ?_, distance_moved hless⟩
    simp only [step, huse, hspot, and_self, if_true, onLock, hlock, Option.map_some]

/-- A thread whose call has returned can make a step of its own, if it has one. -/
theorem exists_own (hret : s.Returned t) (hown : (prog.own t (s.pc t) s.shared).isSome = true) :
    ∃ a s', step l s a = some s' ∧ s'.distance < s.distance := by
  obtain ⟨⟨p, d⟩, hx⟩ := Option.isSome_iff_exists.mp hown
  refine ⟨.own t, s.moved t s.lock p d, ?_, distance_moved (prog.fuel_own _ _ _ _ _ hx)⟩
  simp only [step, if_pos hret, hx, Option.map_some]

/-- Accesses inside calls are steps of the program. -/
theorem leads_of_inside (hX : X.Works n) (hquota : prog.quota < n)
    (hs : Reachable (step l) (init X prog) s) {lock : X.State} (h : X.Inside s.lock lock) :
    ∃ s', Leads l s s' ∧ s'.lock = lock ∧ s'.pc = s.pc ∧ s'.shared = s.shared := by
  induction h with
  | refl => exact ⟨s, .refl, rfl, rfl, rfl⟩
  | @tail lock lock' _ hstep ih =>
    obtain ⟨s', hrun, rfl, hpc, hshared⟩ := ih
    obtain ⟨a, t, huse, hin, hlock⟩ := hstep
    have hI := client_inv hX hquota (hrun.reachable hs)
    -- only a thread whose program is at a call is inside one
    have hcall : prog.spot (s'.pc t) = .acquiring ∨ prog.spot (s'.pc t) = .releasing := by
      have hok := hI.spotOk t
      cases hspot : prog.spot (s'.pc t) with
      | acquiring => exact Or.inl rfl
      | releasing => exact Or.inr rfl
      | outside | acquire | inside | release =>
        rw [hspot] at hok
        exact absurd hok.1 hin
    have hnext : step l s' (.lock a) = some (s'.moved t lock' (s'.pc t) s'.shared) := by
      simp only [step, huse, if_pos hcall, onLock, hlock, Option.map_some]
    refine ⟨_, hrun.tail ⟨_, hnext⟩, rfl, ?_, hshared⟩
    rw [← hpc]
    exact Function.update_eq_self ..

/-- While the threads do not all rest, they can come nearer to their ends. -/
theorem exists_nearer (hX : X.Works n) (hquota : prog.quota < n)
    (hs : Reachable (step l) (init X prog) s) (hnot : ¬ s.Resting) :
    ∃ s', Leads l s s' ∧ s'.distance < s.distance := by
  have hI := client_inv hX hquota hs
  by_cases hcall : ∃ t, (prog.spot (s.pc t)).Calls
  · obtain ⟨t, ht⟩ := hcall
    obtain ⟨a, s', hstep, hlt⟩ := exists_call hI ht
    exact ⟨s', .single ⟨a, hstep⟩, hlt⟩
  -- then a thread whose call has returned
  by_cases hown : ∃ t, s.Returned t ∧ (prog.own t (s.pc t) s.shared).isSome = true
  · obtain ⟨t, hret, hx⟩ := hown
    obtain ⟨a, s', hstep, hlt⟩ := exists_own hret hx
    exact ⟨s', .single ⟨a, hstep⟩, hlt⟩
  -- every thread rests or is inside a call, so nobody holds the lock
  have hrest : ∀ t, (prog.spot (s.pc t) = .outside ∧ prog.own t (s.pc t) s.shared = none) ∨
      X.phase s.lock t ≠ .out := by
    intro t
    by_cases hout : X.phase s.lock t = .out
    · have hnone : prog.own t (s.pc t) s.shared = none := by
        by_contra hsome
        exact hown ⟨t, fun _ => hout, Option.isSome_iff_ne_none.mpr hsome⟩
      refine Or.inl ⟨?_, hnone⟩
      by_contra hspot
      have hgoes := prog.goes_on t _ s.shared hspot fun hc => hcall ⟨t, hc⟩
      rw [hnone] at hgoes
      cases hgoes
    · exact Or.inr hout
  have hfree : ∀ t k, ¬ X.held s.lock t k := by
    intro t k hk
    obtain rfl := hI.only t k hk
    have hok := hI.spotOk t
    rcases hrest t with ⟨hspot, -⟩ | hphase
    · rw [hspot] at hok
      exact hok.2 hk
    · cases hspot : prog.spot (s.pc t) with
      | outside | acquire | inside | release =>
        rw [hspot] at hok
        exact hphase hok.1
      | acquiring =>
        rw [hspot] at hok
        rcases hok with ⟨-, hnone⟩ | ⟨hout, -⟩
        · exact hnone hk
        · exact hphase hout
      | releasing =>
        rw [hspot] at hok
        exact hok.2 hk
  -- so somebody is inside, and the lock lets a call return
  have hbusy : ∃ t, X.phase s.lock t ≠ .out := by
    by_contra hnone
    exact hnot fun t => (hrest t).resolve_right fun hphase => hnone ⟨t, hphase⟩
  obtain ⟨lock, t, hrun, hphase, hout⟩ := hX.progress.returns _ hI.lock
    (Nat.lt_of_le_of_lt (Nat.le_of_add_right_le hI.cost) hquota) hI.live hfree hbusy
  obtain ⟨s₁, hleads, rfl, hpc, hshared⟩ := leads_of_inside hX hquota hs hrun
  -- the call that has returned is followed by a step of its program
  have hat : prog.spot (s.pc t) = .acquiring ∨ prog.spot (s.pc t) = .releasing := by
    have hok := hI.spotOk t
    cases hspot : prog.spot (s.pc t) with
    | acquiring => exact Or.inl rfl
    | releasing => exact Or.inr rfl
    | outside | acquire | inside | release =>
      rw [hspot] at hok
      exact absurd hok.1 hphase
  have hgoes : (prog.own t (s₁.pc t) s₁.shared).isSome = true := by
    rw [hpc]
    refine prog.goes_on t _ _ ?_ fun hc => hcall ⟨t, hc⟩
    rcases hat with hat | hat
    · simp [hat]
    · simp [hat]
  obtain ⟨a, s₂, hstep, hlt⟩ := exists_own (l := l) (fun _ => hout) hgoes
  have hsame : s₁.distance = s.distance := by simp only [distance, hpc]
  exact ⟨s₂, hleads.tail ⟨a, hstep⟩, by omega⟩

/-- From every state that a program can reach, it can run on until its threads rest. -/
theorem can_rest (hX : X.Works n) (hquota : prog.quota < n)
    (hs : Reachable (step l) (init X prog) s) : ∃ s', Leads l s s' ∧ s'.Resting := by
  have hnear : ∀ s, Reachable (step l) (init X prog) s → s.Resting ∨
      ∃ s', Leads l s s' ∧ Reachable (step l) (init X prog) s' ∧ s'.distance < s.distance := by
    intro s hs
    by_cases hrest : s.Resting
    · exact Or.inl hrest
    · obtain ⟨s', hrun, hlt⟩ := exists_nearer hX hquota hs hrest
      exact Or.inr ⟨s', hrun, hrun.reachable hs, hlt⟩
  obtain ⟨s', hrun, -, hrest⟩ := exists_of_measure distance hnear hs
  exact ⟨s', hrun, hrest⟩

end Client

end LockShield.Lib
