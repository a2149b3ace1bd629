import LockShield.Lib.Mutex

/-!
# `TASLock`

An atomic flag that `Acquire` sets until it finds it clear and `Release` clears.
The lock does not know its owner: only threads that acquire and release in turn
exclude each other, and nothing says who of the waiters comes next.

The invariant is that the flag is up for one thread: a holder, or one that is about
to clear it.

## Results

* `inv_step`      — every action of threads that acquire and release in turn keeps it.
* `reachable_inv` — so one thread owns the lock at a time, in every run.
* `mutex_correct` — `TASLock` is a correct mutex without a condition.
-/

set_option linter.unusedSectionVars false

namespace LockShield.Tas

open Lib

/-- The next access of a thread. Between calls it is `idle`. -/
inductive Pc where
  | idle
  /-- `while (locked.test_and_set())` -/
  | spin
  /-- `locked.clear()` -/
  | clear
  deriving DecidableEq

variable (T : Type)

structure State where
  locked : Bool
  pc : T → Pc
  /-- the thread is between its `Acquire` and its `Release` -/
  holding : T → Bool

variable {T}

/-- What a thread does: it begins a call, or makes the next access of the one it is in. -/
inductive Action (T : Type) where
  | acquire (t : T)
  | release (t : T)
  | advance (t : T)

variable [DecidableEq T]

/-- The flag is clear and nobody is in a call. -/
def init : State T where
  locked := false
  pc _ := .idle
  holding _ := false

/-- Thread `t`'s next access is `pc`. -/
def State.goto (s : State T) (t : T) (pc : Pc) : State T :=
  { s with pc := Function.update s.pc t pc }

/-- The next access of a call, and what follows it. -/
def proceed (s : State T) (t : T) : Pc → Option (State T)
  | .idle => none
  | .spin =>
    -- `test_and_set`: the loop is left by the thread that found the flag clear
    if s.locked then some s
    else some ({ s with
      locked := true
      holding := Function.update s.holding t true }.goto t .idle)
  | .clear => some ({ s with locked := false }.goto t .idle)

/-- One step of one thread. Every thread acquires and releases in turn. -/
def step (s : State T) : Action T → Option (State T)
  | .acquire t =>
    if s.pc t = .idle ∧ s.holding t = false then some (s.goto t .spin) else none
  | .release t =>
    if s.pc t = .idle ∧ s.holding t = true then
      some ({ s with holding := Function.update s.holding t false }.goto t .clear)
    else none
  | .advance t => proceed s t (s.pc t)

/-- The thread has found the flag clear and has not cleared it. -/
def Owns (s : State T) (t : T) : Prop := s.holding t = true ∨ s.pc t = .clear

/-- The flag is up for one thread, which holds the lock or is about to clear it. -/
structure Inv (s : State T) : Prop where
  busy : ∀ t, s.holding t = true → s.pc t = .idle
  flagged : s.locked = true ↔ ∃ t, Owns s t
  exclusive : ∀ t u, Owns s t → Owns s u → t = u

variable {s s' : State T} {t u : T}

/-- Nobody owns the lock at the start. -/
theorem inv_init : Inv (init : State T) where
  busy _ h := by cases h
  flagged := by simp [init, Owns]
  exclusive _ _ h := by rcases h with h | h <;> cases h

/-- A step that lets nobody in or out and leaves the flag alone. -/
theorem Inv.quiet (h : Inv s) (hlocked : s'.locked = s.locked)
    (hbusy : ∀ u, s'.holding u = true → s'.pc u = .idle)
    (howns : ∀ u, Owns s' u ↔ Owns s u) : Inv s' where
  busy := hbusy
  flagged := by
    rw [hlocked, h.flagged]
    exact exists_congr fun u => (howns u).symm
  exclusive u v hu hv := h.exclusive u v ((howns u).mp hu) ((howns v).mp hv)

/-- Every step keeps the invariant: the flag goes up for a thread that finds it clear, and
down for the one that has it. -/
theorem inv_step {a : Action T} (h : Inv s) (hs : step s a = some s') : Inv s' := by
  cases a with
  | acquire t =>
    obtain ⟨⟨hidle, hfree⟩, hs⟩ := Option.ite_none_right_eq_some.mp hs
    obtain rfl := Option.some.inj hs
    refine h.quiet rfl (fun u hu => ?_) fun u => ?_
    · by_cases hut : u = t
      · subst hut
        exact absurd hu (by simp [State.goto, hfree])
      · simpa [State.goto, hut] using h.busy u hu
    · by_cases hut : u = t
      · subst hut
        simp [Owns, State.goto, hfree, hidle]
      · simp [Owns, State.goto, hut]
  | release t =>
    obtain ⟨⟨-, hheld⟩, hs⟩ := Option.ite_none_right_eq_some.mp hs
    obtain rfl := Option.some.inj hs
    refine h.quiet rfl (fun u hu => ?_) fun u => ?_
    · by_cases hut : u = t
      · subst hut
        simp [State.goto] at hu
      · simp only [State.goto, Function.update_of_ne hut] at hu ⊢
        exact h.busy u hu
    · by_cases hut : u = t
      · subst hut
        simp [Owns, State.goto, hheld]
      · simp [Owns, State.goto, hut]
  | advance t =>
    have hs : proceed s t (s.pc t) = some s' := hs
    cases hpc : s.pc t with
    | idle => simp [hpc, proceed] at hs
    | spin =>
      cases hlocked : s.locked with
      | true =>
        simp only [hpc, proceed, hlocked, if_true, Option.some.injEq] at hs
        exact hs ▸ h
      | false =>
        simp only [hpc, proceed, hlocked, Bool.false_eq_true, if_false, Option.some.injEq] at hs
        subst hs
        -- the flag was clear, so nobody owned the lock
        have hnone : ∀ u, ¬ Owns s u := fun u hu => by
          have hset := h.flagged.mpr ⟨u, hu⟩
          rw [hlocked] at hset
          cases hset
        have honly : ∀ u, u ≠ t → ¬ Owns ({ s with
            locked := true
            holding := Function.update s.holding t true }.goto t .idle) u := fun u hut hu => by
          simp only [Owns, State.goto, Function.update_of_ne hut] at hu
          exact hnone u hu
        refine ⟨fun u hu => ?_, iff_of_true rfl ⟨t, Or.inl (Function.update_self ..)⟩,
          fun u v hu hv => ?_⟩
        · by_cases hut : u = t
          · subst hut
            exact Function.update_self ..
          · simp only [State.goto, Function.update_of_ne hut] at hu ⊢
            exact h.busy u hu
        · rw [not_imp_not.mp (honly u) hu, not_imp_not.mp (honly v) hv]
    | clear =>
      simp only [hpc, proceed, Option.some.injEq] at hs
      subst hs
      -- nobody but the thread that clears the flag owned the lock
      have hnone : ∀ u, ¬ Owns ({ s with locked := false }.goto t .idle) u := fun u hu => by
        by_cases hut : u = t
        · subst hut
          simp only [Owns, State.goto, Function.update_self] at hu
          rcases hu with hu | hu
          · have := h.busy u hu
            rw [hpc] at this
            cases this
          · cases hu
        · simp only [Owns, State.goto, Function.update_of_ne hut] at hu
          exact hut (h.exclusive u t hu (Or.inr hpc))
      exact ⟨fun u hu => absurd (Or.inl hu) (hnone u),
        iff_of_false (by simp [State.goto]) fun ⟨u, hu⟩ => hnone u hu,
        fun u _ hu => absurd hu (hnone u)⟩

/-- So one thread owns the lock at a time, in every run. -/
theorem reachable_inv (h : Reachable step (init : State T) s) : Inv s :=
  h.invariant (fun _ => inv_init) fun _ _ _ hI _ _ hs => inv_step hI hs

/-- The call that a thread is in. -/
def phaseOf : Pc → Phase Unit
  | .idle => .out
  | .spin => .acquiring ()
  | .clear => .releasing ()

/-- The use that an action makes of the lock. -/
def useOf : Action T → Use Unit T
  | .acquire t => .acquire t ()
  | .release t => .release t ()
  | .advance t => .advance t

variable (T) in
/-- `TASLock` and its users. -/
abbrev mutex : Mutex Unit T :=
  .ofPc init step useOf State.pc phaseOf (fun _ => False) State.holding fun h _ => h = true

/-- `TASLock` is a correct mutex for threads that acquire and release in turn. -/
theorem mutex_correct : (mutex T).Correct (fun _ => True) (Reachable step init) := by
  refine Mutex.correct_ofPc (fun _ => .start trivial) (fun _ _ _ h _ _ hs => h.step hs trivial)
    (fun _ _ _ => id) (fun _ => ⟨id, rfl, fun _ h => by cases h⟩)
    (fun s a s' t l h hs huse => ?_) (fun s a s' t l h hs huse => ?_)
    (fun s a s' t h h' hs huse => ?_)
    fun s l t u h ht hu => (reachable_inv h).exclusive t u (Or.inl ht) (Or.inl hu)
  · -- `Acquire` begins
    cases a with
    | acquire t =>
      obtain ⟨⟨hidle, hfree⟩, hs⟩ := Option.ite_none_right_eq_some.mp hs
      obtain rfl := Option.some.inj hs
      injection huse with ht
      subst ht
      exact ⟨by rw [hidle]; rfl, by simp [hfree], .spin, rfl, rfl, rfl⟩
    | release | advance => cases huse
  · -- `Release` begins
    cases a with
    | release t =>
      obtain ⟨⟨hidle, hheld⟩, hs⟩ := Option.ite_none_right_eq_some.mp hs
      obtain rfl := Option.some.inj hs
      injection huse with ht
      subst ht
      exact ⟨by rw [hidle]; rfl, hheld, .clear, false, rfl, rfl, rfl, fun k => by simp⟩
    | acquire | advance => cases huse
  · -- an access of a call that has begun
    cases a with
    | advance t =>
      injection huse with ht
      subst ht
      have hs : proceed s t (s.pc t) = some s' := hs
      cases hpc : s.pc t with
      | idle => simp [hpc, proceed] at hs
      | spin =>
        simp only [hpc, proceed] at hs
        split at hs
        · -- the exchange has found the flag set
          obtain rfl := Option.some.inj hs
          exact Mutex.waits s t
        · obtain rfl := Option.some.inj hs
          exact Mutex.enters (c := .idle) (l := ()) rfl rfl (by rw [hpc]; rfl) rfl fun k => by simp
      | clear =>
        simp only [hpc, proceed] at hs
        obtain rfl := Option.some.inj hs
        exact Mutex.leaves (c := .idle) (l := ()) rfl rfl (by rw [hpc]; rfl) rfl
    | acquire | release => cases huse

end LockShield.Tas
