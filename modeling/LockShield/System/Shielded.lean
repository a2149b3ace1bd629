import LockShield.Lib.Mutex
import LockShield.Table.RefModel

/-!
# Shielded locks

Any number of threads, each with its own table, use shared locks through
`LS_ACQUIRE` and `LS_RELEASE`, in any order and at any time, each call with either
flag. The locks are a `Mutex`, one access of a lock function at a time; the tables are
the helpers of a C++ variant that is a `RefTable`. A thread works on its own table
without interference, so what a call does between two uses of a lock function is one
step.

What is asked of the threads comes in two parts:

* `Fits`     — every call can be recorded: a new lock has room, and no counter outgrows
  its limit;
* `Unnested` — no release without the flag finds a count above one, which would unlock and
  leave the lock in the table.

## Results

* `Happens`, `Inv.happens` — what a step can do; everything below goes by its cases.
* `Inv.step`         — the shield turns any use into calls that the locks expect: it calls
  `lock_fn` for a lock that the thread does not hold and `unlock_fn` for one that it does.
* `Inv.tracked_iff_held` — a table says who holds what.
* `mutex_correct`    — threads that use the flag `false` and acquire a lock only once before
  they release it see a correct mutex again (`PlainInv`).
-/

set_option linter.unusedSectionVars false

namespace LockShield.Shielded

open Lib

/-- Where a thread is inside a shield call. -/
inductive Pc (L Ptr : Type) where
  | idle
  /-- `lock_fn` is next -/
  | lockFn (l : L)
  /-- inside `lock_fn`; `IncrementRef` follows -/
  | locking (l : L)
  /-- `unlock_fn` is next; an entry is dropped after it -/
  | unlockFn (l : L) (entry : Option Ptr)
  /-- inside `unlock_fn` -/
  | unlocking (l : L) (entry : Option Ptr)

/-- The lock a thread is inside a call on. -/
def Pc.lock {L Ptr : Type} : Pc L Ptr → Option L
  | .idle => none
  | .lockFn l | .locking l | .unlockFn l _ | .unlocking l _ => some l

/-- The call a thread is in. -/
def Pc.phase {L Ptr : Type} : Pc L Ptr → Phase L
  | .idle => .out
  | .lockFn l | .locking l => .acquiring l
  | .unlockFn l _ | .unlocking l _ => .releasing l

variable {L T σ Ptr : Type}

structure State (X : Mutex L T) (σ Ptr : Type) where
  lock : X.State
  table : T → σ
  pc : T → Pc L Ptr
  /-- the panic, or another fault, that ended the run -/
  stopped : Option Fault

inductive Action (X : Mutex L T) where
  | acquire (t : T) (l : L) (reentrant : Bool)
  | release (t : T) (l : L) (reentrant : Bool)
  /-- an access inside a lock function, or the call of one -/
  | lock (a : X.Act)
  /-- what follows after a lock function has returned -/
  | finish (t : T)

variable {X : Mutex L T}

def init (X : Mutex L T) (table : σ) : State X σ Ptr where
  lock := X.init
  table _ := table
  pc _ := .idle
  stopped := none

variable [DecidableEq L] [DecidableEq T]

/-- Run a table helper of thread `t` and go on with its result. -/
def State.onTable {α : Type} (s : State X σ Ptr) (t : T) (x : EStateM Fault σ α)
    (k : State X σ Ptr → α → State X σ Ptr) : State X σ Ptr :=
  match x.run (s.table t) with
  | .ok a tls => k { s with table := Function.update s.table t tls } a
  | .error e tls => { s with table := Function.update s.table t tls, stopped := some e }

def State.goto (s : State X σ Ptr) (t : T) (pc : Pc L Ptr) : State X σ Ptr :=
  { s with pc := Function.update s.pc t pc }

def State.onLock (s : State X σ Ptr) (a : X.Act) (t : T) (pc : Pc L Ptr) :
    Option (State X σ Ptr) :=
  (X.step s.lock a).map fun lock => { s with lock }.goto t pc

variable (ops : T → TableOps σ Ptr L)

/-- `LS_ACQUIRE(l, reentrant, lock_fn)`, up to the call of `lock_fn`. -/
def startAcquire (s : State X σ Ptr) (t : T) (l : L) (reentrant : Bool) : State X σ Ptr :=
  s.onTable t ((ops t).lookup l) fun s entry =>
    match entry with
    | none => s.goto t (.lockFn l)
    | some e =>
      if reentrant then s.onTable t ((ops t).incrementRef l (some e)) fun s _ => s
      else { s with stopped := some unbalancedLockPanic }

/-- `LS_RELEASE(l, reentrant, unlock_fn)`, up to the call of `unlock_fn`. -/
def startRelease (s : State X σ Ptr) (t : T) (l : L) (reentrant : Bool) : State X σ Ptr :=
  s.onTable t ((ops t).lookup l) fun s entry =>
    match entry with
    | none => { s with stopped := some unbalancedUnlockPanic }
    | some e =>
      if reentrant then
        s.onTable t ((ops t).decrementRef l (some e)) fun s val =>
          s.goto t (if val = 0 then .unlockFn l none else .idle)
      else s.goto t (.unlockFn l (some e))

/-- The rest of a call, after its lock function has returned. -/
def finish (s : State X σ Ptr) (t : T) : Pc L Ptr → Option (State X σ Ptr)
  | .locking l => some (s.onTable t ((ops t).incrementRef l none) fun s _ => s.goto t .idle)
  | .unlocking _ none => some (s.goto t .idle)
  | .unlocking l (some e) =>
    some (s.onTable t ((ops t).decrementRef l (some e)) fun s _ => s.goto t .idle)
  | _ => none

/-- An access of a lock, by a thread whose shield call is at a lock function. -/
def access (s : State X σ Ptr) (a : X.Act) : Option (State X σ Ptr) :=
  match X.use a with
  | .acquire t l =>
    match s.pc t with
    | .lockFn k => if k = l then s.onLock a t (.locking l) else none
    | _ => none
  | .release t l =>
    match s.pc t with
    | .unlockFn k e => if k = l then s.onLock a t (.unlocking l e) else none
    | _ => none
  | .advance t =>
    match s.pc t with
    | .locking _ | .unlocking _ _ => s.onLock a t (s.pc t)
    | _ => none

/-- One step of one thread; a stopped run takes none. -/
def step (s : State X σ Ptr) (a : Action X) : Option (State X σ Ptr) :=
  if s.stopped.isSome then none
  else
    match a with
    | .acquire t l reentrant =>
      match s.pc t with
      | .idle => some (startAcquire ops s t l reentrant)
      | _ => none
    | .release t l reentrant =>
      match s.pc t with
      | .idle => some (startRelease ops s t l reentrant)
      | _ => none
    | .lock a => access s a
    | .finish t =>
      match X.phase s.lock t with
      | .out => finish ops s t (s.pc t)
      | _ => none

variable {ops} (D : (t : T) → RefTable (ops t))

/-- Every count can go up by one, and a lock that is being taken has room. -/
def Fits (s : State X σ Ptr) : Prop :=
  ∀ t, (∀ l, (D t).count (s.table t) l < (D t).limit) ∧
    ∀ l, s.pc t = .locking l → (D t).room ((D t).count (s.table t))

/-- There is room for every lock that a table does not have. -/
def Roomy : Prop := ∀ t cnt l, cnt l = 0 → (D t).room cnt

/-- Thread `t` has moved on, with a new state of the locks and of its table. -/
def State.moved (s : State X σ Ptr) (t : T) (lock : X.State) (tls : σ) (pc : Pc L Ptr) :
    State X σ Ptr :=
  { s with
    lock
    table := Function.update s.table t tls
    pc := Function.update s.pc t pc }

/-! ## The invariant -/

/-- What the table says of an entry that is to be dropped: it is the last reference,
or it has been dropped before the unlock. -/
def Pending (t : T) (tls : σ) (l : L) : Option Ptr → Prop
  | none => (D t).count tls l = 0
  | some e => (D t).count tls l = 1 ∧ ((ops t).lookup l).run tls = .ok (some e) tls

/-- What a thread inside a call has done so far. -/
def PcOk (X : Mutex L T) (t : T) (lock : X.State) (tls : σ) : Pc L Ptr → Prop
  | .idle => X.phase lock t = .out
  | .lockFn l => X.phase lock t = .out ∧ ¬ X.held lock t l ∧ (D t).count tls l = 0
  | .locking l => (D t).count tls l = 0 ∧
      ((X.phase lock t = .acquiring l ∧ ¬ X.held lock t l) ∨
        (X.phase lock t = .out ∧ X.held lock t l))
  | .unlockFn l e => X.phase lock t = .out ∧ X.held lock t l ∧ Pending D t tls l e
  | .unlocking l e => (X.phase lock t = .releasing l ∨ X.phase lock t = .out) ∧
      ¬ X.held lock t l ∧ Pending D t tls l e

structure Inv (I : X.State → Prop) (s : State X σ Ptr) : Prop where
  lock : I s.lock
  live : X.live s.lock
  tables : ∀ t, (D t).Inv (s.table t)
  pcOk : ∀ t, PcOk D X t s.lock (s.table t) (s.pc t)
  /-- outside a call on a lock, who counts references to it is who holds it -/
  owned : ∀ t l, (s.pc t).lock ≠ some l →
    ((D t).count (s.table t) l ≠ 0 ↔ X.held s.lock t l)
  sane : s.stopped = none ∨ s.stopped = some unbalancedLockPanic ∨
    s.stopped = some unbalancedUnlockPanic

/-- What a step can do. -/
inductive Happens (s : State X σ Ptr) : Action X → State X σ Ptr → Prop where
  /-- no entry: `lock_fn` is next -/
  | enter {t l r} : s.pc t = .idle → (D t).count (s.table t) l = 0 →
      Happens s (.acquire t l r) (s.moved t s.lock (s.table t) (.lockFn l))
  /-- a nested acquisition -/
  | nest {t l tls} : s.pc t = .idle → (D t).count (s.table t) l ≠ 0 → (D t).Inv tls →
      (D t).count tls = Function.update ((D t).count (s.table t)) l
        ((D t).count (s.table t) l + 1) →
      Happens s (.acquire t l true) (s.moved t s.lock tls .idle)
  /-- a second acquisition without the flag -/
  | refuse {t l} : s.pc t = .idle → (D t).count (s.table t) l ≠ 0 →
      Happens s (.acquire t l false) { s with stopped := some unbalancedLockPanic }
  /-- a release of a lock without an entry -/
  | unbalanced {t l r} : s.pc t = .idle → (D t).count (s.table t) l = 0 →
      Happens s (.release t l r) { s with stopped := some unbalancedUnlockPanic }
  /-- a release that leaves references, or drops the last one before the unlock -/
  | unnest {t l tls pc} : s.pc t = .idle → (D t).count (s.table t) l ≠ 0 → (D t).Inv tls →
      (D t).count tls = Function.update ((D t).count (s.table t)) l
        ((D t).count (s.table t) l - 1) →
      (pc = .idle ∧ 1 < (D t).count (s.table t) l ∨
        pc = .unlockFn l none ∧ (D t).count (s.table t) l = 1) →
      Happens s (.release t l true) (s.moved t s.lock tls pc)
  /-- a release that unlocks first -/
  | leave {t l e} : s.pc t = .idle → (D t).count (s.table t) l ≠ 0 →
      ((ops t).lookup l).run (s.table t) = .ok (some e) (s.table t) →
      Happens s (.release t l false) (s.moved t s.lock (s.table t) (.unlockFn l (some e)))
  /-- the call of `lock_fn` -/
  | callLock {a t l lock} : X.use a = .acquire t l → s.pc t = .lockFn l →
      X.step s.lock a = some lock →
      Happens s (.lock a) (s.moved t lock (s.table t) (.locking l))
  /-- the call of `unlock_fn` -/
  | callUnlock {a t l e lock} : X.use a = .release t l → s.pc t = .unlockFn l e →
      X.step s.lock a = some lock →
      Happens s (.lock a) (s.moved t lock (s.table t) (.unlocking l e))
  /-- an access inside a lock function -/
  | inside {a t lock} : X.use a = .advance t →
      ((∃ l, s.pc t = .locking l) ∨ ∃ l e, s.pc t = .unlocking l e) →
      X.step s.lock a = some lock →
      Happens s (.lock a) (s.moved t lock (s.table t) (s.pc t))
  /-- `lock_fn` has returned, and the lock is recorded -/
  | recorded {t l tls} : s.pc t = .locking l → X.phase s.lock t = .out → (D t).Inv tls →
      (D t).count tls = Function.update ((D t).count (s.table t)) l 1 →
      Happens s (.finish t) (s.moved t s.lock tls .idle)
  /-- `unlock_fn` has returned, and its entry is dropped -/
  | dropped {t l e tls} : s.pc t = .unlocking l e → X.phase s.lock t = .out → (D t).Inv tls →
      (D t).count tls = Function.update ((D t).count (s.table t)) l 0 →
      Happens s (.finish t) (s.moved t s.lock tls .idle)

variable {D} {P I : X.State → Prop} {s s' : State X σ Ptr} {t u : T} {l : L} {r : Bool}
  {a : Action X}

theorem onTable_ok {α : Type} {x : EStateM Fault σ α}
    {k : State X σ Ptr → α → State X σ Ptr} {b : α} {tls : σ}
    (h : x.run (s.table t) = .ok b tls) :
    s.onTable t x k = k { s with table := Function.update s.table t tls } b := by
  unfold State.onTable
  rw [h]

/-- A look at the table leaves the state alone. -/
theorem onTable_lookup {k : State X σ Ptr → Option Ptr → State X σ Ptr} {r : Option Ptr}
    (h : ((ops t).lookup l).run (s.table t) = .ok r (s.table t)) :
    s.onTable t ((ops t).lookup l) k = k s r := by
  rw [onTable_ok h, Function.update_eq_self]

theorem goto_eq (s : State X σ Ptr) (t : T) (pc : Pc L Ptr) :
    s.goto t pc = s.moved t s.lock (s.table t) pc := by
  rw [State.moved, Function.update_eq_self]
  rfl

theorem Inv.happens_acquire (h : Inv D I s) (hfit : Fits D s) (hidle : s.pc t = .idle) :
    Happens D s (.acquire t l r) (startAcquire ops s t l r) := by
  unfold startAcquire
  by_cases h0 : (D t).count (s.table t) l = 0
  · rw [onTable_lookup ((D t).lookup_none _ _ (h.tables t) h0), goto_eq]
    exact .enter hidle h0
  · obtain ⟨e, hl⟩ := (D t).lookup_some _ _ (h.tables t) h0
    rw [onTable_lookup hl]
    cases r with
    | true =>
      obtain ⟨tls, hinc, hI, hcount⟩ := (D t).increment _ _ _ (h.tables t) hl ((hfit t).1 l)
      simp only [if_true]
      rw [onTable_ok hinc]
      -- the thread stays where it is
      have hmoved : { s with table := Function.update s.table t tls } =
          s.moved t s.lock tls .idle := by
        rw [State.moved, ← hidle, Function.update_eq_self]
      rw [hmoved]
      exact .nest hidle h0 hI hcount
    | false => exact .refuse hidle h0

theorem Inv.happens_release (h : Inv D I s) (hidle : s.pc t = .idle) :
    Happens D s (.release t l r) (startRelease ops s t l r) := by
  unfold startRelease
  by_cases h0 : (D t).count (s.table t) l = 0
  · rw [onTable_lookup ((D t).lookup_none _ _ (h.tables t) h0)]
    exact .unbalanced hidle h0
  · -- the entry is there: with the flag it is counted down first, without it after the unlock
    obtain ⟨e, hl⟩ := (D t).lookup_some _ _ (h.tables t) h0
    rw [onTable_lookup hl]
    cases r with
    | true =>
      obtain ⟨tls, hdec, hI, hcount⟩ := (D t).decrement _ _ _ (h.tables t) hl
      simp only [if_true]
      rw [onTable_ok hdec]
      refine .unnest hidle h0 hI hcount ?_
      by_cases h1 : (D t).count (s.table t) l = 1
      · exact Or.inr ⟨by simp [h1], h1⟩
      · exact Or.inl ⟨if_neg (by omega), by omega⟩
    | false =>
      simp only [Bool.false_eq_true, if_false]
      rw [goto_eq]
      exact .leave hidle h0 hl

theorem Inv.happens_finish (h : Inv D I s) (hfit : Fits D s)
    (hout : X.phase s.lock t = .out) (hs : finish ops s t (s.pc t) = some s') :
    Happens D s (.finish t) s' := by
  have hok := h.pcOk t
  cases hpc : s.pc t with
  | idle | lockFn | unlockFn =>
    rw [hpc] at hs
    cases hs
  | locking l =>
    rw [hpc] at hs hok
    obtain ⟨tls, hinc, hI, hcount⟩ := (D t).insert _ l (h.tables t) hok.1 ((hfit t).2 l hpc)
    -- the lookup of `IncrementRef` finds nothing either
    simp only [finish] at hs
    rw [onTable_ok hinc] at hs
    obtain rfl := Option.some.inj hs
    exact .recorded hpc hout hI hcount
  | unlocking l e =>
    rw [hpc] at hs hok
    cases e with
    | none =>
      obtain rfl := Option.some.inj hs
      -- a reentrant release has dropped the entry before
      have h0 : (D t).count (s.table t) l = 0 := hok.2.2
      rw [goto_eq]
      exact .dropped hpc hout (h.tables t) (by rw [← h0, Function.update_eq_self])
    | some e =>
      -- the entry is the last reference, which goes with it
      obtain ⟨h1, hl⟩ := hok.2.2
      obtain ⟨tls, hdec, hI, hcount⟩ := (D t).decrement _ _ _ (h.tables t) hl
      rw [h1] at hcount
      simp only [finish] at hs
      rw [onTable_ok hdec] at hs
      obtain rfl := Option.some.inj hs
      exact .dropped hpc hout hI hcount

theorem happens_access {b : X.Act} (hs : access s b = some s') :
    Happens D s (.lock b) s' := by
  -- an access that the lock allows moves the lock and the thread, no table
  have key : ∀ t pc, s.onLock b t pc = some s' →
      ∃ lock, X.step s.lock b = some lock ∧ s' = s.moved t lock (s.table t) pc := by
    intro t pc hon
    obtain ⟨lock, hlock, rfl⟩ := Option.map_eq_some_iff.mp hon
    refine ⟨lock, hlock, ?_⟩
    rw [goto_eq]
    rfl
  unfold access at hs
  cases huse : X.use b with
  | acquire t l =>
    -- only a thread that is about to call `lock_fn` of this lock
    cases hpc : s.pc t with
    | lockFn k =>
      simp only [huse, hpc, Option.ite_none_right_eq_some] at hs
      obtain ⟨rfl, hs⟩ := hs
      obtain ⟨lock, hlock, rfl⟩ := key _ _ hs
      exact .callLock huse hpc hlock
    | idle | locking | unlockFn | unlocking => simp [huse, hpc] at hs
  | release t l =>
    -- only a thread that is about to call `unlock_fn` of this lock
    cases hpc : s.pc t with
    | unlockFn k e =>
      simp only [huse, hpc, Option.ite_none_right_eq_some] at hs
      obtain ⟨rfl, hs⟩ := hs
      obtain ⟨lock, hlock, rfl⟩ := key _ _ hs
      exact .callUnlock huse hpc hlock
    | idle | lockFn | locking | unlocking => simp [huse, hpc] at hs
  | advance t =>
    -- an access of a call that has begun
    cases hpc : s.pc t with
    | locking l =>
      simp only [huse, hpc] at hs
      obtain ⟨lock, hlock, rfl⟩ := key _ _ hs
      rw [← hpc]
      exact .inside huse (Or.inl ⟨l, hpc⟩) hlock
    | unlocking l e =>
      simp only [huse, hpc] at hs
      obtain ⟨lock, hlock, rfl⟩ := key _ _ hs
      rw [← hpc]
      exact .inside huse (Or.inr ⟨l, e, hpc⟩) hlock
    | idle | lockFn | unlockFn => simp [huse, hpc] at hs

theorem Inv.happens (h : Inv D I s) (hfit : Fits D s)
    (hs : step ops s a = some s') : Happens D s a s' := by
  unfold step at hs
  split at hs
  · -- a stopped run takes no step
    cases hs
  cases a with
  | acquire t l r =>
    cases hpc : s.pc t with
    | idle =>
      simp only [hpc] at hs
      obtain rfl := Option.some.inj hs
      exact h.happens_acquire hfit hpc
    | lockFn | locking | unlockFn | unlocking => simp [hpc] at hs
  | release t l r =>
    cases hpc : s.pc t with
    | idle =>
      simp only [hpc] at hs
      obtain rfl := Option.some.inj hs
      exact h.happens_release hpc
    | lockFn | locking | unlockFn | unlocking => simp [hpc] at hs
  | lock b => exact happens_access hs
  | finish t =>
    cases hout : X.phase s.lock t with
    | out =>
      simp only [hout] at hs
      exact h.happens_finish hfit hout hs
    | acquiring | releasing => simp [hout] at hs

/-! ### Every step keeps the invariant -/

theorem inv_init (hX : X.Correct P I) (hP : P X.init) {table : σ}
    (htable : ∀ t, (D t).Stands table RefModel.init) :
    Inv D I (init X table : State X σ Ptr) := by
  have hzero : ∀ t l, (D t).count table l = 0 := fun t l => by rw [(htable t).2]; rfl
  exact
    { lock := hX.init hP
      live := hX.start.1
      tables := fun t => (htable t).1
      pcOk := fun t => (hX.start.2 t).1
      owned := fun t l _ => iff_of_false (fun h => h (hzero t l)) ((hX.start.2 t).2 l)
      sane := Or.inl rfl }

/-- A thread's part of the invariant speaks about its own table, its own calls and
the locks it holds. -/
theorem PcOk.frame {lock lock' : X.State} {tls : σ} {pc : Pc L Ptr} (h : PcOk D X t lock tls pc)
    (hphase : X.phase lock' t = X.phase lock t)
    (hheld : ∀ l, X.held lock' t l ↔ X.held lock t l) : PcOk D X t lock' tls pc := by
  cases pc with
  | idle | lockFn | locking | unlockFn | unlocking =>
    simp only [PcOk, hphase, hheld] at h ⊢
    exact h

/-- Only a thread at `lock_fn` is inside an acquisition. -/
theorem PcOk.acquiring {lock : X.State} {tls : σ} {pc : Pc L Ptr} (h : PcOk D X t lock tls pc)
    (hphase : X.phase lock t = .acquiring l) : pc = .locking l := by
  cases pc with
  | idle | lockFn | unlockFn | unlocking => simp [PcOk, hphase] at h
  | locking k =>
    rcases h.2 with ⟨hacq, -⟩ | ⟨hout, -⟩
    · rw [hphase] at hacq
      injection hacq with hkl
      rw [hkl]
    · rw [hphase] at hout
      cases hout

/-- Only a thread at `unlock_fn` is inside a release. -/
theorem PcOk.releasing {lock : X.State} {tls : σ} {pc : Pc L Ptr} (h : PcOk D X t lock tls pc)
    (hphase : X.phase lock t = .releasing l) : ∃ e, pc = .unlocking l e := by
  cases pc with
  | idle | lockFn | locking | unlockFn => simp [PcOk, hphase] at h
  | unlocking k e =>
    rcases h.1 with hrel | hout
    · rw [hphase] at hrel
      injection hrel with hkl
      exact ⟨e, by rw [hkl]⟩
    · rw [hphase] at hout
      cases hout

/-- A step of thread `t` keeps the invariant if `t`'s part holds afterwards. -/
theorem Inv.moved (h : Inv D I s) {lock : X.State} {tls : σ} {pc : Pc L Ptr}
    (hlock : I lock) (hlive : X.live lock) (hothers : X.Others t s.lock lock)
    (htls : (D t).Inv tls) (hpc : PcOk D X t lock tls pc)
    (howned : ∀ l, pc.lock ≠ some l → ((D t).count tls l ≠ 0 ↔ X.held lock t l)) :
    Inv D I (s.moved t lock tls pc) := by
  refine
    { lock := hlock
      live := hlive
      tables := fun u => ?_
      pcOk := fun u => ?_
      owned := fun u => ?_
      sane := h.sane }
  -- what the invariant says of `t` is assumed; the rest is about the others
  all_goals
    by_cases hu : u = t
    · subst hu
      simp only [State.moved, Function.update_self]
      first | exact htls | exact hpc | exact howned
    simp only [State.moved, Function.update_of_ne hu]
  · exact h.tables u
  · exact (h.pcOk u).frame (hothers u hu).1 (hothers u hu).2
  · intro l hl
    rw [(hothers u hu).2 l]
    exact h.owned u l hl

theorem Inv.stop (h : Inv D I s) {e : Fault}
    (he : e = unbalancedLockPanic ∨ e = unbalancedUnlockPanic) :
    Inv D I { s with stopped := some e } :=
  { lock := h.lock
    live := h.live
    tables := h.tables
    pcOk := h.pcOk
    owned := h.owned
    sane := Or.inr (he.imp (congrArg some) (congrArg some)) }

/-- Nothing happens to anybody's locks. -/
theorem others_refl (t : T) (lock : X.State) : X.Others t lock lock :=
  fun _ _ => ⟨rfl, fun _ => Iff.rfl⟩

/-- Outside any call, a table says what its thread holds. -/
theorem Inv.owned_idle (h : Inv D I s) (hidle : s.pc t = .idle) (l : L) :
    (D t).count (s.table t) l ≠ 0 ↔ X.held s.lock t l :=
  h.owned t l (by simp [hidle, Pc.lock])

theorem Inv.phase_idle (h : Inv D I s) (hidle : s.pc t = .idle) :
    X.phase s.lock t = .out := by
  have hok := h.pcOk t
  rw [hidle] at hok
  exact hok

/-- Only the count of `l` changes, which nothing is said about or which is as it
should be. -/
theorem owned_update {lock : X.State} {tls tls' : σ} {n : Nat} {pc : Pc L Ptr}
    (hcount : (D t).count tls' = Function.update ((D t).count tls) l n)
    (hold : ∀ k, k ≠ l → ((D t).count tls k ≠ 0 ↔ X.held lock t k))
    (hl : pc.lock = some l ∨ (n ≠ 0 ↔ X.held lock t l)) (k : L) (hk : pc.lock ≠ some k) :
    (D t).count tls' k ≠ 0 ↔ X.held lock t k := by
  rw [hcount]
  by_cases hkl : k = l
  · subst hkl
    rw [Function.update_self]
    exact hl.resolve_left hk
  · rw [Function.update_of_ne hkl]
    exact hold k hkl

/-- A release without the flag is of a lock with one reference. -/
def Unnested (D : (t : T) → RefTable (ops t)) (s : State X σ Ptr) : Action X → Prop
  | .release t l false => (D t).count (s.table t) l ≤ 1
  | .release _ _ true | .acquire _ _ _ | .lock _ | .finish _ => True

theorem Inv.step (hX : X.Correct P I) (h : Inv D I s) (hP : P s.lock) (hP' : P s'.lock)
    (hone : Unnested D s a) (hs : Happens D s a s') : Inv D I s' := by
  cases hs with
  | @enter t l r hidle h0 =>
    -- without a reference the thread does not hold the lock, so that it may call `lock_fn`
    have hfree : ¬ X.held s.lock t l := fun hl => (h.owned_idle hidle l).mpr hl h0
    exact h.moved h.lock h.live (others_refl t _) (h.tables t) ⟨h.phase_idle hidle, hfree, h0⟩
      fun k _ => h.owned_idle hidle k
  | @nest t l tls hidle h0 hI hcount =>
    -- there was a reference and there is one more
    exact h.moved h.lock h.live (others_refl t _) hI (h.phase_idle hidle)
      (owned_update hcount (fun k _ => h.owned_idle hidle k)
        (Or.inr (iff_of_true (Nat.succ_ne_zero _) ((h.owned_idle hidle l).mp h0))))
  | refuse => exact h.stop (Or.inl rfl)
  | unbalanced => exact h.stop (Or.inr rfl)
  | @unnest t l tls pc hidle h0 hI hcount hpc =>
    have hheld : X.held s.lock t l := (h.owned_idle hidle l).mp h0
    have hold : ∀ k, k ≠ l → ((D t).count (s.table t) k ≠ 0 ↔ X.held s.lock t k) :=
      fun k _ => h.owned_idle hidle k
    rcases hpc with ⟨rfl, h1⟩ | ⟨rfl, h1⟩
    · exact h.moved h.lock h.live (others_refl t _) hI (h.phase_idle hidle)
        (owned_update hcount hold (Or.inr (iff_of_true (by omega) hheld)))
    · -- the last reference is gone, and the lock is still held
      refine h.moved h.lock h.live (others_refl t _) hI ⟨h.phase_idle hidle, hheld, ?_⟩
        (owned_update hcount hold (Or.inl rfl))
      simp only [Pending, hcount, Function.update_self]
      omega
  | @leave t l e hidle h0 hl =>
    have hheld : X.held s.lock t l := (h.owned_idle hidle l).mp h0
    -- there is one reference, which stays until the lock is free
    have hlast : (D t).count (s.table t) l = 1 := by
      have hle : (D t).count (s.table t) l ≤ 1 := hone
      omega
    exact h.moved h.lock h.live (others_refl t _) (h.tables t)
      ⟨h.phase_idle hidle, hheld, hlast, hl⟩ fun k _ => h.owned_idle hidle k
  | @callLock a t l lock huse hpc hlock =>
    have hok := h.pcOk t
    rw [hpc] at hok
    obtain ⟨hout, hfree, h0⟩ := hok
    have hI : I lock := hX.keep _ _ _ h.lock hP hP' hlock
    have hothers := hX.others _ _ _ h.lock hI hlock
    rw [huse] at hothers
    -- the lock is not held, as `lock_fn` expects
    obtain ⟨hlive, hphase, hheld⟩ := hX.acquire _ _ _ _ _ h.lock hI hlock huse hout hfree
    refine h.moved hI hlive hothers (h.tables t)
      ⟨h0, Or.inl ⟨hphase, fun hl => hfree ((hheld l).mp hl)⟩⟩ fun k hk => ?_
    rw [hheld]
    exact h.owned t k (by rw [hpc]; exact hk)
  | @callUnlock a t l e lock huse hpc hlock =>
    have hok := h.pcOk t
    rw [hpc] at hok
    obtain ⟨hout, hin, hpend⟩ := hok
    have hI : I lock := hX.keep _ _ _ h.lock hP hP' hlock
    have hothers := hX.others _ _ _ h.lock hI hlock
    rw [huse] at hothers
    -- the lock is held, as `unlock_fn` expects
    obtain ⟨hlive, hphase, hheld⟩ := hX.release _ _ _ _ _ h.lock hI hlock huse hout hin
    refine h.moved hI hlive hothers (h.tables t)
      ⟨Or.inl hphase, fun hl => ((hheld l).mp hl).1 rfl, hpend⟩ fun k hk => ?_
    -- only `l` is given up
    have hkl : k ≠ l := fun hkl => hk (by rw [hkl]; rfl)
    rw [hheld, and_iff_right hkl]
    exact h.owned t k (by rw [hpc]; exact hk)
  | @inside a t lock huse _ hlock =>
    have hok := h.pcOk t
    have hI : I lock := hX.keep _ _ _ h.lock hP hP' hlock
    have hothers := hX.others _ _ _ h.lock hI hlock
    rw [huse] at hothers
    obtain ⟨hlive, hadv⟩ := hX.advance _ _ _ _ h.lock hI hlock huse
    -- the lock function goes on, or it returns
    rcases hadv with ⟨hphase, hheld⟩ | ⟨l, hphase, hout, hheld⟩ | ⟨l, hphase, hout, hheld⟩
    · refine h.moved hI hlive hothers (h.tables t) (hok.frame hphase hheld) fun k hk => ?_
      rw [hheld]
      exact h.owned t k hk
    · have hpc := hok.acquiring hphase
      rw [hpc] at hok ⊢
      refine h.moved hI hlive hothers (h.tables t)
        ⟨hok.1, Or.inr ⟨hout, (hheld l).mpr (Or.inl rfl)⟩⟩ fun k hk => ?_
      have hkl : k ≠ l := fun hkl => hk (by rw [hkl]; rfl)
      rw [hheld, or_iff_right hkl]
      exact h.owned t k (by rw [hpc]; exact hk)
    · obtain ⟨e, hpc⟩ := hok.releasing hphase
      rw [hpc] at hok ⊢
      refine h.moved hI hlive hothers (h.tables t)
        ⟨Or.inr hout, fun hl => hok.2.1 ((hheld l).mp hl), hok.2.2⟩ fun k hk => ?_
      rw [hheld]
      exact h.owned t k (by rw [hpc]; exact hk)
  | @recorded t l tls hpc hout hI hcount =>
    have hok := h.pcOk t
    rw [hpc] at hok
    -- `lock_fn` has returned, with the lock
    have hin : X.held s.lock t l := by
      rcases hok.2 with ⟨hacq, -⟩ | ⟨-, hin⟩
      · rw [hout] at hacq
        cases hacq
      · exact hin
    refine h.moved h.lock h.live (others_refl t _) hI hout
      (owned_update hcount (fun k hk => h.owned t k ?_) (Or.inr (iff_of_true Nat.one_ne_zero hin)))
    rw [hpc]
    exact fun hkl => hk (Option.some.inj hkl).symm
  | @dropped t l e tls hpc hout hI hcount =>
    have hok := h.pcOk t
    rw [hpc] at hok
    -- `unlock_fn` has returned, without the lock and without a reference
    refine h.moved h.lock h.live (others_refl t _) hI hout
      (owned_update hcount (fun k hk => h.owned t k ?_)
        (Or.inr (iff_of_false (fun hne => hne rfl) hok.2.1)))
    rw [hpc]
    exact fun hkl => hk (Option.some.inj hkl).symm

theorem tracked_iff (h : Inv D I s) :
    Tracked (ops t) (s.table t) l ↔ (D t).count (s.table t) l ≠ 0 := by
  constructor
  · intro htrack h0
    exact not_tracked ((D t).lookup_none _ _ (h.tables t) h0) htrack
  · exact (D t).lookup_some _ _ (h.tables t)

/-- Outside a call on a lock, the thread whose table has it holds it. -/
theorem Inv.tracked_iff_held (h : Inv D I s) (hout : (s.pc t).lock ≠ some l) :
    Tracked (ops t) (s.table t) l ↔ X.held s.lock t l := by
  rw [tracked_iff h]
  exact h.owned t l hout

/-! ## Shielded locks are locks

What a program sees that passes the flag `false`: a call on a lock begins with the
shield call, and the lock is held from its recording to the release. -/

/-- What an action is to its thread. -/
def useOf : Action X → Use L T
  | .acquire t l _ => .acquire t l
  | .release t l _ => .release t l
  | .lock a => .advance (X.use a).thread
  | .finish t => .advance t

/-- The flag of a call. -/
def Action.flag : Action X → Bool
  | .acquire _ _ r | .release _ _ r => r
  | .lock _ | .finish _ => false

/-- The steps of threads that pass the flag `false`. -/
def plainStep (ops : T → TableOps σ Ptr L) (s : State X σ Ptr) (a : Action X) :
    Option (State X σ Ptr) :=
  if a.flag then none else step ops s a

theorem plainStep_eq_some :
    plainStep ops s a = some s' ↔ a.flag = false ∧ step ops s a = some s' := by
  unfold plainStep
  split <;> simp_all

/-- Locks behind the shield. -/
def mutex (X : Mutex L T) (ops : T → TableOps σ Ptr L) (table : σ) : Mutex L T where
  State := State X σ Ptr
  Act := Action X
  init := init X table
  step := plainStep ops
  use := useOf
  phase s t := (s.pc t).phase
  held s t l := Tracked (ops t) (s.table t) l ∧ (s.pc t).phase ≠ .releasing l
  live s := X.live s.lock ∧ s.stopped = none

theorem Inv.room (h : Inv D I s) (hroom : Roomy D) (hpc : s.pc t = .locking l) :
    (D t).room ((D t).count (s.table t)) := by
  have hok := h.pcOk t
  rw [hpc] at hok
  exact hroom t _ l hok.1

variable (D I) in
/-- Without the flag nobody has two references to a lock. -/
structure PlainInv (s : State X σ Ptr) : Prop extends Inv D I s where
  once : ∀ t l, (D t).count (s.table t) l ≤ 1

theorem plainInv_init (hX : X.Correct P I) (hP : P X.init) {table : σ}
    (htable : ∀ t, (D t).Stands table RefModel.init) :
    PlainInv D I (init X table : State X σ Ptr) := by
  refine ⟨inv_init hX hP htable, fun t l => ?_⟩
  show (D t).count table l ≤ 1
  rw [(htable t).2]
  exact Nat.zero_le 1

theorem PlainInv.unnested (h : PlainInv D I s) (a : Action X) : Unnested D s a := by
  cases a with
  | release t l r =>
    cases r with
    | false => exact h.once t l
    | true => trivial
  | acquire | lock | finish => trivial

theorem PlainInv.fits (h : PlainInv D I s) (hlimit : ∀ t, 1 < (D t).limit) (hroom : Roomy D) :
    Fits D s :=
  fun t => ⟨fun l => Nat.lt_of_le_of_lt (h.once t l) (hlimit t), fun _ => h.room hroom⟩

theorem PlainInv.step (hX : X.Correct P I) (h : PlainInv D I s) (hP : P s.lock)
    (hP' : P s'.lock) (hflag : a.flag = false) (hs : Happens D s a s') : PlainInv D I s' := by
  refine ⟨h.toInv.step hX hP hP' (h.unnested a) hs, ?_⟩
  have key : ∀ {t lock tls pc}, (∀ l, (D t).count tls l ≤ 1) →
      ∀ u l, (D u).count ((s.moved t lock tls pc).table u) l ≤ 1 := by
    intro t lock tls pc htls u
    by_cases hu : u = t
    · subst hu
      simpa only [State.moved, Function.update_self] using htls
    · simpa only [State.moved, Function.update_of_ne hu] using h.once u
  -- a table that changes has the lock once more than never, or not at all
  have update : ∀ {t l n tls}, n ≤ 1 →
      (D t).count tls = Function.update ((D t).count (s.table t)) l n →
      ∀ k, (D t).count tls k ≤ 1 := by
    intro t l n tls hn hcount k
    rw [hcount, Function.update_apply]
    split
    · exact hn
    · exact h.once t k
  cases hs with
  | nest | unnest => cases hflag
  | refuse | unbalanced => exact h.once
  | enter | leave | callLock | callUnlock | inside => exact key (h.once _)
  | recorded _ _ _ hcount => exact key (update (Nat.le_refl 1) hcount)
  | dropped _ _ _ hcount => exact key (update (Nat.zero_le 1) hcount)

theorem idle_of_phase {pc : Pc L Ptr} (h : pc.phase = .out) : pc = .idle := by
  cases pc with
  | idle => rfl
  | lockFn | locking | unlockFn | unlocking => cases h

section Correct

variable {table : σ}

/-- Threads that the step is not about see nothing of it. -/
theorem others_of_happens (hs : Happens D s a s') :
    (mutex X ops table).Others (useOf a).thread s s' := by
  have key : ∀ t lock tls pc, (mutex X ops table).Others t s (s.moved t lock tls pc) := by
    intro t lock tls pc u hu
    simp [mutex, State.moved, hu]
  cases hs with
  | refuse | unbalanced => exact fun _ _ => ⟨rfl, fun _ => Iff.rfl⟩
  | enter | nest | unnest | leave | recorded | dropped => exact key _ _ _ _
  | callLock huse | callUnlock huse | inside huse =>
    simp only [useOf, huse, Use.thread]
    exact key _ _ _ _

theorem mutex_held : (mutex X ops table).held s t l ↔
    Tracked (ops t) (s.table t) l ∧ (s.pc t).phase ≠ .releasing l := Iff.rfl

theorem moved_phase {lock : X.State} {tls : σ} {pc : Pc L Ptr} :
    (mutex X ops table).phase (s.moved t lock tls pc) t = pc.phase := by
  simp [mutex, State.moved]

theorem moved_held {lock : X.State} {tls : σ} {pc : Pc L Ptr} {k : L} :
    (mutex X ops table).held (s.moved t lock tls pc) t k ↔
      Tracked (ops t) tls k ∧ pc.phase ≠ .releasing k := by
  simp [mutex, State.moved]

theorem advanced_of_happens (h : Inv D I s) (h' : Inv D I s') (hs : Happens D s a s')
    (huse : useOf a = .advance t) :
    s'.stopped = s.stopped ∧ (mutex X ops table).Advanced t s s' := by
  -- a step that leaves the thread in its call
  have stays : ∀ lock pc, pc.phase = (s.pc t).phase →
      (mutex X ops table).Advanced t s (s.moved t lock (s.table t) pc) := by
    intro lock pc hpc
    refine Or.inl ⟨by rw [moved_phase, hpc]; rfl, fun k => ?_⟩
    rw [moved_held, hpc]
    rfl
  cases hs with
  | enter | nest | refuse | unbalanced | unnest | leave => cases huse
  | callLock hlock hpc =>
    simp only [useOf, hlock, Use.thread, Use.advance.injEq] at huse
    subst huse
    exact ⟨rfl, stays _ _ (by rw [hpc]; rfl)⟩
  | callUnlock hlock hpc =>
    simp only [useOf, hlock, Use.thread, Use.advance.injEq] at huse
    subst huse
    exact ⟨rfl, stays _ _ (by rw [hpc]; rfl)⟩
  | inside hlock =>
    simp only [useOf, hlock, Use.thread, Use.advance.injEq] at huse
    subst huse
    exact ⟨rfl, stays _ _ rfl⟩
  | @recorded v l tls hpc _ hI hcount =>
    injection huse with ht
    subst ht
    have hphase : (s.pc v).phase = .acquiring l := by rw [hpc]; rfl
    refine ⟨rfl, Or.inr (Or.inl ⟨l, hphase, moved_phase, fun k => ?_⟩)⟩
    have hafter : Tracked (ops v) tls k ↔ k = l ∨ Tracked (ops v) (s.table v) k := by
      -- the lock has its entry now
      have htls := tracked_iff (t := v) (l := k) h'
      simp only [State.moved, Function.update_self, hcount] at htls
      rw [htls, tracked_iff h]
      by_cases hkl : k = l
      · simp [hkl]
      · simp [hkl]
    rw [moved_held, hafter, mutex_held, hphase]
    simp [Pc.phase]
  | @dropped v l e tls hpc _ hI hcount =>
    injection huse with ht
    subst ht
    have hphase : (s.pc v).phase = .releasing l := by rw [hpc]; rfl
    refine ⟨rfl, Or.inr (Or.inr ⟨l, hphase, moved_phase, fun k => ?_⟩)⟩
    have hafter : Tracked (ops v) tls k ↔ k ≠ l ∧ Tracked (ops v) (s.table v) k := by
      -- the lock has no entry any more
      have htls := tracked_iff (t := v) (l := k) h'
      simp only [State.moved, Function.update_self, hcount] at htls
      rw [htls, tracked_iff h]
      by_cases hkl : k = l
      · simp [hkl]
      · simp [hkl]
    rw [moved_held, hafter, mutex_held, hphase]
    simp [Pc.phase, eq_comm, and_comm]

theorem acquired_of_happens (h : Inv D I s) (hs : Happens D s (.acquire t l r) s')
    (hidle : s.pc t = .idle) (hfree : ¬ (mutex X ops table).held s t l) :
    s'.stopped = s.stopped ∧ (mutex X ops table).phase s' t = .acquiring l ∧
      ∀ k, (mutex X ops table).held s' t k ↔ (mutex X ops table).held s t k := by
  -- a lock with an entry would be held
  have hnot : ¬ Tracked (ops t) (s.table t) l := fun htrack =>
    hfree ⟨htrack, by simp [hidle, Pc.phase]⟩
  cases hs with
  | enter =>
    refine ⟨rfl, moved_phase, fun k => ?_⟩
    rw [moved_held, mutex_held, hidle]
    simp [Pc.phase]
  | nest _ h0 | refuse _ h0 => exact absurd ((tracked_iff h).mpr h0) hnot

theorem released_of_happens (h : Inv D I s) (hs : Happens D s (.release t l false) s')
    (hidle : s.pc t = .idle) (hin : (mutex X ops table).held s t l) :
    s'.stopped = s.stopped ∧ (mutex X ops table).phase s' t = .releasing l ∧
      ∀ k, (mutex X ops table).held s' t k ↔ k ≠ l ∧ (mutex X ops table).held s t k := by
  cases hs with
  | leave =>
    refine ⟨rfl, moved_phase, fun k => ?_⟩
    rw [moved_held, mutex_held, hidle]
    simp [Pc.phase, eq_comm, and_comm]
  | unbalanced _ h0 => exact absurd h0 ((tracked_iff h).mp hin.1)

/-- Who holds a lock behind the shield holds the lock. -/
theorem held_of_mutex (h : Inv D I s) (hin : (mutex X ops table).held s t l) :
    X.held s.lock t l := by
  obtain ⟨htrack, hphase⟩ := hin
  by_cases hlock : (s.pc t).lock = some l
  · -- a lock that is being acquired is not tracked
    have hne := (tracked_iff h).mp htrack
    have hok := h.pcOk t
    cases hpc : s.pc t with
    | idle => simp [hpc, Pc.lock] at hlock
    | lockFn k | locking k =>
      rw [hpc] at hok hlock
      obtain rfl : k = l := Option.some.inj hlock
      simp [PcOk, hne] at hok
    | unlockFn k e | unlocking k e =>
      rw [hpc] at hphase hlock
      obtain rfl : k = l := Option.some.inj hlock
      exact absurd rfl hphase
  · exact (h.tracked_iff_held hlock).mp htrack

/-- A stopped run takes no step. -/
theorem running (hs : step ops s a = some s') : s.stopped = none := by
  unfold step at hs
  split at hs
  · cases hs
  · rename_i hstop
    simpa using hstop

/-- Locks behind the shield are a correct mutex if the locks are. -/
theorem mutex_correct (hX : X.Correct P I) (htable : ∀ t, (D t).Stands table RefModel.init)
    (hlimit : ∀ t, 1 < (D t).limit) (hroom : Roomy D) :
    (mutex X ops table).Correct (fun s => P s.lock) (PlainInv D I) := by
  have happens : ∀ {s s' : State X σ Ptr} {a : Action X}, PlainInv D I s →
      plainStep ops s a = some s' → Happens D s a s' :=
    fun h hs => h.happens (h.fits hlimit hroom) (plainStep_eq_some.mp hs).2
  have runs : ∀ {s s' : State X σ Ptr} {a : Action X},
      plainStep ops s a = some s' → s.stopped = none :=
    fun hs => running (plainStep_eq_some.mp hs).2
  exact
    { init := fun hP => plainInv_init hX hP htable
      keep := fun s a s' h hP hP' hs =>
        h.step hX hP hP' (plainStep_eq_some.mp hs).1 (happens h hs)
      start := by
        refine ⟨⟨hX.start.1, rfl⟩, fun t => ⟨rfl, fun l hl => ?_⟩⟩
        -- the tables begin empty
        have h0 : (D t).count table l = 0 := by rw [(htable t).2]; rfl
        exact not_tracked ((D t).lookup_none _ _ (htable t).1 h0) hl.1
      others := fun s a s' h _ hs => others_of_happens (happens h hs)
      acquire := fun s a s' t l h h' hs huse hout hfree => by
        have hrun := runs hs
        cases a with
        | acquire u k r =>
          cases huse
          obtain ⟨hstop, hafter⟩ :=
            acquired_of_happens h.toInv (happens h hs) (idle_of_phase hout) hfree
          exact ⟨⟨h'.live, hstop.trans hrun⟩, hafter⟩
        | release | lock | finish => cases huse
      release := fun s a s' t l h h' hs huse hout hin => by
        have hrun := runs hs
        cases a with
        | release u k r =>
          cases huse
          -- these threads release without the flag
          obtain rfl : r = false := (plainStep_eq_some.mp hs).1
          obtain ⟨hstop, hafter⟩ :=
            released_of_happens h.toInv (happens h hs) (idle_of_phase hout) hin
          exact ⟨⟨h'.live, hstop.trans hrun⟩, hafter⟩
        | acquire | lock | finish => cases huse
      advance := fun s a s' t h h' hs huse => by
        obtain ⟨hstop, hadv⟩ := advanced_of_happens h.toInv h'.toInv (happens h hs) huse
        exact ⟨⟨h'.live, hstop.trans (runs hs)⟩, hadv⟩
      exclusive := fun s l t u h ht hu =>
        hX.exclusive _ _ _ _ h.lock (held_of_mutex h.toInv ht) (held_of_mutex h.toInv hu) }

end Correct

end LockShield.Shielded
