import LockShield.Lib.Lts
import LockShield.Table.Hybrid

/-!
# Shielded test-and-set locks

Any number of threads, each with its own `LS_HYBRID` table, use shared `TASLock`
objects through `LS_ACQUIRE` and `LS_RELEASE`. `TASLock` does not know its
owner, so only the tables keep a thread from unlocking what it does not hold.

A thread works on its own table without interference, so a step is a thread's
local work up to and including its next access of a lock's flag. Between two
steps a thread may be inside a call with the lock taken and not recorded yet, or
cleared and still recorded (`Pc`). `setter` and `refs` are history: no step
reads them.

## Results

* `startAcquire_inv`, `startRelease_inv`, `proceed_inv` — every step keeps the invariant.
* `shielded_mutual_exclusion` — one thread at a time is between the return of its outermost
  acquisition and its outermost release, and only it clears the flag.
-/

set_option linter.unusedSectionVars false

namespace LockShield.TasShield

open Lib

/-- Where a thread is inside a shield call. -/
inductive Pc (Addr : Type) where
  | idle
  /-- in the loop of `TASLock::Acquire` -/
  | spin (l : Addr)
  /-- `TASLock::Acquire` has returned, `IncrementRef` is next -/
  | record (l : Addr)
  /-- `DecrementRef` returned 0, `TASLock::Release` is next -/
  | unlock (l : Addr)
  /-- `TASLock::Release` is next, `DecrementRef` of the entry follows -/
  | unlockFirst (l : Addr) (entry : EntryPtr)
  /-- `DecrementRef` of the entry is next -/
  | drop (l : Addr) (entry : EntryPtr)
  deriving DecidableEq

/-- The lock the thread is inside a call on. -/
def Pc.lock {Addr : Type} : Pc Addr → Option Addr
  | .idle => none
  | .spin l | .record l | .unlock l | .unlockFirst l _ | .drop l _ => some l

variable (M Addr T : Type)

structure State where
  table : T → Hybrid.Tls M Addr
  /-- `TASLock::locked` -/
  locked : Addr → Bool
  pc : T → Pc Addr
  /-- the panic, or another fault, that ended the run -/
  stopped : Option Fault
  /-- the thread whose `test_and_set` last set the flag, until it is cleared -/
  setter : Addr → Option T
  /-- the references each thread has counted -/
  refs : T → Addr → Nat

variable {M Addr T}

inductive Action (Addr T : Type) where
  | acquire (t : T) (l : Addr)
  | release (t : T) (l : Addr)
  | advance (t : T)

variable [Inhabited Addr] [DecidableEq Addr] [DecidableEq T] [PtrMap M Addr NodePtr]

def init : State M Addr T where
  table _ := Hybrid.init
  locked _ := false
  pc _ := .idle
  stopped := none
  setter _ := none
  refs _ _ := 0

/-- Run a table helper of thread `t` and go on with its result. -/
def State.onTable {α : Type} (s : State M Addr T) (t : T)
    (x : EStateM Fault (Hybrid.Tls M Addr) α) (k : State M Addr T → α → State M Addr T) :
    State M Addr T :=
  match x.run (s.table t) with
  | .ok a tls => k { s with table := Function.update s.table t tls } a
  | .error e tls => { s with table := Function.update s.table t tls, stopped := some e }

def State.goto (s : State M Addr T) (t : T) (pc : Pc Addr) : State M Addr T :=
  { s with pc := Function.update s.pc t pc }

/-- Thread `t` now counts `n` references to `l`. -/
def State.counted (s : State M Addr T) (t : T) (l : Addr) (n : Nat) : State M Addr T :=
  { s with refs := Function.update s.refs t (Function.update (s.refs t) l n) }

variable (reentrant : Addr → Bool) (malloc : T → Nat → List Nat → Option Nat)

/-- `LS_ACQUIRE(l, reentrant(l), TASLock::Acquire)`, up to the loop. -/
def startAcquire (s : State M Addr T) (t : T) (l : Addr) : State M Addr T :=
  s.onTable t (Tls.lookup l) fun s entry =>
    match entry with
    | none => s.goto t (.spin l)
    | some e =>
      if reentrant l then
        s.onTable t (Hybrid.incrementRef (malloc t) l (some e)) fun s _ =>
          s.counted t l (s.refs t l + 1)
      else { s with stopped := some unbalancedLockPanic }

/-- `LS_RELEASE(l, reentrant(l), TASLock::Release)`, up to the clear. -/
def startRelease (s : State M Addr T) (t : T) (l : Addr) : State M Addr T :=
  s.onTable t (Tls.lookup l) fun s entry =>
    match entry with
    | none => { s with stopped := some unbalancedUnlockPanic }
    | some e =>
      if reentrant l then
        s.onTable t (Hybrid.decrementRef l (some e)) fun s val =>
          (s.counted t l (s.refs t l - 1)).goto t (if val = 0 then .unlock l else .idle)
      else s.goto t (.unlockFirst l e)

/-- `locked.clear()`. -/
def State.clear (s : State M Addr T) (l : Addr) : State M Addr T :=
  { s with locked := Function.update s.locked l false, setter := Function.update s.setter l none }

/-- The rest of a call, one flag access at a time. -/
def proceed (s : State M Addr T) (t : T) : Pc Addr → Option (State M Addr T)
  | .idle => none
  | .spin l =>
    -- `test_and_set`: the loop is left by the thread that found the flag clear
    if s.locked l then some s
    else some ({ s with
      locked := Function.update s.locked l true
      setter := Function.update s.setter l (some t) }.goto t (.record l))
  | .record l =>
    some (s.onTable t (Hybrid.incrementRef (malloc t) l none) fun s _ =>
      (s.counted t l (s.refs t l + 1)).goto t .idle)
  | .unlock l => some ((s.clear l).goto t .idle)
  | .unlockFirst l e => some ((s.clear l).goto t (.drop l e))
  | .drop l e =>
    some (s.onTable t (Hybrid.decrementRef l (some e)) fun s _ =>
      (s.counted t l (s.refs t l - 1)).goto t .idle)

/-- One step of one thread; a stopped run takes none. -/
def step (s : State M Addr T) (a : Action Addr T) : Option (State M Addr T) :=
  if s.stopped.isSome then none
  else
    match a with
    | .acquire t l => if s.pc t = .idle then some (startAcquire reentrant malloc s t l) else none
    | .release t l => if s.pc t = .idle then some (startRelease reentrant s t l) else none
    | .advance t => proceed malloc s t (s.pc t)

/-- The thread's table has an entry for the lock. -/
def Tracks (s : State M Addr T) (t : T) (l : Addr) : Prop :=
  ∃ e, (Tls.lookup l).run (s.table t) = .ok (some e) (s.table t)

/-- `TASLock::Release` on `l` is the thread's next step. -/
def Releasing (s : State M Addr T) (t : T) (l : Addr) : Prop :=
  s.pc t = .unlock l ∨ ∃ e, s.pc t = .unlockFirst l e

/-- Every count fits an `int`. -/
def CountsFit (s : State M Addr T) : Prop := ∀ t l, s.refs t l < 2 ^ 31

/-! ## The invariant -/

/-- What a thread inside a call has done so far. -/
def PcOk (s : State M Addr T) (t : T) : Pc Addr → Prop
  | .idle => True
  | .spin l => s.refs t l = 0
  | .record l => s.refs t l = 0 ∧ s.setter l = some t
  | .unlock l => s.refs t l = 0 ∧ s.setter l = some t
  | .unlockFirst l e => s.refs t l = 1 ∧ s.setter l = some t ∧
      (Tls.lookup l).run (s.table t) = .ok (some e) (s.table t)
  | .drop l e => s.refs t l = 1 ∧
      (Tls.lookup l).run (s.table t) = .ok (some e) (s.table t)

structure Inv (reentrant : Addr → Bool) (s : State M Addr T) : Prop where
  tables : ∀ t, (s.table t).Inv Hybrid.laws Hybrid.maxHashEntries
  counts : ∀ t, (s.table t).count = s.refs t
  pcOk : ∀ t, PcOk s t (s.pc t)
  /-- who counts references to a lock owns it, except after clearing it first -/
  owned : ∀ t l, s.refs t l ≠ 0 → (∀ e, s.pc t ≠ .drop l e) → s.setter l = some t
  flagged : ∀ l, s.locked l = (s.setter l).isSome
  plain : ∀ t l, reentrant l = false → s.refs t l ≤ 1
  sane : s.stopped = none ∨ s.stopped = some unbalancedLockPanic ∨
    s.stopped = some unbalancedUnlockPanic

variable {reentrant malloc}

variable {s s' : State M Addr T} {t u : T} {l : Addr}

theorem inv_init [LawfulPtrMap M] : Inv reentrant (init : State M Addr T) := by
  obtain ⟨hmode, hcount⟩ := Tls.arrayMode_of_untouched (L := Hybrid.laws)
    (s := (Hybrid.init : Hybrid.Tls M Addr)) rfl rfl rfl rfl
  exact
    { tables := fun _ => Or.inl hmode
      counts := fun _ => funext hcount
      pcOk := fun _ => trivial
      owned := fun _ _ hne => absurd rfl hne
      flagged := fun _ => rfl
      plain := fun _ _ _ => Nat.zero_le 1
      sane := Or.inl rfl }

/-- A thread's program counter speaks about its own table and counts, and about
locks it has set. -/
theorem PcOk.frame {pc : Pc Addr} (h : PcOk s t pc) (htable : s'.table t = s.table t)
    (hrefs : s'.refs t = s.refs t)
    (hset : ∀ l, s.setter l = some t → s'.setter l = some t) : PcOk s' t pc := by
  cases pc with
  | idle => trivial
  | spin l => exact (congrFun hrefs l).trans h
  | record l => exact ⟨hrefs ▸ h.1, hset l h.2⟩
  | unlock l => exact ⟨hrefs ▸ h.1, hset l h.2⟩
  | unlockFirst l e => exact ⟨hrefs ▸ h.1, hset l h.2.1, htable ▸ h.2.2⟩
  | drop l e => exact ⟨hrefs ▸ h.1, htable ▸ h.2⟩

/-- A step of thread `t` keeps the invariant if `t`'s part holds afterwards and
no other thread loses a lock it has set. -/
theorem Inv.of_step (h : Inv reentrant s)
    (hothers : ∀ u, u ≠ t → s'.table u = s.table u ∧ s'.refs u = s.refs u ∧ s'.pc u = s.pc u)
    (hset : ∀ l u, u ≠ t → s.setter l = some u → s'.setter l = some u)
    (hflag : ∀ l, s'.locked l = (s'.setter l).isSome)
    (htable : (s'.table t).Inv Hybrid.laws Hybrid.maxHashEntries)
    (hcount : (s'.table t).count = s'.refs t) (hpc : PcOk s' t (s'.pc t))
    (howned : ∀ l, s'.refs t l ≠ 0 → (∀ e, s'.pc t ≠ .drop l e) → s'.setter l = some t)
    (hplain : ∀ l, reentrant l = false → s'.refs t l ≤ 1)
    (hsane : s'.stopped = none ∨ s'.stopped = some unbalancedLockPanic ∨
      s'.stopped = some unbalancedUnlockPanic) : Inv reentrant s' := by
  refine
    { tables := fun u => ?_
      counts := fun u => ?_
      pcOk := fun u => ?_
      owned := fun u l hne hdrop => ?_
      flagged := hflag
      plain := fun u l hr => ?_
      sane := hsane }
  -- what the invariant says of `t` is assumed; the rest is about the others
  all_goals
    by_cases hu : u = t
    · subst hu
      first | exact htable | exact hcount | exact hpc | exact howned l hne hdrop | exact hplain l hr
  · rw [(hothers u hu).1]
    exact h.tables u
  · rw [(hothers u hu).1, (hothers u hu).2.1]
    exact h.counts u
  · rw [(hothers u hu).2.2]
    exact (h.pcOk u).frame (hothers u hu).1 (hothers u hu).2.1 fun l => hset l u hu
  · rw [(hothers u hu).2.1] at hne
    rw [(hothers u hu).2.2] at hdrop
    exact hset l u hu (h.owned u l hne hdrop)
  · rw [(hothers u hu).2.1]
    exact h.plain u l hr

/-! ### Local work -/

theorem onTable_ok {α : Type} {x : EStateM Fault (Hybrid.Tls M Addr) α}
    {k : State M Addr T → α → State M Addr T} {a : α} {tls : Hybrid.Tls M Addr}
    (h : x.run (s.table t) = .ok a tls) :
    s.onTable t x k = k { s with table := Function.update s.table t tls } a := by
  unfold State.onTable
  rw [h]

/-- A look at the table leaves the state alone. -/
theorem onTable_lookup {k : State M Addr T → Option EntryPtr → State M Addr T}
    {r : Option EntryPtr} (h : (Tls.lookup l).run (s.table t) = .ok r (s.table t)) :
    s.onTable t (Tls.lookup l) k = k s r := by
  rw [onTable_ok h, Function.update_eq_self]

theorem Inv.not_tracked (h : Inv reentrant s) (h0 : s.refs t l = 0) :
    (Tls.lookup l).run (s.table t) = .ok none (s.table t) := by
  have hcount : (s.table t).count l = 0 := by rw [h.counts t, h0]
  exact (Tls.lookup_spec (h.tables t) l).elim And.right fun hne => absurd hcount hne.1

theorem Inv.tracked (h : Inv reentrant s) (hne : s.refs t l ≠ 0) :
    ∃ e, (Tls.lookup l).run (s.table t) = .ok (some e) (s.table t) := by
  rw [← h.counts t] at hne
  exact (Tls.lookup_iff (h.tables t) l).mpr hne

theorem tracks_iff (h : Inv reentrant s) : Tracks s t l ↔ s.refs t l ≠ 0 := by
  rw [← h.counts t]
  exact Tls.lookup_iff (h.tables t) l

/-- Only thread `t`'s count of `l` changes. -/
theorem counted_eq (s : State M Addr T) (t : T) (l : Addr) (n : Nat) :
    (s.counted t l n).refs t = Function.update (s.refs t) l n := by
  simp [State.counted]

theorem goto_same {pc : Pc Addr} (h : s.pc t = pc) : s.goto t pc = s := by
  unfold State.goto
  rw [← h, Function.update_eq_self]

/-- A thread that records or drops a reference to `l` keeps the invariant. -/
theorem Inv.recount (h : Inv reentrant s) {tls : Hybrid.Tls M Addr} {n : Nat} {pc : Pc Addr}
    (hinv : tls.Inv Hybrid.laws Hybrid.maxHashEntries)
    (hcount : tls.count = Function.update (s.table t).count l n)
    (hold : ∀ k e, s.pc t = .drop k e → k = l)
    (hown : n ≠ 0 → s.setter l = some t)
    (hpc : pc = .idle ∨ (pc = .unlock l ∧ n = 0 ∧ s.setter l = some t))
    (hplain : reentrant l = false → n ≤ 1) :
    Inv reentrant ((({ s with table := Function.update s.table t tls } :
      State M Addr T).counted t l n).goto t pc) := by
  have hrefs : ((({ s with table := Function.update s.table t tls } :
      State M Addr T).counted t l n).goto t pc).refs t = Function.update (s.refs t) l n :=
    counted_eq ..
  have hpct : ((({ s with table := Function.update s.table t tls } :
      State M Addr T).counted t l n).goto t pc).pc t = pc := Function.update_self ..
  have htab : ((({ s with table := Function.update s.table t tls } :
      State M Addr T).counted t l n).goto t pc).table t = tls := Function.update_self ..
  refine h.of_step (t := t) (fun u hu => ?_) (fun _ _ _ hs => hs) h.flagged ?_ ?_ ?_ ?_ ?_ h.sane
  · simp [State.counted, State.goto, hu]
  · rw [htab]
    exact hinv
  · rw [htab, hrefs, hcount, h.counts t]
  · rw [hpct]
    rcases hpc with rfl | ⟨rfl, rfl, hset⟩
    · trivial
    · refine ⟨?_, hset⟩
      rw [hrefs, Function.update_self]
  · intro k hne _
    rw [hrefs] at hne
    by_cases hk : k = l
    · subst hk
      -- the count of `l` is new, the others are owned as before
      rw [Function.update_self] at hne
      exact hown hne
    · rw [Function.update_of_ne hk] at hne
      exact h.owned t k hne fun e hdrop => hk (hold k e hdrop)
  · intro k hk
    rw [hrefs]
    by_cases hkl : k = l
    · subst hkl
      rw [Function.update_self]
      exact hplain hk
    · rw [Function.update_of_ne hkl]
      exact h.plain t k hk

/-- A thread that moves on without touching its table or a flag. -/
theorem Inv.goto (h : Inv reentrant s) {pc : Pc Addr} (hidle : s.pc t = .idle)
    (hpc : PcOk s t pc) : Inv reentrant (s.goto t pc) := by
  have hpct : (s.goto t pc).pc t = pc := Function.update_self ..
  refine h.of_step (t := t) (fun u hu => ?_) (fun _ _ _ hs => hs) h.flagged (h.tables t)
    (h.counts t) ?_ (fun k hne _ => ?_) (h.plain t) h.sane
  · simp [State.goto, hu]
  · rw [hpct]
    exact hpc.frame rfl rfl fun _ hs => hs
  · exact h.owned t k hne fun e hd => by rw [hidle] at hd; cases hd

theorem Inv.stop (h : Inv reentrant s) {e : Fault}
    (he : e = unbalancedLockPanic ∨ e = unbalancedUnlockPanic) :
    Inv reentrant { s with stopped := some e } :=
  { tables := h.tables
    counts := h.counts
    pcOk := fun t => (h.pcOk t).frame rfl rfl fun _ hs => hs
    owned := h.owned
    flagged := h.flagged
    plain := h.plain
    sane := Or.inr (he.imp (congrArg some) (congrArg some)) }

/-- Clearing the flag of a lock the thread has set. -/
theorem Inv.clear (h : Inv reentrant s) {pc : Pc Addr} (hset : s.setter l = some t)
    (hpc : PcOk ((s.clear l).goto t pc) t pc)
    (hown : s.refs t l ≠ 0 → ∃ e, pc = .drop l e)
    (hold : ∀ k e, s.pc t ≠ .drop k e) : Inv reentrant ((s.clear l).goto t pc) := by
  have hpct : ((s.clear l).goto t pc).pc t = pc := Function.update_self ..
  have hother : ∀ k, k ≠ l → ((s.clear l).goto t pc).setter k = s.setter k := fun k hk =>
    Function.update_of_ne hk ..
  refine h.of_step (t := t) (fun u hu => ?_) (fun k u hu hs => ?_) (fun k => ?_) (h.tables t)
    (h.counts t) (by rw [hpct]; exact hpc) (fun k hne hdrop => ?_) (h.plain t) h.sane
  · simp [State.clear, State.goto, hu]
  · -- a lock another thread has set is not the one that is cleared
    have hk : k ≠ l := by
      intro hk
      rw [hk, hset] at hs
      exact hu (Option.some.inj hs).symm
    rw [hother k hk]
    exact hs
  · by_cases hk : k = l
    · subst hk
      simp [State.clear, State.goto]
    · rw [hother k hk, ← h.flagged k]
      simp [State.clear, State.goto, hk]
  · -- only a thread about to drop its count still has one for `l`
    have hk : k ≠ l := by
      intro hk
      subst hk
      obtain ⟨e, rfl⟩ := hown hne
      exact hdrop e hpct
    rw [hother k hk]
    exact h.owned t k hne (hold k)

/-- Setting a clear flag. -/
theorem Inv.set (h : Inv reentrant s) (hpc : s.pc t = .spin l) (hfree : s.locked l = false) :
    Inv reentrant ({ s with
      locked := Function.update s.locked l true
      setter := Function.update s.setter l (some t) }.goto t (.record l)) := by
  -- nobody has set a clear flag
  have hnone : s.setter l = none := by
    have := h.flagged l
    rw [hfree] at this
    simpa using this.symm
  have h0 : s.refs t l = 0 := by
    have := h.pcOk t
    rw [hpc] at this
    exact this
  set s' := ({ s with
      locked := Function.update s.locked l true
      setter := Function.update s.setter l (some t) } : State M Addr T).goto t (.record l)
    with hs'
  have hpct : s'.pc t = .record l := Function.update_self ..
  have hself : s'.setter l = some t := Function.update_self ..
  have hother : ∀ k, k ≠ l → s'.setter k = s.setter k := fun k hk => Function.update_of_ne hk ..
  refine h.of_step (t := t) (fun u hu => ?_) (fun k u _ hs => ?_) (fun k => ?_) (h.tables t)
    (h.counts t) (by rw [hpct]; exact ⟨h0, hself⟩) (fun k hne _ => ?_) (h.plain t) h.sane
  · simp [hs', State.goto, hu]
  · have hk : k ≠ l := by
      intro hk
      rw [hk, hnone] at hs
      cases hs
    rw [hother k hk]
    exact hs
  · by_cases hk : k = l
    · subst hk
      rw [hself]
      simp [hs', State.goto]
    · rw [hother k hk, ← h.flagged k]
      simp [hs', State.goto, hk]
  · -- the count of `l` follows after the flag
    have hk : k ≠ l := fun hk => hne (hk ▸ h0)
    rw [hother k hk]
    exact h.owned t k hne fun e hd => by rw [hpc] at hd; cases hd

/-! ### The steps of a call -/

section Steps

variable [LawfulPtrMap M]

theorem startAcquire_inv (h : Inv reentrant s) (hidle : s.pc t = .idle)
    (hfit : CountsFit (startAcquire reentrant malloc s t l)) :
    Inv reentrant (startAcquire reentrant malloc s t l) := by
  unfold startAcquire at hfit ⊢
  by_cases h0 : s.refs t l = 0
  · -- no entry: on to the loop of `TASLock::Acquire`
    rw [onTable_lookup (h.not_tracked h0)]
    exact h.goto hidle h0
  · obtain ⟨e, hl⟩ := h.tracked h0
    rw [onTable_lookup hl] at hfit ⊢
    by_cases hr : reentrant l = true
    · -- a nested acquisition counts one more reference
      simp only [hr, if_true] at hfit ⊢
      have hrefs : (s.table t).count l = s.refs t l := congrFun (h.counts t) l
      -- a count that would not fit is ruled out by the state after the step
      have hlt : (s.table t).count l < 2 ^ 31 - 1 := by
        obtain ⟨tls, hinc⟩ := Hybrid.incrementRef_returns (malloc t) (h.tables t) hl
        rw [onTable_ok hinc] at hfit
        have hafter := hfit t l
        rw [counted_eq, Function.update_self] at hafter
        change s.refs t l + 1 < 2 ^ 31 at hafter
        omega
      obtain ⟨tls, hinc, hinv, hcount⟩ :=
        Hybrid.incrementRef_held (malloc t) (h.tables t) hl hlt
      rw [onTable_ok hinc]
      rw [hrefs] at hcount
      have hown : s.setter l = some t :=
        h.owned t l h0 fun e hd => by rw [hidle] at hd; cases hd
      have hkeep := h.recount hinv hcount (fun k e hd => by rw [hidle] at hd; cases hd)
        (fun _ => hown) (Or.inl rfl) fun hplain => by rw [hr] at hplain; cases hplain
      rwa [goto_same (by simp [State.counted, hidle])] at hkeep
    · simp only [hr, if_false, Bool.false_eq_true]
      exact h.stop (Or.inl rfl)

theorem startRelease_inv (h : Inv reentrant s) (hidle : s.pc t = .idle) :
    Inv reentrant (startRelease reentrant s t l) := by
  unfold startRelease
  by_cases h0 : s.refs t l = 0
  · rw [onTable_lookup (h.not_tracked h0)]
    exact h.stop (Or.inr rfl)
  · obtain ⟨e, hl⟩ := h.tracked h0
    have hown : s.setter l = some t :=
      h.owned t l h0 fun e hd => by rw [hidle] at hd; cases hd
    rw [onTable_lookup hl]
    by_cases hr : reentrant l = true
    · -- the flag is cleared after the last reference
      simp only [hr, if_true]
      obtain ⟨tls, hdec, hinv, hcount⟩ := Hybrid.decrementRef_held (h.tables t) hl
      rw [onTable_ok hdec]
      have hrefs : (s.table t).count l = s.refs t l := congrFun (h.counts t) l
      rw [hrefs] at hcount ⊢
      refine h.recount hinv hcount (fun k e hd => by rw [hidle] at hd; cases hd)
        (fun _ => hown) ?_ fun hplain => by rw [hr] at hplain; cases hplain
      by_cases h1 : s.refs t l - 1 = 0
      · exact Or.inr ⟨by simp [h1], h1, hown⟩
      · exact Or.inl (by simp; omega)
    · simp only [hr, if_false, Bool.false_eq_true]
      -- a plain lock is counted once
      have hone : s.refs t l = 1 := by
        have := h.plain t l (by simpa using hr)
        omega
      exact h.goto hidle ⟨hone, hown, hl⟩

theorem proceed_inv (hfresh : ∀ t, MallocFresh (malloc t))
    (hmalloc : ∀ t, MallocSucceeds (malloc t))
    (h : Inv reentrant s) (hs : proceed malloc s t (s.pc t) = some s') : Inv reentrant s' := by
  have hpc := h.pcOk t
  cases hcase : s.pc t with
  | idle =>
    rw [hcase] at hs
    cases hs
  | spin l =>
    rw [hcase] at hs
    simp only [proceed] at hs
    by_cases hfree : s.locked l = true
    · rw [if_pos hfree] at hs
      exact Option.some.inj hs ▸ h
    · rw [if_neg hfree] at hs
      exact Option.some.inj hs ▸ h.set hcase (by simpa using hfree)
  | record l =>
    rw [hcase] at hs hpc
    obtain ⟨h0, hset⟩ := hpc
    have hcount0 : (s.table t).count l = 0 := by rw [h.counts t, h0]
    obtain ⟨tls, hinc, hinv, hcount⟩ :=
      Hybrid.incrementRef_new (hfresh t) (hmalloc t) (h.tables t) hcount0
    simp only [proceed] at hs
    rw [onTable_ok hinc] at hs
    obtain rfl := Option.some.inj hs
    simp only [h0, Nat.zero_add]
    exact h.recount hinv hcount (fun k e hd => by rw [hcase] at hd; cases hd) (fun _ => hset)
      (Or.inl rfl) fun _ => Nat.le_refl 1
  | unlock l =>
    rw [hcase] at hs hpc
    obtain ⟨h0, hset⟩ := hpc
    obtain rfl := Option.some.inj hs
    exact h.clear hset trivial (fun hne => absurd h0 hne)
      fun k e hd => by rw [hcase] at hd; cases hd
  | unlockFirst l e =>
    rw [hcase] at hs hpc
    obtain ⟨h1, hset, hl⟩ := hpc
    obtain rfl := Option.some.inj hs
    exact h.clear hset ⟨h1, hl⟩ (fun _ => ⟨e, rfl⟩) fun k e hd => by rw [hcase] at hd; cases hd
  | drop l e =>
    rw [hcase] at hs hpc
    obtain ⟨h1, hl⟩ := hpc
    obtain ⟨tls, hdec, hinv, hcount⟩ := Hybrid.decrementRef_held (h.tables t) hl
    have hrefs : (s.table t).count l = 1 := (congrFun (h.counts t) l).trans h1
    rw [hrefs] at hcount
    simp only [proceed] at hs
    rw [onTable_ok hdec] at hs
    obtain rfl := Option.some.inj hs
    simp only [h1, Nat.sub_self]
    -- the entry that is dropped is the one for `l`
    refine h.recount hinv hcount (fun k e' hd => ?_) (fun hne => absurd rfl hne) (Or.inl rfl)
      fun _ => Nat.zero_le 1
    rw [hcase] at hd
    cases hd
    rfl

end Steps

variable [LawfulPtrMap M]

theorem reachable_inv (hfresh : ∀ t, MallocFresh (malloc t))
    (hmalloc : ∀ t, MallocSucceeds (malloc t))
    (h : ReachableWithin (step reentrant malloc) CountsFit (init : State M Addr T) s) :
    Inv reentrant s := by
  refine h.invariant (fun _ => inv_init) fun s a s' hI _ hfit hs => ?_
  unfold step at hs
  split at hs
  · cases hs
  cases a with
  | acquire t l =>
    simp only at hs
    split at hs
    · rename_i hidle
      obtain rfl := Option.some.inj hs
      exact startAcquire_inv hI hidle hfit
    · cases hs
  | release t l =>
    simp only at hs
    split at hs
    · rename_i hidle
      obtain rfl := Option.some.inj hs
      exact startRelease_inv hI hidle
    · cases hs
  | advance t => exact proceed_inv hfresh hmalloc hI hs

/-- Shielded mutual exclusion: a lock is tracked by at most one thread outside a
call on it, its flag is then set, and only the thread that set the flag last
clears it. -/
theorem shielded_mutual_exclusion (hfresh : ∀ t, MallocFresh (malloc t))
    (hmalloc : ∀ t, MallocSucceeds (malloc t))
    (h : ReachableWithin (step reentrant malloc) CountsFit (init : State M Addr T) s) :
    (∀ l t u, Tracks s t l → (s.pc t).lock ≠ some l → Tracks s u l → (s.pc u).lock ≠ some l →
      t = u) ∧
    (∀ l t, Tracks s t l → (s.pc t).lock ≠ some l → s.locked l = true) ∧
    (∀ l t, Releasing s t l → s.setter l = some t) := by
  have hI := reachable_inv hfresh hmalloc h
  -- outside a call a table entry means that the thread has set the flag
  have hown : ∀ l t, Tracks s t l → (s.pc t).lock ≠ some l → s.setter l = some t := by
    intro l t htrack hout
    refine hI.owned t l ((tracks_iff hI).mp htrack) fun e hdrop => hout ?_
    rw [hdrop]
    rfl
  refine ⟨fun l t u ht hto hu huo => ?_, fun l t ht hto => ?_, fun l t hrel => ?_⟩
  · have hsame := hown l t ht hto
    rw [hown l u hu huo] at hsame
    exact (Option.some.inj hsame).symm
  · rw [hI.flagged l, hown l t ht hto]
    rfl
  · have hpc := hI.pcOk t
    rcases hrel with hrel | ⟨e, hrel⟩
    · rw [hrel] at hpc
      exact hpc.2
    · rw [hrel] at hpc
      exact hpc.2.1

instance (s : State (FunMap Bool NodePtr) Bool Bool) : Decidable (CountsFit s) :=
  inferInstanceAs (Decidable (∀ t l, s.refs t l < 2 ^ 31))

/-- One thread nests and gives the lock up while the other spins and takes over. -/
def handOver : List (Action Bool Bool) :=
  [.acquire false true, .advance false, .acquire true true, .advance true, .advance false,
    .acquire false true, .release false true, .release false true, .advance true,
    .advance false, .advance true, .advance true, .release true true]

theorem shielded_mutual_exclusion_handOver :
    ∃ s : State (FunMap Bool NodePtr) Bool Bool,
      perform (step (fun _ => true) fun _ => bumpMalloc) CountsFit init handOver = some s ∧
      ∀ l t, Releasing s t l → s.setter l = some t := by
  obtain ⟨s, hs⟩ := Option.isSome_iff_exists.mp
    (show (perform (step (fun _ => true) fun _ => bumpMalloc) CountsFit
      (init : State (FunMap Bool NodePtr) Bool Bool) handOver).isSome = true by decide +kernel)
  have hinit : CountsFit (init : State (FunMap Bool NodePtr) Bool Bool) := by decide
  exact ⟨s, hs, (shielded_mutual_exclusion (fun _ => bumpMalloc_fresh)
    (fun _ => bumpMalloc_succeeds) ((ReachableWithin.start hinit).of_perform hs)).2.2⟩

end LockShield.TasShield
