import LockShield.Table.Alternation

/-!
# The shielding layer of the C library

`LS_ACQUIRE1`, `LS_ACQUIRE2`, `LS_RELEASE1` and `LS_RELEASE2` are the C++
templates without the aborts: a call that is out of balance returns its status
and does nothing else, so a run goes on after it. The two forms differ in the
arguments of the callback. A lock function answers with an `int`, which the
shield does not look at.

The reference model here is the map of counters with the misused calls left out
(`refStep`).

## Results

* `shieldStep_acquire_new`, `shieldStep_release_now` and their siblings — what a call
  shows, by what its lookup finds.
* `shieldStep_unbalanced` — a misused call shows its status and changes nothing.
* `refStep_cases`         — what a call of the model does; a misuse is `Misuse`.
* `alternates_run`        — the callbacks on a lock alternate.
* `simulation`            — a table of counters answers as the model does.
-/

namespace LockShield.Clib

open Lib

variable {σ Ptr Addr Me : Type}

/-! ## The calls -/

/-- What `LS_ACQUIRE1` and `LS_ACQUIRE2` do; `lockFn` is their call of
`__lock_fn`. -/
def acquire (T : TableOps σ Ptr Addr) (l : Addr) (reentrant : Bool)
    (lockFn : EStateM Fault σ Int) : EStateM Fault σ LsStatus := do
  let entry ← T.lookup l
  if entry.isNone then
    let _ ← lockFn
    T.incrementRef l entry
    return .lsAcquireNow
  else if reentrant then
    T.incrementRef l entry
    return .lsSkipAcquisition
  else
    return .lsUnbalancedLock

/-- What `LS_RELEASE1` and `LS_RELEASE2` do. -/
def release (T : TableOps σ Ptr Addr) (l : Addr) (reentrant : Bool)
    (unlockFn : EStateM Fault σ Unit) : EStateM Fault σ LsStatus := do
  let entry ← T.lookup l
  if entry.isNone then
    return .lsUnbalancedUnlock
  else if reentrant then
    let val ← T.decrementRef l entry
    if val = 0 then
      unlockFn
      return .lsReleaseNow
    else
      return .lsSkipRelease
  else
    unlockFn
    let _ ← T.decrementRef l entry
    return .lsReleaseNow

/-- `LS_ACQUIRE1(l, reentrant, lock_fn)`. -/
def lsAcquire1 (T : TableOps σ Ptr Addr) (l : Addr) (reentrant : Bool)
    (lockFn : Addr → EStateM Fault σ Int) : EStateM Fault σ LsStatus :=
  acquire T l reentrant (lockFn l)

/-- `LS_ACQUIRE2(l, me, reentrant, lock_fn)`. -/
def lsAcquire2 (T : TableOps σ Ptr Addr) (l : Addr) (me : Me) (reentrant : Bool)
    (lockFn : Addr → Me → EStateM Fault σ Int) : EStateM Fault σ LsStatus :=
  acquire T l reentrant (lockFn l me)

/-- `LS_RELEASE1(l, reentrant, unlock_fn)`. -/
def lsRelease1 (T : TableOps σ Ptr Addr) (l : Addr) (reentrant : Bool)
    (unlockFn : Addr → EStateM Fault σ Unit) : EStateM Fault σ LsStatus :=
  release T l reentrant (unlockFn l)

/-- `LS_RELEASE2(l, me, reentrant, unlock_fn)`. -/
def lsRelease2 (T : TableOps σ Ptr Addr) (l : Addr) (me : Me) (reentrant : Bool)
    (unlockFn : Addr → Me → EStateM Fault σ Unit) : EStateM Fault σ LsStatus :=
  release T l reentrant (unlockFn l me)

/-! ## Calls with callbacks that leave the table alone -/

/-- A callback call made by the shield; a lock function's comes with its answer. -/
inductive Callback (Addr Me : Type) where
  | lockFn1 (l : Addr) (result : Int)
  | lockFn2 (l : Addr) (me : Me) (result : Int)
  | unlockFn1 (l : Addr)
  | unlockFn2 (l : Addr) (me : Me)
  deriving DecidableEq, Repr

/-- One use of the shield; an acquisition comes with what its lock function
answers if it is called. -/
inductive Call (Addr Me : Type) where
  | acquire1 (l : Addr) (reentrant : Bool) (result : Int)
  | acquire2 (l : Addr) (me : Me) (reentrant : Bool) (result : Int)
  | release1 (l : Addr) (reentrant : Bool)
  | release2 (l : Addr) (me : Me) (reentrant : Bool)
  deriving DecidableEq, Repr

/-- What a returning call shows. -/
structure Reply (Addr Me : Type) where
  status : LsStatus
  callbacks : List (Callback Addr Me)
  deriving DecidableEq, Repr

/-- The callback without the arguments that only the two-argument forms have. -/
def Callback.plain : Callback Addr Me → LockShield.Callback Addr
  | .lockFn1 l _ | .lockFn2 l _ _ => .lockFn l
  | .unlockFn1 l | .unlockFn2 l _ => .unlockFn l

/-- The same use of the C++ shield. -/
def Call.plain : Call Addr Me → LockShield.Call Addr
  | .acquire1 l reentrant _ | .acquire2 l _ reentrant _ => .acquire l reentrant
  | .release1 l reentrant | .release2 l _ reentrant => .release l reentrant

def Call.lock (c : Call Addr Me) : Addr := c.plain.lock

/-- The flag of a call. -/
def Call.reentrant : Call Addr Me → Bool
  | .acquire1 _ reentrant _ | .acquire2 _ _ reentrant _ => reentrant
  | .release1 _ reentrant | .release2 _ _ reentrant => reentrant

/-- The callback a call is for. -/
def Call.callback : Call Addr Me → Callback Addr Me
  | .acquire1 l _ result => .lockFn1 l result
  | .acquire2 l me _ result => .lockFn2 l me result
  | .release1 l _ => .unlockFn1 l
  | .release2 l me _ => .unlockFn2 l me

/-- A callback that only notes that it was called. -/
def record {α : Type} (cb : Callback Addr Me) (answer : α) :
    EStateM Fault (σ × List (Callback Addr Me)) α := do
  modify fun s => (s.1, s.2 ++ [cb])
  return answer

/-- A shield call with recording callbacks. -/
def shieldCall (T : TableOps σ Ptr Addr) :
    Call Addr Me → EStateM Fault (σ × List (Callback Addr Me)) LsStatus
  | .acquire1 l r result =>
    lsAcquire1 (T.withWorld _) l r fun l => record (.lockFn1 l result) result
  | .acquire2 l me r result =>
    lsAcquire2 (T.withWorld _) l me r fun l me => record (.lockFn2 l me result) result
  | .release1 l r => lsRelease1 (T.withWorld _) l r fun l => record (.unlockFn1 l) ()
  | .release2 l me r => lsRelease2 (T.withWorld _) l me r fun l me => record (.unlockFn2 l me) ()

/-- A call as a step of a run. -/
def shieldStep (T : TableOps σ Ptr Addr) (c : Call Addr Me) :
    EStateM (Fault × List (Callback Addr Me)) σ (Reply Addr Me) := fun s =>
  match (shieldCall T c).run (s, []) with
  | .ok st s' => .ok ⟨st, s'.2⟩ s'.1
  | .error e s' => .error (e, s'.2) s'.1

/-! ### What a call does, from what the helpers do -/

section Step

variable {T : TableOps σ Ptr Addr} {s s' : σ} {c : Call Addr Me} {l : Addr} {p : Ptr} {r : Bool}
  {v : Int}

@[simp] theorem run_record {α : Type} (cb : Callback Addr Me) (answer : α) (s : σ)
    (log : List (Callback Addr Me)) :
    (record cb answer).run (s, log) = .ok answer (s, log ++ [cb]) := rfl

theorem run_shieldStep (T : TableOps σ Ptr Addr) (c : Call Addr Me) (s : σ) :
    (shieldStep T c).run s =
      match (shieldCall T c).run (s, []) with
      | .ok st s' => .ok ⟨st, s'.2⟩ s'.1
      | .error e s' => .error (e, s'.2) s'.1 := rfl

/-- The two forms of an acquisition. -/
theorem shieldCall_acquire (hc : c.plain = .acquire l r) :
    ∃ result, shieldCall T c = acquire (T.withWorld _) l r (record c.callback result) := by
  cases c with
  | acquire1 k reentrant result =>
    obtain ⟨rfl, rfl⟩ := by simpa [Call.plain] using hc
    exact ⟨result, rfl⟩
  | acquire2 k me reentrant result =>
    obtain ⟨rfl, rfl⟩ := by simpa [Call.plain] using hc
    exact ⟨result, rfl⟩
  | release1 | release2 => cases hc

/-- The two forms of a release. -/
theorem shieldCall_release (hc : c.plain = .release l r) :
    shieldCall T c = release (T.withWorld _) l r (record c.callback ()) := by
  cases c with
  | release1 k reentrant =>
    obtain ⟨rfl, rfl⟩ := by simpa [Call.plain] using hc
    rfl
  | release2 k me reentrant =>
    obtain ⟨rfl, rfl⟩ := by simpa [Call.plain] using hc
    rfl
  | acquire1 | acquire2 => cases hc

theorem shieldStep_acquire_new (hc : c.plain = .acquire l r)
    (hl : (T.lookup l).run s = .ok none s) (hi : (T.incrementRef l none).run s = .ok () s') :
    (shieldStep T c).run s = .ok ⟨.lsAcquireNow, [c.callback]⟩ s' := by
  obtain ⟨result, hcall⟩ := shieldCall_acquire (T := T) hc
  simp [run_shieldStep, hcall, acquire, TableOps.withWorld, hl, hi]

theorem shieldStep_acquire_skip (hc : c.plain = .acquire l true)
    (hl : (T.lookup l).run s = .ok (some p) s)
    (hi : (T.incrementRef l (some p)).run s = .ok () s') :
    (shieldStep T c).run s = .ok ⟨.lsSkipAcquisition, []⟩ s' := by
  obtain ⟨result, hcall⟩ := shieldCall_acquire (T := T) hc
  simp [run_shieldStep, hcall, acquire, TableOps.withWorld, hl, hi]

theorem shieldStep_acquire_unbalanced (hc : c.plain = .acquire l false)
    (hl : (T.lookup l).run s = .ok (some p) s) :
    (shieldStep T c).run s = .ok ⟨.lsUnbalancedLock, []⟩ s := by
  obtain ⟨result, hcall⟩ := shieldCall_acquire (T := T) hc
  simp [run_shieldStep, hcall, acquire, TableOps.withWorld, hl]

theorem shieldStep_release_unbalanced (hc : c.plain = .release l r)
    (hl : (T.lookup l).run s = .ok none s) :
    (shieldStep T c).run s = .ok ⟨.lsUnbalancedUnlock, []⟩ s := by
  simp [run_shieldStep, shieldCall_release hc, release, TableOps.withWorld, hl]

theorem shieldStep_release_now (hc : c.plain = .release l true)
    (hl : (T.lookup l).run s = .ok (some p) s)
    (hd : (T.decrementRef l (some p)).run s = .ok 0 s') :
    (shieldStep T c).run s = .ok ⟨.lsReleaseNow, [c.callback]⟩ s' := by
  simp [run_shieldStep, shieldCall_release hc, release, TableOps.withWorld, hl, hd]

theorem shieldStep_release_skip (hc : c.plain = .release l true)
    (hl : (T.lookup l).run s = .ok (some p) s)
    (hd : (T.decrementRef l (some p)).run s = .ok v s') (hv : v ≠ 0) :
    (shieldStep T c).run s = .ok ⟨.lsSkipRelease, []⟩ s' := by
  simp [run_shieldStep, shieldCall_release hc, release, TableOps.withWorld, hl, hd, hv]

theorem shieldStep_release_plain (hc : c.plain = .release l false)
    (hl : (T.lookup l).run s = .ok (some p) s)
    (hd : (T.decrementRef l (some p)).run s = .ok v s') :
    (shieldStep T c).run s = .ok ⟨.lsReleaseNow, [c.callback]⟩ s' := by
  simp [run_shieldStep, shieldCall_release hc, release, TableOps.withWorld, hl, hd]

end Step

/-- The status says that the call was out of balance. -/
def Reply.unbalanced (rep : Reply Addr Me) : Bool :=
  rep.status = .lsUnbalancedLock || rep.status = .lsUnbalancedUnlock

/-- A call that reports misuse has only looked. -/
theorem shieldStep_unbalanced {T : TableOps σ Ptr Addr} {s s' : σ} {c : Call Addr Me}
    {rep : Reply Addr Me} (hlookup : ∀ l s r s', (T.lookup l).run s = .ok r s' → s' = s)
    (h : (shieldStep T c).run s = .ok rep s') (hrep : rep.unbalanced = true) : s' = s := by
  cases hc : c.plain with
  | acquire l r =>
    obtain ⟨result, hcall⟩ := shieldCall_acquire (T := T) hc
    cases hl : (T.lookup l).run s with
    -- a lookup that traps gives no status
    | error e s₁ => simp [run_shieldStep, hcall, acquire, TableOps.withWorld, hl] at h
    | ok entry s₁ =>
      -- from here on the state is the one the lookup read
      obtain rfl := hlookup l s entry s₁ hl
      cases entry with
      | none =>
        cases hi : (T.incrementRef l none).run s₁ with
        | error e s₂ => simp [run_shieldStep, hcall, acquire, TableOps.withWorld, hl, hi] at h
        | ok _ s₂ =>
          rw [shieldStep_acquire_new hc hl hi] at h
          obtain ⟨rfl, -⟩ := by simpa using h
          cases hrep
      | some p =>
        cases r with
        | true =>
          cases hi : (T.incrementRef l (some p)).run s₁ with
          | error e s₂ => simp [run_shieldStep, hcall, acquire, TableOps.withWorld, hl, hi] at h
          | ok _ s₂ =>
            rw [shieldStep_acquire_skip hc hl hi] at h
            obtain ⟨rfl, -⟩ := by simpa using h
            cases hrep
        | false =>
          -- the only acquisition that reports misuse stops after the lookup
          rw [shieldStep_acquire_unbalanced hc hl] at h
          obtain ⟨-, rfl⟩ := by simpa using h
          rfl
  | release l r =>
    cases hl : (T.lookup l).run s with
    | error e s₁ =>
      simp [run_shieldStep, shieldCall_release hc, release, TableOps.withWorld, hl] at h
    | ok entry s₁ =>
      obtain rfl := hlookup l s entry s₁ hl
      cases entry with
      | none =>
        -- the only release that reports misuse stops after the lookup
        rw [shieldStep_release_unbalanced hc hl] at h
        obtain ⟨-, rfl⟩ := by simpa using h
        rfl
      | some p =>
        cases hd : (T.decrementRef l (some p)).run s₁ with
        | error e s₂ =>
          cases r <;>
            simp [run_shieldStep, shieldCall_release hc, release, TableOps.withWorld, hl, hd] at h
        | ok v s₂ =>
          cases r with
          | false =>
            rw [shieldStep_release_plain hc hl hd] at h
            obtain ⟨rfl, -⟩ := by simpa using h
            cases hrep
          | true =>
            by_cases hv : v = 0
            · subst hv
              rw [shieldStep_release_now hc hl hd] at h
              obtain ⟨rfl, -⟩ := by simpa using h
              cases hrep
            · rw [shieldStep_release_skip hc hl hd hv] at h
              obtain ⟨rfl, -⟩ := by simpa using h
              cases hrep

/-! ## The reference-count map -/

section Map

variable [DecidableEq Addr]

/-- Acquire and release on a map of counters, with misuse only reported. -/
def refStep (c : Call Addr Me) :
    EStateM (Fault × List (Callback Addr Me)) (Addr → Nat) (Reply Addr Me) := fun cnt =>
  match c.plain with
  | .acquire l r =>
    if cnt l = 0 then
      .ok ⟨.lsAcquireNow, [c.callback]⟩ (Function.update cnt l 1)
    else if r then
      .ok ⟨.lsSkipAcquisition, []⟩ (Function.update cnt l (cnt l + 1))
    else
      .ok ⟨.lsUnbalancedLock, []⟩ cnt
  | .release l r =>
    if cnt l = 0 then
      .ok ⟨.lsUnbalancedUnlock, []⟩ cnt
    else if r then
      if cnt l - 1 = 0 then
        .ok ⟨.lsReleaseNow, [c.callback]⟩ (Function.update cnt l (cnt l - 1))
      else
        .ok ⟨.lsSkipRelease, []⟩ (Function.update cnt l (cnt l - 1))
    else
      .ok ⟨.lsReleaseNow, [c.callback]⟩ (Function.update cnt l (cnt l - 1))

/-- The calls that report misuse. -/
def Misuse (cnt : Addr → Nat) : LockShield.Call Addr → Prop
  | .acquire l r => cnt l ≠ 0 ∧ r = false
  | .release l _ => cnt l = 0

variable {cnt cnt' : Addr → Nat} {c : Call Addr Me} {rep : Reply Addr Me} {l : Addr}

omit [DecidableEq Addr] in
theorem callback_plain (c : Call Addr Me) :
    c.callback.plain = match c.plain with
      | .acquire l _ => .lockFn l
      | .release l _ => .unlockFn l := by
  cases c <;> rfl

/-- A call either reports misuse and changes nothing, or does what the C++ call
does. -/
theorem refStep_cases (cnt : Addr → Nat) (c : Call Addr Me) :
    ∃ rep cnt', (refStep c).run cnt = .ok rep cnt' ∧
      ((Misuse cnt c.plain ∧ cnt' = cnt ∧ rep.callbacks = [] ∧ rep.unbalanced = true) ∨
      (¬ Misuse cnt c.plain ∧ rep.unbalanced = false ∧
        (RefModel.step c.plain).run cnt =
          .ok ⟨rep.status, rep.callbacks.map Callback.plain⟩ cnt')) := by
  have hcb := callback_plain c
  unfold refStep
  cases hc : c.plain with
  | acquire l r =>
    rw [hc] at hcb
    by_cases h0 : cnt l = 0
    · rw [RefModel.step_acquire_new h0]
      exact ⟨_, _, by simp only [EStateM.run, h0, if_true]; rfl,
        Or.inr ⟨fun h => h.1 h0, rfl, by simp [hcb]⟩⟩
    · cases r with
      | true =>
        rw [RefModel.step_acquire_skip h0]
        exact ⟨_, _, by simp only [EStateM.run, h0, if_true, if_false]; rfl,
          Or.inr ⟨fun h => Bool.noConfusion h.2, rfl, rfl⟩⟩
      | false =>
        -- held already and not reentrant
        exact ⟨_, _, by simp only [EStateM.run, h0, if_false]; rfl,
          Or.inl ⟨⟨h0, rfl⟩, rfl, rfl, rfl⟩⟩
  | release l r =>
    rw [hc] at hcb
    by_cases h0 : cnt l = 0
    · -- not held: the C++ shield aborts here, this one reports
      exact ⟨_, _, by simp only [EStateM.run, h0, if_true]; rfl, Or.inl ⟨h0, rfl, rfl, rfl⟩⟩
    · cases r with
      | false =>
        rw [RefModel.step_release_plain h0]
        exact ⟨_, _, by simp only [EStateM.run, h0, if_false]; rfl,
          Or.inr ⟨h0, rfl, by simp [hcb]⟩⟩
      | true =>
        by_cases h1 : cnt l = 1
        · -- the last release of the lock
          rw [RefModel.step_release_now h1]
          exact ⟨_, _, by simp only [EStateM.run, h1, if_true]; rfl,
            Or.inr ⟨h0, rfl, by simp [hcb, h1]⟩⟩
        · have h2 : cnt l - 1 ≠ 0 := by omega
          rw [RefModel.step_release_skip (by omega)]
          exact ⟨_, _, by simp only [EStateM.run, h0, h2, if_true, if_false]; rfl,
            Or.inr ⟨h0, rfl, rfl⟩⟩

/-- The map never stops. -/
theorem refStep_total (cnt : Addr → Nat) (cs : List (Call Addr Me)) :
    (run refStep cnt cs).stop = none := by
  induction cs generalizing cnt with
  | nil => rfl
  | cons c cs ih =>
    obtain ⟨rep, cnt', hstep, -⟩ := refStep_cases cnt c
    rw [run_cons_ok hstep]
    exact ih cnt'

/-- No counter reaches `n` on the way. -/
def Below (n : Nat) (cs : List (Call Addr Me)) : Prop :=
  ∀ pre, pre <+: cs → ∀ l, (run refStep RefModel.init pre).final l < n

/-- No counter exceeds the number of calls. -/
theorem count_le_length (cs : List (Call Addr Me)) (l : Addr) :
    (run refStep RefModel.init cs).final l ≤ cs.length := by
  induction cs using List.reverseRecOn with
  | nil => exact Nat.le_refl 0
  | append_singleton pre c ih =>
    obtain ⟨rep, cnt', hstep, hcases⟩ := refStep_cases (run refStep RefModel.init pre).final c
    rw [run_snoc_ok (refStep_total _ pre) hstep, List.length_append, List.length_singleton]
    rcases hcases with ⟨-, rfl, -⟩ | ⟨-, -, href⟩
    · exact Nat.le_succ_of_le ih
    · exact Nat.le_trans (RefModel.step_ok_bound href l) (Nat.succ_le_succ ih)

theorem below_of_length {n : Nat} {cs : List (Call Addr Me)} (h : cs.length < n) : Below n cs := by
  intro pre hpre l
  have hlen := hpre.length_le
  have hcount := count_le_length pre l
  omega

/-! ### Callbacks -/

/-- The callbacks of the calls that returned. -/
def callbacks (r : Run (Reply Addr Me) (Fault × List (Callback Addr Me)) σ) :
    List (Callback Addr Me) :=
  r.replies.flatMap Reply.callbacks

/-- Every call on a lock has the lock's flag. -/
def SameFlag (flag : Addr → Bool) (cs : List (Call Addr Me)) : Prop :=
  ∀ c ∈ cs, c.reentrant = flag c.lock

instance (flag : Addr → Bool) (cs : List (Call Addr Me)) : Decidable (SameFlag flag cs) :=
  inferInstanceAs (Decidable (∀ c ∈ cs, c.reentrant = flag c.lock))

/-- Callbacks and counters agree, and a lock with a plain flag is never nested. -/
def Flat (flag : Addr → Bool) (cnt : Addr → Nat) (cbs : List (Callback Addr Me)) : Prop :=
  RefModel.Faithful cnt (cbs.map Callback.plain) ∧ ∀ l, flag l = false → cnt l ≤ 1

theorem flat_step {flag : Addr → Bool} {cbs : List (Callback Addr Me)} (h : Flat flag cnt cbs)
    (hc : c.reentrant = flag c.lock) (hstep : (refStep c).run cnt = .ok rep cnt') :
    Flat flag cnt' (cbs ++ rep.callbacks) := by
  obtain ⟨hfaith, hone⟩ := h
  obtain ⟨rep₁, cnt₁, hstep₁, hcases⟩ := refStep_cases cnt c
  rw [hstep] at hstep₁
  obtain ⟨rfl, rfl⟩ := by simpa using hstep₁
  rcases hcases with ⟨-, rfl, hnone, -⟩ | ⟨-, -, href⟩
  · -- misuse calls nothing back and changes no counter
    rw [hnone, List.append_nil]
    exact ⟨hfaith, hone⟩
  · -- every call on a lock carries that lock's flag
    have hflag : ∀ l r, c.plain = .acquire l r ∨ c.plain = .release l r → r = flag l := by
      cases c <;> simp_all [Call.plain, Call.lock, Call.reentrant, LockShield.Call.lock]
    -- so a release without the flag finds the lock held once
    have hflat : RefModel.FlatRelease cnt c.plain := by
      cases hp : c.plain with
      | acquire l r => trivial
      | release l r =>
        cases r with
        | true => trivial
        | false => exact hone l (hflag l false (Or.inr hp)).symm
    refine ⟨?_, fun l hl => ?_⟩
    · rw [List.map_append]
      exact RefModel.faithful_step hfaith hflat href
    · have hupd : ∀ k v, (l = k → v ≤ 1) → Function.update cnt k v l ≤ 1 := by
        intro k v hv
        by_cases hk : l = k
        · subst hk
          rw [Function.update_self]
          exact hv rfl
        · rw [Function.update_of_ne hk]
          exact hone l hl
      rcases RefModel.step_ok_cases href with ⟨k, r, -, -, -, rfl⟩ | ⟨k, hp, -, -, rfl⟩ |
        ⟨k, -, -, -, rfl⟩ | ⟨k, r, -, -, -, rfl⟩
      · exact hupd k 1 fun _ => Nat.le_refl 1
      · -- nesting needs the other flag
        refine hupd k _ fun hk => ?_
        rw [← hk] at hp
        rw [← hflag l true (Or.inl hp)] at hl
        cases hl
      · refine hupd k _ fun hk => ?_
        have := hone l hl
        rw [← hk]
        omega
      · refine hupd k _ fun hk => ?_
        have := hone l hl
        rw [← hk]
        omega

/-- Whatever the misuse, the callbacks on every lock alternate. -/
theorem alternates_run {flag : Addr → Bool} : ∀ {cs : List (Call Addr Me)}, SameFlag flag cs →
    Flat flag (run refStep RefModel.init cs).final (callbacks (run refStep RefModel.init cs)) := by
  intro cs
  induction cs using List.reverseRecOn with
  | nil => exact fun _ => ⟨RefModel.faithful_init, fun _ _ => Nat.zero_le 1⟩
  | append_singleton pre c ih =>
    intro hflag
    have hpre := ih fun d hd => hflag d (List.mem_append_left _ hd)
    obtain ⟨rep, cnt', hstep, -⟩ := refStep_cases (run refStep RefModel.init pre).final c
    rw [run_snoc_ok (refStep_total _ pre) hstep]
    have hlog : callbacks ⟨(run refStep RefModel.init pre).replies ++ [rep],
        (none : Option (Fault × List (Callback Addr Me))), cnt'⟩ =
        callbacks (run refStep RefModel.init pre) ++ rep.callbacks := by
      simp [callbacks]
    rw [hlog]
    exact flat_step hpre (hflag c (by simp)) hstep

end Map

/-! ## Tables that store the map -/

section Table

variable [DecidableEq Addr] {T : TableOps σ Ptr Addr}

/-- The C shield over a table of counters answers every recordable call as the
map does. -/
theorem simulation (D : RefTable T) :
    Simulation (shieldStep T) (refStep : Call Addr Me → _) D.Stands
      (fun cnt c => D.Recordable cnt c.plain) := by
  constructor
  · rintro s cnt c rep cnt' ⟨hI, rfl⟩ hG hstep
    cases hc : c.plain with
    | acquire l r =>
      rw [hc] at hG
      by_cases h0 : D.count s l = 0
      · -- a new lock
        obtain ⟨s', hinc, hI', hcnt⟩ := D.insert s l hI h0 (hG.1 h0)
        simp only [refStep, EStateM.run, hc, h0, if_true] at hstep
        obtain ⟨rfl, rfl⟩ := by simpa using hstep
        exact ⟨s', shieldStep_acquire_new hc (D.lookup_none s l hI h0) hinc, hI', hcnt⟩
      · obtain ⟨p, hl⟩ := D.lookup_some s l hI h0
        cases r with
        | true =>
          -- a nested acquisition; the guard leaves room for one more count
          obtain ⟨s', hinc, hI', hcnt⟩ := D.increment s l p hI hl (hG.2 h0 rfl)
          simp only [refStep, EStateM.run, hc, h0, if_true, if_false] at hstep
          obtain ⟨rfl, rfl⟩ := by simpa using hstep
          exact ⟨s', shieldStep_acquire_skip hc hl hinc, hI', hcnt⟩
        | false =>
          simp only [refStep, EStateM.run, hc, h0, if_false] at hstep
          obtain ⟨rfl, rfl⟩ := by simpa using hstep
          -- the table is not touched
          exact ⟨s, shieldStep_acquire_unbalanced hc hl, hI, rfl⟩
    | release l r =>
      by_cases h0 : D.count s l = 0
      · simp only [refStep, EStateM.run, hc, h0, if_true] at hstep
        obtain ⟨rfl, rfl⟩ := by simpa using hstep
        exact ⟨s, shieldStep_release_unbalanced hc (D.lookup_none s l hI h0), hI, rfl⟩
      · obtain ⟨p, hl⟩ := D.lookup_some s l hI h0
        obtain ⟨s', hdec, hI', hcnt⟩ := D.decrement s l p hI hl
        cases r with
        | true =>
          by_cases h1 : D.count s l - 1 = 0
          · simp only [refStep, EStateM.run, hc, h0, h1, if_true, if_false] at hstep
            obtain ⟨rfl, rfl⟩ := by simpa using hstep
            have hdec0 : (T.decrementRef l (some p)).run s = .ok 0 s' := by simpa [h1] using hdec
            exact ⟨s', shieldStep_release_now hc hl hdec0, hI', by rw [hcnt, h1]⟩
          · simp only [refStep, EStateM.run, hc, h0, h1, if_true, if_false] at hstep
            obtain ⟨rfl, rfl⟩ := by simpa using hstep
            exact ⟨s', shieldStep_release_skip hc hl hdec (by omega), hI', hcnt⟩
        | false =>
          simp only [refStep, EStateM.run, hc, h0, if_false] at hstep
          obtain ⟨rfl, rfl⟩ := by simpa using hstep
          exact ⟨s', shieldStep_release_plain hc hl hdec, hI', hcnt⟩
  · -- the map reports no fault
    intro s cnt c e cnt' _ _ hstep
    obtain ⟨rep, cnt₁, hok, -⟩ := refStep_cases cnt c
    rw [hok] at hstep
    cases hstep

/-- Without a capacity, a run is recordable when the counters stay within the
limit. -/
theorem recordable_of_below (D : RefTable T) (hroom : ∀ cnt, D.room cnt)
    {cs : List (Call Addr Me)} (hbelow : Below (D.limit + 1) cs) :
    Along refStep (fun cnt c => D.Recordable cnt c.plain) RefModel.init cs := by
  refine along_of_prefix cs RefModel.init fun pre c hpre hstop => ?_
  cases hc : c.plain with
  | release l r => trivial
  | acquire l r =>
    refine ⟨fun _ => hroom _, fun h0 hr => ?_⟩
    subst hr
    obtain ⟨rep, cnt', hstep, -⟩ := refStep_cases (run refStep RefModel.init pre).final c
    have hafter := hbelow _ hpre l
    rw [run_snoc_ok hstop hstep] at hafter
    -- the count after the call is one more and still below the bound
    simp only [refStep, EStateM.run, hc, h0, if_true, if_false] at hstep
    obtain ⟨-, rfl⟩ := by simpa using hstep
    simp only [Function.update_self] at hafter
    omega

end Table

end LockShield.Clib
