import LockShield.Table.ClibHash
import LockShield.Table.Pool

/-!
# Lock functions that fail

A lock function of the C library answers with an `int`, as a pthread function
does: not zero when the lock was not acquired. `LS_ACQUIRE1` and `LS_ACQUIRE2`
drop the answer and record the lock.

`Acquired` says from the callbacks and their answers alone whether the thread has a
lock; `TracksAcquired` compares the table with it, whatever the counts do. A program
uses one flag for each lock (`SameFlag`), and `malloc` delivers.

## Results

* `Truthful.step`, `truthful_run` — the table keeps to the answers while none of them is a
  refusal that is recorded.
* `failed_lock_iff`      — the table tracks what was acquired, over a whole run, exactly when
  no call that locks is refused.
* `failed_lock_unlocked` — a refused lock is unlocked by its release.
-/

namespace LockShield.Clib

open Lib

variable {Addr Me : Type}

/-! ## What the answers say -/

/-- The lock a callback is called on. -/
def Callback.lock (cb : Callback Addr Me) : Addr := cb.plain.lock

/-- What a lock function answered. -/
def Callback.answer : Callback Addr Me → Option Int
  | .lockFn1 _ result | .lockFn2 _ _ result => some result
  | .unlockFn1 _ | .unlockFn2 _ _ => none

variable {c : Call Addr Me} {l : Addr} {r : Bool}

theorem callback_lock_acquire (hc : c.plain = .acquire l r) : c.callback.lock = l := by
  rw [Callback.lock, callback_plain, hc]
  rfl

theorem callback_lock_release (hc : c.plain = .release l r) : c.callback.lock = l := by
  rw [Callback.lock, callback_plain, hc]
  rfl

theorem reentrant_eq (hc : c.plain = .acquire l r ∨ c.plain = .release l r) : c.reentrant = r := by
  cases c <;> simp_all [Call.plain, Call.reentrant]

/-- Only lock functions answer. -/
theorem answer_eq_none_iff (cb : Callback Addr Me) :
    cb.answer = none ↔ cb.plain = .unlockFn cb.lock := by
  cases cb <;> simp [Callback.answer, Callback.plain, Callback.lock, LockShield.Callback.lock]

theorem callback_answer_release (hc : c.plain = .release l r) : c.callback.answer = none := by
  rw [answer_eq_none_iff, callback_lock_release hc, callback_plain, hc]

variable [DecidableEq Addr]

/-- The callbacks on one lock. -/
def callbacksOn (l : Addr) (cbs : List (Callback Addr Me)) : List (Callback Addr Me) :=
  cbs.filter fun cb => cb.lock = l

/-- The lock function last called on the lock succeeded, and no unlock function was
called on it since. -/
def Acquired (l : Addr) (cbs : List (Callback Addr Me)) : Prop :=
  ∃ cb, (callbacksOn l cbs).getLast? = some cb ∧ cb.answer = some 0

/-- The lock function last called on the lock failed. -/
def Refused (l : Addr) (cbs : List (Callback Addr Me)) : Prop :=
  ∃ cb, ((callbacksOn l cbs).filter fun cb => cb.answer.isSome).getLast? = some cb ∧
    cb.answer ≠ some 0

/-- No unlock function is called on a lock that was refused last. -/
def UnlocksHeld (cbs : List (Callback Addr Me)) : Prop :=
  ∀ log cb, log ++ [cb] <+: cbs → cb.answer = none → ¬ Refused cb.lock log

variable {cbs : List (Callback Addr Me)} {cb : Callback Addr Me}

theorem callbacksOn_snoc (h : cb.lock = l) :
    callbacksOn l (cbs ++ [cb]) = callbacksOn l cbs ++ [cb] := by
  simp [callbacksOn, h]

theorem callbacksOn_snoc_other (h : cb.lock ≠ l) :
    callbacksOn l (cbs ++ [cb]) = callbacksOn l cbs := by
  simp [callbacksOn, h]

theorem not_acquired_nil (l : Addr) : ¬ Acquired l ([] : List (Callback Addr Me)) := by
  rintro ⟨cb, hlast, -⟩
  cases hlast

theorem acquired_snoc (h : cb.lock = l) : Acquired l (cbs ++ [cb]) ↔ cb.answer = some 0 := by
  unfold Acquired
  rw [callbacksOn_snoc h, List.getLast?_concat]
  constructor
  · rintro ⟨d, hd, hzero⟩
    obtain rfl := Option.some.inj hd
    exact hzero
  · intro hzero
    exact ⟨cb, rfl, hzero⟩

theorem acquired_snoc_other (h : cb.lock ≠ l) : Acquired l (cbs ++ [cb]) ↔ Acquired l cbs := by
  unfold Acquired
  rw [callbacksOn_snoc_other h]

/-- Without a failure nothing was refused. -/
theorem unlocksHeld_of_answers (h : ∀ cb ∈ cbs, cb.answer = none ∨ cb.answer = some 0) :
    UnlocksHeld cbs := by
  rintro log cb hpre - ⟨d, hlast, hfail⟩
  have hd := List.mem_filter.mp (List.mem_of_getLast? hlast)
  -- the refusal would be in the log
  have hmem : d ∈ cbs :=
    hpre.subset (List.mem_append_left _ (List.mem_filter.mp hd.1).1)
  rcases h d hmem with hnone | hzero
  · -- only lock functions answer
    have hsome := hd.2
    rw [hnone] at hsome
    cases hsome
  · exact hfail hzero

/-- Presence by lock and the log, when a callback on `l` decides about `l`. -/
theorem acquired_update {cnt : Addr → Nat} {n : Nat}
    (hacq : ∀ k, cnt k ≠ 0 ↔ Acquired k cbs) (hcb : cb.lock = l)
    (hn : n ≠ 0 ↔ cb.answer = some 0) (k : Addr) :
    Function.update cnt l n k ≠ 0 ↔ Acquired k (cbs ++ [cb]) := by
  by_cases hk : k = l
  · rw [hk, Function.update_self, acquired_snoc hcb]
    exact hn
  · rw [Function.update_of_ne hk, acquired_snoc_other fun h => hk (h.symm.trans hcb)]
    exact hacq k

end LockShield.Clib

namespace LockShield.ClibHash

open Lib Clib

variable {M Addr Me : Type} [Inhabited Addr] [DecidableEq Addr] [PtrMap M Addr NodePtr]

section Statement

variable (malloc : Nat → List Nat → Option Nat)

/-- The run got through, its table agrees with the answers of the lock functions,
and no unlock function was called on a lock that was refused. -/
def TracksAcquired (r : Run (Clib.Reply Addr Me) (Fault × List (Clib.Callback Addr Me))
    (Hybrid.Tls M Addr)) : Prop :=
  r.stop = none ∧ (∀ l, Tracked (ops malloc) r.final l ↔ Acquired l (Clib.callbacks r)) ∧
    UnlocksHeld (Clib.callbacks r)

/-- The call acquires a lock that is not tracked, and its lock function fails. -/
def FailsToLock (s : Hybrid.Tls M Addr) (c : Clib.Call Addr Me) : Prop :=
  ∃ l r, c.plain = .acquire l r ∧ ¬ Tracked (ops malloc) s l ∧ c.callback.answer ≠ some 0

end Statement

/-- The table says what the answers in the log said; `t` has its shape. A lock
without the flag is counted once, and no lock function failed. -/
structure Truthful (flag : Addr → Bool) (s t : Hybrid.Tls M Addr)
    (log : List (Clib.Callback Addr Me)) : Prop where
  shaped : s.Shaped Hybrid.laws maxHashEntries t
  acquired : ∀ l, t.count l ≠ 0 ↔ Acquired l log
  single : ∀ l, flag l = false → t.count l ≠ 0 → s.Tracks l 1
  answers : ∀ cb ∈ log, cb.answer = none ∨ cb.answer = some 0

variable {malloc : Nat → List Nat → Option Nat} {flag : Addr → Bool}
  {s s' t t' : Hybrid.Tls M Addr} {log : List (Clib.Callback Addr Me)}
  {c : Clib.Call Addr Me} {l : Addr} {r : Bool} {e : EntryPtr}

/-- A lock is found exactly when the shape has it. -/
theorem tracked_iff (h : s.Shaped Hybrid.laws maxHashEntries t) (l : Addr) :
    Tracked (ops malloc) s l ↔ t.count l ≠ 0 := by
  rcases h.lookup_spec l with ⟨h0, hl⟩ | ⟨h1, e, hl, -⟩
  · have hnot := not_tracked (T := ops malloc) hl
    exact ⟨fun htracked => absurd htracked hnot, fun h => absurd h0 h⟩
  · exact ⟨fun _ => by omega, fun _ => ⟨e, hl⟩⟩

variable (malloc) in
/-- A truthful table agrees with the answers. -/
theorem Truthful.tracksAcquired {ρ : List (Clib.Reply Addr Me)}
    (h : Truthful flag s t (ρ.flatMap Clib.Reply.callbacks)) :
    TracksAcquired malloc ⟨ρ, none, s⟩ :=
  ⟨rfl, fun l => (tracked_iff h.shaped l).trans (h.acquired l), unlocksHeld_of_answers h.answers⟩

/-! ## One call -/

omit [Inhabited Addr] in
/-- Counting an entry of a lock with the flag up or down changes nothing that the
log speaks of. -/
theorem Truthful.recounted (h : Truthful flag s t log) (hre : Tls.Recounted s s' e)
    (hflag : flag l = true) (hl : (Tls.lookup l).run s = .ok (some e) s) :
    Truthful flag s' t log := by
  refine ⟨hre.shaped h.shaped, h.acquired, fun k hk hcount => ?_, h.answers⟩
  have hkl : k ≠ l := by
    rintro rfl
    rw [hflag] at hk
    cases hk
  exact hre.keeps h.shaped hl k hkl 1 Hybrid.cellSet_one (h.single k hk hcount)

omit [Inhabited Addr] in
/-- A callback on `l` and the step of the table that goes with it: the lock is
tracked afterwards, once, if a lock function succeeded, and else it is not. -/
theorem Truthful.called (h : Truthful flag s t log) {cb : Clib.Callback Addr Me} {n : Nat}
    (hsh : s'.Shaped Hybrid.laws maxHashEntries t')
    (hcount : t'.count = Function.update t.count l n) (hkeeps : Tls.Keeps l s s')
    (hcb : cb.lock = l) (hn : n ≠ 0 ↔ cb.answer = some 0)
    (hans : cb.answer = none ∨ cb.answer = some 0) (hone : n ≠ 0 → s'.Tracks l 1) :
    Truthful flag s' t' (log ++ [cb]) := by
  refine ⟨hsh, ?_, fun k hflag hk => ?_, fun d hd => ?_⟩
  · rw [hcount]
    exact acquired_update h.acquired hcb hn
  · rw [hcount] at hk
    by_cases hkl : k = l
    · rw [hkl, Function.update_self] at hk
      rw [hkl]
      exact hone hk
    · -- the other locks keep the count one
      rw [Function.update_of_ne hkl] at hk
      exact hkeeps k hkl 1 Hybrid.cellSet_one (h.single k hflag hk)
  · rcases List.mem_append.mp hd with hold | hnew
    · exact h.answers d hold
    · rw [List.mem_singleton.mp hnew]
      exact hans

variable (malloc) in
/-- A nested acquisition, of a lock with the flag. -/
theorem Truthful.increment (h : Truthful flag s t log) (hc : c.plain = .acquire l true)
    (hflag : flag l = true) (hl : (Tls.lookup l).run s = .ok (some e) s) :
    ∃ s', (Clib.shieldStep (ops malloc) c).run s = .ok ⟨.lsSkipAcquisition, []⟩ s' ∧
      Truthful flag s' t log := by
  obtain ⟨s', hrun, hre⟩ := h.shaped.increment hl
  have hrun' : ((ops malloc).incrementRef l (some e)).run s = .ok () s' := hrun
  exact ⟨s', Clib.shieldStep_acquire_skip hc hl hrun', h.recounted hre hflag hl⟩

variable (malloc) in
/-- A release that leaves the lock tracked. -/
theorem Truthful.lower (h : Truthful flag s t log) (hc : c.plain = .release l true)
    (hflag : flag l = true) (hl : (Tls.lookup l).run s = .ok (some e) s)
    (h1 : 1 < s.recCount e) :
    ∃ s', (Clib.shieldStep (ops malloc) c).run s = .ok ⟨.lsSkipRelease, []⟩ s' ∧
      Truthful flag s' t log := by
  obtain ⟨s', hrun, hre⟩ := h.shaped.decrement_lower hl h1
  have hrun' : ((ops malloc).decrementRef l (some e)).run s = .ok (s.recCount e - 1) s' := hrun
  have hleft : s.recCount e - 1 ≠ 0 := by omega
  exact ⟨s', Clib.shieldStep_release_skip hc hl hrun' hleft, h.recounted hre hflag hl⟩

section Step

variable [LawfulPtrMap M]

variable (malloc) in
/-- A release that unlocks: the lock is not tracked any more. -/
theorem Truthful.remove (h : Truthful flag s t log) (hc : c.plain = .release l r)
    (hl : (Tls.lookup l).run s = .ok (some e) s) (h1 : ¬ 1 < s.recCount e) :
    ∃ s' t', (Clib.shieldStep (ops malloc) c).run s = .ok ⟨.lsReleaseNow, [c.callback]⟩ s' ∧
      Truthful flag s' t' (log ++ [c.callback]) := by
  obtain ⟨s', t', hrun, hsh, hcount, -, hkeeps⟩ := h.shaped.decrement_remove hl h1
  have hrun' : ((ops malloc).decrementRef l (some e)).run s = .ok 0 s' := hrun
  have hans : c.callback.answer = none := callback_answer_release hc
  have hstep : (Clib.shieldStep (ops malloc) c).run s =
      .ok ⟨.lsReleaseNow, [c.callback]⟩ s' := by
    cases r with
    | true => exact Clib.shieldStep_release_now hc hl hrun'
    | false => exact Clib.shieldStep_release_plain hc hl hrun'
  exact ⟨s', t', hstep, h.called hsh hcount hkeeps (callback_lock_release hc) (by simp [hans])
    (Or.inl hans) fun h0 => absurd rfl h0⟩

/-- A new lock is recorded whatever its lock function answers. -/
theorem Truthful.records (h : Truthful flag s t log) (hfresh : MallocFresh malloc)
    (hmalloc : MallocSucceeds malloc) (hc : c.plain = .acquire l r)
    (hl : (Tls.lookup l).run s = .ok none s) :
    ∃ s' t', (Clib.shieldStep (ops malloc) c).run s = .ok ⟨.lsAcquireNow, [c.callback]⟩ s' ∧
      s'.Shaped Hybrid.laws maxHashEntries t' ∧ t'.count = Function.update t.count l 1 ∧
      s'.Tracks l 1 ∧ Tls.Keeps l s s' := by
  have h0 : t.count l = 0 := (h.shaped.lookup_eq_none_iff l).mp hl
  obtain ⟨s', t', hrun, hsh, -, hkeeps, hcases⟩ :=
    h.shaped.insert Hybrid.cellSet_one one_le_limit maxLocks_le hfresh h0
  have hrun' : ((ops malloc).incrementRef l none).run s = .ok () s' := hrun
  rcases hcases with ⟨-, hcount, hone⟩ | ⟨⟨-, -, hfail⟩, -⟩
  · exact ⟨s', t', Clib.shieldStep_acquire_new hc hl hrun', hsh, hcount, hone, hkeeps⟩
  · exact absurd hfail (hmalloc _ _)

/-- A new lock whose lock function succeeded. -/
theorem Truthful.insert (h : Truthful flag s t log) (hfresh : MallocFresh malloc)
    (hmalloc : MallocSucceeds malloc) (hc : c.plain = .acquire l r)
    (hl : (Tls.lookup l).run s = .ok none s) (hans : c.callback.answer = some 0) :
    ∃ s' t', (Clib.shieldStep (ops malloc) c).run s = .ok ⟨.lsAcquireNow, [c.callback]⟩ s' ∧
      Truthful flag s' t' (log ++ [c.callback]) := by
  obtain ⟨s', t', hstep, hsh, hcount, hone, hkeeps⟩ := h.records hfresh hmalloc hc hl
  exact ⟨s', t', hstep, h.called hsh hcount hkeeps (callback_lock_acquire hc) (by simp [hans])
    (Or.inr hans) fun _ => hone⟩

/-- While no lock function fails, every call keeps the table truthful. -/
theorem Truthful.step (h : Truthful flag s t log) (hfresh : MallocFresh malloc)
    (hmalloc : MallocSucceeds malloc) (hflag : c.reentrant = flag c.lock)
    (hgood : ¬ FailsToLock malloc s c) :
    ∃ rep s' t', (Clib.shieldStep (ops malloc) c).run s = .ok rep s' ∧
      Truthful flag s' t' (log ++ rep.callbacks) := by
  have hsound : Tls.Sound Hybrid.laws maxHashEntries s := ⟨t, h.shaped⟩
  cases hc : c.plain with
  | acquire l r =>
    have hr : r = flag l := by
      rw [Clib.Call.lock, hc] at hflag
      exact (reentrant_eq (Or.inl hc)).symm.trans hflag
    rcases hsound.lookup_cases l with hl | ⟨e, hl⟩
    · -- a lock that is not tracked: its lock function is called and succeeds
      have hans : c.callback.answer = some 0 := by
        by_contra hfail
        exact hgood ⟨l, r, hc, not_tracked hl, hfail⟩
      obtain ⟨s', t', hrun, h'⟩ := h.insert hfresh hmalloc hc hl hans
      exact ⟨_, s', t', hrun, h'⟩
    · cases r with
      | true =>
        obtain ⟨s', hrun, h'⟩ := h.increment malloc hc hr.symm hl
        exact ⟨_, s', t, hrun, by simpa using h'⟩
      | false =>
        -- reported as misuse; nothing happens
        exact ⟨_, s, t, Clib.shieldStep_acquire_unbalanced hc hl, by simpa using h⟩
  | release l r =>
    have hr : r = flag l := by
      rw [Clib.Call.lock, hc] at hflag
      exact (reentrant_eq (Or.inr hc)).symm.trans hflag
    rcases hsound.lookup_cases l with hl | ⟨e, hl⟩
    · -- not tracked: reported as misuse
      exact ⟨_, s, t, Clib.shieldStep_release_unbalanced hc hl, by simpa using h⟩
    · by_cases h1 : 1 < s.recCount e
      · cases r with
        | true =>
          obtain ⟨s', hrun, h'⟩ := h.lower malloc hc hr.symm hl h1
          exact ⟨_, s', t, hrun, by simpa using h'⟩
        | false =>
          -- a lock without the flag has the count one
          have htracked : Tracked (ops malloc) s l := ⟨e, hl⟩
          obtain ⟨e', he', hone⟩ := h.single l hr.symm ((tracked_iff h.shaped l).mp htracked)
          obtain ⟨he, -⟩ := Tls.fst_of_ok (hl.symm.trans he')
          obtain rfl := Option.some.inj he
          omega
      · -- the last reference, or a count that wrapped: the lock is unlocked
        obtain ⟨s', t', hrun, h'⟩ := h.remove malloc hc hl h1
        exact ⟨_, s', t', hrun, h'⟩

end Step

/-! ## Runs -/

section Runs

variable [LawfulPtrMap M]

theorem truthful_init :
    Truthful flag (init : Hybrid.Tls M Addr) (init : Hybrid.Tls M Addr)
      ([] : List (Clib.Callback Addr Me)) := by
  obtain ⟨hmode, hcount⟩ :=
    Tls.arrayMode_of_untouched (L := Hybrid.laws) (s := (init : Hybrid.Tls M Addr)) rfl rfl rfl rfl
  refine ⟨⟨.refl _, Or.inl hmode, fun l => ?_⟩, fun l => ?_, fun l _ hl => ?_, fun cb hcb => ?_⟩
  · rw [hcount l]
    exact Nat.zero_le 1
  · rw [hcount l]
    exact ⟨fun h => absurd rfl h, fun h => absurd h (not_acquired_nil l)⟩
  · exact absurd (hcount l) hl
  · cases hcb

/-- While no lock function fails, a run goes on and stays truthful. -/
theorem truthful_run (hfresh : MallocFresh malloc) (hmalloc : MallocSucceeds malloc) :
    ∀ {cs : List (Clib.Call Addr Me)}, SameFlag flag cs →
      Along (Clib.shieldStep (ops malloc)) (fun s c => ¬ FailsToLock malloc s c)
        (init : Hybrid.Tls M Addr) cs →
      (run (Clib.shieldStep (ops malloc)) (init : Hybrid.Tls M Addr) cs).stop = none ∧
        ∃ t, Truthful flag
          (run (Clib.shieldStep (ops malloc)) (init : Hybrid.Tls M Addr) cs).final t
          (Clib.callbacks (run (Clib.shieldStep (ops malloc)) (init : Hybrid.Tls M Addr) cs)) := by
  intro cs
  induction cs using List.reverseRecOn with
  | nil =>
    intro _ _
    exact ⟨rfl, init, truthful_init⟩
  | append_singleton pre c ih =>
    intro hflag hgood
    obtain ⟨hstop, t, h⟩ :=
      ih (fun d hd => hflag d (List.mem_append_left _ hd)) (hgood.restrict (List.prefix_append ..))
    -- the calls so far went well, so this one finds a truthful table
    obtain ⟨rep, s', t', hstep, h'⟩ :=
      h.step hfresh hmalloc (hflag c (by simp)) (hgood.last hstop)
    rw [run_snoc_ok hstop hstep]
    refine ⟨rfl, t', ?_⟩
    simpa [Clib.callbacks] using h'

/-- The call whose lock function fails leaves its lock tracked. -/
theorem not_tracksAcquired_of_fails (hfresh : MallocFresh malloc)
    (hmalloc : MallocSucceeds malloc) {pre : List (Clib.Call Addr Me)}
    (hstop : (run (Clib.shieldStep (ops malloc)) (init : Hybrid.Tls M Addr) pre).stop = none)
    (h : Truthful flag (run (Clib.shieldStep (ops malloc)) (init : Hybrid.Tls M Addr) pre).final t
      (Clib.callbacks (run (Clib.shieldStep (ops malloc)) (init : Hybrid.Tls M Addr) pre)))
    (hfails : FailsToLock malloc
      (run (Clib.shieldStep (ops malloc)) (init : Hybrid.Tls M Addr) pre).final c) :
    ¬ TracksAcquired malloc
      (run (Clib.shieldStep (ops malloc)) (init : Hybrid.Tls M Addr) (pre ++ [c])) := by
  obtain ⟨l, r, hc, hnot, hans⟩ := hfails
  have hl : (Tls.lookup l).run (run (Clib.shieldStep (ops malloc)) init pre).final =
      .ok none (run (Clib.shieldStep (ops malloc)) (init : Hybrid.Tls M Addr) pre).final := by
    have hsound : Tls.Sound Hybrid.laws maxHashEntries
        (run (Clib.shieldStep (ops malloc)) (init : Hybrid.Tls M Addr) pre).final := ⟨t, h.shaped⟩
    exact (hsound.lookup_cases l).resolve_right hnot
  obtain ⟨s', t', hstep, -, -, ⟨e, he, -⟩, -⟩ := h.records hfresh hmalloc hc hl
  rw [run_snoc_ok hstop hstep]
  -- the lock is tracked, and the last answer in the log was a refusal
  rintro ⟨-, htracks, -⟩
  have hacq := (htracks l).mp ⟨e, he⟩
  simp only [Clib.callbacks, List.flatMap_append, List.flatMap_singleton] at hacq
  exact hans ((acquired_snoc (callback_lock_acquire hc)).mp hacq)

/-- The table agrees with the answers of the lock functions after every call of a
run exactly when no acquisition of a lock that is not tracked gets the answer that
it failed. -/
theorem failed_lock_iff (hfresh : MallocFresh malloc) (hmalloc : MallocSucceeds malloc)
    (cs : List (Clib.Call Addr Me)) (flag : Addr → Bool) (hflag : SameFlag flag cs) :
    (∀ pre, pre <+: cs → TracksAcquired malloc
      (run (Clib.shieldStep (ops malloc)) (init : Hybrid.Tls M Addr) pre)) ↔
      Along (Clib.shieldStep (ops malloc)) (fun s c => ¬ FailsToLock malloc s c)
        (init : Hybrid.Tls M Addr) cs := by
  constructor
  · intro htracks
    induction cs using List.reverseRecOn with
    | nil => exact trivial
    | append_singleton pre c ih =>
      have hpre : SameFlag flag pre := fun d hd => hflag d (List.mem_append_left _ hd)
      have halong := ih hpre fun q hq => htracks q (hq.trans (List.prefix_append ..))
      refine halong.snoc fun hstop hfails => ?_
      -- up to here the table was truthful; the failing call ends that
      obtain ⟨-, t, h⟩ := truthful_run hfresh hmalloc hpre halong
      exact not_tracksAcquired_of_fails hfresh hmalloc hstop h hfails
        (htracks _ (List.prefix_refl _))
  · intro halong pre hpre
    -- a prefix of a run without failures is one
    have hflag' : SameFlag flag pre := fun d hd => hflag d (hpre.subset hd)
    obtain ⟨hstop, t, h⟩ := truthful_run hfresh hmalloc hflag' (halong.restrict hpre)
    have htracks := h.tracksAcquired malloc
    rw [← hstop] at htracks
    exact htracks

/-- Two acquisitions, the inner one with a lock function that would fail, and the
releases: the inner lock function is not called. -/
def refusedInside : List (Clib.Call Nat Nat) :=
  [.acquire1 0 true 0, .acquire2 0 7 true 16, .release2 0 7 true, .release1 0 true]

theorem failed_lock_refusedInside :
    TracksAcquired bumpMalloc (run (Clib.shieldStep (ops bumpMalloc))
      (init : Hybrid.Tls (FunMap Nat NodePtr) Nat) refusedInside) := by
  refine (failed_lock_iff bumpMalloc_fresh bumpMalloc_succeeds refusedInside (fun _ => true)
    (by decide)).mpr (And.intro ?_ (And.intro ?_ (And.intro ?_ (And.intro ?_ trivial)))) _
    (List.prefix_refl _)
  · rintro ⟨l, r, -, -, hans⟩
    exact hans rfl
  · -- the lock is tracked, so its lock function is not called again
    rintro ⟨l, r, hc, hnot, -⟩
    obtain ⟨rfl, -⟩ := by simpa [Clib.Call.plain] using hc
    exact hnot ⟨.slot 0, rfl⟩
  · rintro ⟨l, r, hc, -⟩
    cases hc
  · rintro ⟨l, r, hc, -⟩
    cases hc

/-- The lock function answers `EBUSY`, and the lock is released nevertheless. -/
def refused : List (Clib.Call Nat Nat) := [.acquire1 0 true 16, .release1 0 true]

/-- The lock is tracked although its lock function failed, and its release calls the
unlock function. -/
theorem failed_lock_unlocked :
    SameFlag (fun _ => true) refused ∧
    Clib.callbacks (run (Clib.shieldStep (ops bumpMalloc))
      (init : Hybrid.Tls (FunMap Nat NodePtr) Nat) refused) = [.lockFn1 0 16, .unlockFn1 0] ∧
    ¬ UnlocksHeld (Clib.callbacks (run (Clib.shieldStep (ops bumpMalloc))
      (init : Hybrid.Tls (FunMap Nat NodePtr) Nat) refused)) ∧
    ¬ TracksAcquired bumpMalloc (run (Clib.shieldStep (ops bumpMalloc))
      (init : Hybrid.Tls (FunMap Nat NodePtr) Nat) (refused.take 1)) := by
  have hlog : Clib.callbacks (run (Clib.shieldStep (ops bumpMalloc))
      (init : Hybrid.Tls (FunMap Nat NodePtr) Nat) refused) = [.lockFn1 0 16, .unlockFn1 0] := rfl
  refine ⟨by decide, hlog, fun hheld => ?_, fun htracks => ?_⟩
  · -- the unlock comes after a lock function that has failed
    rw [hlog] at hheld
    exact hheld [.lockFn1 0 16] (.unlockFn1 0) (List.prefix_refl _) rfl
      ⟨.lockFn1 0 16, rfl, by decide⟩
  · -- the table has the lock, and its last callback is the failed one
    obtain ⟨cb, hlast, hzero⟩ := (htracks.2.1 0).mp ⟨.slot 0, rfl⟩
    have hlog₁ : Clib.callbacks (run (Clib.shieldStep (ops bumpMalloc))
        (init : Hybrid.Tls (FunMap Nat NodePtr) Nat) (refused.take 1)) = [.lockFn1 0 16] := rfl
    rw [hlog₁] at hlast
    obtain rfl := Option.some.inj hlast
    cases hzero

end Runs

end LockShield.ClibHash
