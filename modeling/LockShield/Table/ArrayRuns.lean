import LockShield.Table.Array

/-!
# Runs of `LS_ARRAY`

The array variant over whole runs, with nothing assumed of the number of locks
or of the counts. `step_proceeds` says once what a call does to a well-formed table:
it sets the stored count of its own lock to what the call leaves of it (`tally`), or
panics and leaves the table alone.

## Results

* `step_proceeds`, `step_panics` — one call, by the lock's stored count.
* `run_wf`                 — every run leaves the array well formed, and nothing but a panic
  ends one.
* `run_counted`            — the counts stay positive while they fit an `int`.
* `run_frame`              — a call touches the count of its own lock only.
* `array_keeps_invariant`  — what follows for runs up to their first panic, in an
  overfull table and under misuse as well.
-/

namespace LockShield.ArrayTable

open Lib

variable {Addr : Type} [DecidableEq Addr] {s s' : Tls Addr} {l : Addr} {v : Int} {r : Bool}

/-! ## What each call does -/

/-- A new lock with a slot left. -/
theorem acquire_new (hwf : s.WF) (hnew : s.stored l = none) (hroom : s.lockCount < maxLocks) :
    ∃ s', (shieldStep ops (.acquire l r)).run s = .ok ⟨.lsAcquireNow, [.lockFn l]⟩ s' ∧
      s'.WF ∧ s'.lockCount = s.lockCount + 1 ∧
      s'.stored = Function.update s.stored l (some 1) := by
  obtain ⟨s', hinc, hrest⟩ := incrementRef_new hwf hnew hroom
  exact ⟨s', shieldStep_acquire_new (lookup_none_of_stored hwf hnew) hinc, hrest⟩

/-- A new lock that is dropped. -/
theorem acquire_full (hwf : s.WF) (hnew : s.stored l = none) (hfull : ¬ s.lockCount < maxLocks) :
    (shieldStep ops (.acquire l r)).run s = .ok ⟨.lsAcquireNow, [.lockFn l]⟩ s :=
  shieldStep_acquire_new (lookup_none_of_stored hwf hnew) (incrementRef_full hwf hnew hfull)

/-- A lock that is tracked is found. -/
theorem lookup_stored (hwf : s.WF) (hv : s.stored l = some v) :
    ∃ i, (lookup l).run s = .ok (some i) s :=
  lookup_some_of_stored hwf (by rw [hv]; exact Option.some_ne_none v)

theorem acquire_held (hwf : s.WF) (hv : s.stored l = some v) :
    ∃ s', (shieldStep ops (.acquire l true)).run s = .ok ⟨.lsSkipAcquisition, []⟩ s' ∧
      s'.WF ∧ s'.lockCount = s.lockCount ∧
      s'.stored = Function.update s.stored l (some (int64 (v + 1))) := by
  obtain ⟨i, hl⟩ := lookup_stored hwf hv
  obtain ⟨s', hinc, hrest⟩ := incrementRef_held hwf hl hv
  exact ⟨s', shieldStep_acquire_skip hl hinc, hrest⟩

theorem acquire_panic (hwf : s.WF) (hv : s.stored l = some v) :
    (shieldStep ops (.acquire l false)).run s = .error (unbalancedLockPanic, []) s := by
  obtain ⟨i, hl⟩ := lookup_stored hwf hv
  exact shieldStep_acquire_panic hl

theorem release_panic (hwf : s.WF) (hnew : s.stored l = none) :
    (shieldStep ops (.release l r)).run s = .error (unbalancedUnlockPanic, []) s :=
  shieldStep_release_panic (lookup_none_of_stored hwf hnew)

/-- A release of a lock with more than one reference. -/
theorem release_lower (hwf : s.WF) (hv : s.stored l = some v) (h1 : 1 < v) :
    ∃ s', (shieldStep ops (.release l r)).run s =
        .ok (if r = true ∧ int32 (int64 (v - 1)) ≠ 0 then ⟨.lsSkipRelease, []⟩
          else ⟨.lsReleaseNow, [.unlockFn l]⟩) s' ∧
      s'.WF ∧ s'.lockCount = s.lockCount ∧
      s'.stored = Function.update s.stored l (some (int64 (v - 1))) := by
  obtain ⟨i, hl⟩ := lookup_stored hwf hv
  obtain ⟨s', hdec, hrest⟩ := decrementRef_lower hwf hl hv h1
  exact ⟨s', shieldStep_release hl hdec, hrest⟩

/-- A release of the last reference. -/
theorem release_remove (hwf : s.WF) (hv : s.stored l = some v) (h1 : ¬ 1 < v) :
    ∃ s', (shieldStep ops (.release l r)).run s = .ok ⟨.lsReleaseNow, [.unlockFn l]⟩ s' ∧
      s'.WF ∧ s'.lockCount + 1 = s.lockCount ∧
      s'.stored = Function.update s.stored l none := by
  obtain ⟨i, hl⟩ := lookup_stored hwf hv
  obtain ⟨s', hdec, hrest⟩ := decrementRef_remove hwf hl hv h1
  refine ⟨s', ?_, hrest⟩
  have hreply := shieldStep_release (T := ops) (r := r) hl hdec
  simpa using hreply

/-! ## Every call at once -/

/-- The count a call leaves for its lock, if it returns. -/
def tally (o : Option Int) (room : Bool) : Call Addr → Option Int
  | .acquire _ _ =>
    match o with
    | none => if room then some 1 else none
    | some v => some (int64 (v + 1))
  | .release _ _ =>
    match o with
    | none => none
    | some v => if 1 < v then some (int64 (v - 1)) else none

/-- The calls that do not panic. -/
def Proceeds (o : Option Int) : Call Addr → Prop
  | .acquire _ r => o = none ∨ r = true
  | .release _ _ => o ≠ none

instance (o : Option Int) (c : Call Addr) : Decidable (Proceeds o c) :=
  match c with
  | .acquire _ r => inferInstanceAs (Decidable (o = none ∨ r = true))
  | .release _ _ => inferInstanceAs (Decidable (o ≠ none))

/-- There is a slot for another lock. -/
def room (s : Tls Addr) : Bool := decide (s.lockCount < maxLocks)

/-- A call that does not panic sets the count of its lock. -/
theorem step_proceeds (hwf : s.WF) (c : Call Addr) (hc : Proceeds (s.stored c.lock) c) :
    ∃ rep s', (shieldStep ops c).run s = .ok rep s' ∧ s'.WF ∧
      s'.stored = Function.update s.stored c.lock (tally (s.stored c.lock) (room s) c) := by
  cases c with
  | acquire l r =>
    show ∃ rep s', (shieldStep ops (.acquire l r)).run s = .ok rep s' ∧ s'.WF ∧
      s'.stored = Function.update s.stored l (tally (s.stored l) (room s) (.acquire l r))
    cases hv : s.stored l with
    | none =>
      by_cases hroom : s.lockCount < maxLocks
      · obtain ⟨s', hrun, hwf', -, hst⟩ := acquire_new (r := r) hwf hv hroom
        exact ⟨_, s', hrun, hwf', by simp [hst, tally, room, hroom]⟩
      · -- at capacity: nothing is recorded, and the lock stays untracked
        refine ⟨_, s, acquire_full hwf hv hroom, hwf, ?_⟩
        simp only [tally, room, hroom, decide_false, Bool.false_eq_true, if_false]
        rw [← hv, Function.update_eq_self]
    | some v =>
      -- tracked already, so only the flag lets the call go on
      obtain rfl : r = true := by
        rcases hc with hc | hc
        · exact absurd (hv.symm.trans hc) (Option.some_ne_none v)
        · exact hc
      obtain ⟨s', hrun, hwf', -, hst⟩ := acquire_held hwf hv
      exact ⟨_, s', hrun, hwf', hst⟩
  | release l r =>
    show ∃ rep s', (shieldStep ops (.release l r)).run s = .ok rep s' ∧ s'.WF ∧
      s'.stored = Function.update s.stored l (tally (s.stored l) (room s) (.release l r))
    cases hv : s.stored l with
    | none => exact absurd hv hc
    | some v =>
      by_cases h1 : 1 < v
      · obtain ⟨s', hrun, hwf', -, hst⟩ := release_lower (r := r) hwf hv h1
        exact ⟨_, s', hrun, hwf', by simp [hst, tally, h1]⟩
      · -- the last reference
        obtain ⟨s', hrun, hwf', -, hst⟩ := release_remove (r := r) hwf hv h1
        exact ⟨_, s', hrun, hwf', by simp [hst, tally, h1]⟩

/-- A call that panics leaves the table alone. -/
theorem step_panics (hwf : s.WF) (c : Call Addr) (hc : ¬ Proceeds (s.stored c.lock) c) :
    ∃ e, (shieldStep ops c).run s = .error (e, []) s ∧
      (e = unbalancedLockPanic ∨ e = unbalancedUnlockPanic) := by
  cases c with
  | acquire l r =>
    obtain ⟨hne, hr⟩ := not_or.mp hc
    obtain ⟨v, hv⟩ := Option.ne_none_iff_exists'.mp hne
    obtain rfl : r = false := Bool.not_eq_true _ ▸ hr
    exact ⟨_, acquire_panic hwf hv, Or.inl rfl⟩
  | release l r => exact ⟨_, release_panic hwf (not_not.mp hc), Or.inr rfl⟩

/-! ## Runs -/

/-- A call that returned, seen from its result. -/
theorem of_step_ok (hwf : s.WF) {c : Call Addr} {rep : Reply Addr}
    (hrun : (shieldStep ops c).run s = .ok rep s') :
    s'.WF ∧ s'.stored = Function.update s.stored c.lock (tally (s.stored c.lock) (room s) c) := by
  by_cases hc : Proceeds (s.stored c.lock) c
  · obtain ⟨rep', s₁, hrun', hrest⟩ := step_proceeds hwf c hc
    rw [hrun] at hrun'
    injection hrun' with _ hs
    subst hs
    exact hrest
  · -- a call that panics does not return
    obtain ⟨e, hrun', -⟩ := step_panics hwf c hc
    rw [hrun] at hrun'
    cases hrun'

/-- A call that did not return: one of the two panics, before it changed anything. -/
theorem of_step_error (hwf : s.WF) {c : Call Addr} {e : Fault × List (Callback Addr)}
    (hrun : (shieldStep ops c).run s = .error e s') :
    s' = s ∧ (e = (unbalancedLockPanic, []) ∨ e = (unbalancedUnlockPanic, [])) := by
  by_cases hc : Proceeds (s.stored c.lock) c
  · obtain ⟨rep, s₁, hrun', -⟩ := step_proceeds hwf c hc
    rw [hrun] at hrun'
    cases hrun'
  · obtain ⟨p, hrun', hp⟩ := step_panics hwf c hc
    rw [hrun] at hrun'
    injection hrun' with he hs
    subst he
    rcases hp with rfl | rfl
    · exact ⟨hs, Or.inl rfl⟩
    · exact ⟨hs, Or.inr rfl⟩

/-- No run gets out of the table, and nothing but a panic ends one. -/
theorem run_wf [Inhabited Addr] (cs : List (Call Addr)) :
    (run (shieldStep ops) (init : Tls Addr) cs).final.WF ∧
      ∀ e, (run (shieldStep ops) (init : Tls Addr) cs).stop = some e →
        e = (unbalancedLockPanic, []) ∨ e = (unbalancedUnlockPanic, []) := by
  refine run_snoc_induction _ _ (P := fun _ R => Slots.WF (Run.final R) ∧ ∀ e, Run.stop R = some e →
    e = (unbalancedLockPanic, []) ∨ e = (unbalancedUnlockPanic, [])) ?_ ?_ ?_ ?_ cs
  · exact ⟨init_wf, fun e he => by cases he⟩
  · intro pre c rep s' ih _ hrun
    exact ⟨(of_step_ok ih.1 hrun).1, fun e he => by cases he⟩
  · intro pre c e s' ih _ hrun
    -- a panic leaves the table as it was
    obtain ⟨rfl, hpanic⟩ := of_step_error ih.1 hrun
    refine ⟨ih.1, fun e' he => ?_⟩
    obtain rfl := Option.some.inj he
    exact hpanic
  · intro pre c ih
    exact ih

theorem wf_of_reachable [Inhabited Addr] (h : Reachable ops init s) : s.WF := by
  obtain ⟨cs, -, rfl⟩ := h
  exact (run_wf cs).1

omit [DecidableEq Addr] in
/-- The call leaves a positive count, at most one above the count before. -/
theorem tally_range {n : Int} (h0 : 0 ≤ n) (hn : n < 2 ^ 31) {o : Option Int}
    (ho : ∀ v, o = some v → 1 ≤ v ∧ v ≤ n) {b : Bool} {c : Call Addr} {w : Int}
    (hw : tally o b c = some w) : 1 ≤ w ∧ w ≤ n + 1 := by
  cases o with
  | none =>
    cases c with
    | acquire l r =>
      cases b with
      | true =>
        obtain rfl : 1 = w := by simpa [tally] using hw
        omega
      | false => simp [tally] at hw
    | release l r => simp [tally] at hw
  | some v =>
    have hv := ho v rfl
    cases c with
    | acquire l r =>
      simp only [tally, Option.some.injEq] at hw
      -- below `2^31` the `long` does not wrap
      rw [int64_of_range (by omega) (by omega)] at hw
      omega
    | release l r =>
      by_cases h1 : 1 < v
      · simp only [tally, h1, if_true, Option.some.injEq] at hw
        rw [int64_of_range (by omega) (by omega)] at hw
        omega
      · simp [tally, h1] at hw

/-- What one more call does to the counts of a run, if it does anything. -/
theorem run_snoc_stored [Inhabited Addr] (pre : List (Call Addr)) (c : Call Addr) :
    (run (shieldStep ops) (init : Tls Addr) (pre ++ [c])).final.stored =
        (run (shieldStep ops) (init : Tls Addr) pre).final.stored ∨
      (run (shieldStep ops) (init : Tls Addr) (pre ++ [c])).final.stored =
        Function.update (run (shieldStep ops) (init : Tls Addr) pre).final.stored c.lock
          (tally ((run (shieldStep ops) (init : Tls Addr) pre).final.stored c.lock)
            (room (run (shieldStep ops) (init : Tls Addr) pre).final) c) := by
  have hwf : (run (shieldStep ops) (init : Tls Addr) pre).final.WF := (run_wf pre).1
  by_cases hstop : (run (shieldStep ops) (init : Tls Addr) pre).stop = none
  · cases hrun : (shieldStep ops c).run (run (shieldStep ops) (init : Tls Addr) pre).final with
    | ok rep s' =>
      rw [run_snoc_ok hstop hrun]
      exact Or.inr (of_step_ok hwf hrun).2
    | error e s' =>
      -- a panic
      rw [run_snoc_error hstop hrun]
      obtain ⟨rfl, -⟩ := of_step_error hwf hrun
      exact Or.inl rfl
  · rw [run_snoc_stopped hstop]
    exact Or.inl rfl

/-- The counts of a run stay positive while they fit an `int`. -/
theorem run_counted [Inhabited Addr] (cs : List (Call Addr))
    (hbelow : ∀ pre, pre <+: cs → ∀ l v,
      (run (shieldStep ops) (init : Tls Addr) pre).final.stored l = some v → v < 2 ^ 31) :
    ∀ l v, (run (shieldStep ops) (init : Tls Addr) cs).final.stored l = some v → 1 ≤ v := by
  induction cs using List.reverseRecOn with
  | nil =>
    intro l v hv
    simp at hv
  | append_singleton pre c ih =>
    intro l v hv
    have hpre : pre <+: pre ++ [c] := List.prefix_append ..
    have hpos := ih fun q hq => hbelow q (hq.trans hpre)
    rcases run_snoc_stored pre c with hst | hst
    · -- the call changed nothing
      rw [hst] at hv
      exact hpos l v hv
    · -- the call's lock has a new count, the others the old one
      rw [hst] at hv
      by_cases hl : l = c.lock
      · subst hl
        rw [Function.update_self] at hv
        have hrange := tally_range (n := 2 ^ 31 - 1) (by omega) (by omega)
          (fun w hw => ⟨hpos _ w hw, by have := hbelow pre hpre _ w hw; omega⟩) hv
        exact hrange.1
      · rw [Function.update_of_ne hl] at hv
        exact hpos l v hv

/-- A lock is not counted higher than there were calls. -/
theorem run_count_le [Inhabited Addr] (cs : List (Call Addr)) (hlen : cs.length ≤ 2 ^ 31) :
    ∀ l v, (run (shieldStep ops) (init : Tls Addr) cs).final.stored l = some v →
      1 ≤ v ∧ v ≤ cs.length := by
  induction cs using List.reverseRecOn with
  | nil =>
    intro l v hv
    simp at hv
  | append_singleton pre c ih =>
    intro l v hv
    rw [List.length_append, List.length_singleton] at hlen ⊢
    have hrange := ih (by omega)
    rcases run_snoc_stored pre c with hst | hst
    · rw [hst] at hv
      have := hrange l v hv
      omega
    · -- one more call, and one more reference at most
      rw [hst] at hv
      by_cases hl : l = c.lock
      · subst hl
        rw [Function.update_self] at hv
        have := tally_range (n := pre.length) (by omega) (by omega) (hrange c.lock) hv
        omega
      · rw [Function.update_of_ne hl] at hv
        have := hrange l v hv
        omega

/-- A call leaves the other locks' counts alone, whether it returns or panics. -/
theorem run_frame [Inhabited Addr] (pre : List (Call Addr)) (c : Call Addr) {l : Addr}
    (hl : l ≠ c.lock) :
    (run (shieldStep ops) (init : Tls Addr) (pre ++ [c])).final.stored l =
      (run (shieldStep ops) (init : Tls Addr) pre).final.stored l := by
  rcases run_snoc_stored pre c with hst | hst
  · rw [hst]
  · rw [hst, Function.update_of_ne hl]

/-- What `lock_table` and `lock_count` are to look like between two calls. -/
structure Represents (s : Tls Addr) : Prop where
  fits : s.lockCount ≤ maxLocks
  distinct : ∀ i j, i < s.lockCount → j < s.lockCount →
    (s.lockTable i).lockPtr = (s.lockTable j).lockPtr → i = j
  counted : ∀ i < s.lockCount, 1 ≤ (s.lockTable i).recCount

/-- The array variant in any run up to its first panic, overfull or not: the used
slots fit and hold distinct locks with positive counts, no access is out of
bounds, and a call changes the count of its own lock only. -/
theorem array_keeps_invariant [Inhabited Addr] (cs : List (Call Addr))
    (hbelow : ∀ pre, pre <+: cs → ∀ l v,
      (run (shieldStep ops) (init : Tls Addr) pre).final.stored l = some v → v < 2 ^ 31) :
    (∀ pre, pre <+: cs → Represents (run (shieldStep ops) (init : Tls Addr) pre).final) ∧
    (∀ e, (run (shieldStep ops) (init : Tls Addr) cs).stop = some e →
      e = (unbalancedLockPanic, []) ∨ e = (unbalancedUnlockPanic, [])) ∧
    ∀ pre c, pre ++ [c] <+: cs → ∀ l, l ≠ c.lock →
      (run (shieldStep ops) (init : Tls Addr) (pre ++ [c])).final.stored l =
        (run (shieldStep ops) (init : Tls Addr) pre).final.stored l := by
  refine ⟨fun pre hpre => ?_, (run_wf cs).2, fun pre c _ l hl => run_frame pre c hl⟩
  have hwf : (run (shieldStep ops) (init : Tls Addr) pre).final.WF := (run_wf pre).1
  have hpos := run_counted pre fun q hq => hbelow q (hq.trans hpre)
  refine ⟨hwf.fits, hwf.distinct, fun i hi => ?_⟩
  exact hpos _ _ ((Slots.stored_eq_some_iff hwf).mpr ⟨i, hi, rfl, rfl⟩)

/-- Five locks at once and releases from the middle of the table. -/
def overfull : List (Call Nat) :=
  [.acquire 0 true, .acquire 1 true, .acquire 2 true, .acquire 3 false, .acquire 4 true,
    .release 1 true, .acquire 3 true]

theorem array_keeps_invariant_overfull :
    Represents (run (shieldStep ops) (init : Tls Nat) overfull).final :=
  (array_keeps_invariant overfull fun pre hpre l v hv => by
    have hlen : pre.length ≤ 7 := hpre.length_le
    have := (run_count_le pre (by omega) l v hv).2
    omega).1 overfull (List.prefix_refl _)

end LockShield.ArrayTable
