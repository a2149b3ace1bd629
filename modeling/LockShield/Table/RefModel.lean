import LockShield.Table.Shield

/-!
# The reference-count map

What the shield is for: one counter per lock. `RefModel.step` is that model; it
has no tables, no modes and no capacity. A variant's table is a faithful
implementation of the map as far as `RefTable` goes:

* its `count` is what the map stores, and a lookup finds the locks whose count is
  not zero;
* each helper changes it as the map would be changed, up to the `limit` of a counter;
* inserting needs `room`.

## Results

* `RefModel.step_ok_cases`, `RefModel.step_error_cases` — what a call of the map does.
* `RefModel.nested`       — `n` nested acquisitions count to `n`.
* `RefTable.simulation`   — from those facts alone, the shield over the table answers
  every recordable call as the map does.
* `RefTable.run_eq`       — so its runs are runs of the map, as long as every new lock has
  room and no counter outgrows its limit.
* `RefTable.run_below`    — without a capacity, as long as no counter does.
-/

namespace LockShield

open Lib

variable {σ Ptr Addr : Type} [DecidableEq Addr]

namespace RefModel

/-- Acquire and release on a map of counters. -/
def step : Call Addr → EStateM (Fault × List (Callback Addr)) (Addr → Nat) (Reply Addr)
  | .acquire l r => fun cnt =>
    if cnt l = 0 then
      .ok ⟨.lsAcquireNow, [.lockFn l]⟩ (Function.update cnt l 1)
    else if r then
      .ok ⟨.lsSkipAcquisition, []⟩ (Function.update cnt l (cnt l + 1))
    else
      .error (unbalancedLockPanic, []) cnt
  | .release l r => fun cnt =>
    if cnt l = 0 then
      .error (unbalancedUnlockPanic, []) cnt
    else if r then
      if cnt l - 1 = 0 then
        .ok ⟨.lsReleaseNow, [.unlockFn l]⟩ (Function.update cnt l (cnt l - 1))
      else
        .ok ⟨.lsSkipRelease, []⟩ (Function.update cnt l (cnt l - 1))
    else
      .ok ⟨.lsReleaseNow, [.unlockFn l]⟩ (Function.update cnt l (cnt l - 1))

/-- Nothing is held. -/
def init : Addr → Nat := fun _ => 0

section Step

variable {cnt : Addr → Nat} {l : Addr} {r : Bool}

theorem step_acquire_new (h : cnt l = 0) :
    (step (.acquire l r)).run cnt =
      .ok ⟨.lsAcquireNow, [.lockFn l]⟩ (Function.update cnt l 1) := by
  simp [step, EStateM.run, h]

theorem step_acquire_skip (h : cnt l ≠ 0) :
    (step (.acquire l true)).run cnt =
      .ok ⟨.lsSkipAcquisition, []⟩ (Function.update cnt l (cnt l + 1)) := by
  simp [step, EStateM.run, h]

theorem step_acquire_panic (h : cnt l ≠ 0) :
    (step (.acquire l false)).run cnt = .error (unbalancedLockPanic, []) cnt := by
  simp [step, EStateM.run, h]

theorem step_release_panic (h : cnt l = 0) :
    (step (.release l r)).run cnt = .error (unbalancedUnlockPanic, []) cnt := by
  simp [step, EStateM.run, h]

theorem step_release_now (h : cnt l = 1) :
    (step (.release l true)).run cnt =
      .ok ⟨.lsReleaseNow, [.unlockFn l]⟩ (Function.update cnt l (cnt l - 1)) := by
  simp [step, EStateM.run, h]

theorem step_release_skip (h : 1 < cnt l) :
    (step (.release l true)).run cnt =
      .ok ⟨.lsSkipRelease, []⟩ (Function.update cnt l (cnt l - 1)) := by
  have h0 : cnt l ≠ 0 := by omega
  have h1 : cnt l - 1 ≠ 0 := by omega
  simp only [step, EStateM.run, if_neg h0, if_neg h1, if_true]

theorem step_release_plain (h : cnt l ≠ 0) :
    (step (.release l false)).run cnt =
      .ok ⟨.lsReleaseNow, [.unlockFn l]⟩ (Function.update cnt l (cnt l - 1)) := by
  simp [step, EStateM.run, h]

/-- What a returning call did: a first acquisition, a nested one, a release that
only counts, or a release that unlocks. -/
theorem step_ok_cases {c : Call Addr} {rep : Reply Addr} {cnt' : Addr → Nat}
    (h : (step c).run cnt = .ok rep cnt') :
    (∃ l r, c = .acquire l r ∧ cnt l = 0 ∧ rep.callbacks = [.lockFn l] ∧
      cnt' = Function.update cnt l 1) ∨
    (∃ l, c = .acquire l true ∧ cnt l ≠ 0 ∧ rep.callbacks = [] ∧
      cnt' = Function.update cnt l (cnt l + 1)) ∨
    (∃ l, c = .release l true ∧ 1 < cnt l ∧ rep.callbacks = [] ∧
      cnt' = Function.update cnt l (cnt l - 1)) ∨
    (∃ l r, c = .release l r ∧ (cnt l = 1 ∨ (r = false ∧ 1 < cnt l)) ∧
      rep.callbacks = [.unlockFn l] ∧ cnt' = Function.update cnt l (cnt l - 1)) := by
  cases c with
  | acquire l r =>
    by_cases h0 : cnt l = 0
    · rw [step_acquire_new h0] at h
      obtain ⟨rfl, rfl⟩ := by simpa using h
      -- the outermost acquisition
      exact Or.inl ⟨l, r, rfl, h0, rfl, rfl⟩
    · cases r with
      | true =>
        rw [step_acquire_skip h0] at h
        obtain ⟨rfl, rfl⟩ := by simpa using h
        exact Or.inr (Or.inl ⟨l, rfl, h0, rfl, rfl⟩)
      | false =>
        rw [step_acquire_panic h0] at h
        exact absurd h (by simp)
  | release l r =>
    by_cases h0 : cnt l = 0
    · rw [step_release_panic h0] at h
      exact absurd h (by simp)
    · cases r with
      | false =>
        -- without the flag every release unlocks
        have hcnt : cnt l = 1 ∨ 1 < cnt l := by omega
        rw [step_release_plain h0] at h
        obtain ⟨rfl, rfl⟩ := by simpa using h
        exact Or.inr (Or.inr (Or.inr ⟨l, false, rfl, hcnt.imp_right fun h => ⟨rfl, h⟩, rfl, rfl⟩))
      | true =>
        by_cases h1 : cnt l = 1
        · rw [step_release_now h1] at h
          obtain ⟨rfl, rfl⟩ := by simpa using h
          exact Or.inr (Or.inr (Or.inr ⟨l, true, rfl, Or.inl h1, rfl, rfl⟩))
        · have h2 : 1 < cnt l := by omega
          rw [step_release_skip h2] at h
          obtain ⟨rfl, rfl⟩ := by simpa using h
          exact Or.inr (Or.inr (Or.inl ⟨l, rfl, h2, rfl, rfl⟩))

/-- A returning call raises no counter by more than one. -/
theorem step_ok_bound {c : Call Addr} {rep : Reply Addr} {cnt' : Addr → Nat}
    (h : (step c).run cnt = .ok rep cnt') (l : Addr) : cnt' l ≤ cnt l + 1 := by
  have hupd : ∀ k v, v ≤ cnt k + 1 → Function.update cnt k v l ≤ cnt l + 1 := by
    intro k v hv
    by_cases hl : l = k
    · subst hl
      rwa [Function.update_self]
    · rw [Function.update_of_ne hl]
      omega
  rcases step_ok_cases h with ⟨k, -, -, -, -, rfl⟩ | ⟨k, -, -, -, rfl⟩ | ⟨k, -, -, -, rfl⟩ |
    ⟨k, -, -, -, -, rfl⟩
  · exact hupd k 1 (by omega)
  · exact hupd k _ (Nat.le_refl _)
  · exact hupd k _ (by omega)
  · exact hupd k _ (by omega)

/-- A panic makes no callback and leaves the counters alone. -/
theorem step_error_cases {c : Call Addr} {e : Fault × List (Callback Addr)} {cnt' : Addr → Nat}
    (h : (step c).run cnt = .error e cnt') : cnt' = cnt ∧ e.2 = [] ∧
    ((∃ l, c = .acquire l false ∧ cnt l ≠ 0) ∨ ∃ l r, c = .release l r ∧ cnt l = 0) := by
  cases c with
  | acquire l r =>
    by_cases h0 : cnt l = 0
    · rw [step_acquire_new h0] at h
      exact absurd h (by simp)
    · cases r with
      | true =>
        rw [step_acquire_skip h0] at h
        exact absurd h (by simp)
      | false =>
        rw [step_acquire_panic h0] at h
        obtain ⟨rfl, rfl⟩ := by simpa using h
        -- the two panics come before any callback and any change
        exact ⟨rfl, rfl, Or.inl ⟨l, rfl, h0⟩⟩
  | release l r =>
    by_cases h0 : cnt l = 0
    · rw [step_release_panic h0] at h
      obtain ⟨rfl, rfl⟩ := by simpa using h
      exact ⟨rfl, rfl, Or.inr ⟨l, r, rfl, h0⟩⟩
    · cases r with
      | false =>
        rw [step_release_plain h0] at h
        exact absurd h (by simp)
      | true =>
        by_cases h1 : cnt l = 1
        · rw [step_release_now h1] at h
          exact absurd h (by simp)
        · rw [step_release_skip (by omega)] at h
          exact absurd h (by simp)

end Step

/-- No counter exceeds the number of calls. -/
theorem count_le_length (cs : List (Call Addr)) (l : Addr) :
    (run step init cs).final l ≤ cs.length := by
  refine run_snoc_induction step init (P := fun cs r => r.final l ≤ cs.length) (Nat.le_refl 0)
    (fun pre c r cnt' ih _ h => ?_) (fun pre c e cnt' ih _ h => ?_) (fun pre c ih => ?_) cs
  · have hone := step_ok_bound h l
    rw [List.length_append, List.length_singleton]
    exact Nat.le_trans hone (Nat.succ_le_succ ih)
  · rw [(step_error_cases h).1, List.length_append]
    exact Nat.le_add_right_of_le ih
  · rw [List.length_append]
    exact Nat.le_add_right_of_le ih

/-- A lock that is counted occurs in some call. -/
theorem mem_locks_of_count (cs : List (Call Addr)) (l : Addr)
    (h : (run step init cs).final l ≠ 0) : l ∈ cs.map Call.lock := by
  refine run_snoc_induction step init (P := fun cs r => r.final l ≠ 0 → l ∈ cs.map Call.lock)
    (fun h => absurd rfl h) (fun pre c r cnt' ih _ hc h => ?_) (fun pre c e cnt' ih _ hc h => ?_)
    (fun pre c ih h => ?_) cs h
  · rw [List.map_append, List.mem_append, List.map_singleton, List.mem_singleton]
    by_cases hl : l = c.lock
    · exact Or.inr hl
    · -- a call on another lock leaves this counter alone
      have hother : cnt' l = (run step init pre).final l := by
        rcases step_ok_cases hc with ⟨k, r, rfl, -, -, rfl⟩ | ⟨k, rfl, -, -, rfl⟩ |
          ⟨k, rfl, -, -, rfl⟩ | ⟨k, r, rfl, -, -, rfl⟩ <;>
        exact Function.update_of_ne hl ..
      exact Or.inl (ih fun h0 => h (hother.trans h0))
  · rw [(step_error_cases hc).1] at h
    rw [List.map_append]
    exact List.mem_append_left _ (ih h)
  · rw [List.map_append]
    exact List.mem_append_left _ (ih h)

/-- Every counter stays below `n` during the run. -/
def Below (n : Nat) (cs : List (Call Addr)) : Prop :=
  ∀ pre, pre <+: cs → ∀ l, (run step init pre).final l < n

theorem below_of_length {n : Nat} {cs : List (Call Addr)} (h : cs.length < n) : Below n cs := by
  intro pre hpre l
  have hlen := hpre.length_le
  have hcount := count_le_length pre l
  omega

/-- `n` nested acquisitions count to `n`. -/
theorem nested (l : Addr) (n : Nat) :
    (run step init (List.replicate n (.acquire l true))).stop = none ∧
    (run step init (List.replicate n (.acquire l true))).final l = n := by
  induction n with
  | zero => exact ⟨rfl, rfl⟩
  | succ n ih =>
    have hstep : ∃ rep cnt', (step (.acquire l true)).run
        (run step init (List.replicate n (.acquire l true))).final = .ok rep cnt' ∧
        cnt' l = n + 1 := by
      by_cases h0 : n = 0
      · exact ⟨_, _, step_acquire_new (by rw [ih.2, h0]), by simp [h0]⟩
      · exact ⟨_, _, step_acquire_skip (by rw [ih.2]; exact h0), by simp [ih.2]⟩
    obtain ⟨rep, cnt', hrun, hcnt⟩ := hstep
    rw [List.replicate_succ', run_snoc_ok ih.1 hrun]
    exact ⟨rfl, hcnt⟩

end RefModel

/-! ## Tables that store the map -/

/-- A table whose helpers maintain a map of counters, up to `limit` per lock,
with insertions only where there is `room`. -/
structure RefTable (T : TableOps σ Ptr Addr) where
  Inv : σ → Prop
  count : σ → Addr → Nat
  room : (Addr → Nat) → Prop
  limit : Nat
  lookup_none : ∀ s l, Inv s → count s l = 0 → (T.lookup l).run s = .ok none s
  lookup_some : ∀ s l, Inv s → count s l ≠ 0 → ∃ p, (T.lookup l).run s = .ok (some p) s
  insert : ∀ s l, Inv s → count s l = 0 → room (count s) →
    ∃ s', (T.incrementRef l none).run s = .ok () s' ∧ Inv s' ∧
      count s' = Function.update (count s) l 1
  increment : ∀ s l p, Inv s → (T.lookup l).run s = .ok (some p) s → count s l < limit →
    ∃ s', (T.incrementRef l (some p)).run s = .ok () s' ∧ Inv s' ∧
      count s' = Function.update (count s) l (count s l + 1)
  decrement : ∀ s l p, Inv s → (T.lookup l).run s = .ok (some p) s →
    ∃ s', (T.decrementRef l (some p)).run s = .ok ((count s l - 1 : Nat) : Int) s' ∧ Inv s' ∧
      count s' = Function.update (count s) l (count s l - 1)

namespace RefTable

variable {T : TableOps σ Ptr Addr}

/-- A call the table can record: a new lock has room, a held one that is
acquired again is below the limit. -/
def Recordable (D : RefTable T) (cnt : Addr → Nat) : Call Addr → Prop
  | .acquire l r => (cnt l = 0 → D.room cnt) ∧ (cnt l ≠ 0 → r = true → cnt l < D.limit)
  | .release _ _ => True

/-- The table's state stands for this map. -/
def Stands (D : RefTable T) (s : σ) (cnt : Addr → Nat) : Prop :=
  D.Inv s ∧ D.count s = cnt

/-- The shield over the table answers every recordable call as the map does. -/
theorem simulation (D : RefTable T) :
    Simulation (shieldStep T) RefModel.step D.Stands D.Recordable := by
  constructor
  · rintro s cnt c rep cnt' ⟨hI, rfl⟩ hG hstep
    cases c with
    | acquire l r =>
      by_cases h0 : D.count s l = 0
      · obtain ⟨s', hinc, hI', hc⟩ := D.insert s l hI h0 (hG.1 h0)
        rw [RefModel.step_acquire_new h0] at hstep
        obtain ⟨rfl, rfl⟩ := by simpa using hstep
        exact ⟨s', shieldStep_acquire_new (D.lookup_none s l hI h0) hinc, hI', hc⟩
      · obtain ⟨p, hl⟩ := D.lookup_some s l hI h0
        cases r with
        | true =>
          obtain ⟨s', hinc, hI', hc⟩ := D.increment s l p hI hl (hG.2 h0 rfl)
          rw [RefModel.step_acquire_skip h0] at hstep
          obtain ⟨rfl, rfl⟩ := by simpa using hstep
          exact ⟨s', shieldStep_acquire_skip hl hinc, hI', hc⟩
        | false =>
          rw [RefModel.step_acquire_panic h0] at hstep
          exact absurd hstep (by simp)
    | release l r =>
      by_cases h0 : D.count s l = 0
      · rw [RefModel.step_release_panic h0] at hstep
        exact absurd hstep (by simp)
      · obtain ⟨p, hl⟩ := D.lookup_some s l hI h0
        obtain ⟨s', hdec, hI', hc⟩ := D.decrement s l p hI hl
        cases r with
        | true =>
          by_cases h1 : D.count s l = 1
          · rw [RefModel.step_release_now h1] at hstep
            obtain ⟨rfl, rfl⟩ := by simpa using hstep
            -- the last reference: the helper returns 0, and the lock is released
            have hdec0 : (T.decrementRef l (some p)).run s = .ok 0 s' := by
              simpa [h1] using hdec
            exact ⟨s', shieldStep_release_now hl hdec0, hI', hc⟩
          · have h2 : 1 < D.count s l := by omega
            -- references are left, so the helper does not return 0
            have hv : ((D.count s l - 1 : Nat) : Int) ≠ 0 := by omega
            rw [RefModel.step_release_skip h2] at hstep
            obtain ⟨rfl, rfl⟩ := by simpa using hstep
            exact ⟨s', shieldStep_release_skip hl hdec hv, hI', hc⟩
        | false =>
          rw [RefModel.step_release_plain h0] at hstep
          obtain ⟨rfl, rfl⟩ := by simpa using hstep
          exact ⟨s', shieldStep_release_plain hl hdec, hI', hc⟩
  · rintro s cnt c e cnt' ⟨hI, rfl⟩ hG hstep
    cases c with
    | acquire l r =>
      by_cases h0 : D.count s l = 0
      · rw [RefModel.step_acquire_new h0] at hstep
        exact absurd hstep (by simp)
      · obtain ⟨p, hl⟩ := D.lookup_some s l hI h0
        cases r with
        | true =>
          rw [RefModel.step_acquire_skip h0] at hstep
          exact absurd hstep (by simp)
        | false =>
          rw [RefModel.step_acquire_panic h0] at hstep
          obtain ⟨rfl, rfl⟩ := by simpa using hstep
          exact ⟨s, shieldStep_acquire_panic hl, hI, rfl⟩
    | release l r =>
      by_cases h0 : D.count s l = 0
      · rw [RefModel.step_release_panic h0] at hstep
        obtain ⟨rfl, rfl⟩ := by simpa using hstep
        exact ⟨s, shieldStep_release_panic (D.lookup_none s l hI h0), hI, rfl⟩
      · cases r with
        | true =>
          by_cases h1 : D.count s l = 1
          · rw [RefModel.step_release_now h1] at hstep
            exact absurd hstep (by simp)
          · rw [RefModel.step_release_skip (by omega)] at hstep
            exact absurd hstep (by simp)
        | false =>
          rw [RefModel.step_release_plain h0] at hstep
          exact absurd hstep (by simp)

/-- A run is recordable when there is room for every new lock and the counters stay
within the limit. -/
theorem recordable_of_below (D : RefTable T) {cs : List (Call Addr)}
    (hroom : ∀ pre c, pre ++ [c] <+: cs → (run RefModel.step RefModel.init pre).stop = none →
      ∀ l r, c = .acquire l r → (run RefModel.step RefModel.init pre).final l = 0 →
        D.room (run RefModel.step RefModel.init pre).final)
    (hbelow : RefModel.Below (D.limit + 1) cs) :
    Along RefModel.step D.Recordable RefModel.init cs := by
  refine along_of_prefix cs RefModel.init fun pre c hpre hstop => ?_
  cases c with
  | release l r => trivial
  | acquire l r =>
    refine ⟨hroom pre _ hpre hstop l r rfl, fun h0 hr => ?_⟩
    subst hr
    -- the count after the call is one more and still below the bound
    have hafter := hbelow _ hpre l
    rw [run_snoc_ok hstop (RefModel.step_acquire_skip h0)] at hafter
    simp only [Function.update_self] at hafter
    omega

/-- Runs of the shield over the table are runs of the map. -/
theorem run_eq (D : RefTable T) {s : σ} {cnt : Addr → Nat} {cs : List (Call Addr)}
    (hs : D.Stands s cnt) (hG : Along RefModel.step D.Recordable cnt cs) :
    (run (shieldStep T) s cs).replies = (run RefModel.step cnt cs).replies ∧
    (run (shieldStep T) s cs).stop = (run RefModel.step cnt cs).stop ∧
    D.Stands (run (shieldStep T) s cs).final (run RefModel.step cnt cs).final :=
  D.simulation.run_eq cs s cnt hs hG

/-- Without a capacity, that holds for all runs whose counters stay within the
limit. -/
theorem run_below (D : RefTable T) (hroom : ∀ cnt, D.room cnt) {s : σ}
    (hs : D.Stands s RefModel.init) {cs pre : List (Call Addr)}
    (hbelow : RefModel.Below (D.limit + 1) cs) (hpre : pre <+: cs) :
    (run (shieldStep T) s pre).replies = (run RefModel.step RefModel.init pre).replies ∧
    (run (shieldStep T) s pre).stop = (run RefModel.step RefModel.init pre).stop ∧
    D.Stands (run (shieldStep T) s pre).final (run RefModel.step RefModel.init pre).final := by
  have hrec : Along RefModel.step D.Recordable RefModel.init cs :=
    D.recordable_of_below (fun _ _ _ _ _ _ _ _ => hroom _) hbelow
  exact D.run_eq hs (hrec.restrict hpre)

end RefTable

end LockShield
