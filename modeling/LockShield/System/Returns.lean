import LockShield.System.Shielded

/-!
# Calls of the shield return

If the calls of the locks return while nobody holds one, so do the calls of the
shield: the threads in front of a lock function call it, the locks bring one of the
calls to its end, and its thread records or drops the lock.

A lock that is correct for a number of acquisitions only (`Mutex.Limited`) keeps its
limit behind the shield: the acquisitions that count are those that the shield has
passed on, and those that it is about to pass on (`cost`).

## Results

* `limited`         — shielded locks need as many acquisitions to leave their limits as the
  locks do.
* `mutex_returns`   — the calls of the shield return.
* `mutex_progress`  — and while a thread is outside them, a call can begin.
* `works`           — shielded locks work if the locks do.
-/

set_option linter.unusedSectionVars false

namespace LockShield.Shielded

open Lib

variable {L T σ Ptr : Type} {X : Mutex L T} [DecidableEq L] [DecidableEq T]
  {ops : T → TableOps σ Ptr L} {D : (t : T) → RefTable (ops t)} {P I : X.State → Prop}
  {s s' : State X σ Ptr} {t u : T} {l k : L} {r : Bool} {table : σ}

/-- The thread is in front of a lock function. -/
def Pc.before : Pc L Ptr → Nat
  | .lockFn _ | .unlockFn _ _ => 1
  | .idle | .locking _ | .unlocking _ _ => 0

theorem running_step {a : Action X} (h : s.stopped = none) :
    step ops s a =
      match a with
      | .acquire t l reentrant =>
        match s.pc t with
        | .idle => some (startAcquire ops s t l reentrant)
        | _ => none
      | .release t l reentrant =>
        match s.pc t with
        | .idle => some (startRelease ops s t l reentrant)
        | _ => none
      | .lock a => access s a
      | .finish t =>
        match X.phase s.lock t with
        | .out => finish ops s t (s.pc t)
        | _ => none := by
  simp only [step, h]
  rfl

/-- While no lock is held behind the shield, a lock is held only in front of its
release or at the end of its acquisition. -/
theorem held_cases (h : Inv D I s)
    (hfree : ∀ t l, ¬ (mutex X ops table).held s t l) (hheld : X.held s.lock t k) :
    (s.pc t = .locking k ∧ X.phase s.lock t = .out) ∨ ∃ e, s.pc t = .unlockFn k e := by
  have hok := h.pcOk t
  -- elsewhere the table would have it
  have hat : (s.pc t).lock = some k := by
    by_contra hne
    have htrack := (h.tracked_iff_held hne).mpr hheld
    refine hfree t k ⟨htrack, fun hphase => hne ?_⟩
    cases hpc : s.pc t with
    | idle | lockFn | locking => simp [hpc, Pc.phase] at hphase
    | unlockFn j e | unlocking j e =>
      rw [hpc] at hphase
      injection hphase with hj
      rw [hj]
      rfl
  cases hpc : s.pc t with
  | idle => simp [hpc, Pc.lock] at hat
  | lockFn j =>
    rw [hpc] at hok hat
    obtain rfl : j = k := Option.some.inj hat
    exact absurd hheld hok.2.1
  | locking j =>
    rw [hpc] at hok hat
    obtain rfl : j = k := Option.some.inj hat
    exact Or.inl ⟨rfl, (hok.2.resolve_left fun hacq => hacq.2 hheld).1⟩
  | unlockFn j e =>
    rw [hpc] at hat
    obtain rfl : j = k := Option.some.inj hat
    exact Or.inr ⟨e, rfl⟩
  | unlocking j e =>
    rw [hpc] at hok hat
    obtain rfl : j = k := Option.some.inj hat
    exact absurd hheld hok.2.1

/-- A thread in front of a lock function can call it. -/
theorem exists_call (hp : X.Progress P I) (h : Inv D I s)
    (hfree : ∀ t l, ¬ (mutex X ops table).held s t l) (hbefore : (s.pc t).before = 1) :
    ∃ a lock pc, (X.use a).thread = t ∧ X.step s.lock a = some lock ∧
      access s a = some (s.moved t lock (s.table t) pc) ∧
      pc.before = 0 ∧ pc.phase = (s.pc t).phase := by
  have hok := h.pcOk t
  have key : ∀ a lock pc, X.step s.lock a = some lock →
      s.onLock a t pc = some (s.moved t lock (s.table t) pc) := by
    intro a lock pc hlock
    simp only [State.onLock, hlock, Option.map_some, goto_eq]
    rfl
  cases hpc : s.pc t with
  | idle | locking | unlocking => simp [hpc, Pc.before] at hbefore
  | lockFn l =>
    rw [hpc] at hok
    -- a thread that holds nothing behind the shield holds no lock, between its calls
    have hnone : ∀ k, ¬ X.held s.lock t k := by
      intro k hk
      rcases held_cases h hfree hk with ⟨hcase, -⟩ | ⟨e, hcase⟩ <;> simp [hpc] at hcase
    obtain ⟨a, lock, huse, hlock⟩ := hp.acquire _ _ l h.lock h.live hok.1 hnone
    refine ⟨a, lock, .locking l, by rw [huse]; rfl, hlock, ?_, rfl, rfl⟩
    simp only [access, huse, hpc, if_true]
    exact key _ _ _ hlock
  | unlockFn l e =>
    rw [hpc] at hok
    obtain ⟨a, lock, huse, hlock⟩ := hp.release _ _ _ h.lock h.live hok.1 hok.2.1
    refine ⟨a, lock, .unlocking l e, by rw [huse]; rfl, hlock, ?_, rfl, rfl⟩
    simp only [access, huse, hpc, if_true]
    exact key _ _ _ hlock

variable (hL : X.Limited I) {n : Nat}

variable (table) in
/-- What happens inside the locks happens inside the calls of the shield. -/
theorem exists_inside (hX : X.Correct (hL.Below n) I) (hlimit : ∀ t, 1 < (D t).limit)
    (hroom : Roomy D) (h : PlainInv D I s) (hn : hL.Below n s.lock)
    (hrun : s.stopped = none) {lock : X.State} (hin : X.Inside s.lock lock) :
    ∃ s', (mutex X ops table).Inside s s' ∧ PlainInv D I s' ∧ hL.Below n s'.lock ∧
      s'.lock = lock ∧ s'.pc = s.pc ∧ s'.stopped = none := by
  induction hin with
  | refl => exact ⟨s, .refl, h, hn, rfl, rfl, hrun⟩
  | @tail lock lock' _ hstep ih =>
    obtain ⟨s', hin, h', hn', rfl, hpc, hrun'⟩ := ih
    obtain ⟨a, t, huse, hphase, hlock⟩ := hstep
    have hok := h'.pcOk t
    -- only a thread at a lock function is inside a call of the locks
    have hat : (∃ l, s'.pc t = .locking l) ∨ ∃ l e, s'.pc t = .unlocking l e := by
      cases hcase : s'.pc t with
      | idle =>
        rw [hcase] at hok
        exact absurd hok hphase
      | lockFn | unlockFn =>
        rw [hcase] at hok
        exact absurd hok.1 hphase
      | locking l => exact Or.inl ⟨l, rfl⟩
      | unlocking l e => exact Or.inr ⟨l, e, rfl⟩
    have hnext : step ops s' (.lock a) =
        some (s'.moved t lock' (s'.table t) (s'.pc t)) := by
      rw [running_step hrun']
      rcases hat with ⟨l, hcase⟩ | ⟨l, e, hcase⟩ <;>
      · simp only [access, huse, hcase, State.onLock, hlock, Option.map_some, goto_eq]
        rfl
    have hlow : hL.Below n lock' := hL.below_advance h'.lock hlock huse hn'
    refine ⟨_, hin.tail ⟨.lock a, t, ?_, ?_, plainStep_eq_some.mpr ⟨rfl, hnext⟩⟩, ?_, hlow, rfl,
      ?_, hrun'⟩
    · show Use.advance (X.use a).thread = .advance t
      rw [huse]
      rfl
    · show (s'.pc t).phase ≠ .out
      rcases hat with ⟨l, hcase⟩ | ⟨l, e, hcase⟩ <;> simp [hcase, Pc.phase]
    · exact h'.step hX hn' hlow (a := .lock a) rfl (h'.happens (h'.fits hlimit hroom) hnext)
    · rw [← hpc]
      exact Function.update_eq_self ..

/-- A thread whose lock function has returned can end its call. -/
theorem exists_finish (hlimit : ∀ t, 1 < (D t).limit) (hroom : Roomy D)
    (h : PlainInv D I s) (hrun : s.stopped = none) (hin : (s.pc t).phase ≠ .out)
    (hbefore : (s.pc t).before = 0) (hout : X.phase s.lock t = .out) :
    ∃ s', step ops s (.finish t) = some s' ∧ s'.pc t = .idle := by
  have hsome : ∃ s', step ops s (.finish t) = some s' := by
    rw [running_step hrun]
    simp only [hout]
    cases hpc : s.pc t with
    | idle => simp [hpc, Pc.phase] at hin
    | lockFn | unlockFn => simp [hpc, Pc.before] at hbefore
    | locking l => exact ⟨_, rfl⟩
    | unlocking l e => cases e <;> exact ⟨_, rfl⟩
  obtain ⟨s', hs⟩ := hsome
  refine ⟨s', hs, ?_⟩
  cases h.happens (h.fits hlimit hroom) hs with
  | recorded | dropped => exact Function.update_self ..

/-! ### The limits -/

section Limited

variable [Fintype T]

/-- The thread is in front of `lock_fn`. -/
def Pc.entering : Pc L Ptr → Nat
  | .lockFn _ => 1
  | .idle | .locking _ | .unlockFn _ _ | .unlocking _ _ => 0

/-- The acquisitions of the locks, and those that are about to begin. -/
def cost (s : State X σ Ptr) : Nat := hL.cost s.lock + ∑ t, (s.pc t).entering

theorem cost_moved (s : State X σ Ptr) (t : T) (lock : X.State) (tls : σ) (pc : Pc L Ptr) :
    cost hL (s.moved t lock tls pc) + hL.cost s.lock + (s.pc t).entering =
      cost hL s + hL.cost lock + pc.entering := by
  have hsum := sum_update (t := t) (d := Pc.entering) (f := s.pc) (c := pc)
  have hmoved : cost hL (s.moved t lock tls pc) =
      hL.cost lock + ∑ u, (Function.update s.pc t pc u).entering := rfl
  have hcost : cost hL s = hL.cost s.lock + ∑ u, (s.pc u).entering := rfl
  omega

theorem cost_acquire (hs : Happens D s (.acquire t l r) s') :
    cost hL s' ≤ cost hL s + 1 := by
  have hmoved := fun pc tls => cost_moved hL s t s.lock tls pc
  cases hs with
  | enter hidle =>
    -- the acquisition is about to begin, and counts
    have heq := hmoved (.lockFn l) (s.table t)
    simp only [hidle, Pc.entering] at heq
    omega
  | @nest _ _ tls hidle =>
    have heq := hmoved .idle tls
    simp only [hidle, Pc.entering] at heq
    omega
  | refuse => exact Nat.le_succ _

theorem cost_other {a : Action X} (h : Inv D I s)
    (hs : Happens D s a s') (hother : ∀ t l r, a ≠ .acquire t l r) :
    cost hL s' ≤ cost hL s := by
  have hmoved := cost_moved hL s
  cases hs with
  | enter | nest | refuse => exact absurd rfl (hother _ _ _)
  | unbalanced => exact Nat.le_refl _
  | @unnest t l tls pc hidle _ _ _ hpc =>
    have heq := hmoved t s.lock tls pc
    -- a release acquires nothing
    rcases hpc with ⟨rfl, -⟩ | ⟨rfl, -⟩ <;>
    · simp only [hidle, Pc.entering] at heq
      omega
  | @leave t l e hidle =>
    have heq := hmoved t s.lock (s.table t) (.unlockFn l (some e))
    simp only [hidle, Pc.entering] at heq
    omega
  | @callLock a t l lock huse hpc hlock =>
    -- the acquisition that was about to begin has begun
    have heq := hmoved t lock (s.table t) (.locking l)
    have hle := hL.acquire _ _ _ _ _ h.lock hlock huse
    simp only [hpc, Pc.entering] at heq
    omega
  | @callUnlock a t l e lock huse hpc hlock =>
    have heq := hmoved t lock (s.table t) (.unlocking l e)
    have hle := hL.other _ _ _ h.lock hlock (by rw [huse]; simp)
    simp only [hpc, Pc.entering] at heq
    omega
  | @inside a t lock huse hpc hlock =>
    have heq := hmoved t lock (s.table t) (s.pc t)
    have hle := hL.other _ _ _ h.lock hlock (by rw [huse]; simp)
    omega
  | @recorded t l tls hpc =>
    have heq := hmoved t s.lock tls .idle
    simp only [hpc, Pc.entering] at heq
    omega
  | @dropped t l e tls hpc =>
    have heq := hmoved t s.lock tls .idle
    simp only [hpc, Pc.entering] at heq
    omega

theorem cost_init (hL : X.Limited I) (table : σ) :
    cost hL (init X table : State X σ Ptr) = 0 := by
  have hzero : cost hL (init X table : State X σ Ptr) = hL.cost X.init + ∑ _ : T, 0 := rfl
  rw [hzero, hL.start, Finset.sum_const_zero, Nat.add_zero]

/-- Behind the shield, the acquisitions that count are those of the shield. -/
def limited (D : (t : T) → RefTable (ops t)) (hlimit : ∀ t, 1 < (D t).limit)
    (hroom : Roomy D) (table : σ) :
    (mutex X ops table).Limited (PlainInv D I) where
  cost := cost hL
  start := cost_init hL table
  acquire s a s' t l h hs huse := by
    have hap : Happens D s a s' :=
      h.happens (h.fits hlimit hroom) (plainStep_eq_some.mp hs).2
    cases a with
    | acquire u k r =>
      cases huse
      exact cost_acquire hL hap
    | release | lock | finish => cases huse
  other s a s' h hs hother :=
    cost_other hL h.toInv (h.happens (h.fits hlimit hroom) (plainStep_eq_some.mp hs).2)
      fun t l r ha => hother t l (by rw [ha]; rfl)

/-- The locks stay within their limit if the shield does. -/
theorem below_lock (h : cost hL s < n) : hL.Below n s.lock :=
  Nat.lt_of_le_of_lt (Nat.le_add_right ..) h

end Limited

/-! ### Calls return -/

section Returns

variable [Fintype T]

theorem sum_before_moved {lock : X.State} {tls : σ} {pc : Pc L Ptr}
    (hlt : pc.before < (s.pc t).before) :
    ∑ u, ((s.moved t lock tls pc).pc u).before < ∑ u, (s.pc u).before := by
  have hsum := sum_update (t := t) (d := Pc.before) (f := s.pc) (c := pc)
  have hmoved : ∑ u, ((s.moved t lock tls pc).pc u).before =
      ∑ u, (Function.update s.pc t pc u).before := rfl
  omega

/-- While no lock is held behind the shield, the threads inside its calls can end
one of them. -/
theorem mutex_returns (hX : X.Correct (hL.Below n) I) (hp : X.Progress (hL.Below n) I)
    (hlimit : ∀ t, 1 < (D t).limit) (hroom : Roomy D)
    (h : PlainInv D I s) (hn : cost hL s < n) (hrun : s.stopped = none)
    (hfree : ∀ t l, ¬ (mutex X ops table).held s t l) (hbusy : ∃ t, (s.pc t).phase ≠ .out) :
    ∃ s' t, (mutex X ops table).Inside s s' ∧ (s.pc t).phase ≠ .out ∧ (s'.pc t).phase = .out := by
  induction hm : ∑ t, (s.pc t).before using Nat.strong_induction_on generalizing s with
  | _ m ih =>
    by_cases hbefore : ∃ t, (s.pc t).before = 1
    · -- a thread in front of a lock function calls it
      obtain ⟨t, hbefore⟩ := hbefore
      obtain ⟨a, lock, pc, hthread, hlock, hacc, hpc0, hphase⟩ :=
        exists_call hp h.toInv hfree hbefore
      have hnext : step ops s (.lock a) =
          some (s.moved t lock (s.table t) pc) := by
        rw [running_step hrun]
        exact hacc
      have hap := h.happens (h.fits hlimit hroom) hnext
      have hcost := cost_other hL h.toInv hap (by simp)
      have h' := h.step hX (below_lock hL hn) (below_lock hL (Nat.lt_of_le_of_lt hcost hn))
        (a := .lock a) rfl hap
      -- to those outside nothing has happened yet
      have hsame : ∀ u, ((s.moved t lock (s.table t) pc).pc u).phase = (s.pc u).phase := by
        intro u
        by_cases hu : u = t
        · subst hu
          simp [State.moved, hphase]
        · simp [State.moved, hu]
      have hheld : ∀ u k, (mutex X ops table).held (s.moved t lock (s.table t) pc) u k ↔
          (mutex X ops table).held s u k := by
        intro u k
        rw [mutex_held, mutex_held, hsame]
        simp [State.moved, Function.update_eq_self]
      obtain ⟨w, hw⟩ := hbusy
      obtain ⟨s', u, hin, hu, hout⟩ := ih _ (hm ▸ sum_before_moved (by omega)) h'
        (Nat.lt_of_le_of_lt hcost hn) hrun (fun u k hk => hfree u k ((hheld u k).mp hk))
        ⟨w, by rw [hsame]; exact hw⟩ rfl
      refine ⟨s', u, .head ⟨.lock a, t, ?_, ?_, plainStep_eq_some.mpr ⟨rfl, hnext⟩⟩ hin,
        by rw [← hsame]; exact hu, hout⟩
      · show Use.advance (X.use a).thread = .advance t
        rw [hthread]
      · show (s.pc t).phase ≠ .out
        cases hcase : s.pc t with
        | idle => simp [hcase, Pc.before] at hbefore
        | lockFn | locking | unlockFn | unlocking => simp [Pc.phase]
    · have hzero : ∀ t, (s.pc t).before = 0 := by
        intro t
        have hne : (s.pc t).before ≠ 1 := fun ht => hbefore ⟨t, ht⟩
        cases hpc : s.pc t <;> simp_all [Pc.before]
      -- the threads are inside the locks' own calls, or these have returned
      have hend : ∃ s₁ t, (mutex X ops table).Inside s s₁ ∧ PlainInv D I s₁ ∧
          s₁.pc = s.pc ∧ s₁.stopped = none ∧ (s.pc t).phase ≠ .out ∧
          X.phase s₁.lock t = .out := by
        by_cases hret : ∃ t, (s.pc t).phase ≠ .out ∧ X.phase s.lock t = .out
        · obtain ⟨t, hphase, hout⟩ := hret
          exact ⟨s, t, .refl, h, rfl, hrun, hphase, hout⟩
        · have hnone : ∀ t k, ¬ X.held s.lock t k := by
            intro t k hk
            rcases held_cases h.toInv hfree hk with ⟨hpc, hout⟩ | ⟨e, hpc⟩
            · exact hret ⟨t, by simp [hpc, Pc.phase], hout⟩
            · have h0 := hzero t
              simp [hpc, Pc.before] at h0
          obtain ⟨w, hw⟩ := hbusy
          obtain ⟨lock, t, hin, hphase, hout⟩ := hp.returns _ h.lock (below_lock hL hn) h.live hnone
            ⟨w, fun hout => hret ⟨w, hw, hout⟩⟩
          obtain ⟨s₁, hin₁, h₁, -, rfl, hpc, hrun₁⟩ :=
            exists_inside table hL hX hlimit hroom h (below_lock hL hn) hrun hin
          refine ⟨s₁, t, hin₁, h₁, hpc, hrun₁, fun hout' => hphase ?_, hout⟩
          have hok := h.pcOk t
          rw [idle_of_phase hout'] at hok
          exact hok
      obtain ⟨s₁, t, hin, h₁, hpc, hrun₁, hphase, hout⟩ := hend
      have hphase₁ : (s₁.pc t).phase ≠ .out := by rw [hpc]; exact hphase
      -- the shield's call ends with the lock's
      obtain ⟨s', hs, hidle⟩ := exists_finish hlimit hroom h₁ hrun₁ hphase₁
        (by rw [hpc]; exact hzero t) hout
      refine ⟨s', t, hin.tail ⟨.finish t, t, rfl, hphase₁, plainStep_eq_some.mpr ⟨rfl, hs⟩⟩,
        hphase, ?_⟩
      rw [hidle]
      rfl

/-- Calls of shielded locks return if calls of the locks do. -/
theorem mutex_progress (hX : X.Correct (hL.Below n) I) (hp : X.Progress (hL.Below n) I)
    (hlimit : ∀ t, 1 < (D t).limit) (hroom : Roomy D) :
    (mutex X ops table).Progress ((limited hL D hlimit hroom table).Below n)
      (PlainInv D I) where
  acquire s t l h hlive hout _ := by
    have hidle : Pc.phase (State.pc s t) = .out := hout
    refine ⟨.acquire t l false, startAcquire ops s t l false, rfl,
      plainStep_eq_some.mpr ⟨(rfl : Action.flag (.acquire t l false) = false), ?_⟩⟩
    rw [running_step hlive.2]
    simp only [idle_of_phase hidle]
  release s t l h hlive hout _ := by
    have hidle : Pc.phase (State.pc s t) = .out := hout
    refine ⟨.release t l false, startRelease ops s t l false, rfl,
      plainStep_eq_some.mpr ⟨(rfl : Action.flag (.release t l false) = false), ?_⟩⟩
    rw [running_step hlive.2]
    simp only [idle_of_phase hidle]
  returns s h hn hlive hfree hbusy := mutex_returns hL hX hp hlimit hroom h hn hlive.2 hfree hbusy

/-- Shielded locks work if the locks do. -/
def works (hX : X.Works n) (D : (t : T) → RefTable (ops t))
    (htable : ∀ t, (D t).Stands table RefModel.init) (hlimit : ∀ t, 1 < (D t).limit)
    (hroom : Roomy D) : (mutex X ops table).Works n where
  inv := PlainInv D hX.inv
  limited := limited hX.limited D hlimit hroom table
  correct := (mutex_correct hX.correct htable hlimit hroom).mono fun _ => below_lock hX.limited
  progress := mutex_progress hX.limited hX.correct hX.progress hlimit hroom

end Returns

end LockShield.Shielded
