import LockShield.System.Variants

/-!
# Threads that use a shield at will

The threads call `LS_ACQUIRE` and `LS_RELEASE` as they please, nested, twice or
without a lock, and each call with either flag. A history (`Calls`) keeps what they
have called, and two things are asked of it (`WithinCalls`):

* fewer than `n` calls of `LS_ACQUIRE`, with `n` at most `INT_MAX`: the counters last;
* no call of `LS_RELEASE` without the flag by a thread that has acquired the lock more
  than once: such a call unlocks and leaves references behind, so the table would have
  a lock that nobody holds.

Then the shield stops misuse and nothing else, and the locks behind it are used as
they are meant to be (`Guarded`).

## Results

* `Balanced.step` — the tables have the references that the calls left.
* `counted_inv`   — the invariant of the shielded locks holds on these runs.
* `guarded`       — every state of these runs is `Guarded`.
-/

set_option linter.unusedSectionVars false

namespace LockShield.Shielded

open Lib

variable {L T : Type} [DecidableEq L] [DecidableEq T] {X : Mutex L T} {V : Variant L T}

/-! ## A history of the calls -/

/-- The calls so far. -/
structure Calls (L T : Type) where
  /-- how many of them were `LS_ACQUIRE` -/
  acquires : Nat
  /-- how many acquisitions a thread has not released yet -/
  depth : T → L → Nat
  /-- a release without the flag has come while there were two or more -/
  torn : Bool

/-- No call yet. -/
def Calls.start : Calls L T := ⟨0, fun _ _ => 0, false⟩

def Calls.setDepth (c : Calls L T) (t : T) (l : L) (d : Nat) : Calls L T :=
  { c with depth := Function.update c.depth t (Function.update (c.depth t) l d) }

/-- Note a call. -/
def Calls.note {σ Ptr : Type} (c : Calls L T) (_ : State X σ Ptr) : Action X → Calls L T
  | .acquire t l _ => { c.setDepth t l (c.depth t l + 1) with acquires := c.acquires + 1 }
  | .release t l r =>
    { c.setDepth t l (c.depth t l - 1) with torn := c.torn || (!r && decide (1 < c.depth t l)) }
  | .lock _ | .finish _ => c

/-- The thread is going to record the lock. -/
def Pc.taking {Ptr : Type} (l : L) : Pc L Ptr → Nat
  | .lockFn k | .locking k => if k = l then 1 else 0
  | .idle | .unlockFn _ _ | .unlocking _ _ => 0

/-- The thread is going to drop the lock. -/
def Pc.dropping {Ptr : Type} (l : L) : Pc L Ptr → Nat
  | .unlockFn k (some _) | .unlocking k (some _) => if k = l then 1 else 0
  | .idle | .lockFn _ | .locking _ | .unlockFn _ none | .unlocking _ none => 0

section Counting

variable {σ Ptr : Type} {ops : T → TableOps σ Ptr L} {D : (t : T) → RefTable (ops t)}
  {I : X.State → Prop} {s s' : State X σ Ptr} {c : Calls L T} {t u : T} {l k : L} {d : Nat}
  {a : Action X}

theorem setDepth_self (c : Calls L T) (t : T) (l : L) (d : Nat) (k : L) :
    (c.setDepth t l d).depth t k = if k = l then d else c.depth t k := by
  simp [Calls.setDepth, Function.update_apply]

theorem setDepth_of_ne (hu : u ≠ t) : (c.setDepth t l d).depth u k = c.depth u k := by
  simp [Calls.setDepth, hu]

variable (D) in
/-- The tables have as many references as the calls have left, but for the calls that
threads are in. -/
def Balanced (s : State X σ Ptr) (c : Calls L T) : Prop :=
  ∀ t l, (D t).count (s.table t) l + (s.pc t).taking l = c.depth t l + (s.pc t).dropping l

theorem Balanced.idle (h : Balanced D s c) (hidle : s.pc t = .idle) (l : L) :
    (D t).count (s.table t) l = c.depth t l := by
  have heq := h t l
  rw [hidle] at heq
  exact heq

/-- A move of `t` is balanced if `t`'s part is. -/
theorem Balanced.moved {lock : X.State} {tls : σ} {pc : Pc L Ptr} {c' : Calls L T}
    (h : Balanced D s c) (hothers : ∀ u, u ≠ t → ∀ k, c'.depth u k = c.depth u k)
    (hown : ∀ k, (D t).count tls k + pc.taking k = c'.depth t k + pc.dropping k) :
    Balanced D (s.moved t lock tls pc) c' := by
  intro u k
  by_cases hu : u = t
  · subst hu
    simpa only [State.moved, Function.update_self] using hown k
  · rw [hothers u hu k]
    simpa only [State.moved, Function.update_of_ne hu] using h u k

/-- A call of `LS_ACQUIRE` that does not panic makes one reference more. -/
theorem Balanced.acquire (h : Balanced D s c) {r : Bool} (hs : Happens D s (.acquire t l r) s')
    (hrun : s'.stopped = none) : Balanced D s' (c.note s (.acquire t l r)) := by
  have hothers : ∀ u, u ≠ t → ∀ k, (c.note s (.acquire t l r)).depth u k = c.depth u k :=
    fun u hu k => setDepth_of_ne hu
  have hdepth : ∀ k, (c.note s (.acquire t l r)).depth t k =
      if k = l then c.depth t l + 1 else c.depth t k := setDepth_self c t l _
  cases hs with
  | refuse => cases hrun
  | enter hidle h0 =>
    refine h.moved hothers fun k => ?_
    have heq := h.idle hidle k
    rw [hdepth, heq]
    -- the table follows at the end of the call
    simp only [Pc.taking, Pc.dropping, eq_comm (a := l)]
    split
    · subst k
      rfl
    · rfl
  | nest hidle h0 _ hcount =>
    refine h.moved hothers fun k => ?_
    rw [hdepth, hcount, Function.update_apply, h.idle hidle l, h.idle hidle k]
    rfl

/-- A call of `LS_RELEASE` that does not panic makes one reference less. -/
theorem Balanced.release (h : Balanced D s c) {r : Bool} (hs : Happens D s (.release t l r) s')
    (hrun : s'.stopped = none) : Balanced D s' (c.note s (.release t l r)) := by
  have hothers : ∀ u, u ≠ t → ∀ k, (c.note s (.release t l r)).depth u k = c.depth u k :=
    fun u hu k => setDepth_of_ne hu
  have hdepth : ∀ k, (c.note s (.release t l r)).depth t k =
      if k = l then c.depth t l - 1 else c.depth t k := setDepth_self c t l _
  cases hs with
  | unbalanced => cases hrun
  | @unnest _ _ tls pc hidle h0 _ hcount hpc =>
    refine h.moved hothers fun k => ?_
    have hnone : pc.taking k = 0 ∧ pc.dropping k = 0 := by
      rcases hpc with ⟨rfl, -⟩ | ⟨rfl, -⟩ <;> exact ⟨rfl, rfl⟩
    rw [hdepth, hcount, Function.update_apply, h.idle hidle l, h.idle hidle k, hnone.1, hnone.2]
  | leave hidle h0 =>
    refine h.moved hothers fun k => ?_
    have heq := h.idle hidle k
    rw [hdepth]
    -- the reference is still there, and going to be dropped
    simp only [Pc.taking, Pc.dropping, eq_comm (a := l)]
    split
    · subst k
      omega
    · omega

/-- A call in progress does what it is noted for. -/
theorem Balanced.inside (h : Balanced D s c) (hinv : Inv D I s) (hs : Happens D s a s')
    (hacquire : ∀ t l r, a ≠ .acquire t l r) (hrelease : ∀ t l r, a ≠ .release t l r) :
    Balanced D s' c := by
  cases hs with
  | enter | nest | refuse => exact absurd rfl (hacquire _ _ _)
  | unbalanced | unnest | leave => exact absurd rfl (hrelease _ _ _)
  | @callLock a t l lock _ hpc =>
    refine h.moved (fun _ _ _ => rfl) fun k => ?_
    have heq := h t k
    rw [hpc] at heq
    exact heq
  | @callUnlock a t l e lock _ hpc =>
    refine h.moved (fun _ _ _ => rfl) fun k => ?_
    have heq := h t k
    rw [hpc] at heq
    cases e with
    | none | some => exact heq
  | @inside a t => exact h.moved (fun _ _ _ => rfl) (h t)
  | @recorded t l tls hpc _ _ hcount =>
    -- the acquisition becomes a counter of one
    refine h.moved (fun _ _ _ => rfl) fun k => ?_
    have hok := hinv.pcOk t
    have heq := h t k
    rw [hpc] at hok heq
    have h0 : (D t).count (s.table t) l = 0 := hok.1
    simp only [Pc.taking, Pc.dropping, hcount, Function.update_apply, eq_comm (a := l)] at heq ⊢
    split
    · subst k
      rw [if_pos rfl] at heq
      omega
    · rename_i hk
      rw [if_neg hk] at heq
      exact heq
  | @dropped t l e tls hpc _ _ hcount =>
    -- the last reference, if it is still there, goes
    refine h.moved (fun _ _ _ => rfl) fun k => ?_
    have hok := hinv.pcOk t
    have heq := h t k
    rw [hpc] at hok heq
    rw [hcount, Function.update_apply]
    cases e with
    | none =>
      have h0 : (D t).count (s.table t) l = 0 := hok.2.2
      simp only [Pc.taking, Pc.dropping] at heq ⊢
      split
      · subst k
        omega
      · exact heq
    | some e =>
      have h1 : (D t).count (s.table t) l = 1 := hok.2.2.1
      simp only [Pc.taking, Pc.dropping, eq_comm (a := l)] at heq ⊢
      split
      · subst k
        rw [if_pos rfl] at heq
        omega
      · rename_i hk
        rw [if_neg hk] at heq
        exact heq

theorem Balanced.step (h : Balanced D s c) (hinv : Inv D I s) (hs : Happens D s a s')
    (hrun : s'.stopped = none) : Balanced D s' (c.note s a) := by
  cases a with
  | acquire t l r => exact h.acquire hs hrun
  | release t l r => exact h.release hs hrun
  | lock | finish => exact h.inside hinv hs (by simp) (by simp)

/-- No depth exceeds the number of acquisitions. -/
theorem depth_note (h : ∀ t l, c.depth t l ≤ c.acquires) (s : State X σ Ptr) (a : Action X) :
    ∀ t l, (c.note s a).depth t l ≤ (c.note s a).acquires := by
  have key : ∀ t l d m, d ≤ m → c.acquires ≤ m → ∀ u k, (c.setDepth t l d).depth u k ≤ m := by
    intro t l d m hd hm u k
    have hle := h u k
    by_cases hu : u = t
    · subst hu
      rw [setDepth_self]
      split <;> omega
    · rw [setDepth_of_ne hu]
      omega
  cases a with
  | acquire t l r => exact key t l _ _ (Nat.succ_le_succ (h t l)) (Nat.le_succ _)
  | release t l r => exact key t l _ _ ((Nat.sub_le ..).trans (h t l)) (Nat.le_refl _)
  | lock | finish => exact h

theorem Inv.count_of_dropping (h : Inv D I s) (hdrop : (s.pc t).dropping l ≠ 0) :
    (D t).count (s.table t) l = 1 := by
  have hok := h.pcOk t
  cases hpc : s.pc t with
  | idle | lockFn | locking => simp [hpc, Pc.dropping] at hdrop
  | unlockFn k e | unlocking k e =>
    rw [hpc] at hok hdrop
    cases e with
    | none => exact absurd rfl hdrop
    | some e =>
      obtain rfl : k = l := by
        by_contra hne
        exact hdrop (if_neg hne)
      exact hok.2.2.1

/-- The counters last as long as the calls do. -/
theorem Balanced.fits (h : Balanced D s c) (hdepth : ∀ t l, c.depth t l ≤ c.acquires)
    (hinv : Inv D I s) (hroom : Roomy D) (hone : ∀ t, 1 < (D t).limit)
    (hlimit : ∀ t, c.acquires < (D t).limit) : Fits D s := by
  refine fun t => ⟨fun l => ?_, fun l hpc => hinv.room hroom hpc⟩
  by_cases hdrop : (s.pc t).dropping l = 0
  · have heq := h t l
    have hle := hdepth t l
    have hlt := hlimit t
    omega
  · rw [hinv.count_of_dropping hdrop]
    exact hone t

/-- A release that tears nothing apart gives up the last reference. -/
theorem Balanced.unnested (h : Balanced D s c) (hs : Happens D s a s')
    (htorn : (c.note s a).torn = false) : Unnested D s a := by
  cases a with
  | acquire | lock | finish => trivial
  | release t l r =>
    cases r with
    | true => trivial
    | false =>
      have hidle : s.pc t = .idle := by
        cases hs with
        | unbalanced hidle | leave hidle => exact hidle
      have hdepth : ¬ 1 < c.depth t l := by
        intro hlt
        simp [Calls.note, hlt] at htorn
      exact (h.idle hidle l).trans_le (Nat.le_of_not_lt hdepth)

end Counting

/-! ## The runs -/

section Runs

variable [Fintype T] {n : Nat} {x : State X V.Table V.Ptr × Calls L T}

/-- The system, with the calls noted. -/
def countedStep (V : Variant L T) :
    State X V.Table V.Ptr × Calls L T → Action X → Option (State X V.Table V.Ptr × Calls L T) :=
  withHistory (step V.ops) Calls.note

/-- Reached with fewer than `n` calls of `LS_ACQUIRE`, and without a release that lacks
the flag while more than one acquisition is left. -/
def WithinCalls (X : Mutex L T) (V : Variant L T) (n : Nat) (s : State X V.Table V.Ptr) : Prop :=
  ∃ c, ReachableWithin (countedStep V) (fun x => x.2.acquires < n ∧ x.2.torn = false)
    (init X V.table, Calls.start) (s, c)

theorem fits_of_counted (hV : V.Counts) (hn : n ≤ 2 ^ 31 - 1) {s : State X V.Table V.Ptr}
    {c : Calls L T} {I : X.State → Prop} (hinv : Inv hV.D I s) (h : Balanced hV.D s c)
    (hdepth : ∀ t l, c.depth t l ≤ c.acquires) (hlt : c.acquires < n) : Fits hV.D s :=
  h.fits hdepth hinv hV.roomy hV.one_lt fun t => by
    rw [hV.limit]
    omega

theorem counted_inv (hX : X.Works n) (hV : V.Counts) (hn : n ≤ 2 ^ 31 - 1)
    (h : ReachableWithin (countedStep V) (fun x => x.2.acquires < n ∧ x.2.torn = false)
      (init X V.table, Calls.start) x) :
    Inv hV.D hX.inv x.1 ∧ cost hX.limited x.1 ≤ x.2.acquires ∧
      (∀ t l, x.2.depth t l ≤ x.2.acquires) ∧
      (x.1.stopped = none → Balanced hV.D x.1 x.2) := by
  induction h with
  | start hlt =>
    have hlow : hX.limited.Below n X.init :=
      below_lock hX.limited (s := (init X V.table : State X V.Table V.Ptr))
        (by rw [cost_init]; exact hlt.1)
    refine ⟨inv_init hX.correct hlow hV.stands, Nat.le_of_eq (cost_init _ _),
      fun t l => Nat.le_refl 0, fun _ t l => ?_⟩
    have hcount : (hV.D t).count V.table l = 0 := by rw [(hV.stands t).2]; rfl
    exact hcount
  | @step x y a hr hs hlt ih =>
    obtain ⟨hI, hcost, hdepth, hbal⟩ := ih
    obtain ⟨hstep, hnote⟩ := withHistory_eq_some.mp hs
    have hbal := hbal (running hstep)
    have hap := hI.happens (fits_of_counted hV hn hI hbal hdepth hr.within.1) hstep
    -- one call begins at most one acquisition of the lock
    have hcost' : cost hX.limited y.1 ≤ y.2.acquires := by
      rw [hnote]
      cases a with
      | acquire t l r => exact (cost_acquire hX.limited hap).trans (Nat.succ_le_succ hcost)
      | release | lock | finish => exact (cost_other hX.limited hI hap (by simp)).trans hcost
    refine ⟨hI.step hX.correct (below_lock hX.limited (Nat.lt_of_le_of_lt hcost hr.within.1))
      (below_lock hX.limited (Nat.lt_of_le_of_lt hcost' hlt.1))
      (hbal.unnested hap (hnote ▸ hlt.2)) hap, hcost', ?_, fun hrun => ?_⟩
    · rw [hnote]
      exact depth_note hdepth x.1 a
    · rw [hnote]
      exact hbal.step hI hap hrun

/-! ## What the shield does about misuse -/

variable (X V) in
/-- The locks are used as they are meant to be, the tables know who holds what, and a
call panics exactly when it is misuse. -/
structure Guarded (s : State X V.Table V.Ptr) : Prop where
  /-- no access of a lock has failed -/
  live : X.live s.lock
  exclusive : ∀ t u l, X.held s.lock t l → X.held s.lock u l → t = u
  /-- outside a call on a lock, the thread whose table has it holds it -/
  tracked : ∀ t l, (s.pc t).lock ≠ some l →
    (Tracked (V.ops t) (s.table t) l ↔ X.held s.lock t l)
  /-- who is about to call `lock_fn` is in no call of a lock and does not hold this one -/
  lockFn : ∀ t l, s.pc t = .lockFn l → X.phase s.lock t = .out ∧ ¬ X.held s.lock t l
  /-- who is about to call `unlock_fn` holds the lock -/
  unlockFn : ∀ t l e, s.pc t = .unlockFn l e → X.phase s.lock t = .out ∧ X.held s.lock t l
  /-- a second acquisition needs the flag -/
  acquire : ∀ t l r s', step V.ops s (.acquire t l r) = some s' →
    (s'.stopped = none ↔ ¬ X.held s.lock t l ∨ r = true)
  /-- a release needs the lock -/
  release : ∀ t l r s', step V.ops s (.release t l r) = some s' →
    (s'.stopped = none ↔ X.held s.lock t l)
  sane : s.stopped = none ∨ s.stopped = some unbalancedLockPanic ∨
    s.stopped = some unbalancedUnlockPanic

theorem guarded (hX : X.Works n) (hV : V.Counts) (hn : n ≤ 2 ^ 31 - 1)
    {s : State X V.Table V.Ptr} (h : WithinCalls X V n s) : Guarded X V s := by
  obtain ⟨c, hr⟩ := h
  obtain ⟨hI, -, hdepth, hbal⟩ := counted_inv hX hV hn hr
  have hfits : s.stopped = none → Fits hV.D s := fun hrun =>
    fits_of_counted hV hn hI (hbal hrun) hdepth hr.within.1
  exact
    { live := hI.live
      exclusive := fun t u l ht hu => hX.correct.exclusive _ _ _ _ hI.lock ht hu
      tracked := fun t l hout => hI.tracked_iff_held hout
      lockFn := fun t l hpc => by
        have hok := hI.pcOk t
        rw [hpc] at hok
        exact ⟨hok.1, hok.2.1⟩
      unlockFn := fun t l e hpc => by
        have hok := hI.pcOk t
        rw [hpc] at hok
        exact ⟨hok.1, hok.2.1⟩
      acquire := fun t l r s' hs => by
        have hrun := running hs
        cases hI.happens (hfits hrun) hs with
        -- not tracked, so not held
        | enter hidle h0 =>
          exact iff_of_true hrun (Or.inl fun hl => (hI.owned_idle hidle l).mpr hl h0)
        | nest => exact iff_of_true hrun (Or.inr rfl)
        -- tracked, so held, and without the flag
        | refuse hidle h0 =>
          refine iff_of_false (by simp) fun hok => ?_
          rcases hok with hfree | hr
          · exact hfree ((hI.owned_idle hidle l).mp h0)
          · cases hr
      release := fun t l r s' hs => by
        have hrun := running hs
        cases hI.happens (hfits hrun) hs with
        | unbalanced hidle h0 =>
          exact iff_of_false (by simp) fun hl => (hI.owned_idle hidle l).mpr hl h0
        | unnest hidle h0 | leave hidle h0 =>
          exact iff_of_true hrun ((hI.owned_idle hidle l).mp h0)
      sane := hI.sane }

end Runs

end LockShield.Shielded
