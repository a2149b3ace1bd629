import LockShield.Lock.Clh
import Mathlib.Data.Fintype.Defs

/-!
# `CLHLock`s held together

`myNode` and `myPred` are one pair per thread. A thread that acquires a second
lock while it holds a first one puts the node that the first lock's queue still
relies on into the second queue, and from then on the two locks are one.

The state does not say which node a thread queued for which lock, so it is kept
as a history variable next to it (`noteNode`).

## Results

* `kept_step`        — what the history knows about the nodes in use.
* `Inv.release_apart` — a release of one lock leaves the others alone.
* `clh_independent`  — the locks are independent in the runs in which nobody calls `Acquire`
  while holding another `CLHLock`, and every call that does puts one node into two queues.
* `clh_shared_nestedRelease` — a run in which two locks become one.
-/

set_option linter.unusedSectionVars false

namespace LockShield.Clh

open Lib

variable {L T : Type} [DecidableEq L] [DecidableEq T]

/-- Note the node that an exchange puts into a lock's queue. -/
def noteNode (nodes : T → L → Node L T) (s : State L T) : Action L T → T → L → Node L T
  | .acquire _ _ | .release _ _ => nodes
  | .advance t =>
    match s.pc t with
    | .swapTail l => Function.update nodes t (Function.update (nodes t) l (s.myNode t))
    | .idle | .setLocked _ | .spin _ | .clearLocked _ | .swapNodes _ | .crashed => nodes

/-- Threads that hold any locks, with the node of each use. -/
def nestedStep : State L T × (T → L → Node L T) → Action L T →
    Option (State L T × (T → L → Node L T)) :=
  withHistory (step notHeld) noteNode

def nestedInit : State L T × (T → L → Node L T) := (init, fun t _ => .inr t)

/-- Nobody calls `Acquire` while holding a lock. -/
def Alone (s : State L T) : Prop := ∀ t l, s.pc t = .setLocked l → s.held t = []

instance [Fintype L] [Fintype T] : DecidablePred (Alone : State L T → Prop) := fun s =>
  inferInstanceAs (Decidable (∀ t l, s.pc t = .setLocked l → s.held t = []))

/-- The thread's node is in the lock's queue: from the exchange to the store of
`Release`. -/
def InUse (s : State L T) (t : T) (l : L) : Prop :=
  s.pc t = .spin l ∨ s.pc t = .clearLocked l ∨ l ∈ s.held t

/-- The thread has the lock, whatever call it is in. -/
def Holds (s : State L T) (t : T) (l : L) : Prop := s.pc t = .clearLocked l ∨ l ∈ s.held t

/-- No node is the queue node of two uses. -/
def Unshared (x : State L T × (T → L → Node L T)) : Prop :=
  ∀ t u l m, InUse x.1 t l → InUse x.1 u m → x.2 t l = x.2 u m → t = u ∧ l = m

variable {s s' : State L T} {x y : State L T × (T → L → Node L T)} {t u : T} {l m : L}
  {a : Action L T}

/-! ## One lock at a time -/

theorem step_oneAtATime (hs : step notHeld s a = some s') (hP : Alone s') :
    step oneAtATime s a = some s' := by
  cases a with
  | acquire t l =>
    simp only [step] at hs ⊢
    split at hs
    · rename_i hcond
      obtain rfl := Option.some.inj hs
      have hheld : s.held t = [] := hP t l (Function.update_self ..)
      rw [if_pos ⟨hcond.1, oneAtATime_iff.mpr hheld⟩]
    · cases hs
  | release t l => exact hs
  | advance t => exact hs

theorem reachable_oneAtATime (h : ReachableWithin (step notHeld) Alone init s) :
    Reachable (step oneAtATime) init s := by
  induction h with
  | start => exact .start trivial
  | step _ hs hP ih => exact ih.step (step_oneAtATime hs hP) trivial

/-- A thread with a node in a queue is queued there, and nowhere else. -/
theorem Inv.queued (h : Inv s) (hu : InUse s t l) : queuedOn s t = some l := by
  have hpc := h.pcOk t
  unfold PcOk at hpc
  unfold queuedOn
  rcases hu with hu | hu | hu
  · -- in a call about the lock
    rw [hu]
  · rw [hu]
  · cases hcase : s.pc t <;> rw [hcase] at hpc <;> simp only at hpc ⊢
    case idle =>
      rcases hpc with hnone | ⟨k, hheld, -⟩
      · rw [hnone] at hu
        cases hu
      · rw [hheld] at hu ⊢
        obtain rfl := List.mem_singleton.mp hu
        rfl
    -- in a call the thread holds nothing
    case setLocked => simp [hpc] at hu
    all_goals simp [hpc.1] at hu

theorem Inv.owns (h : Inv s) (hh : Holds s t l) : Owns s t l := by
  have hq := h.queued (Or.inr hh)
  rcases hh with hcase | hheld
  · simp [Owns, hcase]
  · have hpc := h.pcOk t
    unfold PcOk at hpc
    unfold Owns
    cases hcase : s.pc t <;> rw [hcase] at hpc <;> simp only at hpc ⊢
    case idle => exact hheld
    case setLocked => simp [hpc] at hheld
    all_goals simp [hpc.1] at hheld

/-- The node of a use is `myNode` until the use ends. -/
def Kept (x : State L T × (T → L → Node L T)) : Prop :=
  ∀ t l, InUse x.1 t l → x.2 t l = x.1.myNode t

/-- Uses that go on, with their nodes. -/
theorem Kept.frame (h : Kept x) (hnodes : y.2 = x.2)
    (hstep : ∀ t l, InUse y.1 t l → InUse x.1 t l ∧ y.1.myNode t = x.1.myNode t) : Kept y := by
  intro t l hu
  obtain ⟨hold, hnode⟩ := hstep t l hu
  rw [hnodes, hnode]
  exact h t l hold

/-- A step of thread `t` that leaves its nodes alone and puts it into no queue,
with its call or as a holder. -/
theorem Kept.leave (h : Kept x) (hnodes : y.2 = x.2) (hnode : y.1.myNode = x.1.myNode)
    (hothers : ∀ u, u ≠ t → y.1.pc u = x.1.pc u ∧ y.1.held u = x.1.held u)
    (hpc : ∀ l, y.1.pc t ≠ .spin l ∧ (y.1.pc t = .clearLocked l → InUse x.1 t l))
    (hheld : ∀ l ∈ y.1.held t, InUse x.1 t l) : Kept y := by
  refine h.frame hnodes fun u l hu => ⟨?_, by rw [hnode]⟩
  -- a use of `t` after the step is one from before it
  by_cases hut : u = t
  · subst hut
    rcases hu with hu | hu | hu
    · exact absurd hu (hpc l).1
    · exact (hpc l).2 hu
    · exact hheld l hu
  · obtain ⟨hpcu, hheldu⟩ := hothers u hut
    simpa only [InUse, hpcu, hheldu] using hu

theorem kept_swapTail (h : Kept x) (hcase : x.1.pc t = .swapTail l)
    (hpcs : ∀ u, u ≠ t → y.1.pc u = x.1.pc u) (hpct : y.1.pc t = .spin l)
    (hheld : y.1.held = x.1.held) (hnode : y.1.myNode = x.1.myNode)
    (hnodes : y.2 = Function.update x.2 t (Function.update (x.2 t) l (x.1.myNode t))) :
    Kept y := by
  intro u m hu
  rw [hnodes, hnode]
  by_cases hut : u = t
  · subst hut
    by_cases hm : m = l
    · subst hm
      simp
    · -- the other locks that the thread holds
      have hold : InUse x.1 u m := by
        simp only [InUse, hpct, hheld, Pc.spin.injEq] at hu
        rcases hu with hu | hu | hu
        · exact absurd hu.symm hm
        · cases hu
        · exact Or.inr (Or.inr hu)
      simpa [hm] using h u m hold
  · have hold : InUse x.1 u m := by simpa only [InUse, hpcs u hut, hheld] using hu
    simpa [hut] using h u m hold

theorem kept_step (hI : Inv x.1) (h : Kept x) (hs : nestedStep x a = some y) : Kept y := by
  obtain ⟨hstep, hnote⟩ := withHistory_eq_some.mp hs
  -- a lock that is held is a use
  have hold : ∀ t l, l ∈ x.1.held t → InUse x.1 t l := fun _ _ hl => Or.inr (Or.inr hl)
  cases a with
  | acquire t l =>
    obtain ⟨-, hstep⟩ := Option.ite_none_right_eq_some.mp hstep
    have hy := Option.some.inj hstep
    refine h.leave (t := t) hnote (by rw [← hy]; rfl) (fun u hu => by simp [← hy, State.goto, hu])
      (fun k => by simp [← hy, State.goto]) fun k hk => ?_
    rw [← hy] at hk
    exact hold t k hk
  | release t l =>
    obtain ⟨⟨-, hl⟩, hstep⟩ := Option.ite_none_right_eq_some.mp hstep
    have hy := Option.some.inj hstep
    refine h.leave (t := t) hnote (by rw [← hy]; rfl) (fun u hu => by simp [← hy, State.goto, hu])
      (fun k => ?_) fun k hk => ?_
    · -- the node stays in the queue of the lock that is released
      simp only [← hy, State.goto, Function.update_self, ne_eq, reduceCtorEq, not_false_eq_true,
        Pc.clearLocked.injEq, true_and]
      rintro rfl
      exact hold t l hl
    · have hheld : k ∈ (x.1.held t).erase l := by simpa [← hy, State.goto] using hk
      exact hold t k (List.mem_of_mem_erase hheld)
  | advance t =>
    have hpcOk := hI.pcOk t
    change proceed x.1 t (x.1.pc t) = some y.1 at hstep
    cases hcase : x.1.pc t <;> rw [hcase] at hstep <;> simp only [noteNode, hcase] at hnote
    case setLocked l | clearLocked l =>
      have hy := Option.some.inj hstep
      refine h.leave (t := t) hnote (by rw [← hy]; rfl)
        (fun u hu => by simp [← hy, State.goto, hu]) (fun k => by simp [← hy, State.goto])
        fun k hk => ?_
      rw [← hy] at hk
      exact hold t k hk
    case swapTail l =>
      have hy := Option.some.inj hstep
      exact kept_swapTail h hcase (fun u hu => by simp [← hy, State.goto, hu])
        (by simp [← hy, State.goto]) (by rw [← hy]; rfl) (by rw [← hy]; rfl) hnote
    case spin l =>
      cases hpred : x.1.myPred t with
      | none =>
        simp only [proceed, hpred, Option.some.injEq] at hstep
        refine h.leave (t := t) hnote (by rw [← hstep]; rfl)
          (fun u hu => by simp [← hstep, State.goto, hu]) (fun k => by simp [← hstep, State.goto])
          fun k hk => ?_
        rw [← hstep] at hk
        exact hold t k hk
      | some pred =>
        simp only [proceed, hpred] at hstep
        split at hstep
        · have hy := Option.some.inj hstep
          exact h.frame hnote fun u k hk => by rw [← hy] at hk ⊢; exact ⟨hk, rfl⟩
        · -- the call's use becomes the holder's
          have hy := Option.some.inj hstep
          refine h.leave (t := t) hnote (by rw [← hy]; rfl)
            (fun u hu => by simp [← hy, State.enter, hu]) (fun k => by simp [← hy, State.enter])
            fun k hk => ?_
          have hheld : k = l ∨ k ∈ x.1.held t := by simpa [← hy, State.enter] using hk
          rcases hheld with rfl | hheld
          · exact Or.inl hcase
          · exact hold t k hheld
    case swapNodes l =>
      -- the node is changed outside of every use
      simp only [PcOk, hcase] at hpcOk
      cases hpred : x.1.myPred t with
      | none => exact absurd hpred hpcOk.2
      | some pred =>
        simp only [proceed, hpred, Option.some.injEq] at hstep
        refine h.frame hnote fun u k hk => ?_
        by_cases hut : u = t
        · subst hut
          simp [InUse, ← hstep, State.goto, hpcOk.1] at hk
        · refine ⟨?_, by simp [← hstep, State.goto, hut]⟩
          simpa [InUse, ← hstep, State.goto, hut] using hk
    all_goals cases hstep

theorem reachable_kept (h : ReachableWithin nestedStep (fun x => Alone x.1) nestedInit x) :
    Inv x.1 ∧ Kept x := by
  have hone : ∀ y : State L T × (T → L → Node L T),
      ReachableWithin nestedStep (fun x => Alone x.1) nestedInit y → Inv y.1 := fun y hy =>
    reachable_inv (reachable_oneAtATime (hy.forget (Q := Alone) fun _ hP => hP))
  refine ⟨hone x h, ?_⟩
  induction h with
  | start =>
    intro t l hu
    simp [nestedInit, InUse, init] at hu
  | step hr hs _ ih => exact kept_step (hone _ hr) ih hs

/-! ## Independence -/

/-- Queued threads have different nodes. -/
theorem Inv.unshared (hI : Inv x.1) (hK : Kept x) : Unshared x := by
  intro t u l m ht hu hnode
  rw [hK t l ht, hK u m hu] at hnode
  have hqt := hI.queued ht
  have hqu := hI.queued hu
  -- each has its own `myNode`, and is in one queue
  obtain rfl := hI.myNode_injective ((hI.pcOk t).at hqt) ((hI.pcOk u).at hqu) hnode
  exact ⟨rfl, Option.some.inj (hqt.symm.trans hqu)⟩

/-- A waiter that may go on has nobody in front of it. -/
theorem Inv.barred {pred : Node L T} (hI : Inv s) (hcase : s.pc u = .spin l)
    (hpred : s.myPred u = some pred) (hfree : s.locked pred = false) (t : T) :
    ¬ Holds s t l := by
  intro hholds
  have hown := hI.owns hholds
  have hat := (hI.pcOk u).at (hI.queued (Or.inl hcase))
  have hfront := (hI.serves l).front t hown
  have hlo := hat.2
  rcases Nat.eq_or_lt_of_le hlo with heq | hlt
  · -- at the front there is only the owner, and the waiter is none
    rw [← heq] at hat
    obtain rfl := hat.unique hfront
    simp [Owns, hcase] at hown
  · -- whoever is in front has set the flag that the waiter polls
    have hlen := hat.lt
    obtain ⟨v, hv⟩ := Fifo.at_of_lt (q := s.queue l) (k := s.ticket u - 1) (by omega) (by omega)
    rw [show s.ticket u = s.ticket u - 1 + 1 by omega] at hat
    have hbehind := hI.behind l _ v u hv hat
    rw [hpred] at hbehind
    rw [Option.some.inj hbehind, hI.armed l _ v hv] at hfree
    cases hfree

/-- The node that a release stores to is polled by no waiter of another lock. -/
theorem Inv.release_apart {pred : Node L T} (hI : Inv s) (ht : s.pc t = .clearLocked l)
    (hu : s.pc u = .spin m) (hm : m ≠ l) (hpred : s.myPred u = some pred) : pred ≠ s.myNode t := by
  rintro rfl
  have hqt := hI.queued (Or.inr (Or.inl ht))
  have hqu := hI.queued (Or.inl hu)
  -- a polled node is the one that its queue handed on
  have hpoll : handed s (.inr u) = s.myNode t := hI.polls ⟨m, hu, hpred⟩
  rcases hI.nodeOwner ((hI.pcOk t).at hqt) with ⟨-, htail⟩ | ⟨v, hv, hnext⟩
  · cases hI.owners.1 (htail.trans hpoll.symm)
  · -- then it is `t`'s successor in the queue of `l`, and waits for `l`
    obtain rfl := Sum.inr.inj (hI.owners.1 (hnext.trans hpoll.symm))
    rw [(hI.place l _ v hv).1] at hqu
    exact hm (Option.some.inj hqu).symm

/-- A thread that holds a lock and acquires another one queues one node twice. -/
theorem shared_of_acquire (hK : Kept x) (hidle : x.1.pc t = .idle) (hne : x.1.held t ≠ [])
    (hl : l ∉ x.1.held t) :
    ∃ y, perform nestedStep (fun _ => True) x [.acquire t l, .advance t, .advance t] = some y ∧
      ¬ Unshared y := by
  -- another lock that the thread holds
  obtain ⟨k, hk⟩ := List.exists_mem_of_ne_nil _ hne
  -- the call goes on to its exchange, whatever the others do
  let s₁ : State L T := x.1.goto t (.setLocked l)
  let s₂ : State L T := { s₁ with
    locked := Function.update s₁.locked (s₁.myNode t) true }.goto t (.swapTail l)
  have h₁ : nestedStep x (.acquire t l) = some (s₁, x.2) :=
    withHistory_eq_some.mpr ⟨if_pos ⟨hidle, notHeld_iff.mpr hl⟩, rfl⟩
  have hpc₁ : s₁.pc t = .setLocked l := Function.update_self ..
  have h₂ : nestedStep (s₁, x.2) (.advance t) = some (s₂, x.2) := by
    refine withHistory_eq_some.mpr ⟨?_, by simp [noteNode, hpc₁]⟩
    show proceed s₁ t (s₁.pc t) = some s₂
    rw [hpc₁]
    rfl
  have hpc₂ : s₂.pc t = .swapTail l := Function.update_self ..
  obtain ⟨s₃, hs₃⟩ : ∃ s₃, proceed s₂ t (.swapTail l) = some s₃ := ⟨_, rfl⟩
  let nodes := Function.update x.2 t (Function.update (x.2 t) l (s₂.myNode t))
  have h₃ : nestedStep (s₂, x.2) (.advance t) = some (s₃, nodes) := by
    refine withHistory_eq_some.mpr ⟨?_, by simp [noteNode, hpc₂, nodes]⟩
    show proceed s₂ t (s₂.pc t) = some s₃
    rw [hpc₂]
    exact hs₃
  refine ⟨(s₃, nodes), by simp [perform, h₁, h₂, h₃], fun hU => ?_⟩
  -- the node of the new use is the one of the lock held before
  obtain rfl := Option.some.inj hs₃
  have hkl : k ≠ l := fun h => hl (h ▸ hk)
  have hsame : nodes t l = nodes t k := by
    have hold := hK t k (Or.inr (Or.inr hk))
    simp [nodes, hkl, hold, s₂, s₁, State.goto]
  exact hkl (hU t t l k (Or.inl (Function.update_self ..)) (Or.inr (Or.inr hk)) hsame).2.symm

/-- The runs in which nobody calls `Acquire` while holding a `CLHLock`: no node
serves two uses, a release lets no waiter of another lock through, and every lock
has one holder at most. And only then: an `Acquire` by a thread that holds a lock
puts one node into two queues. -/
theorem clh_independent
    (h : ReachableWithin nestedStep (fun x => Alone x.1) (nestedInit : State L T × _) x) :
    Unshared x ∧
    (∀ u l pred, x.1.pc u = .spin l → x.1.myPred u = some pred → x.1.locked pred = false →
      ∀ t, ¬ Holds x.1 t l) ∧
    (∀ t l y, x.1.pc t = .clearLocked l → nestedStep x (.advance t) = some y →
      ∀ u m pred, x.1.pc u = .spin m → m ≠ l → x.1.myPred u = some pred →
        y.1.locked pred = x.1.locked pred) ∧
    (∀ l t u, Holds x.1 t l → Holds x.1 u l → t = u) ∧
    (∀ t l, x.1.pc t = .idle → x.1.held t ≠ [] → l ∉ x.1.held t →
      ∃ y, perform nestedStep (fun _ => True) x [.acquire t l, .advance t, .advance t] = some y ∧
        ¬ Unshared y) := by
  obtain ⟨hI, hK⟩ := reachable_kept h
  refine ⟨hI.unshared hK, fun u l pred hcase hpred hfree => hI.barred hcase hpred hfree,
    fun t l y hcase hs u m pred hu hm hpred => ?_, fun l t u ht hu => ?_,
    fun t l hidle hne hl => ?_⟩
  · -- a store to the flag of the thread's own node, which a waiter of another lock does not poll
    obtain ⟨hstep, -⟩ := withHistory_eq_some.mp hs
    change proceed x.1 t (x.1.pc t) = some y.1 at hstep
    rw [hcase] at hstep
    have hy := Option.some.inj hstep
    rw [← hy]
    exact Function.update_of_ne (hI.release_apart hcase hu hm hpred) _ _
  · exact (hI.serves l).exclusive (hI.owns ht) (hI.owns hu)
  · exact shared_of_acquire hK hidle hne hl

/-- One thread leaves a lock while another one waits for it. -/
def handOverAlone : List (Action Bool Bool) :=
  [.acquire false true, .advance false, .advance false, .advance false, .acquire true true,
    .advance true, .advance true, .release false true, .advance false, .advance false,
    .advance true]

theorem clh_independent_handOver :
    ∃ x : State Bool Bool × (Bool → Bool → Node Bool Bool),
      perform nestedStep (fun x => Alone x.1) nestedInit handOverAlone = some x ∧ Unshared x := by
  obtain ⟨x, hx⟩ := Option.isSome_iff_exists.mp
    (show (perform nestedStep (fun x => Alone x.1)
      (nestedInit : State Bool Bool × (Bool → Bool → Node Bool Bool)) handOverAlone).isSome = true
      by decide)
  exact ⟨x, hx, (clh_independent ((ReachableWithin.start (by decide)).of_perform hx)).1⟩

/-- One thread holds a lock that another one waits for, acquires and releases a
second lock, and so lets the other one in. -/
def nestedRelease : List (Action Bool Bool) :=
  [.acquire false false, .advance false, .advance false, .advance false, .acquire true false,
    .advance true, .advance true, .acquire false true, .advance false, .advance false,
    .advance false, .release false true, .advance false, .advance true]

/-- Two threads hold the lock. -/
theorem clh_shared_nestedRelease :
    ∃ x : State Bool Bool × (Bool → Bool → Node Bool Bool),
      Reachable nestedStep nestedInit x ∧ Holds x.1 false false ∧ Holds x.1 true false := by
  obtain ⟨x, hx⟩ := Option.isSome_iff_exists.mp
    (show (perform nestedStep (fun _ => True)
      (nestedInit : State Bool Bool × (Bool → Bool → Node Bool Bool)) nestedRelease).isSome = true
      by decide)
  have hend : (perform nestedStep (fun _ => True)
      (nestedInit : State Bool Bool × (Bool → Bool → Node Bool Bool)) nestedRelease).map
      (fun x => (x.1.held false, x.1.held true)) = some ([false], [false]) := by decide
  rw [hx] at hend
  obtain ⟨h₁, h₂⟩ := by simpa using hend
  exact ⟨x, (ReachableWithin.start trivial).of_perform hx, Or.inr (by rw [h₁]; decide),
    Or.inr (by rw [h₂]; decide)⟩

end LockShield.Clh
