import LockShield.Lock.Progress

/-!
# The first waiter is woken

A queue lock that lets nobody overtake may still forget to wake its first waiter. In
`MCSLock` and `K42Lock` a `Release` does not: whatever the other threads do, each of its
accesses waits for the link that the first waiter is about to store, or comes nearer to
the wake, or is the wake.

## Results

* `Mcs.Inv.release_access`, `K42.Inv.release_access` — what an access of `Release` is, in
  any reachable state with somebody behind.
* `Mcs.release_wakes`, `K42.release_wakes` — the remaining accesses, and the link of the
  first waiter if it is still to come, lead to the wake.
-/

set_option linter.unusedSectionVars false

namespace LockShield

open Lib

/-! ## `MCSLock` -/

namespace Mcs

variable {L T : Type} [DecidableEq L] [DecidableEq T] [Fintype T] {s s' : State L T} {t u : T}
  {l : L}

/-- The thread is in `Release` of the lock. -/
def Releasing (s : State L T) (t : T) (l : L) : Prop := Owns s t l ∧ s.pc t ≠ .idle

theorem releasing_goto {c : Pc L T} (hc : c = .casTail l ∨ c = .awaitNext l ∨ c = .loadNext l ∨
    ∃ succ, c = .wake l succ) : Releasing (s.goto t c) t l := by
  have hpc : (s.goto t c).pc t = c := Function.update_self ..
  rcases hc with rfl | rfl | rfl | ⟨succ, rfl⟩ <;> simp [Releasing, Owns, hpc]

/-- An access of `Release` while `u` is next in the queue. -/
theorem Inv.release_access (h : Inv s) (hr : Releasing s t l)
    (hu : (s.queue l).At ((s.queue l).departed + 1) u)
    (hs : step oneAtATime s (.advance t) = some s') :
    (s' = s ∧ s.pc u = .link l t) ∨
      (Releasing s' t l ∧ s'.queue = s.queue ∧ s'.pc u = s.pc u ∧
        fuel (s'.pc t) < fuel (s.pc t)) ∨
      (s.pc t = .wake l u ∧ s'.locked u = false ∧ (s'.queue l).At (s'.queue l).departed u) := by
  obtain ⟨hown, hbusy⟩ := hr
  have hfront := (h.serves l).front t hown
  obtain ⟨hlinked, hcas, hload, hwake⟩ := h.willWake hfront hu
  have hne : u ≠ t := fun heq => by
    subst heq
    have h1 := (h.place l _ u hfront).2
    have h2 := (h.place l _ u hu).2
    omega
  -- an access that only reads
  have hgoto : ∀ c, some (s.goto t c) = some s' → Releasing (s.goto t c) t l →
      fuel c < fuel (s.pc t) → Releasing s' t l ∧ s'.queue = s.queue ∧ s'.pc u = s.pc u ∧
        fuel (s'.pc t) < fuel (s.pc t) := by
    intro c heq hrel hlt
    obtain rfl := Option.some.inj heq
    refine ⟨hrel, rfl, Function.update_of_ne hne .., ?_⟩
    have hpc : (s.goto t c).pc t = c := Function.update_self ..
    rw [hpc]
    exact hlt
  simp only [step] at hs
  unfold Owns at hown
  cases hpc : s.pc t with
  | idle => exact absurd hpc hbusy
  | clearNext | setLocked | swapTail | link | spin | crashed =>
    rw [hpc] at hown
    exact hown.elim
  | checkNext k =>
    obtain rfl : k = l := by simpa [hpc] using hown
    simp only [hpc, proceed] at hs
    refine Or.inr (Or.inl ?_)
    rw [← hpc]
    split at hs
    · exact hgoto _ hs (releasing_goto (Or.inl rfl)) (by simp [hpc, fuel])
    · exact hgoto _ hs (releasing_goto (Or.inr (Or.inr (Or.inl rfl)))) (by simp [hpc, fuel])
  | casTail k =>
    obtain rfl : k = l := by simpa [hpc] using hown
    -- the tail belongs to somebody who came later
    simp only [hpc, proceed, hcas hpc, if_false] at hs
    refine Or.inr (Or.inl ?_)
    rw [← hpc]
    exact hgoto _ hs (releasing_goto (Or.inr (Or.inl rfl))) (by simp [hpc, fuel])
  | awaitNext k =>
    obtain rfl : k = l := by simpa [hpc] using hown
    simp only [hpc, proceed] at hs
    split at hs
    · rename_i hnone
      -- the link is still to come, and its thread is about to store it
      refine Or.inl ⟨(Option.some.inj hs).symm, hlinked.resolve_left ?_⟩
      rw [hnone]
      simp
    · refine Or.inr (Or.inl ?_)
      rw [← hpc]
      exact hgoto _ hs (releasing_goto (Or.inr (Or.inr (Or.inl rfl)))) (by simp [hpc, fuel])
  | loadNext k =>
    obtain rfl : k = l := by simpa [hpc] using hown
    simp only [hpc, proceed, hload hpc] at hs
    refine Or.inr (Or.inl ?_)
    rw [← hpc]
    exact hgoto _ hs (releasing_goto (Or.inr (Or.inr (Or.inr ⟨u, rfl⟩)))) (by simp [hpc, fuel])
  | wake k succ =>
    obtain rfl : k = l := by simpa [hpc] using hown
    obtain rfl : succ = u := hwake succ hpc
    simp only [hpc, proceed] at hs
    obtain rfl := Option.some.inj hs
    refine Or.inr (Or.inr ⟨rfl, Function.update_self .., ?_⟩)
    -- the queue is one shorter, and `u` is its first
    simp only [State.depart, Function.update_self, Fifo.departed_depart]
    exact Fifo.at_depart.mpr ⟨hu, by omega⟩

theorem Releasing.access (hr : Releasing s t l) :
    ∃ s', step oneAtATime s (.advance t) = some s' := by
  obtain ⟨hown, hbusy⟩ := hr
  unfold Owns at hown
  simp only [step]
  cases hpc : s.pc t with
  | idle => exact absurd hpc hbusy
  | clearNext | setLocked | swapTail | link | spin | crashed =>
    rw [hpc] at hown
    exact hown.elim
  | checkNext | casTail | awaitNext =>
    simp only [proceed]
    split <;> exact ⟨_, rfl⟩
  | loadNext =>
    simp only [proceed]
    cases s.next t <;> exact ⟨_, rfl⟩
  | wake => exact ⟨_, rfl⟩

/-- An access of one of the two threads. -/
def StepOf (t u : T) (s s' : State L T) : Prop :=
  step oneAtATime s (.advance t) = some s' ∨ step oneAtATime s (.advance u) = some s'

/-- The next access of `t` wakes `u` and makes it the first of the queue. -/
def Wakes (s : State L T) (t u : T) (l : L) : Prop :=
  s.pc t = .wake l u ∧ ∃ s', step oneAtATime s (.advance t) = some s' ∧ s'.locked u = false ∧
    (s'.queue l).At (s'.queue l).departed u

/-- The thread is in `Release` while `u` is next in the queue. -/
structure Passing (s : State L T) (t u : T) (l : L) : Prop where
  inv : Inv s
  releasing : Releasing s t l
  next : (s.queue l).At ((s.queue l).departed + 1) u

theorem Passing.nearer (h : Passing s t u l) : Wakes s t u l ∨
    ∃ s', Relation.ReflTransGen (StepOf t u) s s' ∧ Passing s' t u l ∧
      fuel (s'.pc t) + fuel (s'.pc u) < fuel (s.pc t) + fuel (s.pc u) := by
  obtain ⟨s', hs⟩ := h.releasing.access
  rcases h.inv.release_access h.releasing h.next hs with
    ⟨-, hlink⟩ | ⟨hr, hq, hpcu, hlt⟩ | ⟨hpc, hwoken⟩
  · -- the thread waits for the link: let the next one store it
    have hne : t ≠ u := by
      rintro rfl
      exact absurd h.releasing.1 (by simp [Owns, hlink])
    have hz : step oneAtATime s (.advance u) =
        some ({ s with next := Function.update s.next t (some u) }.goto u (.spin l)) := by
      simp only [step, hlink, proceed]
    refine Or.inr ⟨_, .single (Or.inr hz), ⟨inv_proceed h.inv hz, ⟨?_, ?_⟩, h.next⟩, ?_⟩
    · have hown := h.releasing.1
      unfold Owns at hown ⊢
      simpa [State.goto, hne] using hown
    · simpa [State.goto, hne] using h.releasing.2
    · simp [State.goto, hne, hlink, fuel]
  · refine Or.inr ⟨s', .single (Or.inl hs), ⟨inv_proceed h.inv hs, hr, ?_⟩, ?_⟩
    · rw [hq]
      exact h.next
    · rw [hpcu]
      omega
  · exact Or.inl ⟨hpc, s', hs, hwoken⟩

/-- While a thread is in `Release` and another is next in the queue, the accesses of these
two lead to the wake of the one that is next. -/
theorem release_wakes (h : Reachable (step oneAtATime) (init : State L T) s)
    (hr : Releasing s t l) (hu : (s.queue l).At ((s.queue l).departed + 1) u) :
    ∃ s', Relation.ReflTransGen (StepOf t u) s s' ∧ Wakes s' t u l := by
  obtain ⟨s', hrun, -, hwakes⟩ := exists_of_measure (Q := fun s => Passing s t u l)
    (fun s => fuel (s.pc t) + fuel (s.pc u)) (fun _ => Passing.nearer) ⟨reachable_inv h, hr, hu⟩
  exact ⟨s', hrun, hwakes⟩

end Mcs

/-! ## `K42Lock` -/

namespace K42

variable {N T : Type} [DecidableEq N] [DecidableEq T] [Fintype T] {s s' : State N T} {t u : T}

/-- An access of `Release` while `u` is next in the queue. -/
theorem Inv.release_access (h : Inv s) (hr : (s.pc t).releasing = true)
    (hu : s.queue.At (s.queue.departed + 1) u) (hs : step s (.advance t) = some s') :
    (s' = s ∧ (s.pc u).linking = some .head) ∨
      ((s'.pc t).releasing = true ∧ s'.queue = s.queue ∧ s'.pc u = s.pc u ∧
        fuel (s'.pc t) < fuel (s.pc t)) ∨
      ∃ n, s.pc t = .wake n ∧ (s.pc u).node = some n ∧ s'.locked n = false ∧
        s'.queue.At s'.queue.departed u := by
  have hfront := h.serves.front t (Or.inr hr)
  obtain ⟨⟨p, n, hp, hn, hlinked⟩, -, -, hcas, hwake⟩ := h.willWake hfront hu
  have hne : u ≠ t := fun heq => by
    subst heq
    have h1 := (h.placed _ u hfront).2
    have h2 := (h.placed _ u hu).2
    omega
  -- an access that only reads
  have hgoto : ∀ c, some (s.goto t c) = some s' → c.releasing = true →
      fuel c < fuel (s.pc t) → (s'.pc t).releasing = true ∧ s'.queue = s.queue ∧
        s'.pc u = s.pc u ∧ fuel (s'.pc t) < fuel (s.pc t) := by
    intro c heq hrel hlt
    obtain rfl := Option.some.inj heq
    have hpc : (s.goto t c).pc t = c := Function.update_self ..
    refine ⟨?_, rfl, Function.update_of_ne hne .., ?_⟩
    · rw [hpc]
      exact hrel
    · rw [hpc]
      exact hlt
  simp only [step] at hs
  cases hpc : s.pc t with
  | idle | clearNext | swapTail | setLocked | link | spin | loadNext | clearHead | casTail
    | awaitNext | storeHead | free | crashed => simp [hpc, Pc.releasing] at hr
  | loadHead =>
    simp only [hpc, proceed] at hs
    refine Or.inr (Or.inl ?_)
    rw [← hpc]
    split at hs
    · exact hgoto _ hs rfl (by simp [hpc, fuel])
    · exact hgoto _ hs rfl (by simp [hpc, fuel])
  | casHead =>
    -- the tail is the node of somebody who came later
    simp only [hpc, proceed, hcas hpc, if_false] at hs
    refine Or.inr (Or.inl ?_)
    rw [← hpc]
    exact hgoto _ hs rfl (by simp [hpc, fuel])
  | awaitHead =>
    have hhead : placeOf s t = some .head := h.placeOf_eq hpc (by simp)
    obtain rfl : Ptr.head = p := Option.some.inj (hhead.symm.trans hp)
    simp only [hpc, proceed] at hs
    split at hs
    · rename_i hnone
      -- the link is still to come, and its thread is about to store it
      refine Or.inl ⟨(Option.some.inj hs).symm, hlinked.resolve_left ?_⟩
      simp [State.nextOf, hnone]
    · refine Or.inr (Or.inl ?_)
      rw [← hpc]
      exact hgoto _ hs rfl (by simp [hpc, fuel])
  | wake m =>
    have hnode := hwake m hpc
    have hlive := h.owned u m hnode
    simp only [hpc, proceed, State.access, hlive, if_true] at hs
    obtain rfl := Option.some.inj hs
    refine Or.inr (Or.inr ⟨m, rfl, hnode, Function.update_self .., ?_⟩)
    -- the queue is one shorter, and `u` is its first
    exact Fifo.at_depart.mpr ⟨hu, Nat.succ_ne_self _⟩

theorem exists_access_releasing (hr : (s.pc t).releasing = true) :
    ∃ s', step s (.advance t) = some s' := by
  simp only [step]
  cases hpc : s.pc t with
  | idle | clearNext | swapTail | setLocked | link | spin | loadNext | clearHead | casTail
    | awaitNext | storeHead | free | crashed => simp [hpc, Pc.releasing] at hr
  | loadHead | casHead | awaitHead =>
    simp only [proceed]
    split <;> exact ⟨_, rfl⟩
  | wake => exact ⟨_, rfl⟩

/-- A thread that has joined the queue comes nearer to its link. -/
theorem Inv.linking_access (h : Inv s) (hl : (s.pc u).linking = some .head) :
    ∃ s', step s (.advance u) = some s' ∧ (∀ t, t ≠ u → s'.pc t = s.pc t) ∧
      s'.queue = s.queue ∧ fuel (s'.pc u) < fuel (s.pc u) := by
  simp only [step]
  cases hpc : s.pc u with
  | idle | clearNext | swapTail | spin | loadNext | clearHead | casTail | awaitNext | storeHead
    | free | loadHead | casHead | awaitHead | wake | crashed => simp [hpc, Pc.linking] at hl
  | setLocked n p =>
    have hlive := h.owned u n (by rw [hpc]; rfl)
    simp only [proceed, State.access, hlive, if_true]
    refine ⟨_, rfl, fun t hne => Function.update_of_ne hne .., rfl, ?_⟩
    simp [State.goto, fuel]
  | link n p =>
    obtain rfl : p = .head := by simpa [hpc, Pc.linking] using hl
    refine ⟨_, rfl, fun t hne => Function.update_of_ne hne .., rfl, ?_⟩
    simp [State.access, State.goto, fuel]

/-- An access of one of the two threads. -/
def StepOf (t u : T) (s s' : State N T) : Prop :=
  step s (.advance t) = some s' ∨ step s (.advance u) = some s'

/-- The next access of `t` wakes `u` and makes it the first of the queue. -/
def Wakes (s : State N T) (t u : T) : Prop :=
  ∃ n s', s.pc t = .wake n ∧ (s.pc u).node = some n ∧ step s (.advance t) = some s' ∧
    s'.locked n = false ∧ s'.queue.At s'.queue.departed u

/-- The thread is in `Release` while `u` is next in the queue. -/
structure Passing (s : State N T) (t u : T) : Prop where
  inv : Inv s
  releasing : (s.pc t).releasing = true
  next : s.queue.At (s.queue.departed + 1) u

theorem Passing.nearer (h : Passing s t u) : Wakes s t u ∨
    ∃ s', Relation.ReflTransGen (StepOf t u) s s' ∧ Passing s' t u ∧
      fuel (s'.pc t) + fuel (s'.pc u) < fuel (s.pc t) + fuel (s.pc u) := by
  obtain ⟨s', hs⟩ := exists_access_releasing h.releasing
  rcases h.inv.release_access h.releasing h.next hs with
    ⟨-, hlink⟩ | ⟨hr, hq, hpcu, hlt⟩ | ⟨n, hpc, hnode, hwoken⟩
  · -- the thread waits for the link: let the next one come nearer to it
    have hne : t ≠ u := by
      rintro rfl
      have hrel := h.releasing
      cases hpc : s.pc t <;> simp [hpc, Pc.releasing, Pc.linking] at hrel hlink
    obtain ⟨z, hz, hothers, hq, hlt⟩ := h.inv.linking_access hlink
    refine Or.inr ⟨z, .single (Or.inr hz), ⟨inv_proceed h.inv hz, ?_, ?_⟩, ?_⟩
    · rw [hothers t hne]
      exact h.releasing
    · rw [hq]
      exact h.next
    · rw [hothers t hne]
      omega
  · refine Or.inr ⟨s', .single (Or.inl hs), ⟨inv_proceed h.inv hs, hr, ?_⟩, ?_⟩
    · rw [hq]
      exact h.next
    · rw [hpcu]
      omega
  · exact Or.inl ⟨n, s', hpc, hnode, hs, hwoken⟩

/-- While a thread is in `Release` and another is next in the queue, the accesses of these
two lead to the wake of the one that is next. -/
theorem release_wakes (h : Reachable step (init : State N T) s) (hr : (s.pc t).releasing = true)
    (hu : s.queue.At (s.queue.departed + 1) u) :
    ∃ s', Relation.ReflTransGen (StepOf t u) s s' ∧ Wakes s' t u := by
  obtain ⟨s', hrun, -, hwakes⟩ := exists_of_measure (Q := fun s => Passing s t u)
    (fun s => fuel (s.pc t) + fuel (s.pc u)) (fun _ => Passing.nearer) ⟨reachable_inv h, hr, hu⟩
  exact ⟨s', hrun, hwakes⟩

end K42

end LockShield
