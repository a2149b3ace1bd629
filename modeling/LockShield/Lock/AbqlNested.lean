import LockShield.Lock.Abql

/-!
# Several `ABQLLock`s at a time

`slot` is one variable for all locks, so a thread that holds two of them releases
both at the slot that it drew last. What remains is this: as long as every release
finds in `slot` the slot of its own ticket, each lock is passed on to its next
ticket, whatever the threads hold otherwise.

## Results

* `Inv.owner_flag`      — what a release finds in the flags.
* `abql_independent`    — runs in which every release finds its own slot.
* `abql_lost_nestedUsed` — a run in which one does not, and a lock is lost.
-/

set_option linter.unusedSectionVars false

namespace LockShield.Abql

open Lib

variable {L T : Type} [DecidableEq L] [DecidableEq T] {s s' : State L T} {t u : T} {l : L} {i : Int}

/-- While a thread is inside, and not between its stores, its flag is the only
one. -/
theorem Inv.owner_flag (h : Inv s) (hown : Owns s t l) (hpc : s.pc t ≠ .wakeNext l) :
    s.flags l i = true ↔ i = slotAt (s.ticket t l) := by
  rw [h.flags l i, h.owner_ticket hown, and_iff_left fun u => h.no_wake hown hpc u]

variable [Finite T]

/-- The runs of several locks in which every release finds the slot that its own
acquisition drew: each release hands its lock to the next ticket, and no lock is
lost. And only then: any other release leaves the flag of its ticket standing. -/
theorem abql_independent (hcard : Nat.card T ≤ 256)
    (h : ReachableWithin (step notHeld) (fun s => Kept s ∧ Few s) (init : State L T) s) :
    (∀ t l, s.pc t = .clearFlag l → ∀ i, s.flags l i = true ↔ i = slotAt (s.ticket t l)) ∧
    (∀ t l s', s.pc t = .wakeNext l → step notHeld s (.advance t) = some s' →
      (∀ i, s'.flags l i = true ↔ i = slotAt (s.ticket t l + 1)) ∧
      ∀ u i, s'.pc u = .spin l i → (s'.flags l i = true ↔ s'.ticket u l = s.ticket t l + 1)) ∧
    (∀ l, (∃ t, Waits s t l) → (∀ t, ¬ Owns s t l) →
      ∃ t i, s.pc t = .spin l i ∧ s.flags l i = true) ∧
    (∀ t l, s.pc t = .idle → l ∈ s.held t →
      ∃ s', perform (step notHeld) (fun _ => True) s [.release t l, .advance t, .advance t] =
        some s' ∧
      ((∀ i, s'.flags l i = true ↔ i = slotAt (s.ticket t l + 1)) ↔
        s.slot t = slotAt (s.ticket t l))) := by
  have hI := reachable_inv hcard (h.mono fun _ hP => ⟨hP.1, hP.2.fits⟩)
  refine ⟨fun t l hcase i => ?_, fun t l s' hcase hs => ?_, fun l ⟨t, hw⟩ hfree => ?_,
    fun t l hidle hl => ?_⟩
  · exact hI.owner_flag (Or.inr (Or.inl hcase)) (by simp [hcase])
  · have hown : Owns s t l := Or.inr (Or.inr hcase)
    change proceed s t (s.pc t) = some s' at hs
    rw [hI.proceed_eq, hcase] at hs
    have hs' := (Option.some.inj hs).symm
    -- the departure that this store is gives the flags of `s'`
    have hI' := inv_wakeNext hI hcase hs'
    have hdep : (s'.queue l).departed = s.ticket t l + 1 := by
      rw [hI.owner_ticket hown, hs']
      simp [State.goto]
    -- nobody else is between the two stores
    have hnone : ∀ u, s'.pc u ≠ .wakeNext l := by
      intro u hu
      by_cases hut : u = t
      · rw [hut, hs'] at hu
        simp [State.goto] at hu
      · have hu' : s.pc u = .wakeNext l := by
          rw [hs'] at hu
          simpa [State.goto, State.setFlag, hut] using hu
        exact hut ((hI.serves l).exclusive (Or.inr (Or.inr hu')) hown)
    refine ⟨fun i => ?_, fun u i hu => ?_⟩
    · rw [hI'.flags l i, hdep, and_iff_left hnone]
    · constructor
      · -- the flag of a waiter is true only for the first one
        intro hflag
        have hfront := hI'.front_of_flag hcard hu hflag
        rw [hI'.ticket l _ u hfront, hdep]
      · intro htick
        have hpc := hI'.pcOk u
        simp only [PcOk, hu] at hpc
        rw [hI'.flags l i, hdep, and_iff_left hnone, hpc.2, htick]
  · exact hI.shown hw hfree
  · obtain ⟨s₁, s₂, s', h₁, h₂, h₃, -, hflags⟩ := hI.release_steps notHeld hidle hl
    have hs' : perform (step notHeld) (fun _ => True) s [.release t l, .advance t, .advance t] =
        some s' := by simp [perform, h₁, h₂, h₃]
    have hold : ∀ i, s.flags l i = true ↔ i = slotAt (s.ticket t l) := fun i =>
      hI.owner_flag (Or.inl hl) (by simp [hidle])
    refine ⟨s', hs', fun hall => ?_, fun hslot i => ?_⟩
    · by_contra hne
      -- the flag of the thread's own ticket is still true
      have hstill : s'.flags l (slotAt (s.ticket t l)) = true := by
        rw [hflags]
        split
        · rfl
        · rw [if_neg (Ne.symm hne)]
          exact (hold _).mpr rfl
      exact slotAt_succ_ne _ ((hall _).mp hstill).symm
    · -- the right slot: one flag is cleared, the next one set, and no other was true
      rw [hflags, hslot, slotAt_succ]
      by_cases hi : i = slotAt (s.ticket t l + 1)
      · simp [hi]
      · rw [if_neg hi]
        refine iff_of_false (fun htrue => ?_) hi
        split at htrue
        · cases htrue
        · rename_i hne
          exact hne ((hold i).mp htrue)

/-- Two new locks are held together, with one slot for both. -/
def nestedFresh : List (Action Bool Bool) :=
  [.acquire false false, .advance false, .advance false, .acquire false true, .advance false,
    .advance false, .release false false]

theorem abql_independent_nestedFresh :
    ∃ s : State Bool Bool,
      perform (step notHeld) (fun s => Kept s ∧ Few s) init nestedFresh = some s ∧
      ∀ i, s.flags false i = true ↔ i = slotAt (s.ticket false false) := by
  obtain ⟨s, hs⟩ := Option.isSome_iff_exists.mp
    (show (perform (step notHeld) (fun s => Kept s ∧ Few s) (init : State Bool Bool)
      nestedFresh).isSome = true by decide)
  have hpc : (perform (step notHeld) (fun s => Kept s ∧ Few s) (init : State Bool Bool)
      nestedFresh).map (fun s => s.pc false) = some (.clearFlag false) := by decide
  rw [hs] at hpc
  have hreach := (ReachableWithin.start (by decide)).of_perform hs
  exact ⟨s, hs, (abql_independent (by simp) hreach).1 false false (Option.some.inj hpc)⟩

/-- The inner lock has been used before, so that its slot is another one; then a
second thread comes to the outer lock. -/
def nestedUsed : List (Action Bool Bool) :=
  [.acquire false true, .advance false, .advance false, .release false true, .advance false,
    .advance false, .acquire false false, .advance false, .advance false, .acquire false true,
    .advance false, .advance false, .release false false, .advance false, .advance false,
    .acquire true false, .advance true]

/-- The outer lock is released and nobody can have it any more. -/
theorem abql_lost_nestedUsed :
    ∃ s : State Bool Bool, ReachableWithin (step notHeld) Few init s ∧ Waits s true false ∧
      (∀ t, ¬ Owns s t false) ∧ ¬ ∃ t i, s.pc t = .spin false i ∧ s.flags false i = true := by
  obtain ⟨s, hs⟩ := Option.isSome_iff_exists.mp
    (show (perform (step notHeld) Few (init : State Bool Bool) nestedUsed).isSome = true by decide)
  -- where the run has ended: one thread spins on the flag of slot 1, the other holds the inner lock
  have hend : (perform (step notHeld) Few (init : State Bool Bool) nestedUsed).map
      (fun s => (s.pc false, s.pc true, s.held false, s.held true, s.flags false 1)) =
      some (.idle, .spin false 1, [true], [], false) := by decide
  rw [hs] at hend
  obtain ⟨h1, h2, h3, h4, h5⟩ := by simpa using hend
  refine ⟨s, (ReachableWithin.start (by decide)).of_perform hs, ⟨1, h2⟩, fun t => ?_, ?_⟩
  · -- neither of the two owns the outer lock
    cases t with
    | false => simp [Owns, h1, h3]
    | true => simp [Owns, h2, h4]
  · -- and the flag that the waiter polls is down
    rintro ⟨t, i, ht, hi⟩
    cases t with
    | false =>
      rw [h1] at ht
      cases ht
    | true =>
      rw [h2] at ht
      obtain rfl : 1 = i := by simpa using ht
      rw [h5] at hi
      cases hi

end LockShield.Abql
