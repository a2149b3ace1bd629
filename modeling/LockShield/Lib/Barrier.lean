import Mathlib.Algebra.BigOperators.Group.Finset.Basic
import Mathlib.Data.Fintype.Card

/-!
# Barriers

A barrier for a number of parties counts those that wait and how often it has
opened. A thread that arrives waits for the generation to change; the last to arrive
opens the barrier for all. `Kept` is the invariant: the threads' numbers of arrivals
are never more than one apart. It is stated about any function that says how often
each thread has arrived, so a program can use its own program counters for it.

## Results

* `kept_init`          — nobody has arrived yet.
* `Kept.arrive`        — one more arrival keeps it, the last one as well.
* `Kept.all_arrived`   — once it has opened `k` times, everybody has arrived `k` times.
-/

namespace LockShield.Lib

structure Barrier where
  waiting : Nat
  /-- how often the barrier has opened -/
  generation : Nat
  deriving DecidableEq

namespace Barrier

def init : Barrier where
  waiting := 0
  generation := 0

/-- A thread arrives. The last one opens the barrier, which is then as new. -/
def arrive (parties : Nat) (b : Barrier) : Barrier :=
  if b.waiting + 1 = parties then { waiting := 0, generation := b.generation + 1 }
  else { b with waiting := b.waiting + 1 }

variable {T : Type} [Fintype T] {b : Barrier} {arrived : T → Nat} {t u : T}

/-- The barrier counts the arrivals of the threads. -/
structure Kept (b : Barrier) (arrived : T → Nat) : Prop where
  near : ∀ t, arrived t = b.generation ∨ arrived t = b.generation + 1
  waiting : b.waiting = (Finset.univ.filter fun t => arrived t = b.generation + 1).card
  /-- somebody has yet to arrive -/
  behind : ∃ t, arrived t = b.generation

theorem kept_init [Nonempty T] : init.Kept (fun _ : T => 0) where
  near _ := Or.inl rfl
  waiting := by simp [init]
  behind := ⟨Classical.arbitrary T, rfl⟩

theorem generation_le (parties : Nat) : b.generation ≤ (b.arrive parties).generation := by
  unfold arrive
  split
  · exact Nat.le_succ _
  · exact Nat.le_refl _

/-- A barrier is kept when a thread arrives that had not. -/
theorem Kept.arrive [DecidableEq T] (h : b.Kept arrived) (ht : arrived t = b.generation) :
    (b.arrive (Fintype.card T)).Kept (Function.update arrived t (b.generation + 1)) := by
  -- those that have arrived in this generation
  have hcard : (Finset.univ.filter fun u =>
      Function.update arrived t (b.generation + 1) u = b.generation + 1).card = b.waiting + 1 := by
    have hset : (Finset.univ.filter fun u =>
        Function.update arrived t (b.generation + 1) u = b.generation + 1) =
        insert t (Finset.univ.filter fun u => arrived u = b.generation + 1) := by
      ext u
      by_cases hu : u = t
      · subst hu
        simp
      · simp [hu]
    rw [hset, Finset.card_insert_of_notMem (by simp [ht]), h.waiting]
  have hnear : ∀ u, Function.update arrived t (b.generation + 1) u = b.generation ∨
      Function.update arrived t (b.generation + 1) u = b.generation + 1 := by
    intro u
    by_cases hu : u = t
    · subst hu
      exact Or.inr (Function.update_self ..)
    · rw [Function.update_of_ne hu]
      exact h.near u
  unfold Barrier.arrive
  split
  · rename_i hlast
    -- everybody has arrived
    have hall : ∀ u, Function.update arrived t (b.generation + 1) u = b.generation + 1 := by
      intro u
      have huniv := Finset.card_eq_iff_eq_univ _ |>.mp (hcard.trans hlast)
      have hu : u ∈ Finset.univ.filter fun u =>
          Function.update arrived t (b.generation + 1) u = b.generation + 1 := by
        rw [huniv]
        exact Finset.mem_univ u
      exact (Finset.mem_filter.mp hu).2
    exact
      { near := fun u => Or.inl (hall u)
        waiting := by simp [hall]
        behind := ⟨t, hall t⟩ }
  · rename_i hnot
    refine { near := hnear, waiting := hcard.symm, behind := ?_ }
    by_contra hnone
    have hall : ∀ u, Function.update arrived t (b.generation + 1) u = b.generation + 1 :=
      fun u => (hnear u).resolve_left fun hu => hnone ⟨u, hu⟩
    exact hnot (hcard.symm.trans (by simp [hall]))

/-- Where a thread has passed its last arrival, everybody has made as many. -/
theorem Kept.all_arrived (h : b.Kept arrived) {k : Nat} (hk : k ≤ b.generation) (u : T) :
    k ≤ arrived u := by
  rcases h.near u with hu | hu
  · omega
  · omega

end Barrier

end LockShield.Lib
