import Mathlib.Logic.Relation

/-!
# Transition systems

A system of interleaved parties is a function that performs one action of one
party, or rejects it. `ReachableWithin P` are the states of the runs that never
leave `P`, `Reachable` those of all runs. A history next to the state
(`withHistory`) notes what was done and influences nothing.

## Results

* `ReachableWithin.invariant`  — what holds at the start and is kept by one action holds
  in every state; every invariant of the locks is proved through it.
* `ReachableWithin.of_perform` — what a list of actions leads to is reachable.
* `exists_of_measure`          — where every state is a goal or can come nearer to one,
  some run leads to a goal.
* `ReachableWithin.forget`     — runs with a history are runs.
-/

namespace LockShield.Lib

variable {σ α : Type}

/-- The states of the runs from `init` on which `P` holds throughout. -/
inductive ReachableWithin (step : σ → α → Option σ) (P : σ → Prop) (init : σ) : σ → Prop where
  | start : P init → ReachableWithin step P init init
  | step {s s' : σ} {a : α} :
      ReachableWithin step P init s → step s a = some s' → P s' →
      ReachableWithin step P init s'

/-- The states of all runs. -/
abbrev Reachable (step : σ → α → Option σ) (init : σ) : σ → Prop :=
  ReachableWithin step (fun _ => True) init

variable {step : σ → α → Option σ} {P I : σ → Prop} {init s s' : σ}

/-- The last state of a run satisfies the condition. -/
theorem ReachableWithin.within (h : ReachableWithin step P init s) : P s := by
  cases h with
  | start h => exact h
  | step _ _ h => exact h

/-- A weaker condition allows more runs. -/
theorem ReachableWithin.mono {Q : σ → Prop} (hPQ : ∀ s, P s → Q s)
    (h : ReachableWithin step P init s) : ReachableWithin step Q init s := by
  induction h with
  | start hP => exact .start (hPQ _ hP)
  | step _ hs hP ih => exact ih.step hs (hPQ _ hP)

/-- What holds at the start and is kept by every action holds throughout. -/
theorem ReachableWithin.invariant (hinit : P init → I init)
    (hstep : ∀ s a s', I s → P s → P s' → step s a = some s' → I s')
    (h : ReachableWithin step P init s) : I s := by
  induction h with
  | start hP => exact hinit hP
  | step hr hs hP ih => exact hstep _ _ _ ih hr.within hP hs

/-- Perform a list of actions that stay within `P`. -/
def perform (step : σ → α → Option σ) (P : σ → Prop) [DecidablePred P] : σ → List α → Option σ
  | s, [] => some s
  | s, a :: as => (step s a).bind fun s' => if P s' then perform step P s' as else none

/-- What a list of actions leads to is reachable. -/
theorem ReachableWithin.of_perform [DecidablePred P] : ∀ {as : List α} {s s' : σ},
    ReachableWithin step P init s → perform step P s as = some s' →
    ReachableWithin step P init s' := by
  intro as
  induction as with
  | nil =>
    intro s s' h hs
    obtain rfl := Option.some.inj hs
    exact h
  | cons a as ih =>
    intro s s' h hs
    obtain ⟨s₁, hs₁, hrest⟩ := Option.bind_eq_some_iff.mp hs
    by_cases hP : P s₁
    · rw [if_pos hP] at hrest
      exact ih (h.step hs₁ hP) hrest
    · rw [if_neg hP] at hrest
      cases hrest

/-- Where from every state that is no goal some steps lead to a lower measure, some steps
lead to a goal. -/
theorem exists_of_measure {R : σ → σ → Prop} {Q G : σ → Prop} (μ : σ → Nat)
    (h : ∀ s, Q s → G s ∨ ∃ s', Relation.ReflTransGen R s s' ∧ Q s' ∧ μ s' < μ s) (hs : Q s) :
    ∃ s', Relation.ReflTransGen R s s' ∧ Q s' ∧ G s' := by
  induction hm : μ s using Nat.strongRecOn generalizing s with
  | _ m ih =>
    rcases h s hs with hG | ⟨s₁, hrun, hQ, hlt⟩
    · exact ⟨s, .refl, hs, hG⟩
    · obtain ⟨s', hrun', hQ', hG⟩ := ih (μ s₁) (hm ▸ hlt) hQ rfl
      exact ⟨s', hrun.trans hrun', hQ', hG⟩

/-! ## History variables -/

section History

variable {η : Type}

/-- The system with a history next to its state, which notes what each action
does and does not influence it. -/
def withHistory (step : σ → α → Option σ) (note : η → σ → α → η) (s : σ × η) (a : α) :
    Option (σ × η) :=
  (step s.1 a).map fun s' => (s', note s.2 s.1 a)

variable {note : η → σ → α → η} {x y : σ × η} {a : α}

/-- A step with its history recorded is a step. -/
theorem withHistory_eq_some :
    withHistory step note x a = some y ↔ step x.1 a = some y.1 ∧ y.2 = note x.2 x.1 a := by
  unfold withHistory
  constructor
  · intro h
    obtain ⟨s', hs, rfl⟩ := Option.map_eq_some_iff.mp h
    exact ⟨hs, rfl⟩
  · rintro ⟨hs, hnote⟩
    rw [hs, Option.map_some, ← hnote]

/-- Runs with a history are runs. -/
theorem ReachableWithin.forget {P : σ × η → Prop} {Q : σ → Prop} {s₀ : σ} {h₀ : η}
    (hPQ : ∀ x, P x → Q x.1) (h : ReachableWithin (withHistory step note) P (s₀, h₀) x) :
    ReachableWithin step Q s₀ x.1 := by
  induction h with
  | start hP => exact .start (hPQ _ hP)
  | step _ hs hP ih => exact ih.step (withHistory_eq_some.mp hs).1 (hPQ _ hP)

end History

end LockShield.Lib
