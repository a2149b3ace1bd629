import Mathlib.Data.List.Induction

/-!
# Runs of a sequence of calls

A component is a function `step` from a call and a state to a reply and a new
state, or to a fault that ends the run. `run` feeds it a list of calls, and `Along`
says that a guard holds of every call the run gets to and of the state the call is
made in.

## Results

* `run_snoc_ok`, `run_snoc_error`, `run_snoc_induction` — runs call by call, from the end.
* `along_of_prefix`      — a guard that holds after every prefix holds along the run.
* `Simulation.run_eq`    — components that answer every guarded call alike answer every
  guarded run alike.
* `Simulation.run_live`  — the same where the states of the first component imply the
  guard.
* `Projects.bind`        — computations on a state and on its image, step by step.
* `run_passing`          — calls that are refused and change nothing can be left out.
-/

namespace LockShield.Lib

variable {ι ρ ε σ τ : Type}

/-- The observable part of a run and the state it ends in: the replies of the
calls that returned, and what ended the run early, if anything did. -/
structure Run (ρ ε σ : Type) where
  replies : List ρ
  stop : Option ε
  final : σ
  deriving DecidableEq

/-- Feed a list of calls to a component, up to the first fault. -/
def run (step : ι → EStateM ε σ ρ) : σ → List ι → Run ρ ε σ
  | s, [] => ⟨[], none, s⟩
  | s, c :: cs =>
    match (step c).run s with
    | .ok r s' => ⟨r :: (run step s' cs).replies, (run step s' cs).stop, (run step s' cs).final⟩
    | .error e s' => ⟨[], some e, s'⟩

/-- `G` holds of every call of the run and the state it is made in. -/
def Along (step : ι → EStateM ε σ ρ) (G : σ → ι → Prop) : σ → List ι → Prop
  | _, [] => True
  | s, c :: cs => G s c ∧
    match (step c).run s with
    | .ok _ s' => Along step G s' cs
    | .error _ _ => True

/-! ## Evaluation -/

section Evaluation

variable {α β : Type}

@[simp] theorem run_map_eStateM (f : α → β) (x : EStateM ε σ α) (s : σ) :
    (f <$> x).run s =
      match x.run s with
      | .ok a s' => .ok (f a) s'
      | .error e s' => .error e s' := rfl

@[simp] theorem run_throw_eStateM (e : ε) (s : σ) :
    (throw e : EStateM ε σ α).run s = .error e s := rfl

end Evaluation

section Basic

variable {step : ι → EStateM ε σ ρ} {s s' : σ} {c : ι} {cs : List ι} {r : ρ} {e : ε}

@[simp] theorem run_nil : run step s [] = ⟨[], none, s⟩ := rfl

/-- A first call that returns. -/
theorem run_cons_ok (h : (step c).run s = .ok r s') :
    run step s (c :: cs) =
      ⟨r :: (run step s' cs).replies, (run step s' cs).stop, (run step s' cs).final⟩ := by
  rw [run, h]

/-- A first call that stops the run. -/
theorem run_cons_error (h : (step c).run s = .error e s') :
    run step s (c :: cs) = ⟨[], some e, s'⟩ := by
  rw [run, h]

variable {G H : σ → ι → Prop}

/-- The condition on the first call, and on the rest from where it leads. -/
theorem along_cons_ok (h : (step c).run s = .ok r s') :
    Along step G s (c :: cs) ↔ G s c ∧ Along step G s' cs := by
  rw [Along, h]

/-- Behind a stop there is nothing to ask. -/
theorem along_cons_error (h : (step c).run s = .error e s') :
    Along step G s (c :: cs) ↔ G s c := by
  rw [Along, h, and_true]

end Basic

/-! ## One more call -/

section Snoc

variable {step : ι → EStateM ε σ ρ} {s' : σ} {c : ι} {r : ρ} {e : ε}

/-- A run that has stopped takes no further call. -/
theorem run_snoc_stopped : ∀ {pre : List ι} {s : σ}, (run step s pre).stop ≠ none →
    run step s (pre ++ [c]) = run step s pre := by
  intro pre
  induction pre with
  | nil =>
    intro s hstop
    exact absurd rfl hstop
  | cons d pre ih =>
    intro s hstop
    rw [List.cons_append]
    cases h : (step d).run s with
    | error e s₁ => rw [run_cons_error h, run_cons_error h]
    | ok r s₁ =>
      rw [run_cons_ok h] at hstop
      rw [run_cons_ok h, run_cons_ok h, ih hstop]

/-- A last call that returns. -/
theorem run_snoc_ok : ∀ {pre : List ι} {s : σ}, (run step s pre).stop = none →
    (step c).run (run step s pre).final = .ok r s' →
    run step s (pre ++ [c]) = ⟨(run step s pre).replies ++ [r], none, s'⟩ := by
  intro pre
  induction pre with
  | nil =>
    intro s _ hc
    rw [run_nil] at hc
    rw [List.nil_append, run_cons_ok hc]
    rfl
  | cons d pre ih =>
    intro s hstop hc
    rw [List.cons_append]
    cases h : (step d).run s with
    | error e s₁ =>
      rw [run_cons_error h] at hstop
      exact absurd hstop (by simp)
    | ok r s₁ =>
      rw [run_cons_ok h] at hstop hc
      rw [run_cons_ok h, run_cons_ok h, ih hstop hc]
      rfl

/-- A last call that stops the run. -/
theorem run_snoc_error : ∀ {pre : List ι} {s : σ}, (run step s pre).stop = none →
    (step c).run (run step s pre).final = .error e s' →
    run step s (pre ++ [c]) = ⟨(run step s pre).replies, some e, s'⟩ := by
  intro pre
  induction pre with
  | nil =>
    intro s _ hc
    rw [run_nil] at hc
    rw [List.nil_append, run_cons_error hc]
    rfl
  | cons d pre ih =>
    intro s hstop hc
    rw [List.cons_append]
    cases h : (step d).run s with
    | error e s₁ =>
      rw [run_cons_error h] at hstop
      exact absurd hstop (by simp)
    | ok r s₁ =>
      rw [run_cons_ok h] at hstop hc
      rw [run_cons_ok h, run_cons_ok h, ih hstop hc]

variable {pre : List ι} {s : σ}

/-- The last call of a run without a fault, read off the run. -/
theorem step_of_run_snoc_ok (hstop : (run step s pre).stop = none)
    (hstop' : (run step s (pre ++ [c])).stop = none) :
    ∃ r, (step c).run (run step s pre).final = .ok r (run step s (pre ++ [c])).final ∧
      (run step s (pre ++ [c])).replies = (run step s pre).replies ++ [r] := by
  cases h : (step c).run (run step s pre).final with
  | ok r s' =>
    rw [run_snoc_ok hstop h]
    exact ⟨r, rfl, rfl⟩
  | error e s' =>
    rw [run_snoc_error hstop h] at hstop'
    cases hstop'

/-- The call that stops a run, read off the run. -/
theorem step_of_run_snoc_error (hstop : (run step s pre).stop = none)
    (hstop' : (run step s (pre ++ [c])).stop = some e) :
    (step c).run (run step s pre).final = .error e (run step s (pre ++ [c])).final := by
  cases h : (step c).run (run step s pre).final with
  | ok r s' =>
    rw [run_snoc_ok hstop h] at hstop'
    cases hstop'
  | error e' s' =>
    rw [run_snoc_error hstop h] at hstop' ⊢
    obtain rfl := Option.some.inj hstop'
    rfl

end Snoc

/-- What is true of the empty run, of each run that gets a reply or a fault more,
and of each run that has stopped and is asked for more, is true of every run. -/
theorem run_snoc_induction (step : ι → EStateM ε σ ρ) (s : σ) {P : List ι → Run ρ ε σ → Prop}
    (hnil : P [] ⟨[], none, s⟩)
    (hok : ∀ pre c r s', P pre (run step s pre) → (run step s pre).stop = none →
      (step c).run (run step s pre).final = .ok r s' →
      P (pre ++ [c]) ⟨(run step s pre).replies ++ [r], none, s'⟩)
    (herror : ∀ pre c e s', P pre (run step s pre) → (run step s pre).stop = none →
      (step c).run (run step s pre).final = .error e s' →
      P (pre ++ [c]) ⟨(run step s pre).replies, some e, s'⟩)
    (hstopped : ∀ pre c, P pre (run step s pre) → P (pre ++ [c]) (run step s pre))
    (cs : List ι) : P cs (run step s cs) := by
  induction cs using List.reverseRecOn with
  | nil => exact hnil
  | append_singleton pre c ih =>
    by_cases hstop : (run step s pre).stop = none
    · cases h : (step c).run (run step s pre).final with
      | ok r s' =>
        rw [run_snoc_ok hstop h]
        exact hok pre c r s' ih hstop h
      | error e s' =>
        rw [run_snoc_error hstop h]
        exact herror pre c e s' ih hstop h
    · -- the call is not made
      rw [run_snoc_stopped hstop]
      exact hstopped pre c ih

/-- Looking at every call after the calls before it. -/
theorem forall_snoc_prefix_iff {cs : List ι} {P : List ι → ι → Prop} :
    (∀ pre c, pre ++ [c] <+: cs → P pre c) ↔
      ∀ (i : Nat) (h : i < cs.length), P (cs.take i) cs[i] := by
  constructor
  · intro h i hi
    refine h _ _ ?_
    rw [List.take_append_getElem hi]
    exact List.take_prefix ..
  · rintro h pre c ⟨suf, rfl⟩
    have hlt : pre.length < (pre ++ [c] ++ suf).length := by simp
    simpa using h pre.length hlt

/-- A guard that holds of every call the run gets to holds along the run. -/
theorem along_of_prefix {step : ι → EStateM ε σ ρ} {G : σ → ι → Prop} :
    ∀ (cs : List ι) (s : σ), (∀ pre c, pre ++ [c] <+: cs → (run step s pre).stop = none →
      G (run step s pre).final c) → Along step G s cs := by
  intro cs
  induction cs with
  | nil =>
    intro s _
    exact trivial
  | cons c cs ih =>
    intro s hG
    have hc : G s c := hG [] c ⟨cs, rfl⟩ rfl
    cases h : (step c).run s with
    | error e s' => exact (along_cons_error h).mpr hc
    | ok r s' =>
      -- the runs from `s'` are the rests of those from `s`
      refine (along_cons_ok h).mpr ⟨hc, ih s' fun pre d hpre hstop => ?_⟩
      have hrun := hG (c :: pre) d ((List.prefix_cons_inj c).mpr hpre)
      rw [run_cons_ok h] at hrun
      exact hrun hstop

/-- A condition along a run holds along its beginnings. -/
theorem Along.restrict {step : ι → EStateM ε σ ρ} {G : σ → ι → Prop} :
    ∀ {cs pre : List ι} {s : σ}, Along step G s cs → pre <+: cs → Along step G s pre := by
  intro cs
  induction cs with
  | nil =>
    intro pre s _ hpre
    rw [List.prefix_nil.mp hpre]
    exact trivial
  | cons c cs ih =>
    intro pre s hG hpre
    cases pre with
    | nil => exact trivial
    | cons d pre =>
      obtain ⟨rfl, htail⟩ := List.cons_prefix_cons.mp hpre
      -- without its first call it is a beginning of what the rest of the run does
      cases h : (step d).run s with
      | error e s' =>
        rw [along_cons_error h] at hG ⊢
        exact hG
      | ok r s' =>
        rw [along_cons_ok h] at hG ⊢
        exact ⟨hG.1, ih hG.2 htail⟩

/-- A guard that holds along a run and of the call after it. -/
theorem Along.snoc {step : ι → EStateM ε σ ρ} {G : σ → ι → Prop} {c : ι} :
    ∀ {pre : List ι} {s : σ}, Along step G s pre →
      ((run step s pre).stop = none → G (run step s pre).final c) →
      Along step G s (pre ++ [c]) := by
  intro pre
  induction pre with
  | nil =>
    intro s _ hc
    rw [List.nil_append]
    refine ⟨hc rfl, ?_⟩
    cases (step c).run s <;> trivial
  | cons d pre ih =>
    intro s hG hc
    rw [List.cons_append]
    cases h : (step d).run s with
    | error e s' =>
      rw [along_cons_error h] at hG ⊢
      exact hG
    | ok r s' =>
      rw [along_cons_ok h] at hG ⊢
      rw [run_cons_ok h] at hc
      exact ⟨hG.1, ih hG.2 hc⟩

/-- The guard of the last call. -/
theorem Along.last {step : ι → EStateM ε σ ρ} {G : σ → ι → Prop} {c : ι} :
    ∀ {pre : List ι} {s : σ}, Along step G s (pre ++ [c]) → (run step s pre).stop = none →
      G (run step s pre).final c := by
  intro pre
  induction pre with
  | nil =>
    intro s hG _
    exact hG.1
  | cons d pre ih =>
    intro s hG hstop
    rw [List.cons_append] at hG
    cases h : (step d).run s with
    | error e s' =>
      rw [run_cons_error h] at hstop
      exact absurd hstop (by simp)
    | ok r s' =>
      rw [along_cons_ok h] at hG
      rw [run_cons_ok h] at hstop ⊢
      exact ih hG.2 hstop

/-! ## Simulation -/

/-- `step₁` answers every guarded call as `step₂` does, with states kept related
by `R`. -/
structure Simulation (step₁ : ι → EStateM ε σ ρ) (step₂ : ι → EStateM ε τ ρ)
    (R : σ → τ → Prop) (G : τ → ι → Prop) : Prop where
  ok : ∀ s t c r t', R s t → G t c → (step₂ c).run t = .ok r t' →
    ∃ s', (step₁ c).run s = .ok r s' ∧ R s' t'
  error : ∀ s t c e t', R s t → G t c → (step₂ c).run t = .error e t' →
    ∃ s', (step₁ c).run s = .error e s' ∧ R s' t'

/-- Related states give the same replies and the same end of the run, and the
final states are related. -/
theorem Simulation.run_eq {step₁ : ι → EStateM ε σ ρ} {step₂ : ι → EStateM ε τ ρ}
    {R : σ → τ → Prop} {G : τ → ι → Prop} (h : Simulation step₁ step₂ R G) :
    ∀ (cs : List ι) (s : σ) (t : τ), R s t → Along step₂ G t cs →
      (run step₁ s cs).replies = (run step₂ t cs).replies ∧
      (run step₁ s cs).stop = (run step₂ t cs).stop ∧
      R (run step₁ s cs).final (run step₂ t cs).final := by
  intro cs
  induction cs with
  | nil =>
    intro s t hR _
    exact ⟨rfl, rfl, hR⟩
  | cons c cs ih =>
    intro s t hR hG
    cases ht : (step₂ c).run t with
    | ok r t' =>
      rw [along_cons_ok ht] at hG
      obtain ⟨s', hs, hR'⟩ := h.ok s t c r t' hR hG.1 ht
      obtain ⟨hrep, hstop, hfin⟩ := ih s' t' hR' hG.2
      rw [run_cons_ok hs, run_cons_ok ht]
      exact ⟨by rw [hrep], hstop, hfin⟩
    | error e t' =>
      rw [along_cons_error ht] at hG
      -- both runs stop here, with one fault
      obtain ⟨s', hs, hR'⟩ := h.error s t c e t' hR hG ht
      rw [run_cons_error hs, run_cons_error ht]
      exact ⟨rfl, rfl, hR'⟩

/-- When the first component's states say that the guard holds, the states that
its run passes through are enough. -/
theorem Simulation.run_live {step₁ : ι → EStateM ε σ ρ} {step₂ : ι → EStateM ε τ ρ}
    {R : σ → τ → Prop} {G : τ → ι → Prop} {p : σ → Prop} (h : Simulation step₁ step₂ R G)
    (hG : ∀ s t c, R s t → p s → G t c) (cs : List ι) (s : σ) (t : τ) (hR : R s t)
    (hlive : ∀ pre, pre <+: cs → p (run step₁ s pre).final) :
    (run step₁ s cs).replies = (run step₂ t cs).replies ∧
      (run step₁ s cs).stop = (run step₂ t cs).stop ∧
      R (run step₁ s cs).final (run step₂ t cs).final := by
  refine h.run_eq cs s t hR ?_
  -- the guard holds along the second run, since the first one keeps up with it
  induction cs generalizing s t with
  | nil => exact trivial
  | cons c cs ih =>
    have hc : G t c := hG s t c hR (hlive [] (List.nil_prefix ..))
    cases ht : (step₂ c).run t with
    | error e t' => exact (along_cons_error ht).mpr hc
    | ok r t' =>
      obtain ⟨s', hs, hR'⟩ := h.ok s t c r t' hR hc ht
      refine (along_cons_ok ht).mpr ⟨hc, ih s' t' hR' fun pre hpre => ?_⟩
      -- the states behind `c` are states of the whole run
      have hrest := hlive (c :: pre) ((List.prefix_cons_inj c).mpr hpre)
      rw [run_cons_ok hs] at hrest
      exact hrest

/-! ## The image of a computation -/

/-- The result of a computation, with the image of the state. -/
def mapState {α : Type} (f : σ → τ) : EStateM.Result ε σ α → EStateM.Result ε τ α
  | .ok a s => .ok a (f s)
  | .error e s => .error e (f s)

section Image

variable {α β : Type} {f : σ → τ} {s : σ} {x : EStateM ε σ α} {y : EStateM ε τ α}

@[simp] theorem mapState_ok (f : σ → τ) (a : α) (s : σ) :
    mapState f (.ok a s : EStateM.Result ε σ α) = .ok a (f s) := rfl

@[simp] theorem mapState_error (f : σ → τ) (e : ε) (s : σ) :
    mapState f (.error e s : EStateM.Result ε σ α) = .error e (f s) := rfl

/-- One computation does to the image of a state what the other does to the state. -/
def Projects (f : σ → τ) (s : σ) (x : EStateM ε σ α) (y : EStateM ε τ α) : Prop :=
  y.run (f s) = mapState f (x.run s)

/-- Images compose: first the one computation, then the other from where it has led. -/
theorem Projects.bind {g : α → EStateM ε σ β} {g' : α → EStateM ε τ β} (h : Projects f s x y)
    (hg : ∀ a s', x.run s = .ok a s' → Projects f s' (g a) (g' a)) :
    Projects f s (x >>= g) (y >>= g') := by
  unfold Projects at *
  rw [EStateM.run_bind, EStateM.run_bind, h]
  cases hx : x.run s with
  | error e s' => rfl
  | ok a s' => exact hg a s' hx

/-- Two computations that return the same. -/
theorem Projects.of_ok {a : α} {s' : σ} (hx : x.run s = .ok a s')
    (hy : y.run (f s) = .ok a (f s')) : Projects f s x y := by
  rw [Projects, hx, hy]
  rfl

/-- Two computations that stop for the same reason. -/
theorem Projects.of_error {e : ε} {s' : σ} (hx : x.run s = .error e s')
    (hy : y.run (f s) = .error e (f s')) : Projects f s x y := by
  rw [Projects, hx, hy]
  rfl

/-- What the one returns, the other returns on the image. -/
theorem Projects.ok {a : α} {s' : σ} (h : Projects f s x y) (hx : x.run s = .ok a s') :
    y.run (f s) = .ok a (f s') := by
  rw [h, hx]
  rfl

end Image

/-! ## Calls without effect -/

/-- The calls of a run whose replies pass the filter. -/
def passing (step : ι → EStateM ε σ ρ) (p : ρ → Bool) (s : σ) (cs : List ι) : List ι :=
  ((cs.zip (run step s cs).replies).filter fun x => p x.2).map Prod.fst

section Passing

variable {step : ι → EStateM ε σ ρ} {p : ρ → Bool} {s s' : σ} {c : ι} {cs : List ι} {r : ρ}

/-- The first call passes or is left out. -/
theorem passing_cons (h : (step c).run s = .ok r s') :
    passing step p s (c :: cs) =
      if p r then c :: passing step p s' cs else passing step p s' cs := by
  unfold passing
  rw [run_cons_ok h, List.zip_cons_cons]
  by_cases hp : p r = true
  · rw [if_pos hp, List.filter_cons, if_pos hp, List.map_cons]
  · rw [if_neg hp, List.filter_cons, if_neg hp]

/-- When the calls that do not pass leave the state alone, the run goes the same
way without them. -/
theorem run_passing (hskip : ∀ c s r s', (step c).run s = .ok r s' → p r = false → s' = s) :
    ∀ (cs : List ι) (s : σ), (run step s cs).stop = none →
      run step s (passing step p s cs) =
        ⟨(run step s cs).replies.filter p, none, (run step s cs).final⟩ := by
  intro cs
  induction cs with
  | nil =>
    intro s _
    rfl
  | cons c cs ih =>
    intro s hstop
    cases h : (step c).run s with
    | error e s' =>
      rw [run_cons_error h] at hstop
      cases hstop
    | ok r s' =>
      rw [run_cons_ok h] at hstop
      have hrest := ih s' hstop
      rw [passing_cons h, run_cons_ok h]
      by_cases hp : p r = true
      · rw [if_pos hp, run_cons_ok h, hrest, List.filter_cons_of_pos hp]
      · obtain rfl := hskip c s r s' h (Bool.not_eq_true _ ▸ hp)
        rw [if_neg hp, hrest, List.filter_cons_of_neg hp]

end Passing

end LockShield.Lib
