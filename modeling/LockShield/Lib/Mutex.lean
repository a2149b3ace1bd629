import LockShield.Lib.Lts
import Mathlib.Algebra.Order.BigOperators.Group.Finset
import Mathlib.Data.Fintype.BigOperators
import Mathlib.Logic.Relation

/-!
# Locks

A `Mutex` is a transition system of threads inside the calls of some locks. An
action begins an acquisition or a release, or advances a call by one access;
`phase` says which call a thread is in and `held` which locks it has acquired and
not begun to release. A run that a fault has ended is not `live`.

`Mutex.Correct` is what a user relies on who acquires only what it does not hold
and releases only what it holds:

* an action concerns one thread, and the others stay where they are (`Mutex.Others`);
* a finished acquisition leaves its lock held, a finished release does not;
* no fault occurs (`live`), and one thread holds a lock at a time.

`Mutex.Progress` says that calls return: while nobody holds a lock, the threads
inside calls can bring one of them to its end. `Mutex.Limited` bounds by the number
of acquisitions what a mutex needs to stay correct, and `Mutex.Works` puts the three
together.

## Results

* `Mutex.ofPc`               — the mutex of a system with one program counter a thread.
* `Mutex.correct_ofPc`       — when it is correct; a fault is a program counter.
* `Mutex.returns_of_measure` — calls return if accesses lower a measure.
* `Mutex.worksOfPc`          — it works if every access that does not wait comes nearer
  to the end of its call, and some thread does not wait.
-/

namespace LockShield.Lib

/-- Where a thread is: outside the calls, or inside one. -/
inductive Phase (L : Type) where
  | out
  | acquiring (l : L)
  | releasing (l : L)
  deriving DecidableEq

/-- What an action is to its thread. -/
inductive Use (L T : Type) where
  | acquire (t : T) (l : L)
  | release (t : T) (l : L)
  | advance (t : T)

/-- The thread that acts. -/
def Use.thread {L T : Type} : Use L T → T
  | .acquire t _ | .release t _ | .advance t => t

/-- Locks and the threads inside their calls. -/
structure Mutex (L T : Type) where
  State : Type
  Act : Type
  init : State
  step : State → Act → Option State
  use : Act → Use L T
  phase : State → T → Phase L
  held : State → T → L → Prop
  /-- no fault has ended the run -/
  live : State → Prop

section Mutex

variable {L T : Type}

/-- Everybody but `t` is where it was and holds what it held. -/
def Mutex.Others (X : Mutex L T) (t : T) (s s' : X.State) : Prop :=
  ∀ u, u ≠ t → X.phase s' u = X.phase s u ∧ ∀ l, X.held s' u l ↔ X.held s u l

/-- An access inside a call of `t`: the call goes on, or an acquisition ends with
its lock held, or a release ends. -/
def Mutex.Advanced (X : Mutex L T) (t : T) (s s' : X.State) : Prop :=
  (X.phase s' t = X.phase s t ∧ ∀ k, X.held s' t k ↔ X.held s t k) ∨
    (∃ l, X.phase s t = .acquiring l ∧ X.phase s' t = .out ∧
      ∀ k, X.held s' t k ↔ k = l ∨ X.held s t k) ∨
    ∃ l, X.phase s t = .releasing l ∧ X.phase s' t = .out ∧ ∀ k, X.held s' t k ↔ X.held s t k

/-- A mutex that works, on the runs that stay within `P`; `I` is its invariant. -/
structure Mutex.Correct (X : Mutex L T) (P I : X.State → Prop) : Prop where
  init : P X.init → I X.init
  keep : ∀ s a s', I s → P s → P s' → X.step s a = some s' → I s'
  start : X.live X.init ∧ ∀ t, X.phase X.init t = .out ∧ ∀ l, ¬ X.held X.init t l
  others : ∀ s a s', I s → I s' → X.step s a = some s' → X.Others (X.use a).thread s s'
  acquire : ∀ s a s' t l, I s → I s' → X.step s a = some s' → X.use a = .acquire t l →
    X.phase s t = .out → ¬ X.held s t l →
    X.live s' ∧ X.phase s' t = .acquiring l ∧ ∀ k, X.held s' t k ↔ X.held s t k
  release : ∀ s a s' t l, I s → I s' → X.step s a = some s' → X.use a = .release t l →
    X.phase s t = .out → X.held s t l →
    X.live s' ∧ X.phase s' t = .releasing l ∧ ∀ k, X.held s' t k ↔ k ≠ l ∧ X.held s t k
  advance : ∀ s a s' t, I s → I s' → X.step s a = some s' → X.use a = .advance t →
    X.live s' ∧ X.Advanced t s s'
  exclusive : ∀ s l t u, I s → X.held s t l → X.held s u l → t = u

/-! ### Mutexes with a program counter for each thread -/

/-- A mutex whose threads each have a program counter `pc` and a record `own` of
what they hold. A thread whose counter is at a `fault` is stuck there. -/
def Mutex.ofPc {σ α C H : Type} (init : σ) (step : σ → α → Option σ) (use : α → Use L T)
    (pc : σ → T → C) (phase : C → Phase L) (fault : C → Prop) (own : σ → T → H)
    (has : H → L → Prop) : Mutex L T where
  State := σ
  Act := α
  init
  step
  use
  phase s t := phase (pc s t)
  held s t l := has (own s t) l
  live s := ∀ t, ¬ fault (pc s t)

variable {σ α C H : Type} {init : σ} {step : σ → α → Option σ} {use : α → Use L T}
  {pc : σ → T → C} {phase : C → Phase L} {fault : C → Prop} {own : σ → T → H}
  {has : H → L → Prop} [DecidableEq T]
  {s s' : σ} {t : T} {c : C} {h : H} {l : L}

theorem Mutex.others_of_update (hpc : pc s' = Function.update (pc s) t c)
    (hown : own s' = Function.update (own s) t h) :
    (ofPc init step use pc phase fault own has).Others t s s' := by
  intro u hu
  simp [ofPc, hpc, hown, hu]

/-- The access stays inside the call. -/
theorem Mutex.stays (hpc : pc s' = Function.update (pc s) t c) (hown : own s' = own s)
    (hphase : phase c = phase (pc s t)) :
    (ofPc init step use pc phase fault own has).Others t s s' ∧
      (ofPc init step use pc phase fault own has).Advanced t s s' := by
  refine ⟨others_of_update hpc (h := own s t) (by rw [Function.update_eq_self, hown]), Or.inl ?_⟩
  simp [ofPc, hpc, hown, hphase]

omit [DecidableEq T] in
/-- The access changes nothing. -/
theorem Mutex.waits (s : σ) (t : T) : (ofPc init step use pc phase fault own has).Others t s s ∧
    (ofPc init step use pc phase fault own has).Advanced t s s :=
  ⟨fun _ _ => ⟨rfl, fun _ => Iff.rfl⟩, Or.inl ⟨rfl, fun _ => Iff.rfl⟩⟩

/-- The access ends an acquisition. -/
theorem Mutex.enters (hpc : pc s' = Function.update (pc s) t c)
    (hown : own s' = Function.update (own s) t h) (hbefore : phase (pc s t) = .acquiring l)
    (hafter : phase c = .out) (hhas : ∀ k, has h k ↔ k = l ∨ has (own s t) k) :
    (ofPc init step use pc phase fault own has).Others t s s' ∧
      (ofPc init step use pc phase fault own has).Advanced t s s' := by
  refine ⟨others_of_update hpc hown, Or.inr (Or.inl ⟨l, hbefore, ?_⟩)⟩
  simp only [ofPc, hpc, hown, Function.update_self]
  exact ⟨hafter, hhas⟩

/-- The access ends a release. -/
theorem Mutex.leaves (hpc : pc s' = Function.update (pc s) t c) (hown : own s' = own s)
    (hbefore : phase (pc s t) = .releasing l) (hafter : phase c = .out) :
    (ofPc init step use pc phase fault own has).Others t s s' ∧
      (ofPc init step use pc phase fault own has).Advanced t s s' := by
  refine ⟨others_of_update hpc (h := own s t) (by rw [Function.update_eq_self, hown]),
    Or.inr (Or.inr ⟨l, hbefore, ?_⟩)⟩
  simp [ofPc, hpc, hown, hafter]

/-- A mutex with program counters is correct if each kind of action is, and if no
state of its invariant has a thread at a fault. -/
theorem Mutex.correct_ofPc {P I : σ → Prop} (hinit : P init → I init)
    (hkeep : ∀ s a s', I s → P s → P s' → step s a = some s' → I s')
    (hlive : ∀ s, I s → ∀ t, ¬ fault (pc s t))
    (hstart : ∀ t, ¬ fault (pc init t) ∧ phase (pc init t) = .out ∧ ∀ l, ¬ has (own init t) l)
    (hacquire : ∀ s a s' t l, I s → step s a = some s' → use a = .acquire t l →
      phase (pc s t) = .out ∧ ¬ has (own s t) l ∧
        ∃ c, phase c = .acquiring l ∧ pc s' = Function.update (pc s) t c ∧ own s' = own s)
    (hrelease : ∀ s a s' t l, I s → step s a = some s' → use a = .release t l →
      phase (pc s t) = .out ∧ has (own s t) l ∧ ∃ c h, phase c = .releasing l ∧
        pc s' = Function.update (pc s) t c ∧ own s' = Function.update (own s) t h ∧
        ∀ k, has h k ↔ k ≠ l ∧ has (own s t) k)
    (hadvance : ∀ s a s' t, I s → I s' → step s a = some s' → use a = .advance t →
      (ofPc init step use pc phase fault own has).Others t s s' ∧
        (ofPc init step use pc phase fault own has).Advanced t s s')
    (hexclusive : ∀ s l t u, I s → has (own s t) l → has (own s u) l → t = u) :
    (ofPc init step use pc phase fault own has).Correct P I where
  init := hinit
  keep := hkeep
  start := ⟨fun t => (hstart t).1, fun t => (hstart t).2⟩
  others s a s' h h' hs := by
    show (ofPc init step use pc phase fault own has).Others (use a).thread s s'
    cases huse : use a with
    | acquire t l =>
      obtain ⟨-, -, c, -, hpc, hown⟩ := hacquire s a s' t l h hs huse
      -- the lists of held locks change at the end of a call only
      have hsame : own s' = Function.update (own s) t (own s t) := by
        rw [Function.update_eq_self, hown]
      exact others_of_update hpc hsame
    | release t l =>
      obtain ⟨-, -, c, r, -, hpc, hown, -⟩ := hrelease s a s' t l h hs huse
      exact others_of_update hpc hown
    | advance t => exact (hadvance s a s' t h h' hs huse).1
  acquire s a s' t l h h' hs huse _ _ := by
    obtain ⟨-, -, c, hc, hpc, hown⟩ := hacquire s a s' t l h hs huse
    have hphase : phase (pc s' t) = .acquiring l := by rw [hpc, Function.update_self, hc]
    have hheld : ∀ k, has (own s' t) k ↔ has (own s t) k := fun k => by rw [hown]
    exact ⟨hlive s' h', hphase, hheld⟩
  release s a s' t l h h' hs huse _ _ := by
    obtain ⟨-, -, c, r, hc, hpc, hown, hr⟩ := hrelease s a s' t l h hs huse
    have hphase : phase (pc s' t) = .releasing l := by rw [hpc, Function.update_self, hc]
    have hheld : ∀ k, has (own s' t) k ↔ k ≠ l ∧ has (own s t) k := fun k => by
      rw [hown, Function.update_self, hr]
    exact ⟨hlive s' h', hphase, hheld⟩
  advance s a s' t h h' hs huse := ⟨hlive s' h', (hadvance s a s' t h h' hs huse).2⟩
  exclusive := hexclusive

/-! ### Calls return -/

/-- Accesses inside calls. -/
def Mutex.Inside (X : Mutex L T) : X.State → X.State → Prop :=
  Relation.ReflTransGen fun s s' =>
    ∃ a t, X.use a = .advance t ∧ X.phase s t ≠ .out ∧ X.step s a = some s'

/-- Calls can begin, and while nobody holds a lock the threads inside calls can end
one of them. -/
structure Mutex.Progress (X : Mutex L T) (P I : X.State → Prop) : Prop where
  acquire : ∀ s t l, I s → X.live s → X.phase s t = .out → (∀ k, ¬ X.held s t k) →
    ∃ a s', X.use a = .acquire t l ∧ X.step s a = some s'
  release : ∀ s t l, I s → X.live s → X.phase s t = .out → X.held s t l →
    ∃ a s', X.use a = .release t l ∧ X.step s a = some s'
  returns : ∀ s, I s → P s → X.live s → (∀ t l, ¬ X.held s t l) → (∃ t, X.phase s t ≠ .out) →
    ∃ s' t, X.Inside s s' ∧ X.phase s t ≠ .out ∧ X.phase s' t = .out

/-- A count of the acquisitions that have begun. A mutex that is only correct for so
many of them counts; another need not. -/
structure Mutex.Limited (X : Mutex L T) (I : X.State → Prop) where
  cost : X.State → Nat
  start : cost X.init = 0
  acquire : ∀ s a s' t l, I s → X.step s a = some s' → X.use a = .acquire t l →
    cost s' ≤ cost s + 1
  other : ∀ s a s', I s → X.step s a = some s' → (∀ t l, X.use a ≠ .acquire t l) →
    cost s' ≤ cost s

/-- Fewer than `n` acquisitions have begun. -/
def Mutex.Limited.Below {X : Mutex L T} {I : X.State → Prop} (hL : X.Limited I) (n : Nat)
    (s : X.State) : Prop := hL.cost s < n

/-- A mutex that does not count. -/
def Mutex.unlimited (X : Mutex L T) (I : X.State → Prop) : X.Limited I where
  cost _ := 0
  start := rfl
  acquire _ _ _ _ _ _ _ _ := Nat.zero_le 1
  other _ _ _ _ _ _ := Nat.le_refl 0

omit [DecidableEq T] in
theorem Mutex.Limited.below_advance {X : Mutex L T} {I : X.State → Prop} (hL : X.Limited I)
    {n : Nat} {s s' : X.State} {a : X.Act} {t : T} (hI : I s) (hs : X.step s a = some s')
    (huse : X.use a = .advance t) (h : hL.Below n s) : hL.Below n s' :=
  Nat.lt_of_le_of_lt (hL.other s a s' hI hs (by rw [huse]; simp)) h

omit [DecidableEq T] in
/-- A mutex is correct on fewer runs as well. -/
theorem Mutex.Correct.mono {X : Mutex L T} {P Q I : X.State → Prop} (hX : X.Correct P I)
    (hPQ : ∀ s, Q s → P s) : X.Correct Q I :=
  { hX with
    init := fun h => hX.init (hPQ _ h)
    keep := fun s a s' h hQ hQ' hs => hX.keep s a s' h (hPQ _ hQ) (hPQ _ hQ') hs }

/-- A mutex that works while fewer than `n` acquisitions have begun. -/
structure Mutex.Works (X : Mutex L T) (n : Nat) where
  inv : X.State → Prop
  limited : X.Limited inv
  correct : X.Correct (limited.Below n) inv
  progress : X.Progress (limited.Below n) inv

section Progress

variable {X : Mutex L T} {I : X.State → Prop}

/-- A sum after one of its terms has changed. -/
theorem sum_update_family [Fintype T] {d : T → C → Nat} {f : T → C} :
    ∑ u, d u (Function.update f t c u) + d t (f t) = ∑ u, d u (f u) + d t c := by
  -- the term of `t` apart from the others
  rw [← Finset.add_sum_erase _ _ (Finset.mem_univ t),
    ← Finset.add_sum_erase _ (fun u => d u (f u)) (Finset.mem_univ t), Function.update_self,
    Finset.sum_congr rfl fun u hu => by rw [Function.update_of_ne (Finset.ne_of_mem_erase hu)]]
  omega

theorem sum_update [Fintype T] {d : C → Nat} {f : T → C} :
    ∑ u, d (Function.update f t c u) + d (f t) = ∑ u, d (f u) + d c :=
  sum_update_family (d := fun _ => d)

omit [DecidableEq T] in
/-- It is enough that while nobody holds a lock some access of a call lowers a
measure, or ends the call. -/
theorem Mutex.returns_of_measure (hL : X.Limited I) {n : Nat} (hX : X.Correct (hL.Below n) I)
    (μ : X.State → Nat)
    (hμ : ∀ s, I s → (∀ t l, ¬ X.held s t l) → (∃ t, X.phase s t ≠ .out) →
      ∃ a t s', X.use a = .advance t ∧ X.phase s t ≠ .out ∧ X.step s a = some s' ∧
        (X.phase s' t = .out ∨ μ s' < μ s)) :
    ∀ s, I s → hL.Below n s → (∀ t l, ¬ X.held s t l) → (∃ t, X.phase s t ≠ .out) →
      ∃ s' t, X.Inside s s' ∧ X.phase s t ≠ .out ∧ X.phase s' t = .out := by
  intro s
  induction hm : μ s using Nat.strong_induction_on generalizing s with
  | _ m ih =>
    intro hI hn hfree hbusy
    obtain ⟨a, t, s', huse, hin, hs, hlow⟩ := hμ s hI hfree hbusy
    have hone : X.Inside s s' := .single ⟨a, t, huse, hin, hs⟩
    by_cases hout : X.phase s' t = .out
    · exact ⟨s', t, hone, hin, hout⟩
    · have hn' : hL.Below n s' := hL.below_advance hI hs huse hn
      have hI' : I s' := hX.keep s a s' hI hn hn' hs
      have hothers := hX.others s a s' hI hI' hs
      rw [huse] at hothers
      -- the call goes on, so everybody is where it was
      have hsame : ∀ u, X.phase s' u = X.phase s u ∧ ∀ l, X.held s' u l ↔ X.held s u l := by
        intro u
        by_cases hu : u = t
        · subst hu
          rcases (hX.advance s a s' u hI hI' hs huse).2 with hstay | ⟨l, -, hend, -⟩ |
            ⟨l, -, hend, -⟩
          · exact hstay
          · exact absurd hend hout
          · exact absurd hend hout
        · exact hothers u hu
      obtain ⟨s'', u, hrun, hu, hend⟩ := ih (μ s') (hm ▸ hlow.resolve_left hout) s' rfl hI' hn'
        (fun u l hl => hfree u l (((hsame u).2 l).mp hl)) ⟨t, hout⟩
      exact ⟨s'', u, hone.trans hrun, by rw [← (hsame u).1]; exact hu, hend⟩

end Progress

/-- A mutex with program counters works if calls can begin, every access that is not a
wait brings its thread nearer to the end of the call, as `d` measures it, and some
thread does not wait. -/
def Mutex.worksOfPc [Fintype T] {I : σ → Prop} {n : Nat}
    (hL : (ofPc init step use pc phase fault own has).Limited I)
    (hX : (ofPc init step use pc phase fault own has).Correct (hL.Below n) I)
    (hacquire : ∀ s t l, I s → phase (pc s t) = .out → (∀ k, ¬ has (own s t) k) →
      ∃ a s', use a = .acquire t l ∧ step s a = some s')
    (hrelease : ∀ s t l, I s → phase (pc s t) = .out → has (own s t) l →
      ∃ a s', use a = .release t l ∧ step s a = some s')
    (d : C → Nat) (Stuck : σ → T → Prop)
    (hmove : ∀ s t, I s → phase (pc s t) ≠ .out → ¬ Stuck s t → ∃ a s' c,
      use a = .advance t ∧ step s a = some s' ∧ pc s' = Function.update (pc s) t c ∧
        d c < d (pc s t))
    (hstuck : ∀ s t, I s → (∀ u l, ¬ has (own s u) l) → phase (pc s t) ≠ .out →
      ∃ u, phase (pc s u) ≠ .out ∧ ¬ Stuck s u) :
    (ofPc init step use pc phase fault own has).Works n where
  inv := I
  limited := hL
  correct := hX
  progress :=
    { acquire := fun s t l hI _ => hacquire s t l hI
      release := fun s t l hI _ => hrelease s t l hI
      returns := by
        intro s hI hn _
        refine returns_of_measure hL hX (fun s => ∑ t, d (pc s t)) (fun s hI hfree hbusy => ?_)
          s hI hn
        obtain ⟨w, hw⟩ := hbusy
        obtain ⟨t, hin, hgo⟩ := hstuck s w hI hfree hw
        obtain ⟨a, s', c, huse, hs, hpc, hlt⟩ := hmove s t hI hin hgo
        refine ⟨a, t, s', huse, hin, hs, Or.inr ?_⟩
        -- only `t` moves, and it comes nearer
        have hsum := sum_update (t := t) (c := c) (d := d) (f := pc s)
        rw [← hpc] at hsum
        show ∑ u, d (pc s' u) < ∑ u, d (pc s u)
        omega }

end Mutex

end LockShield.Lib
