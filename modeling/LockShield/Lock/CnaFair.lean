import LockShield.Lib.Lcg
import LockShield.Lock.CnaQueues
import Mathlib.Algebra.BigOperators.Group.Finset.Basic
import Mathlib.Data.BitVec
import Mathlib.Data.Fintype.Card

/-!
# How long `CNALock` prefers the main queue

`keep_lock_local` draws a pseudo-random number from the thread's own `seed` and
says no when its low 16 bits are zero. Then `Release` puts the secondary queue
first, and the waiter at its head gets the lock.

The low bits of every thread's seed run through one cycle, so each thread answers
yes at most 65535 times in a row. A `Release` that passes the lock on in the main
queue uses one such answer up, whatever the other threads do; the bound adds the
answers up that all threads have left.

## Results

* `recurs_keepLockLocal`  — the answer no recurs within `2 ^ 16` draws, from any seed.
* `totalLeft_draw`        — a yes lowers the number of answers that are left.
* `FairInv.effect`        — what a step does to the history of a waiter (`Bypass`).
* `cna_bounded_bypass`    — from any seeds, at most 65535 releases for each thread pass the
  lock on in the main queue before the head of the secondary queue gets it.
-/

set_option linter.unusedSectionVars false

namespace LockShield.Cna

open Lib

/-! ## The generator -/

/-- `pseudo_rand`: the next value of `seed`, which is what it returns. -/
def pseudoRand (seed : BitVec 32) : BitVec 32 := seed * 1103515245 + 12345

/-- `THRESHOLD` -/
def threshold : BitVec 32 := 0xffff

/-- The answer of `keep_lock_local` to what `pseudo_rand` returns. -/
def keepLockLocal (rand : BitVec 32) : Bool := rand &&& threshold ≠ 0

theorem keepLockLocal_iff (rand : BitVec 32) :
    keepLockLocal rand = false ↔ (rand.toNat : Int) ≡ 0 [ZMOD 2 ^ 16] := by
  -- the mask keeps the low 16 bits
  have hmask : (rand &&& threshold).toNat = rand.toNat % 2 ^ 16 := by
    rw [BitVec.toNat_and]
    exact Nat.and_two_pow_sub_one_eq_mod rand.toNat 16
  have hzero : rand &&& threshold = 0 ↔ rand.toNat % 2 ^ 16 = 0 := by
    rw [← hmask, ← BitVec.toNat_inj]
    rfl
  simp only [keepLockLocal, decide_eq_false_iff_not, not_not, ne_eq, hzero]
  show _ ↔ (rand.toNat : Int) % 2 ^ 16 = 0 % 2 ^ 16
  omega

theorem pseudoRand_modEq (seed : BitVec 32) :
    ((pseudoRand seed).toNat : Int) ≡ lcg 1103515245 12345 seed.toNat [ZMOD 2 ^ 32] := by
  have hnat : (pseudoRand seed).toNat = (seed.toNat * 1103515245 + 12345) % 2 ^ 32 := by
    rw [pseudoRand, BitVec.toNat_add, BitVec.toNat_mul]
    simp only [BitVec.toNat_ofNat, BitVec.ofNat_eq_ofNat]
    omega
  rw [hnat, lcg]
  simp only [Int.ModEq]
  push_cast
  omega

/-- The seeds are those of the congruential generator, read modulo `2 ^ 32`. -/
theorem pseudoRand_iterate (seed : BitVec 32) (n : Nat) :
    ((pseudoRand^[n] seed).toNat : Int) ≡ (lcg 1103515245 12345)^[n] seed.toNat [ZMOD 2 ^ 32] := by
  induction n with
  | zero => rfl
  | succ n ih =>
    rw [Function.iterate_succ_apply', Function.iterate_succ_apply']
    exact (pseudoRand_modEq _).trans (lcg_modEq ih)

/-- Every thread answers no at least once in 65536 calls. -/
theorem recurs_keepLockLocal : Recurs pseudoRand (fun r => keepLockLocal r = false) 65536 := by
  intro seed
  -- the generator meets the low bits zero, from any seed
  obtain ⟨n, hn, hlow⟩ := lcg_hits (a := 1103515245) (c := 12345) (by decide) (by decide) 16
    seed.toNat 0
  refine ⟨n, hn, (keepLockLocal_iff _).mpr ?_⟩
  have h16 := (pseudoRand_iterate seed n).of_dvd (show (2 : Int) ^ 16 ∣ 2 ^ 32 from ⟨2 ^ 16, rfl⟩)
  exact h16.trans hlow

/-! ## The lock with its seeds -/

variable (T : Type)

/-- The lock, and each thread's `seed`. -/
structure Seeded where
  lock : State T
  seed : T → BitVec 32

/-- Who was moved to the head of the empty secondary queue and has not got the
lock yet, and how often `Release` has handed the lock to the main queue since. -/
structure Bypass where
  waiter : Option T
  passes : Nat

/-- The actions, without the answers of `keep_lock_local`. -/
inductive Input where
  | acquire (t : T)
  | release (t : T)
  | advance (t : T) (numa : Nat)

variable {T} [DecidableEq T]

/-- The answer is the seed's. -/
def Seeded.action (x : Seeded T) : Input T → Action T
  | .acquire t => .acquire t
  | .release t => .release t
  | .advance t numa => .advance t numa (keepLockLocal (pseudoRand (x.seed t)))

/-- Only `keep_lock_local` draws a number. -/
def Seeded.draw (x : Seeded T) : Input T → T → BitVec 32
  | .acquire _ | .release _ => x.seed
  | .advance t _ =>
    if x.lock.pc t = .keepLocal then Function.update x.seed t (pseudoRand (x.seed t)) else x.seed

def seededStep (x : Seeded T) (a : Input T) : Option (Seeded T) :=
  (step x.lock (x.action a)).map fun s => ⟨s, x.draw a⟩

/-- Note who becomes the head of the secondary queue, and who gets the lock. -/
def noteBypass (b : Bypass T) (x : Seeded T) : Input T → Bypass T
  | .acquire _ | .release _ => b
  | .advance t _ =>
    match x.lock.pc t with
    | .cut head _ _ => if x.lock.sec = [] then ⟨some head, 0⟩ else b
    | .passStore _ _ | .grantPlain _ => { b with passes := b.passes + 1 }
    | .grantSec _ | .grantFlush _ => { b with waiter := none }
    | _ => b

/-- `CNALock` with its seeds, and the Releases that pass a waiter over. -/
def bypassStep : Seeded T × Bypass T → Input T → Option (Seeded T × Bypass T) :=
  withHistory seededStep noteBypass

def bypassInit (seed : T → BitVec 32) : Seeded T × Bypass T := (⟨init, seed⟩, ⟨none, 0⟩)

/-- `keep_lock_local` has said yes, and the lock is not passed on yet. -/
@[simp] def Pc.keeping : Pc T → Bool
  | .findNext | .walk _ _ _ | .testSplice _ _ _ | .loadSplice _ _ _ | .appendSplice _ _ _ _
  | .storeSplice _ _ _ | .cut _ _ _ | .setSecTail _ _ | .passLoad _ | .passStore _ _ => true
  | _ => false

/-- `Release` will not pass the lock on in the main queue while there is a
secondary one. -/
@[simp] def Pc.flushing : Pc T → Bool
  | .grantSec _ | .testSec | .loadSucc | .loadMain _ | .flush _ _ | .grantFlush _ | .loadPlain
  | .grantPlain _ | .crashed => true
  | _ => false

/-! ## What one step can do -/

/-- What a step of thread `t` does to the secondary queue, the lock and the
answers. -/
inductive Effect (x y : Seeded T × Bypass T) (t : T) : Prop where
  /-- nothing -/
  | quiet (howner : y.1.lock.owner = x.1.lock.owner) (hsec : y.1.lock.sec = x.1.lock.sec)
      (hseed : y.1.seed = x.1.seed) (hnote : y.2 = x.2) (hgrant : ∀ w, x.1.lock.pc t ≠ .grantSec w)
      (hkeep : (y.1.lock.pc t).keeping = true → (x.1.lock.pc t).keeping = true)
      (hflush : (x.1.lock.pc t).flushing = true → (y.1.lock.pc t).flushing = true)
  /-- `keep_lock_local` answers -/
  | draw (ho : x.1.lock.owner = some t) (howner : y.1.lock.owner = x.1.lock.owner)
      (hsec : y.1.lock.sec = x.1.lock.sec)
      (hseed : y.1.seed = Function.update x.1.seed t (pseudoRand (x.1.seed t))) (hnote : y.2 = x.2)
      (hcase : x.1.lock.pc t = .keepLocal)
      (hpc : y.1.lock.pc t =
        if keepLockLocal (pseudoRand (x.1.seed t)) then .findNext else .testSec)
  /-- a prefix is moved to the secondary queue -/
  | cut (head : T) (pre : List T) (ho : x.1.lock.owner = some t)
      (howner : y.1.lock.owner = x.1.lock.owner) (hhead : pre.head? = some head)
      (hsec : y.1.lock.sec = x.1.lock.sec ++ pre) (hseed : y.1.seed = x.1.seed)
      (hnote : y.2 = if x.1.lock.sec = [] then ⟨some head, 0⟩ else x.2)
      (hkeep : (x.1.lock.pc t).keeping = true) (hkeep' : (y.1.lock.pc t).keeping = true)
  /-- the lock is passed on in the main queue -/
  | pass (succ : T) (ho : x.1.lock.owner = some t) (howner : y.1.lock.owner = some succ)
      (hmain : succ ∈ x.1.lock.main) (hsec : y.1.lock.sec = x.1.lock.sec)
      (hseed : y.1.seed = x.1.seed) (hnote : y.2 = { x.2 with passes := x.2.passes + 1 })
      (hkeep : (x.1.lock.pc t).keeping = true) (hsucc : y.1.lock.pc succ = .spin)
      (hpc : y.1.lock.pc t = .idle)
  /-- the main queue has become empty, and the secondary queue replaces it -/
  | replace (w : T) (ho : x.1.lock.owner = some t) (howner : y.1.lock.owner = x.1.lock.owner)
      (hhead : x.1.lock.sec.head? = some w) (hsec : y.1.lock.sec = [])
      (hseed : y.1.seed = x.1.seed) (hnote : y.2 = x.2) (hpc : y.1.lock.pc t = .grantSec w)
  /-- the head of the secondary queue gets the lock -/
  | grant (w : T) (ho : x.1.lock.owner = some t)
      (hhead : x.1.lock.sec.head? = some w ∨ x.1.lock.sec = [] ∧ x.1.lock.pc t = .grantSec w)
      (hne : w ≠ t) (howner : y.1.lock.owner = some w) (hsec : y.1.lock.sec = [])
      (hseed : y.1.seed = x.1.seed) (hnote : y.2.waiter = none) (hpc : y.1.lock.pc t = .idle)
  /-- there is no secondary queue -/
  | alone (hnone : ∀ o, x.1.lock.owner = some o → ∀ w, x.1.lock.pc o ≠ .grantSec w)
      (hempty : x.1.lock.sec = []) (hsec : y.1.lock.sec = []) (hseed : y.1.seed = x.1.seed)
      (hnote : y.2.waiter = x.2.waiter) (hkeep : (y.1.lock.pc t).keeping = false)

variable {s s₁ s' : State T} {seed seed' : T → BitVec 32} {b b' : Bypass T}
  {x y : Seeded T × Bypass T} {a : Input T} {t u w : T}

/-- Only the thread's position changes, and what the effect is not about. -/
theorem Effect.goto {pc : Pc T} (howner : s₁.owner = s.owner) (hsec : s₁.sec = s.sec)
    (hgrant : ∀ w, s.pc t ≠ .grantSec w) (hkeep : pc.keeping = true → (s.pc t).keeping = true)
    (hflush : (s.pc t).flushing = true → pc.flushing = true) :
    Effect (⟨s, seed⟩, b) (⟨s₁.goto t pc, seed⟩, b) t := by
  have hpct : (s₁.goto t pc).pc t = pc := Function.update_self ..
  refine .quiet howner hsec rfl rfl hgrant ?_ ?_
  · rw [hpct]
    exact hkeep
  · rw [hpct]
    exact hflush

theorem proceed_others {numa : Nat} {keep : Bool} {pc : Pc T}
    (hs : proceed s t numa keep pc = some s') (hut : u ≠ t) : s'.pc u = s.pc u := by
  -- every branch moves `t` and leaves the other positions alone
  cases pc <;> simp only [proceed] at hs
  all_goals repeat' split at hs
  all_goals first
    | cases hs; done
    | rw [← Option.some.inj hs]; simp [State.goto, State.grant, hut]
    | rw [← Option.some.inj hs]

/-- The steps of `Release`. -/
theorem effect_of_release {numa : Nat} (hI : Inv s) (ho : s.owner = some t)
    (hs : proceed s t numa (keepLockLocal (pseudoRand (seed t))) (s.pc t) = some s')
    (hseed : seed' = (⟨s, seed⟩ : Seeded T).draw (.advance t numa))
    (hnote : b' = noteBypass b ⟨s, seed⟩ (.advance t numa)) :
    Effect (⟨s, seed⟩, b) (⟨s', seed'⟩, b') t := by
  have hok := hI.ownerOk t ho
  unfold OwnerOk at hok
  -- a step that only goes on to the next access
  have hgoto : ∀ {s₁ : State T} {pc : Pc T}, some (s₁.goto t pc) = some s' → seed' = seed → b' = b →
      s₁.owner = s.owner → s₁.sec = s.sec → (∀ w, s.pc t ≠ .grantSec w) →
      (pc.keeping = true → (s.pc t).keeping = true) →
      ((s.pc t).flushing = true → pc.flushing = true) →
      Effect (⟨s, seed⟩, b) (⟨s', seed'⟩, b') t := by
    intro s₁ pc heq hsd hb howner hsec hgrant hkeep hflush
    rw [← Option.some.inj heq, hsd, hb]
    exact .goto howner hsec hgrant hkeep hflush
  cases hcase : s.pc t <;> rw [hcase] at hs hok <;>
    simp only [Seeded.draw, noteBypass, hcase, reduceCtorEq, if_false, if_true] at hseed hnote <;>
    simp only [proceed] at hs
  case idle => cases hs
  case clearNext | clearSpin | swapTail | link | crashed => exact hok.elim
  case spin | awaitNext =>
    split at hs
    · obtain rfl := Option.some.inj hs
      rw [hseed, hnote]
      exact .quiet rfl rfl rfl rfl (by simp [hcase]) id id
    · exact hgoto hs hseed hnote rfl rfl (by simp [hcase]) (by simp) (by simp [hcase])
  case setSpin | passLoad | storeSplice | loadMain =>
    exact hgoto hs hseed hnote rfl rfl (by simp [hcase]) (by simp [hcase]) (by simp [hcase])
  case loadNext | testOne | loadSec | findNext | walk | testSplice | loadSplice | appendSplice
      | setSecTail | testSec | loadSucc | flush | loadPlain =>
    repeat' split at hs
    all_goals refine hgoto hs hseed hnote rfl rfl ?_ ?_ ?_ <;> simp [hcase]
  case casNull =>
    split at hs
    · obtain rfl := Option.some.inj hs
      refine .alone (fun o ho' w hw => ?_) hok.2 hok.2 hseed (by rw [hnote]) ?_
      · obtain rfl := Option.some.inj (ho.symm.trans ho')
        rw [hcase] at hw
        cases hw
      · simp [State.goto]
    · exact hgoto hs hseed hnote rfl rfl (by simp [hcase]) (by simp) (by simp [hcase])
  case casSec w =>
    split at hs
    · obtain rfl := Option.some.inj hs
      exact .replace w ho rfl hok.2 rfl hseed hnote (Function.update_self ..)
    · exact hgoto hs hseed hnote rfl rfl (by simp [hcase]) (by simp) (by simp [hcase])
  case grantSec w =>
    obtain rfl := Option.some.inj hs
    -- `w` is first in the main queue now, and the owner is in no queue
    have hne : w ≠ t := by
      rintro rfl
      exact (hI.apart w ho).1 (List.mem_of_mem_head? hok.1.1)
    exact .grant w ho (Or.inr ⟨hok.2, hcase⟩) hne rfl hok.2 hseed (by rw [hnote])
      (Function.update_self ..)
  case keepLocal =>
    -- the answer is the one that the seed gives
    have hs' : s' = s.goto t
        (if keepLockLocal (pseudoRand (seed t)) then .findNext else .testSec) := by
      split at hs
      · rename_i hk
        rw [← Option.some.inj hs, if_pos hk]
      · rename_i hk
        rw [← Option.some.inj hs, if_neg hk]
    rw [hs']
    exact .draw ho rfl rfl hseed hnote hcase (Function.update_self ..)
  case cut head last c =>
    obtain rfl := Option.some.inj hs
    -- the prefix that `find_successor` found goes to the secondary queue
    obtain ⟨pre, rest, -, hhead, -, htake, -⟩ :=
      hok.2.1.split (List.nodup_append.mp hI.nodup).1
    exact .cut head pre ho rfl hhead (by rw [← htake]; rfl) hseed hnote (by simp [hcase])
      (by simp [State.goto])
  case passStore succ v =>
    obtain rfl := Option.some.inj hs
    -- the successor is first in the main queue, and spins
    have hmain : succ ∈ s.main := List.mem_of_mem_head? hok.1.1
    have hne : succ ≠ t := by
      rintro rfl
      exact (hI.apart succ ho).1 hmain
    refine .pass succ ho rfl hmain rfl hseed hnote (by simp [hcase]) ?_ (Function.update_self ..)
    exact (Function.update_of_ne hne ..).trans hok.1.2
  case grantFlush w =>
    obtain rfl := Option.some.inj hs
    have hne : w ≠ t := by
      rintro rfl
      exact (hI.apart w ho).2 (List.mem_of_mem_head? hok.2.2.2.1)
    exact .grant w ho (Or.inl hok.2.2.2.1) hne rfl rfl hseed (by rw [hnote])
      (Function.update_self ..)
  case grantPlain n =>
    obtain rfl := Option.some.inj hs
    refine .alone (fun o ho' w hw => ?_) hok.2.2 hok.2.2 hseed (by rw [hnote]) ?_
    · obtain rfl := Option.some.inj (ho.symm.trans ho')
      rw [hcase] at hw
      cases hw
    · simp [State.grant, State.goto]

theorem bypassStep_eq_some : bypassStep x a = some y ↔
    step x.1.lock (x.1.action a) = some y.1.lock ∧ y.1.seed = x.1.draw a ∧
      y.2 = noteBypass x.2 x.1 a := by
  refine withHistory_eq_some.trans ?_
  rw [← and_assoc]
  refine and_congr_left fun _ => ?_
  unfold seededStep
  constructor
  · intro h
    obtain ⟨s', hs', hy⟩ := Option.map_eq_some_iff.mp h
    rw [← hy]
    exact ⟨hs', rfl⟩
  · rintro ⟨hs', hseed⟩
    rw [hs', Option.map_some, ← hseed]

/-- The steps of those who do not own the lock. -/
theorem effect_of_wait {numa : Nat} {keep : Bool} (hI : Inv s) (ho : s.owner ≠ some t)
    (hs : proceed s t numa keep (s.pc t) = some s')
    (hseed : seed' = (⟨s, seed⟩ : Seeded T).draw (.advance t numa))
    (hnote : b' = noteBypass b ⟨s, seed⟩ (.advance t numa)) :
    Effect (⟨s, seed⟩, b) (⟨s', seed'⟩, b') t := by
  cases hcase : s.pc t <;> rw [hcase] at hs <;>
    simp only [Seeded.draw, noteBypass, hcase, reduceCtorEq, if_false] at hseed hnote <;>
    simp only [proceed] at hs <;> subst hseed <;> subst hnote
  case idle | crashed => cases hs
  case clearNext | clearSpin | link =>
    rw [← Option.some.inj hs]
    exact .goto rfl rfl (by simp [hcase]) (by simp) (by simp [hcase])
  case spin =>
    split at hs
    · rw [← Option.some.inj hs]
      exact .quiet rfl rfl rfl rfl (by simp [hcase]) id id
    · rw [← Option.some.inj hs]
      exact .goto rfl rfl (by simp [hcase]) (by simp) (by simp [hcase])
  case swapTail =>
    cases htail : s.tail with
    | none =>
      simp only [htail] at hs
      rw [← Option.some.inj hs]
      -- whoever owned the lock would be at the tail
      have hfree : s.owner = none := by
        cases ho' : s.owner with
        | none => rfl
        | some o => cases htail.symm.trans (hI.tail o ho').1
      have hsec := (hI.free hfree).2.1
      refine .alone (fun o ho' => ?_) hsec hsec rfl rfl ?_
      · cases hfree.symm.trans ho'
      · simp [State.goto]
    | some tailNode =>
      simp only [htail] at hs
      rw [← Option.some.inj hs]
      exact .goto rfl rfl (by simp [hcase]) (by simp) (by simp [hcase])
  all_goals
    -- the other accesses are the owner's
    exact absurd (hI.owner_of_release (by simp [hcase]) (by simp [hcase]) (by simp [hcase])
      (by simp [hcase]) (by simp [hcase]) (by simp [hcase])) ho

/-- One step is one thread's, and has one of the effects. -/
theorem effect_of_step (hI : Inv x.1.lock) (hs : bypassStep x a = some y) :
    ∃ t, Effect x y t ∧ ∀ u, u ≠ t → y.1.lock.pc u = x.1.lock.pc u := by
  obtain ⟨hstep, hseed, hnote⟩ := bypassStep_eq_some.mp hs
  obtain ⟨⟨s, seed⟩, b⟩ := x
  obtain ⟨⟨s', seed'⟩, b'⟩ := y
  change seed' = _ at hseed
  change b' = _ at hnote
  cases a with
  | acquire t =>
    obtain ⟨⟨hidle, -⟩, hstep⟩ := Option.ite_none_right_eq_some.mp hstep
    change s.pc t = .idle at hidle
    obtain rfl := Option.some.inj hstep
    rw [hseed, hnote]
    refine ⟨t, .goto rfl rfl ?_ (by simp) ?_, fun u hu => Function.update_of_ne hu ..⟩
    · simp [hidle]
    · simp [hidle]
  | release t =>
    obtain ⟨⟨hidle, -⟩, hstep⟩ := Option.ite_none_right_eq_some.mp hstep
    change s.pc t = .idle at hidle
    obtain rfl := Option.some.inj hstep
    rw [hseed, hnote]
    refine ⟨t, .goto ?_ ?_ ?_ (by simp) ?_, fun u hu => Function.update_of_ne hu ..⟩
    · rfl
    · rfl
    · simp [hidle]
    · simp [hidle]
  | advance t numa =>
    change proceed s t numa _ (s.pc t) = some s' at hstep
    refine ⟨t, ?_, fun u hu => proceed_others hstep hu⟩
    -- the owner is in its `Release`, everybody else in an `Acquire`
    by_cases ho : s.owner = some t
    · exact effect_of_release hI ho hstep hseed hnote
    · exact effect_of_wait hI ho hstep hseed hnote

/-! ## The answers that are left -/

/-- The number of calls of `keep_lock_local` up to the next no. -/
noncomputable def callsLeft (seed : BitVec 32) : Nat :=
  firstHit pseudoRand (fun r => keepLockLocal r = false) seed

theorem callsLeft_le (r : BitVec 32) : callsLeft r ≤ 65536 := recurs_keepLockLocal.firstHit_le

/-- After a yes there is less than a whole cycle left. -/
theorem callsLeft_lt {r : BitVec 32} (hr : keepLockLocal r = true) : callsLeft r < 65536 :=
  recurs_keepLockLocal.firstHit_lt (by simp [hr])

theorem callsLeft_pos (r : BitVec 32) : 0 < callsLeft r := recurs_keepLockLocal.firstHit_mem.1

/-- A yes uses a call up. -/
theorem callsLeft_step {r : BitVec 32} (hr : keepLockLocal (pseudoRand r) = true) :
    callsLeft (pseudoRand r) + 1 ≤ callsLeft r :=
  recurs_keepLockLocal.firstHit_step (by simp [hr])

variable [Fintype T]

/-- The calls that all threads have left. -/
noncomputable def totalLeft (seed : T → BitVec 32) : Nat := ∑ t, callsLeft (seed t)

theorem card_le_totalLeft (seed : T → BitVec 32) : Fintype.card T ≤ totalLeft seed := by
  calc Fintype.card T = ∑ _t : T, 1 := by simp
    _ ≤ ∑ t, callsLeft (seed t) := Finset.sum_le_sum fun t _ => callsLeft_pos (seed t)

theorem totalLeft_lt (hs : keepLockLocal (seed t) = true) :
    totalLeft seed + 1 ≤ Fintype.card T * 65536 := by
  calc totalLeft seed < ∑ _t : T, 65536 :=
        Finset.sum_lt_sum (fun u _ => callsLeft_le (seed u)) ⟨t, Finset.mem_univ t, callsLeft_lt hs⟩
    _ = Fintype.card T * 65536 := by simp

theorem totalLeft_draw (hs : keepLockLocal (pseudoRand (seed t)) = true) :
    totalLeft (Function.update seed t (pseudoRand (seed t))) + 1 ≤ totalLeft seed := by
  have hlt : totalLeft (Function.update seed t (pseudoRand (seed t))) < totalLeft seed := by
    -- only the thread that draws has a call less
    refine Finset.sum_lt_sum (fun u _ => ?_) ⟨t, Finset.mem_univ t, ?_⟩
    · by_cases hu : u = t
      · subst hu
        rw [Function.update_self]
        exact Nat.le_of_succ_le (callsLeft_step hs)
      · rw [Function.update_of_ne hu]
    · rw [Function.update_self]
      exact callsLeft_step hs
  exact hlt

/-! ## The invariant -/

theorem Pc.flushing_of_keeping {pc : Pc T} (h : pc.keeping = true) : pc.flushing = false := by
  cases pc <;> first | rfl | cases h

/-- Every pass has used an answer up, and so will the pass that is under way. -/
structure FairInv (x : Seeded T × Bypass T) : Prop where
  answered : ∀ t, (x.1.lock.pc t).keeping = true → keepLockLocal (x.1.seed t) = true
  head : x.1.lock.sec ≠ [] → x.2.waiter = x.1.lock.sec.head?
  /-- the waiter is at the head of the secondary queue, or about to get the lock -/
  next : ∀ w, x.2.waiter = some w → x.1.lock.sec.head? = some w ∨
    ∃ o, x.1.lock.owner = some o ∧ x.1.lock.pc o = .grantSec w
  bound : ∀ w, x.2.waiter = some w → x.2.passes ≤ Fintype.card T * 65535
  budget : ∀ w o, x.2.waiter = some w → x.1.lock.owner = some o →
    (x.1.lock.pc o).flushing = false →
    x.2.passes + (if (x.1.lock.pc o).keeping then 1 else 0) + totalLeft x.1.seed ≤
      Fintype.card T * 65536

theorem fairInv_init (seed : T → BitVec 32) : FairInv (bypassInit seed) :=
  { answered := fun _ h => by cases h
    head := fun h => absurd rfl h
    next := fun _ h => by cases h
    bound := fun _ h => by cases h
    budget := fun _ _ h => by cases h }

/-- With nobody to wait for, nothing is counted. -/
theorem FairInv.of_none (hanswered : ∀ t, (y.1.lock.pc t).keeping = true →
    keepLockLocal (y.1.seed t) = true) (hsec : y.1.lock.sec = []) (hnone : y.2.waiter = none) :
    FairInv y :=
  { answered := hanswered
    head := fun h => absurd hsec h
    next := fun w hw => by cases hnone.symm.trans hw
    bound := fun w hw => by cases hnone.symm.trans hw
    budget := fun w o hw => by cases hnone.symm.trans hw }

/-- The budget is enough for the bound. -/
theorem bound_of_budget {n k : Nat} (h : n + k + totalLeft seed ≤ Fintype.card T * 65536) :
    n ≤ Fintype.card T * 65535 := by
  have := card_le_totalLeft seed
  omega

/-- The answers of the other threads stand. -/
theorem FairInv.answered_step (h : FairInv x)
    (hothers : ∀ u, u ≠ t → y.1.lock.pc u = x.1.lock.pc u)
    (hseed : ∀ u, u ≠ t → y.1.seed u = x.1.seed u)
    (ht : (y.1.lock.pc t).keeping = true → keepLockLocal (y.1.seed t) = true) (u : T)
    (hu : (y.1.lock.pc u).keeping = true) : keepLockLocal (y.1.seed u) = true := by
  by_cases hut : u = t
  · rw [hut] at hu ⊢
    exact ht hu
  · rw [hothers u hut] at hu
    rw [hseed u hut]
    exact h.answered u hu

/-- The waiter stays where it is, and so does the bound. -/
theorem FairInv.kept (h : FairInv x) (hothers : ∀ u, u ≠ t → y.1.lock.pc u = x.1.lock.pc u)
    (howner : y.1.lock.owner = x.1.lock.owner) (hsec : y.1.lock.sec = x.1.lock.sec)
    (hnote : y.2 = x.2) (hgrant : ∀ w, x.1.lock.pc t ≠ .grantSec w)
    (hanswered : ∀ u, (y.1.lock.pc u).keeping = true → keepLockLocal (y.1.seed u) = true)
    (hbudget : ∀ w o, x.2.waiter = some w → x.1.lock.owner = some o →
      (y.1.lock.pc o).flushing = false →
      x.2.passes + (if (y.1.lock.pc o).keeping then 1 else 0) + totalLeft y.1.seed ≤
        Fintype.card T * 65536) : FairInv y := by
  refine
    { answered := hanswered
      head := by rw [hsec, hnote]; exact h.head
      next := fun w hw => ?_
      bound := by rw [hnote]; exact h.bound
      budget := by rw [hnote, howner]; exact hbudget }
  rw [hnote] at hw
  rw [hsec, howner]
  refine (h.next w hw).imp_right ?_
  rintro ⟨o, ho, hpc⟩
  -- an owner about to let the waiter in is not the thread that moves
  have hot : o ≠ t := by
    rintro rfl
    exact hgrant w hpc
  exact ⟨o, ho, (hothers o hot).trans hpc⟩

theorem FairInv.quiet (h : FairInv x) (hothers : ∀ u, u ≠ t → y.1.lock.pc u = x.1.lock.pc u)
    (howner : y.1.lock.owner = x.1.lock.owner) (hsec : y.1.lock.sec = x.1.lock.sec)
    (hseed : y.1.seed = x.1.seed) (hnote : y.2 = x.2) (hgrant : ∀ w, x.1.lock.pc t ≠ .grantSec w)
    (hkeep : (y.1.lock.pc t).keeping = true → (x.1.lock.pc t).keeping = true)
    (hflush : (x.1.lock.pc t).flushing = true → (y.1.lock.pc t).flushing = true) : FairInv y := by
  refine h.kept hothers howner hsec hnote hgrant
    (h.answered_step hothers (fun u _ => by rw [hseed]) fun hk => ?_)
    fun w o hw ho hf => ?_
  · rw [hseed]
    exact h.answered t (hkeep hk)
  · by_cases hot : o = t
    · subst hot
      have hf' : (x.1.lock.pc o).flushing = false := by
        cases hx : (x.1.lock.pc o).flushing with
        | false => rfl
        | true => cases hf.symm.trans (hflush hx)
      -- a pass that was not under way has not become so
      have hle : (if (y.1.lock.pc o).keeping then 1 else 0) ≤
          if (x.1.lock.pc o).keeping then 1 else 0 := by
        split
        · rename_i hk
          rw [if_pos (hkeep hk)]
        · exact Nat.zero_le _
      have hold := h.budget w o hw ho hf'
      rw [hseed]
      omega
    · rw [hothers o hot] at hf ⊢
      rw [hseed]
      exact h.budget w o hw ho hf

/-- A yes uses up one of the calls that are left; after a no the main queue gets
nothing any more. -/
theorem FairInv.draw (h : FairInv x) (hothers : ∀ u, u ≠ t → y.1.lock.pc u = x.1.lock.pc u)
    (ho : x.1.lock.owner = some t) (howner : y.1.lock.owner = x.1.lock.owner)
    (hsec : y.1.lock.sec = x.1.lock.sec)
    (hseed : y.1.seed = Function.update x.1.seed t (pseudoRand (x.1.seed t))) (hnote : y.2 = x.2)
    (hcase : x.1.lock.pc t = .keepLocal)
    (hpc : y.1.lock.pc t =
      if keepLockLocal (pseudoRand (x.1.seed t)) then .findNext else .testSec) : FairInv y := by
  have hseedt : y.1.seed t = pseudoRand (x.1.seed t) := by rw [hseed, Function.update_self]
  -- a no leaves `keeping` and begins the flush
  have hyes : (y.1.lock.pc t).flushing = false ∨ (y.1.lock.pc t).keeping = true →
      keepLockLocal (pseudoRand (x.1.seed t)) = true := by
    rw [hpc]
    split
    · rename_i hk
      exact fun _ => hk
    · simp
  refine h.kept hothers howner hsec hnote (by simp [hcase])
    (h.answered_step hothers (fun u hu => ?_) fun hk => ?_)
    fun w o hw ho' hf => ?_
  · rw [hseed, Function.update_of_ne hu]
  · rw [hseedt]
    exact hyes (Or.inr hk)
  · -- a yes: the pass that is coming is paid for by the call
    obtain rfl := Option.some.inj (ho.symm.trans ho')
    have hk := hyes (Or.inl hf)
    have hold := h.budget w t hw ho (by simp [hcase])
    have hless := totalLeft_draw hk
    rw [hpc, if_pos hk, hseed]
    simp only [hcase, Pc.keeping, Bool.false_eq_true, if_false, if_true] at hold ⊢
    omega

/-- The first prefix that is moved starts the count anew. -/
theorem FairInv.cut {head : T} {pre : List T} (h : FairInv x)
    (hothers : ∀ u, u ≠ t → y.1.lock.pc u = x.1.lock.pc u) (ho : x.1.lock.owner = some t)
    (howner : y.1.lock.owner = x.1.lock.owner) (hhead : pre.head? = some head)
    (hsec : y.1.lock.sec = x.1.lock.sec ++ pre) (hseed : y.1.seed = x.1.seed)
    (hnote : y.2 = if x.1.lock.sec = [] then ⟨some head, 0⟩ else x.2)
    (hkeep : (x.1.lock.pc t).keeping = true) (hkeep' : (y.1.lock.pc t).keeping = true) :
    FairInv y := by
  have hans := h.answered_step hothers (fun u _ => by rw [hseed]) fun _ => by
    rw [hseed]
    exact h.answered t hkeep
  -- the owner, who moves the prefix, stays the owner
  have hone : ∀ o, y.1.lock.owner = some o → o = t := by
    intro o ho'
    rw [howner, ho] at ho'
    exact (Option.some.inj ho').symm
  by_cases hempty : x.1.lock.sec = []
  · rw [if_pos hempty] at hnote
    have hhead' : y.1.lock.sec.head? = some head := by rw [hsec, hempty, List.nil_append, hhead]
    refine
      { answered := hans
        head := fun _ => by rw [hnote, hhead']
        next := fun w hw => ?_
        bound := fun w _ => by rw [hnote]; exact Nat.zero_le _
        budget := fun w o _ ho' _ => ?_ }
    · rw [hnote] at hw
      exact Or.inl (hhead'.trans hw)
    · -- the owner's last answer was yes, so its cycle is not a whole one
      rw [hone o ho', hnote, hseed, if_pos hkeep']
      have hless : totalLeft x.1.seed + 1 ≤ Fintype.card T * 65536 :=
        totalLeft_lt (h.answered t hkeep)
      show 0 + 1 + _ ≤ _
      omega
  · -- a later prefix goes behind the waiter, and the count goes on
    rw [if_neg hempty] at hnote
    have hhead' : y.1.lock.sec.head? = x.1.lock.sec.head? := by
      rw [hsec, List.head?_append_of_ne_nil _ hempty]
    refine
      { answered := hans
        head := fun _ => by rw [hnote, hhead']; exact h.head hempty
        next := fun w hw => ?_
        bound := by rw [hnote]; exact h.bound
        budget := fun w o hw ho' _ => ?_ }
    · rw [hnote, h.head hempty] at hw
      exact Or.inl (hhead'.trans hw)
    · rw [hnote] at hw ⊢
      rw [hone o ho', hseed, if_pos hkeep']
      have hold := h.budget w t hw ho (Pc.flushing_of_keeping hkeep)
      rwa [if_pos hkeep] at hold

/-- A pass has been paid for by the answer that led to it. -/
theorem FairInv.pass {succ : T} (h : FairInv x)
    (hothers : ∀ u, u ≠ t → y.1.lock.pc u = x.1.lock.pc u) (ho : x.1.lock.owner = some t)
    (howner : y.1.lock.owner = some succ) (hsec : y.1.lock.sec = x.1.lock.sec)
    (hseed : y.1.seed = x.1.seed) (hnote : y.2 = { x.2 with passes := x.2.passes + 1 })
    (hkeep : (x.1.lock.pc t).keeping = true) (hsucc : y.1.lock.pc succ = .spin)
    (hpc : y.1.lock.pc t = .idle) : FairInv y := by
  -- the pass under way becomes one that is counted
  have hbudget : ∀ w, x.2.waiter = some w →
      x.2.passes + 1 + totalLeft x.1.seed ≤ Fintype.card T * 65536 := by
    intro w hw
    have hold := h.budget w t hw ho (Pc.flushing_of_keeping hkeep)
    rwa [if_pos hkeep] at hold
  refine
    { answered := h.answered_step hothers (fun u _ => by rw [hseed]) fun hk => ?_
      head := by rw [hsec, hnote]; exact h.head
      next := fun w hw => ?_
      bound := fun w hw => ?_
      budget := fun w o hw ho' _ => ?_ }
  · rw [hpc] at hk
    cases hk
  · rw [hnote] at hw
    -- who is about to grant to the waiter does not pass the lock on
    rcases h.next w hw with hhead | ⟨o, ho', hcase⟩
    · rw [hsec]
      exact Or.inl hhead
    · obtain rfl := Option.some.inj (ho.symm.trans ho')
      rw [hcase] at hkeep
      cases hkeep
  · rw [hnote] at hw ⊢
    exact bound_of_budget (k := 0) (hbudget w hw)
  · rw [hnote] at hw ⊢
    obtain rfl := Option.some.inj (howner.symm.trans ho')
    rw [hsucc, hseed]
    exact hbudget w hw

theorem FairInv.replace {w' : T} (h : FairInv x)
    (hothers : ∀ u, u ≠ t → y.1.lock.pc u = x.1.lock.pc u) (ho : x.1.lock.owner = some t)
    (howner : y.1.lock.owner = x.1.lock.owner) (hhead : x.1.lock.sec.head? = some w')
    (hsec : y.1.lock.sec = []) (hseed : y.1.seed = x.1.seed) (hnote : y.2 = x.2)
    (hpc : y.1.lock.pc t = .grantSec w') : FairInv y := by
  -- the new head of the main queue is the waiter
  have hwaiter : x.2.waiter = some w' := by
    rw [h.head fun hnil => by rw [hnil] at hhead; cases hhead]
    exact hhead
  refine
    { answered := h.answered_step hothers (fun u _ => by rw [hseed]) fun hk => ?_
      head := fun hne => absurd hsec hne
      next := fun w hw => Or.inr ⟨t, howner.trans ho, ?_⟩
      bound := by rw [hnote]; exact h.bound
      budget := fun w o _ ho' hf => ?_ }
  · rw [hpc] at hk
    cases hk
  · rw [hnote, hwaiter] at hw
    rw [hpc, Option.some.inj hw]
  · rw [howner, ho] at ho'
    rw [← Option.some.inj ho', hpc] at hf
    cases hf

/-- Without a secondary queue there is no waiter, unless it is about to get the
lock. -/
theorem FairInv.no_waiter (h : FairInv x) (hempty : x.1.lock.sec = [])
    (hnone : ∀ o, x.1.lock.owner = some o → ∀ w, x.1.lock.pc o ≠ .grantSec w) :
    x.2.waiter = none := by
  cases hw : x.2.waiter with
  | none => rfl
  | some w =>
    rcases h.next w hw with hhead | ⟨o, ho, hpc⟩
    · rw [hempty] at hhead
      cases hhead
    · exact absurd hpc (hnone o ho w)

theorem FairInv.effect (h : FairInv x) (heff : Effect x y t)
    (hothers : ∀ u, u ≠ t → y.1.lock.pc u = x.1.lock.pc u) : FairInv y := by
  cases heff with
  | quiet howner hsec hseed hnote hgrant hkeep hflush =>
    exact h.quiet hothers howner hsec hseed hnote hgrant hkeep hflush
  | draw ho howner hsec hseed hnote hcase hpc =>
    exact h.draw hothers ho howner hsec hseed hnote hcase hpc
  | cut head pre ho howner hhead hsec hseed hnote hkeep hkeep' =>
    exact h.cut hothers ho howner hhead hsec hseed hnote hkeep hkeep'
  | pass succ ho howner _ hsec hseed hnote hkeep hsucc hpc =>
    exact h.pass hothers ho howner hsec hseed hnote hkeep hsucc hpc
  | replace w ho howner hhead hsec hseed hnote hpc =>
    exact h.replace hothers ho howner hhead hsec hseed hnote hpc
  | grant w _ _ _ _ hsec hseed hnote hpc =>
    -- the waiter gets the lock, and there is none any more
    refine .of_none (h.answered_step hothers (fun u _ => by rw [hseed]) ?_) hsec hnote
    rw [hpc]
    simp
  -- no secondary queue, so that there was no waiter
  | alone hnone hempty hsec hseed hnote hkeep =>
    refine .of_none (h.answered_step hothers (fun u _ => by rw [hseed]) ?_) hsec ?_
    · rw [hkeep]
      simp
    · rw [hnote]
      exact h.no_waiter hempty hnone

/-! ## Runs -/

theorem reachable_seeded (h : Reachable bypassStep (bypassInit seed) x) :
    Reachable step init x.1.lock := by
  induction h with
  | start => exact .start trivial
  | step _ hs _ ih => exact ih.step (bypassStep_eq_some.mp hs).1 trivial

theorem reachable_fair (h : Reachable bypassStep (bypassInit seed) x) : FairInv x := by
  induction h with
  | start => exact fairInv_init seed
  | step hr hs _ ih =>
    obtain ⟨t, heff, hothers⟩ := effect_of_step (reachable_inv (reachable_seeded hr)) hs
    exact ih.effect heff hothers

/-- The count starts when the secondary queue gets its first node. -/
theorem Effect.started (heff : Effect x y t) (hempty : x.1.lock.sec = [])
    (hne : y.1.lock.sec ≠ []) : y.2.waiter = y.1.lock.sec.head? ∧ y.2.passes = 0 := by
  cases heff with
  | cut head pre _ _ hhead hsec _ hnote =>
    rw [hnote, if_pos hempty, hsec, hempty, List.nil_append, hhead]
    exact ⟨rfl, rfl⟩
  | quiet _ hsec | draw _ _ hsec | pass _ _ _ _ hsec => exact absurd (hsec.trans hempty) hne
  | replace _ _ _ _ hsec | grant _ _ _ _ _ hsec | alone _ _ hsec => exact absurd hsec hne

/-- Who gets the lock while somebody waits in front of the secondary queue. -/
theorem FairInv.passed (h : FairInv x) (heff : Effect x y t) (hw : x.2.waiter = some w)
    (hpass : y.1.lock.owner ≠ x.1.lock.owner) :
    y.1.lock.owner = some w ∨ (∃ u ∈ x.1.lock.main, y.1.lock.owner = some u) ∧
      y.2.waiter = some w ∧ y.2.passes = x.2.passes + 1 := by
  cases heff with
  | quiet howner | draw _ howner | cut _ _ _ howner | replace _ _ howner =>
    exact absurd howner hpass
  | pass succ _ howner hmain _ _ hnote =>
    rw [hnote]
    exact Or.inr ⟨⟨succ, hmain, howner⟩, hw, rfl⟩
  | grant w' ho hhead _ howner =>
    -- both ways of granting go to the head of the secondary queue
    left
    rw [howner]
    rcases hhead with hhead | ⟨hempty, hcase⟩
    · have hne : x.1.lock.sec ≠ [] := fun hnil => by rw [hnil] at hhead; cases hhead
      rw [← hhead, ← h.head hne, hw]
    · rcases h.next w hw with hhead | ⟨o, ho', hcase'⟩
      · rw [hempty] at hhead
        cases hhead
      · obtain rfl := Option.some.inj (ho.symm.trans ho')
        rw [Pc.grantSec.inj (hcase.symm.trans hcase')]
  | alone hnone hempty =>
    rw [h.no_waiter hempty hnone] at hw
    cases hw

/-- Nothing else is counted. -/
theorem FairInv.waiting (h : FairInv x) (heff : Effect x y t) (hw : x.2.waiter = some w)
    (hsame : y.1.lock.owner = x.1.lock.owner) :
    y.2.waiter = some w ∧ y.2.passes = x.2.passes := by
  cases heff with
  | quiet _ _ _ hnote | draw _ _ _ _ hnote | replace _ _ _ _ _ _ hnote =>
    rw [hnote]
    exact ⟨hw, rfl⟩
  | cut head pre ho _ _ _ _ hnote hkeep =>
    -- the count does not start again while somebody waits
    have hne : x.1.lock.sec ≠ [] := by
      intro hempty
      rw [h.no_waiter hempty fun o ho' w' hcase => ?_] at hw
      · cases hw
      · obtain rfl := Option.some.inj (ho.symm.trans ho')
        rw [hcase] at hkeep
        cases hkeep
    rw [hnote, if_neg hne]
    exact ⟨hw, rfl⟩
  | pass succ ho howner _ _ _ _ _ hsucc hpc =>
    -- the successor is another thread
    obtain rfl := Option.some.inj (howner.symm.trans (hsame.trans ho))
    cases hsucc.symm.trans hpc
  | grant w' ho _ hne howner =>
    exact absurd (Option.some.inj (howner.symm.trans (hsame.trans ho))) hne
  | alone hnone hempty =>
    rw [h.no_waiter hempty hnone] at hw
    cases hw

/-- `CNALock` with its generator, from any seeds: while the secondary queue is not
empty, and until its head gets the lock, at most 65535 Releases for each thread pass
the lock on in the main queue. -/
theorem cna_bounded_bypass (seed : T → BitVec 32) (h : Reachable bypassStep (bypassInit seed) x) :
    (∀ o, Granted x.1.lock o → SecondaryQueue x.1.lock o x.1.lock.sec) ∧
    (x.1.lock.sec ≠ [] → x.2.waiter = x.1.lock.sec.head? ∧
      x.2.passes ≤ Fintype.card T * 65535) ∧
    (∀ w, x.2.waiter = some w → x.2.passes ≤ Fintype.card T * 65535) ∧
    (∀ a y, bypassStep x a = some y →
      (x.1.lock.sec = [] → y.1.lock.sec ≠ [] →
        y.2.waiter = y.1.lock.sec.head? ∧ y.2.passes = 0) ∧
      ∀ w, x.2.waiter = some w → if y.1.lock.owner = x.1.lock.owner then
          y.2.waiter = some w ∧ y.2.passes = x.2.passes
        else
          y.1.lock.owner = some w ∨ (∃ u ∈ x.1.lock.main, y.1.lock.owner = some u) ∧
            y.2.waiter = some w ∧ y.2.passes = x.2.passes + 1) := by
  have hI := reachable_inv (reachable_seeded h)
  have hF := reachable_fair h
  refine ⟨fun o ho => hI.secondaryQueue (hI.granted_iff.mp ho), fun hne => ?_, hF.bound,
    fun a y hs => ?_⟩
  · have hhead := hF.head hne
    refine ⟨hhead, hF.bound (x.1.lock.sec.head hne) ?_⟩
    rw [hhead, List.head?_eq_some_head hne]
  · -- what one more step does to the count
    obtain ⟨t, heff, -⟩ := effect_of_step hI hs
    refine ⟨heff.started, fun w hw => ?_⟩
    split
    · rename_i hsame
      exact hF.waiting heff hw hsame
    · rename_i hpass
      exact hF.passed heff hw hpass

def Action.input : Action T → Input T
  | .acquire t => .acquire t
  | .release t => .release t
  | .advance t numa _ => .advance t numa

/-- The first thread moves the second to the secondary queue and hands the lock to
the third. -/
def preferMain : List (Input (Fin 3)) := (moveTail.take 26).map Action.input

theorem cna_bounded_bypass_preferMain :
    ∃ x : Seeded (Fin 3) × Bypass (Fin 3),
      perform bypassStep (fun _ => True) (bypassInit fun _ => 0) preferMain = some x ∧
      x.2.waiter = some 1 ∧ x.2.passes = 1 ∧ x.2.passes ≤ Fintype.card (Fin 3) * 65535 := by
  obtain ⟨x, hx, hfacts⟩ := (Option.any_eq_true _ _).mp
    (show (perform bypassStep (fun _ => True) (bypassInit fun _ => 0) preferMain).any
      (fun x => decide (x.2.waiter = some 1 ∧ x.2.passes = 1)) = true by decide)
  obtain ⟨hw, hp⟩ := of_decide_eq_true hfacts
  have hreach := (ReachableWithin.start trivial).of_perform hx
  exact ⟨x, hx, hw, hp, (cna_bounded_bypass (fun _ => 0) hreach).2.2.1 1 hw⟩

end LockShield.Cna
