import LockShield.Table.Discipline
import LockShield.Table.Throwing
import LockShield.Uthash.Jenkins
import LockShield.Uthash.Map

/-!
# The shields over the vendored `uthash`

The hash-backed variants take any pointer map. Here they get the one they ship
with, the macros of `uthash.h`, next to a lawful map that runs in its shadow: a
shield uses the two alike, and because it keeps to the discipline of the hash
the macros answer as the map does.

What the results rest on:

* the shield's own `malloc` returns fresh blocks or null (`MallocFresh`);
* `uthash_malloc` may fail at any call, and does for requests of 64 GiB or more
  (`MemoryBelow`);
* the process has not ended: a macro that gets no memory exits.

## Results

* `Sound.shieldStep_projects`, `Sound.clibStep_projects` — a call is the same computation
  over either map.
* `shield_image`, `clib_image` — so are runs.
* `hybrid_over_uthash`, `invoke_over_uthash`, `clib_over_uthash` — nothing about a shield
  shows which of the two is behind it, and the links of the hash stay intact.
-/

namespace LockShield

open Lib Uthash

namespace Tls

variable {R : CountRep} {M M' Addr : Type} {π : M → M'} {s s' : Tls R M Addr} {l : Addr}
  {size : Nat} {malloc : Nat → List Nat → Option Nat}

/-- The same state with another hash. -/
def mapHash (π : M → M') (s : Tls R M Addr) : Tls R M' Addr where
  slots := s.slots
  lockHash := π s.lockHash
  mem := s.mem
  freelistHead := s.freelistHead
  freelistInitialized := s.freelistInitialized
  heap := s.heap
  mallocs := s.mallocs

@[simp] theorem mapHash_slots (π : M → M') (s : Tls R M Addr) : (s.mapHash π).slots = s.slots := rfl

@[simp] theorem mapHash_lockHash (π : M → M') (s : Tls R M Addr) :
    (s.mapHash π).lockHash = π s.lockHash := rfl

@[simp] theorem mapHash_mem (π : M → M') (s : Tls R M Addr) : (s.mapHash π).mem = s.mem := rfl

@[simp] theorem mapHash_freelistHead (π : M → M') (s : Tls R M Addr) :
    (s.mapHash π).freelistHead = s.freelistHead := rfl

@[simp] theorem mapHash_freelistInitialized (π : M → M') (s : Tls R M Addr) :
    (s.mapHash π).freelistInitialized = s.freelistInitialized := rfl

@[simp] theorem mapHash_heap (π : M → M') (s : Tls R M Addr) : (s.mapHash π).heap = s.heap := rfl

@[simp] theorem mapHash_mallocs (π : M → M') (s : Tls R M Addr) :
    (s.mapHash π).mallocs = s.mallocs := rfl

/-! ## The helpers -/

section Helpers

variable [Inhabited Addr]

/-- The pool is set up without a look at the hash. -/
theorem initFreelist_mapHash (size : Nat) (π : M → M') (s : Tls R M Addr) :
    initFreelist size (s.mapHash π) = (initFreelist size s).mapHash π := by
  unfold initFreelist
  by_cases h : s.freelistInitialized = true
  · rw [mapHash_freelistInitialized, if_pos h, if_pos h]
  · rw [mapHash_freelistInitialized, if_neg h, if_neg h]
    rfl

variable (size malloc) in
theorem freelistPop_projects (π : M → M') (s : Tls R M Addr) :
    Projects (mapHash π) s (freelistPop size malloc) (freelistPop size malloc) := by
  have hinit := initFreelist_mapHash size π s
  generalize ht : initFreelist size s = t at hinit
  cases hhead : t.freelistHead with
  -- a node of the pool
  | some p =>
    simp [Projects, freelistPop, hinit, ht, hhead]
    rfl
  | none =>
    -- the pool is empty, and `malloc` answers the same for both
    cases hm : malloc t.mallocs t.heap with
    | some a =>
      simp [Projects, freelistPop, hinit, ht, hhead, hm]
      rfl
    | none =>
      simp [Projects, freelistPop, hinit, ht, hhead, hm]
      rfl

/-- A node goes back to the pool, or is freed, without a look at the hash. -/
theorem freelistPush_projects (p : NodePtr) (π : M → M') (s : Tls R M Addr) :
    Projects (mapHash π) s (freelistPush p) (freelistPush p) := by
  by_cases hdyn : (s.mem p).dynamicallyAllocated = true
  · -- a node from `malloc` is freed
    cases p with
    | pool i => simp [Projects, freelistPush, hdyn]
    | heap a =>
      by_cases ha : a ∈ s.heap
      · simp [Projects, freelistPush, hdyn, ha]
        rfl
      · simp [Projects, freelistPush, hdyn, ha]
  · simp [Projects, freelistPush, hdyn]
    rfl

variable [PtrMap M Addr NodePtr] [PtrMap M' Addr NodePtr]

omit [Inhabited Addr] in
/-- The entry is filled in its node and added to the hash. -/
theorem fillEntry_projects (hπ : PtrMap.Hom π) (p : NodePtr) (l : Addr) (c : Int)
    (s : Tls R M Addr) : Projects (mapHash π) s (fillEntry p l c) (fillEntry p l c) := by
  simp only [Projects, fillEntry, EStateM.run_modify, mapState_ok]
  congr 1
  simp only [mapHash, hashAddPtr, write, hπ.add]

variable (size malloc) in
/-- The conversion only adds to the hash. -/
theorem convert_projects (hπ : PtrMap.Hom π) :
    ∀ (k i : Nat) (s : Tls R M Addr),
      Projects (mapHash π) s (convert size malloc i k) (convert size malloc i k) := by
  intro k
  induction k with
  | zero =>
    intro i s
    rfl
  | succ k ih =>
    intro i s
    refine (freelistPop_projects size malloc π s).bind fun r s₁ _ => ?_
    cases r with
    | none => rfl
    | some p =>
      -- the slots are the same, so the next lock is
      cases hread : s₁.slots.read i with
      | error e => simp [Projects, hread, access]
      | ok e =>
        have hrest : Projects (mapHash π) s₁
            (fillEntry p e.lockPtr (R.slotVal e.recCount) >>= fun _ =>
              convert size malloc (i + 1) k)
            (fillEntry p e.lockPtr (R.slotVal e.recCount) >>= fun _ =>
              convert size malloc (i + 1) k) :=
          (fillEntry_projects hπ _ _ _ s₁).bind fun _ s₂ _ => ih (i + 1) s₂
        simpa [Projects, hread] using hrest

omit [Inhabited Addr] in
/-- A lookup reads the hash. -/
theorem lookup_projects [DecidableEq Addr]
    (hfind : PtrMap.find (π s.lockHash) l = PtrMap.find s.lockHash l) :
    Projects (mapHash π) s (lookup l) (lookup l) := by
  by_cases hmode : s.slots.lockCount ≤ maxLocks
  · -- array mode: the hash is not read
    cases hr : s.slots.scan l 0 s.slots.lockCount <;>
      simp [Projects, lookup, hmode, hr, access]
  · simp [Projects, lookup, hmode, hfind]

/-- A new lock goes to a slot, or to a node after the conversion. -/
theorem insertNew_projects (hπ : PtrMap.Hom π) (l : Addr) (s : Tls R M Addr) :
    Projects (mapHash π) s (insertNew size malloc l) (insertNew size malloc l) := by
  by_cases hbelow : s.slots.lockCount < maxLocks
  · -- array mode
    cases hpush : s.slots.push l R.slotOne with
    | error e => simp [Projects, insertNew, hbelow, hpush, access]
    -- the new slot may be the last, which starts the conversion
    | ok b =>
      by_cases hfull : b.lockCount = maxLocks
      · have hinit : initFreelist size (⟨b, π s.lockHash, s.mem, s.freelistHead,
            s.freelistInitialized, s.heap, s.mallocs⟩ : Tls R M' Addr) =
            (initFreelist size { s with slots := b }).mapHash π :=
          initFreelist_mapHash size π { s with slots := b }
        have hconv := convert_projects size malloc hπ maxLocks 0
          (initFreelist size { s with slots := b })
        cases hrun : (convert size malloc 0 maxLocks).run
            (initFreelist size { s with slots := b }) with
        | error e s₁ =>
          rw [Projects, hrun] at hconv
          simp [Projects, insertNew, hbelow, hpush, hfull, hinit, hconv, hrun]
        | ok _ s₁ =>
          rw [Projects, hrun] at hconv
          simp [Projects, insertNew, hbelow, hpush, hfull, hinit, hconv, hrun]
          rfl
      · simp [Projects, insertNew, hbelow, hpush, hfull]
        rfl
  · -- hash mode
    have hpop := freelistPop_projects size malloc π s
    cases hrun : (freelistPop size malloc).run s with
    | error e s₁ =>
      rw [Projects, hrun] at hpop
      simp [Projects, insertNew, hbelow, hpop, hrun]
    | ok r s₁ =>
      rw [Projects, hrun] at hpop
      cases r with
      | none => simp [Projects, insertNew, hbelow, hpop, hrun]
      | some p =>
        have hfill := fillEntry_projects hπ p l 1 s₁
        rw [Projects] at hfill
        simp [Projects, insertNew, hbelow, hpop, hrun, hfill]

omit [Inhabited Addr] [PtrMap M Addr NodePtr] [PtrMap M' Addr NodePtr] in
/-- An entry is counted up where it is. -/
theorem incrementEntry_projects (e : EntryPtr) (π : M → M') (s : Tls R M Addr) :
    Projects (mapHash π) s (incrementEntry e) (incrementEntry e) := by
  cases e with
  | node p => rfl
  | slot i =>
    cases hread : s.slots.read i with
    | error e => simp [Projects, incrementEntry, hread, access]
    | ok e =>
      cases hset : s.slots.setCount i (R.slotInc e.recCount) with
      | error e' => simp [Projects, incrementEntry, hread, hset, access]
      | ok b =>
        simp [Projects, incrementEntry, hread, hset]
        rfl

/-- An entry is counted down where it is, and at zero its node leaves the hash. -/
theorem decrementEntry_projects (hπ : PtrMap.Hom π) (e : EntryPtr) (s : Tls R M Addr) :
    Projects (mapHash π) s (decrementEntry e) (decrementEntry e) := by
  by_cases hmode : s.slots.lockCount ≤ maxLocks
  · cases e with
    | node p => simp [Projects, decrementEntry, hmode]
    | slot i =>
      cases hread : s.slots.read i with
      | error e => simp [Projects, decrementEntry, hmode, hread, access]
      | ok e =>
        by_cases hval : 1 < R.slotVal e.recCount
        · cases hset : s.slots.setCount i (R.slotDec e.recCount) with
          | error e' => simp [Projects, decrementEntry, hmode, hread, hval, hset, access]
          | ok b =>
            simp [Projects, decrementEntry, hmode, hread, hval, hset]
            rfl
        · cases hrem : s.slots.swapRemove i with
          | error e' => simp [Projects, decrementEntry, hmode, hread, hval, hrem, access]
          | ok b =>
            simp [Projects, decrementEntry, hmode, hread, hval, hrem]
            rfl
  · cases e with
    | slot i => simp [Projects, decrementEntry, hmode]
    | node p =>
      by_cases hval : 1 < R.cellVal (s.mem p).recCount
      · simp [Projects, decrementEntry, hmode, hval]
        rfl
      · -- the last reference: the node leaves the hash and goes back
        have hdel : hashDel p (s.mapHash π) = (hashDel p s).mapHash π := by
          simp only [mapHash, hashDel, hπ.del]
        have hpush := freelistPush_projects p π (hashDel p s)
        cases hrun : (freelistPush p).run (hashDel p s) with
        | error e s₁ =>
          rw [Projects, hrun] at hpush
          simp [Projects, decrementEntry, hmode, hval, hdel, hpush, hrun]
        | ok _ s₁ =>
          rw [Projects, hrun] at hpush
          simp [Projects, decrementEntry, hmode, hval, hdel, hpush, hrun]

end Helpers

/-! ## Calls -/

section Calls

variable [Inhabited Addr] [DecidableEq Addr] [PtrMap M Addr NodePtr] [LawfulPtrMap M]
  [PtrMap M' Addr NodePtr] {L : R.Laws} {T : TableOps (Tls R M Addr) EntryPtr Addr}
  {T' : TableOps (Tls R M' Addr) EntryPtr Addr}

/-- The helpers of a call on lock `l`, for either hash. -/
theorem Sound.helpers_mapHash (hT : HashBacked T size malloc) (hT' : HashBacked T' size malloc)
    (hπ : PtrMap.Hom π) (hset : ∀ v, R.cellVal (R.cellSet v 1) = 1) (hlimit : 1 ≤ L.limit)
    (hsize : maxLocks ≤ size) (hfresh : MallocFresh malloc) (hs : Sound L size s)
    (hfind : PtrMap.find (π s.lockHash) l = PtrMap.find s.lockHash l) :
    ((T.lookup l).run s = .ok none s ∧
      (T'.lookup l).run (s.mapHash π) = .ok none (s.mapHash π) ∧
      ∃ s', (T.incrementRef l none).run s = .ok () s' ∧
        (T'.incrementRef l none).run (s.mapHash π) = .ok () (s'.mapHash π)) ∨
    ∃ e, (T.lookup l).run s = .ok (some e) s ∧
      (T'.lookup l).run (s.mapHash π) = .ok (some e) (s.mapHash π) ∧
      (∃ s', (T.incrementRef l (some e)).run s = .ok () s' ∧
        (T'.incrementRef l (some e)).run (s.mapHash π) = .ok () (s'.mapHash π)) ∧
      ∃ v s', (T.decrementRef l (some e)).run s = .ok v s' ∧
        (T'.decrementRef l (some e)).run (s.mapHash π) = .ok v (s'.mapHash π) := by
  have hlook := lookup_projects (s := s) hfind
  rw [← hT.lookup, ← hT'.lookup] at hlook
  rcases hs.helpers hT hset hlimit hsize hfresh l with
    ⟨hl, s', hi⟩ | ⟨e, hl, ⟨s', hi⟩, v, s'', hd⟩
  · -- the lock is not tracked
    have hl' := hlook.ok hl
    refine Or.inl ⟨hl, hl', s', hi, ?_⟩
    rw [hT.lookup] at hl
    rw [hT'.lookup] at hl'
    rw [hT.insert l s hl] at hi
    rw [hT'.insert l _ hl']
    exact (insertNew_projects hπ l s).ok hi
  · -- the lock is tracked, at the same entry
    refine Or.inr ⟨e, hl, hlook.ok hl, ⟨s', hi, ?_⟩, v, s'', hd, ?_⟩
    · rw [hT.increment] at hi
      rw [hT'.increment]
      exact (incrementEntry_projects e π s).ok hi
    · rw [hT.decrement] at hd
      rw [hT'.decrement]
      exact (decrementEntry_projects hπ e s).ok hd

/-- A call of the C++ shield does the same over either hash. -/
theorem Sound.shieldStep_projects (hT : HashBacked T size malloc)
    (hT' : HashBacked T' size malloc) (hπ : PtrMap.Hom π)
    (hset : ∀ v, R.cellVal (R.cellSet v 1) = 1) (hlimit : 1 ≤ L.limit) (hsize : maxLocks ≤ size)
    (hfresh : MallocFresh malloc) (hs : Sound L size s) (c : Call Addr)
    (hfind : PtrMap.find (π s.lockHash) c.lock = PtrMap.find s.lockHash c.lock) :
    Projects (mapHash π) s (shieldStep T c) (shieldStep T' c) := by
  rcases hs.helpers_mapHash hT hT' hπ hset hlimit hsize hfresh hfind with
    ⟨hl, hl', s', hi, hi'⟩ | ⟨e, hl, hl', ⟨s', hi, hi'⟩, v, s'', hd, hd'⟩
  · cases c with
    | acquire l r => exact .of_ok (shieldStep_acquire_new hl hi) (shieldStep_acquire_new hl' hi')
    | release l r => exact .of_error (shieldStep_release_panic hl) (shieldStep_release_panic hl')
  · cases c with
    | acquire l r =>
      cases r with
      | true => exact .of_ok (shieldStep_acquire_skip hl hi) (shieldStep_acquire_skip hl' hi')
      | false => exact .of_error (shieldStep_acquire_panic hl) (shieldStep_acquire_panic hl')
    | release l r => exact .of_ok (shieldStep_release hl hd) (shieldStep_release hl' hd')

/-- A call of the C shield does the same over either hash. -/
theorem Sound.clibStep_projects {Me : Type} (hT : HashBacked T size malloc)
    (hT' : HashBacked T' size malloc) (hπ : PtrMap.Hom π)
    (hset : ∀ v, R.cellVal (R.cellSet v 1) = 1) (hlimit : 1 ≤ L.limit) (hsize : maxLocks ≤ size)
    (hfresh : MallocFresh malloc) (hs : Sound L size s) (c : Clib.Call Addr Me)
    (hfind : PtrMap.find (π s.lockHash) c.lock = PtrMap.find s.lockHash c.lock) :
    Projects (mapHash π) s (Clib.shieldStep T c) (Clib.shieldStep T' c) := by
  rcases hs.helpers_mapHash hT hT' hπ hset hlimit hsize hfresh hfind with
    ⟨hl, hl', s', hi, hi'⟩ | ⟨e, hl, hl', ⟨s', hi, hi'⟩, v, s'', hd, hd'⟩
  · -- neither table has an entry
    cases hc : c.plain with
    | acquire l r =>
      obtain rfl : c.lock = l := by rw [Clib.Call.lock, hc]; rfl
      exact .of_ok (Clib.shieldStep_acquire_new hc hl hi)
        (Clib.shieldStep_acquire_new hc hl' hi')
    | release l r =>
      obtain rfl : c.lock = l := by rw [Clib.Call.lock, hc]; rfl
      exact .of_ok (Clib.shieldStep_release_unbalanced hc hl)
        (Clib.shieldStep_release_unbalanced hc hl')
  · -- both tables have the entry `e`, and count alike
    cases hc : c.plain with
    | acquire l r =>
      obtain rfl : c.lock = l := by rw [Clib.Call.lock, hc]; rfl
      cases r with
      | true =>
        exact .of_ok (Clib.shieldStep_acquire_skip hc hl hi)
          (Clib.shieldStep_acquire_skip hc hl' hi')
      | false =>
        exact .of_ok (Clib.shieldStep_acquire_unbalanced hc hl)
          (Clib.shieldStep_acquire_unbalanced hc hl')
    | release l r =>
      obtain rfl : c.lock = l := by rw [Clib.Call.lock, hc]; rfl
      cases r with
      | false =>
        exact .of_ok (Clib.shieldStep_release_plain hc hl hd)
          (Clib.shieldStep_release_plain hc hl' hd')
      | true =>
        by_cases hv : v = 0
        · subst hv
          exact .of_ok (Clib.shieldStep_release_now hc hl hd)
            (Clib.shieldStep_release_now hc hl' hd')
        · exact .of_ok (Clib.shieldStep_release_skip hc hl hd hv)
            (Clib.shieldStep_release_skip hc hl' hd' hv)

end Calls

/-! ## Runs -/

section Runs

variable [Inhabited Addr] [DecidableEq Addr] [PtrMap M Addr NodePtr] [PtrMap M' Addr NodePtr]
  {L : R.Laws} {ι ρ ε : Type}

/-- One state is the other with the image of its hash, and the other is sound. -/
structure Image (π : M → M') (L : R.Laws) (size : Nat) (s : Tls R M' Addr) (t : Tls R M Addr) :
    Prop where
  image : s = t.mapHash π
  sound : Sound L size t
  disciplined : Disciplined t.lockHash

/-- The image of the hash answers as the hash does. -/
def Faithful (π : M → M') (t : Tls R M Addr) : Prop :=
  ∀ k, PtrMap.find (π t.lockHash) k = PtrMap.find t.lockHash k

omit [Inhabited Addr] in
/-- A component that keeps the table sound does the same over the image of its
hash. -/
theorem simulation_image {step : ι → EStateM ε (Tls R M Addr) ρ}
    {step' : ι → EStateM ε (Tls R M' Addr) ρ}
    (hproj : ∀ t c, Sound L size t → Faithful π t → Projects (mapHash π) t (step c) (step' c))
    (hok : ∀ t c r t', Sound L size t → Disciplined t.lockHash → (step c).run t = .ok r t' →
      Sound L size t' ∧ Disciplined t'.lockHash)
    (herror : ∀ t c e t', Sound L size t → (step c).run t = .error e t' → t' = t) :
    Simulation step' step (Image π L size) fun t _ => Faithful π t := by
  constructor
  · rintro s t c r t' ⟨rfl, hs, hd⟩ hG hrun
    obtain ⟨hs', hd'⟩ := hok t c r t' hs hd hrun
    exact ⟨t'.mapHash π, (hproj t c hs hG).ok hrun, rfl, hs', hd'⟩
  · rintro s t c e t' ⟨rfl, hs, hd⟩ hG hrun
    have hproj' := hproj t c hs hG
    rw [Projects, hrun] at hproj'
    obtain rfl := herror t c e t' hs hrun
    exact ⟨t'.mapHash π, hproj', rfl, hs, hd⟩

variable {T : TableOps (Tls R M Addr) EntryPtr Addr} {T' : TableOps (Tls R M' Addr) EntryPtr Addr}

/-- A call of the C++ shield over the image of a hash does what it does over the hash, while the
image answers as the hash does. -/
theorem shield_image [LawfulPtrMap M] (hT : HashBacked T size malloc)
    (hT' : HashBacked T' size malloc) (hπ : PtrMap.Hom π)
    (hset : ∀ v, R.cellVal (R.cellSet v 1) = 1) (hlimit : 1 ≤ L.limit) (hsize : maxLocks ≤ size)
    (hfresh : MallocFresh malloc) :
    Simulation (shieldStep T') (shieldStep T) (Image π L size) fun t _ => Faithful π t := by
  refine simulation_image (fun t c hs hf => ?_) (fun t c r t' hs hd hrun => ?_)
    fun t c e t' hs hrun => ?_
  · -- the call does the same over either hash
    exact hs.shieldStep_projects hT hT' hπ hset hlimit hsize hfresh c (hf _)
  · -- it keeps the table sound and the discipline
    rcases hs.serve hT hset hlimit hsize hfresh c with ⟨rep, s', hrun', h⟩ | ⟨e, he⟩
    · obtain ⟨-, rfl⟩ := fst_of_ok (hrun.symm.trans hrun')
      exact ⟨(sound_of_served hT hset hlimit hsize hfresh hs h).1,
        disciplined_of_served hT hsize hfresh hs hd h⟩
    · rw [hrun] at he
      cases he
  · -- a panic leaves the state alone
    rcases hs.serve hT hset hlimit hsize hfresh c with ⟨rep, s', hrun', -⟩ | ⟨e', he⟩
    · rw [hrun] at hrun'
      cases hrun'
    · rw [hrun] at he
      injection he

/-- The same for the C shield. -/
theorem clib_image {Me : Type} [LawfulPtrMap M] (hT : HashBacked T size malloc)
    (hT' : HashBacked T' size malloc) (hπ : PtrMap.Hom π)
    (hset : ∀ v, R.cellVal (R.cellSet v 1) = 1) (hlimit : 1 ≤ L.limit) (hsize : maxLocks ≤ size)
    (hfresh : MallocFresh malloc) :
    Simulation (fun c : Clib.Call Addr Me => Clib.shieldStep T' c) (Clib.shieldStep T)
      (Image π L size) fun t _ => Faithful π t := by
  refine simulation_image (fun t c hs hf => ?_) (fun t c r t' hs hd hrun => ?_)
    fun t c e t' hs hrun => ?_
  · exact hs.clibStep_projects hT hT' hπ hset hlimit hsize hfresh c (hf _)
  · obtain ⟨rep, s', hrun', h⟩ := hs.serveClib hT hset hlimit hsize hfresh c
    obtain ⟨-, rfl⟩ := fst_of_ok (hrun.symm.trans hrun')
    exact ⟨(sound_of_served hT hset hlimit hsize hfresh hs h).1,
      disciplined_of_served hT hsize hfresh hs hd h⟩
  · obtain ⟨rep, s', hrun', -⟩ := hs.serveClib hT hset hlimit hsize hfresh c
    rw [hrun] at hrun'
    cases hrun'

/-- A state over `uthash` and one over another map, seen by everyone but the hash
itself; and the links of the hash are intact. -/
structure Agree {hash : Addr → Nat} {um : Nat → Nat → Bool}
    (s : Tls R (UtHash Addr NodePtr hash um) Addr) (t : Tls R M Addr) : Prop where
  /-- the same slots, nodes, free list and blocks -/
  rest : s.mapHash (fun _ => ()) = t.mapHash fun _ => ()
  found : s.found = t.found
  intact : ∃ u, s.lockHash.out = .ok u ∧ hashFsck u = true ∧
    ∀ k, ∃ r, hashFindPtr hash k u = .ok r

/-- A component over `uthash`, and over the map in its shadow. -/
theorem agree_run {hash : Addr → Nat} {um : Nat → Nat → Bool} (hmem : MemoryBelow um)
    {stepU : ι → EStateM ε (Tls R (UtHash Addr NodePtr hash um) Addr) ρ}
    {stepS : ι → EStateM ε (Tls R (Shadowed (UtHash Addr NodePtr hash um) M) Addr) ρ}
    {stepM : ι → EStateM ε (Tls R M Addr) ρ} [LawfulPtrMap M]
    (hU : Simulation stepU stepS (Image Shadowed.impl L size) fun t _ =>
      Faithful Shadowed.impl t)
    (hM : Simulation stepM stepS (Image Shadowed.spec L size) fun t _ =>
      Faithful Shadowed.spec t)
    {t : Tls R (Shadowed (UtHash Addr NodePtr hash um) M) Addr} (hs : Sound L size t)
    (hd : Disciplined t.lockHash) (cs : List ι)
    (hlive : ∀ pre, pre <+: cs →
      ¬ Exited (Lib.run stepU (t.mapHash Shadowed.impl) pre).final.lockHash) :
    (Lib.run stepU (t.mapHash Shadowed.impl) cs).replies =
        (Lib.run stepM (t.mapHash Shadowed.spec) cs).replies ∧
      (Lib.run stepU (t.mapHash Shadowed.impl) cs).stop =
        (Lib.run stepM (t.mapHash Shadowed.spec) cs).stop ∧
      ∀ pre, pre <+: cs → Agree (Lib.run stepU (t.mapHash Shadowed.impl) pre).final
        (Lib.run stepM (t.mapHash Shadowed.spec) pre).final := by
  -- either run goes as the run over the pair of hashes does
  have himpl := fun pre (hpre : pre <+: cs) =>
    hU.run_live (p := fun s => ¬ Exited s.lockHash) (fun s t c hR hl k => by
      rw [hR.image] at hl
      exact (represents_of_disciplined hmem hR.disciplined).find hl k) pre _ t ⟨rfl, hs, hd⟩
      fun pre' hpre' => hlive pre' (hpre'.trans hpre)
  have hspec := fun pre =>
    hM.run_live (p := fun _ => True) (fun s t c hR _ k => rfl) pre _ t ⟨rfl, hs, hd⟩
      fun _ _ => trivial
  obtain ⟨hreplies, hstop, -⟩ := himpl cs (List.prefix_refl cs)
  obtain ⟨hreplies', hstop', -⟩ := hspec cs
  refine ⟨hreplies.trans hreplies'.symm, hstop.trans hstop'.symm, fun pre hpre => ?_⟩
  obtain ⟨-, -, hu⟩ := himpl pre hpre
  obtain ⟨-, -, hm⟩ := hspec pre
  have hl := hlive pre hpre
  rw [hu.image] at hl ⊢
  rw [hm.image]
  have hrep := represents_of_disciplined hmem hu.disciplined
  exact ⟨rfl, funext fun k => hrep.find hl k, hrep.sound hl⟩

end Runs

end Tls

/-! ## The variants -/

section Variants

variable {M Addr : Type} [Inhabited Addr] [DecidableEq Addr] [PtrMap M Addr NodePtr]
  [LawfulPtrMap M] {hash : Addr → Nat} {um : Nat → Nat → Bool}
  {malloc : Nat → List Nat → Option Nat}

/-- `LS_HYBRID` over the macros of `uthash.h`, with any hash function: it answers
as over any other pointer map, and the hash stays intact. Until a macro ends the process
for want of memory, the two thread-local states differ in nothing but the hash, which
passes its integrity check and finds what the map holds. -/
theorem Hybrid.hybrid_over_uthash (hmem : MemoryBelow um) (hfresh : MallocFresh malloc)
    (cs : List (Call Addr))
    (hlive : ∀ pre, pre <+: cs → ¬ Exited (run (shieldStep (Hybrid.ops malloc))
      (Hybrid.init : Hybrid.Tls (UtHash Addr NodePtr hash um) Addr) pre).final.lockHash) :
    (run (shieldStep (Hybrid.ops malloc))
        (Hybrid.init : Hybrid.Tls (UtHash Addr NodePtr hash um) Addr) cs).replies =
      (run (shieldStep (Hybrid.ops malloc)) (Hybrid.init : Hybrid.Tls M Addr) cs).replies ∧
    (run (shieldStep (Hybrid.ops malloc))
        (Hybrid.init : Hybrid.Tls (UtHash Addr NodePtr hash um) Addr) cs).stop =
      (run (shieldStep (Hybrid.ops malloc)) (Hybrid.init : Hybrid.Tls M Addr) cs).stop ∧
    ∀ pre, pre <+: cs → Tls.Agree
      (run (shieldStep (Hybrid.ops malloc))
        (Hybrid.init : Hybrid.Tls (UtHash Addr NodePtr hash um) Addr) pre).final
      (run (shieldStep (Hybrid.ops malloc)) (Hybrid.init : Hybrid.Tls M Addr) pre).final :=
  Tls.agree_run (L := Hybrid.laws) hmem
    (Tls.shield_image Hybrid.hashBacked Hybrid.hashBacked Shadowed.impl_hom Hybrid.cellSet_one
      Hybrid.laws_one Hybrid.maxLocks_le hfresh)
    (Tls.shield_image Hybrid.hashBacked Hybrid.hashBacked Shadowed.spec_hom Hybrid.cellSet_one
      Hybrid.laws_one Hybrid.maxLocks_le hfresh)
    (t := Hybrid.init) Hybrid.sound_init .empty cs hlive

/-- The `HASH_FUNCTION` of `shielding_hash.h`, on the address of a lock. -/
def Hybrid.hashFunction (k : Nat) : Nat := uint32 (k >>> 4) ^^^ uint32 k

theorem Hybrid.hybrid_over_uthash_elevenLocks :
    Tls.Agree
      (run (shieldStep (Hybrid.ops bumpMalloc))
        (Hybrid.init : Hybrid.Tls (UtHash Nat NodePtr Hybrid.hashFunction smallMemory) Nat)
        Hybrid.elevenLocks).final
      (run (shieldStep (Hybrid.ops bumpMalloc)) (Hybrid.init : Hybrid.Tls (FunMap Nat NodePtr) Nat)
        Hybrid.elevenLocks).final := by
  have hlive : ∀ pre ∈ Hybrid.elevenLocks.inits, ¬ Exited (run (shieldStep (Hybrid.ops bumpMalloc))
      (Hybrid.init : Hybrid.Tls (UtHash Nat NodePtr Hybrid.hashFunction smallMemory) Nat)
      pre).final.lockHash := by decide +kernel
  exact (Hybrid.hybrid_over_uthash smallMemory_below bumpMalloc_fresh Hybrid.elevenLocks
    fun pre hpre => hlive pre ((List.mem_inits _ _).mpr hpre)).2.2 _ (List.prefix_refl _)

/-- `LS_INVOKE` over the macros, with the same guarantees. Its entries are written through
two structures, which the hash does not look at: it is keyed by the lock alone. -/
theorem Invoke.invoke_over_uthash (hmem : MemoryBelow um) (hfresh : MallocFresh malloc)
    (cs : List (Call Addr))
    (hlive : ∀ pre, pre <+: cs → ¬ Exited (run (shieldStep (Invoke.ops malloc))
      (Invoke.init : Invoke.Tls (UtHash Addr NodePtr hash um) Addr) pre).final.lockHash) :
    (run (shieldStep (Invoke.ops malloc))
        (Invoke.init : Invoke.Tls (UtHash Addr NodePtr hash um) Addr) cs).replies =
      (run (shieldStep (Invoke.ops malloc)) (Invoke.init : Invoke.Tls M Addr) cs).replies ∧
    (run (shieldStep (Invoke.ops malloc))
        (Invoke.init : Invoke.Tls (UtHash Addr NodePtr hash um) Addr) cs).stop =
      (run (shieldStep (Invoke.ops malloc)) (Invoke.init : Invoke.Tls M Addr) cs).stop ∧
    ∀ pre, pre <+: cs → Tls.Agree
      (run (shieldStep (Invoke.ops malloc))
        (Invoke.init : Invoke.Tls (UtHash Addr NodePtr hash um) Addr) pre).final
      (run (shieldStep (Invoke.ops malloc)) (Invoke.init : Invoke.Tls M Addr) pre).final :=
  Tls.agree_run (L := Invoke.laws) hmem
    (Tls.shield_image Invoke.hashBacked Invoke.hashBacked Shadowed.impl_hom Invoke.cellSet_one
      Invoke.one_le_limit Invoke.maxLocks_le hfresh)
    (Tls.shield_image Invoke.hashBacked Invoke.hashBacked Shadowed.spec_hom Invoke.cellSet_one
      Invoke.one_le_limit Invoke.maxLocks_le hfresh)
    (t := Invoke.init) (Tls.sound_of_untouched rfl rfl rfl rfl) .empty cs hlive

/-- The default `HASH_VALUE` of the address of a lock, whose eight bytes can be read. -/
def pointerHash (k : Nat) : Nat := (hashJen (toBytes 8 k) 8).elim 0 fun r => r.hashv.toNat

theorem Invoke.invoke_over_uthash_reissued :
    Tls.Agree
      (run (shieldStep (Invoke.ops bumpMalloc))
        (Invoke.init : Invoke.Tls (UtHash Nat NodePtr pointerHash smallMemory) Nat)
        Invoke.reissued).final
      (run (shieldStep (Invoke.ops bumpMalloc)) (Invoke.init : Invoke.Tls (FunMap Nat NodePtr) Nat)
        Invoke.reissued).final := by
  have hlive : ∀ pre ∈ Invoke.reissued.inits, ¬ Exited (run (shieldStep (Invoke.ops bumpMalloc))
      (Invoke.init : Invoke.Tls (UtHash Nat NodePtr pointerHash smallMemory) Nat)
      pre).final.lockHash := by decide +kernel
  exact (Invoke.invoke_over_uthash smallMemory_below bumpMalloc_fresh Invoke.reissued
    fun pre hpre => hlive pre ((List.mem_inits _ _).mpr hpre)).2.2 _ (List.prefix_refl _)

/-- The C hash shield over the macros: misuse included, every call is answered as
over any other pointer map, and the hash stays intact. Here no run stops, so the only end
there is would be that of the process. -/
theorem ClibHash.clib_over_uthash {Me : Type} (hmem : MemoryBelow um)
    (hfresh : MallocFresh malloc) (cs : List (Clib.Call Addr Me))
    (hlive : ∀ pre, pre <+: cs → ¬ Exited (run (Clib.shieldStep (ClibHash.ops malloc))
      (ClibHash.init : Hybrid.Tls (UtHash Addr NodePtr hash um) Addr) pre).final.lockHash) :
    (run (Clib.shieldStep (ClibHash.ops malloc))
        (ClibHash.init : Hybrid.Tls (UtHash Addr NodePtr hash um) Addr) cs).replies =
      (run (Clib.shieldStep (ClibHash.ops malloc))
        (ClibHash.init : Hybrid.Tls M Addr) cs).replies ∧
    (run (Clib.shieldStep (ClibHash.ops malloc))
        (ClibHash.init : Hybrid.Tls (UtHash Addr NodePtr hash um) Addr) cs).stop = none ∧
    ∀ pre, pre <+: cs → Tls.Agree
      (run (Clib.shieldStep (ClibHash.ops malloc))
        (ClibHash.init : Hybrid.Tls (UtHash Addr NodePtr hash um) Addr) pre).final
      (run (Clib.shieldStep (ClibHash.ops malloc))
        (ClibHash.init : Hybrid.Tls M Addr) pre).final := by
  have hrun := Tls.agree_run (L := Hybrid.laws) hmem
    (Tls.clib_image ClibHash.hashBacked ClibHash.hashBacked Shadowed.impl_hom
      Hybrid.cellSet_one ClibHash.one_le_limit ClibHash.maxLocks_le hfresh)
    (Tls.clib_image ClibHash.hashBacked ClibHash.hashBacked (Shadowed.spec_hom (S := M))
      Hybrid.cellSet_one ClibHash.one_le_limit ClibHash.maxLocks_le hfresh)
    (t := ClibHash.init) (Tls.sound_of_untouched rfl rfl rfl rfl) .empty cs hlive
  -- no misuse stops a run
  have hstop : (run (Clib.shieldStep (ClibHash.ops malloc))
      (ClibHash.init : Hybrid.Tls M Addr) cs).stop = none :=
    (Tls.Sound.runClib (L := Hybrid.laws) ClibHash.hashBacked Hybrid.cellSet_one
      ClibHash.one_le_limit ClibHash.maxLocks_le hfresh (Tls.sound_of_untouched rfl rfl rfl rfl)
      .empty cs).1
  exact ⟨hrun.1, hrun.2.1.trans hstop, hrun.2.2⟩

theorem ClibHash.clib_over_uthash_misused :
    Tls.Agree
      (run (Clib.shieldStep (ClibHash.ops bumpMalloc))
        (ClibHash.init : Hybrid.Tls (UtHash Nat NodePtr pointerHash smallMemory) Nat)
        ClibHash.misused).final
      (run (Clib.shieldStep (ClibHash.ops bumpMalloc))
        (ClibHash.init : Hybrid.Tls (FunMap Nat NodePtr) Nat) ClibHash.misused).final := by
  have hlive : ∀ pre ∈ ClibHash.misused.inits, ¬ Exited
      (run (Clib.shieldStep (ClibHash.ops bumpMalloc))
        (ClibHash.init : Hybrid.Tls (UtHash Nat NodePtr pointerHash smallMemory) Nat)
        pre).final.lockHash := by decide +kernel
  exact (ClibHash.clib_over_uthash smallMemory_below bumpMalloc_fresh ClibHash.misused
    fun pre hpre => hlive pre ((List.mem_inits _ _).mpr hpre)).2.2 _ (List.prefix_refl _)

end Variants

end LockShield
