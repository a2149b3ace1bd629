import LockShield.Table.Shape

/-!
# What a call leaves alone

A helper of a hash-backed table works for one lock. It takes at most one node
from the pool or from `malloc`, or gives at most one back (`Moved`), and the
entries of the other locks keep their counts (`Keeps`). The one exception is the call
that fills the array: it sets the pool up and moves every lock into the hash.

As in the module before, nothing is assumed of the counts, and `malloc` may fail.

## Results

* `convert_frame`          — the conversion loop, slot by slot.
* `Shaped.insert`          — recording a lock, in any mode.
* `Shaped.increment`, `Shaped.decrement_lower`, `Shaped.decrement_remove` — counting.
* `Sound.step`             — so a call keeps the table sound and moves at most its own
  lock's node, or panics and leaves everything as it is.
* `Sound.run`              — every run leaves the table sound, and only a panic ends one.
-/

namespace LockShield.Tls

open Lib

variable {R : CountRep} {M Addr : Type} [Inhabited Addr]

section Shapes

variable {s s' s₁ t u : Tls R M Addr} {p : NodePtr} {l : Addr} {c : Int} {size : Nat}
  {malloc : Nat → List Nat → Option Nat}

omit [Inhabited Addr] in
theorem SameShape.trans (h : SameShape s t) (h' : SameShape t u) : SameShape s u where
  lockCount := h.lockCount.trans h'.lockCount
  slotPtr i := (h.slotPtr i).trans (h'.slotPtr i)
  lockHash := h.lockHash.trans h'.lockHash
  node p := ⟨(h.node p).lockPtr.trans (h'.node p).lockPtr, (h.node p).next.trans (h'.node p).next,
    (h.node p).dynamic.trans (h'.node p).dynamic⟩
  freelistHead := h.freelistHead.trans h'.freelistHead
  initialized := h.initialized.trans h'.initialized
  heap := h.heap.trans h'.heap
  mallocs := h.mallocs.trans h'.mallocs

/-- What a push leaves alone. -/
theorem freelistPush_frame (h : (freelistPush p).run s = .ok () s') :
    s'.slots = s.slots ∧ s'.lockHash = s.lockHash ∧
      s'.freelistInitialized = s.freelistInitialized ∧ (∀ q, q ≠ p → s'.mem q = s.mem q) ∧
      (((s.mem p).dynamicallyAllocated = false ∧ s'.heap = s.heap) ∨
        ∃ a, p = .heap a ∧ a ∈ s.heap ∧ s'.heap = s.heap.erase a) := by
  by_cases hdyn : (s.mem p).dynamicallyAllocated = true
  · -- a block is freed
    cases p with
    | pool i => simp [freelistPush, hdyn] at h
    | heap a =>
      by_cases ha : a ∈ s.heap
      · simp [freelistPush, hdyn, ha] at h
        subst h
        exact ⟨rfl, rfl, rfl, fun _ _ => rfl, Or.inr ⟨a, rfl, ha, rfl⟩⟩
      · simp [freelistPush, hdyn, ha] at h
  · -- a pool node goes to the head of the list
    simp [freelistPush, hdyn] at h
    subst h
    refine ⟨rfl, rfl, rfl, fun q hq => ?_, Or.inl ⟨Bool.not_eq_true _ ▸ hdyn, rfl⟩⟩
    simp [write, hq]

variable [PtrMap M Addr NodePtr]

/-- What a pop takes, and what it leaves alone. -/
theorem freelistPop_takes {L : R.Laws} {fl : List NodePtr} (hfresh : MallocFresh malloc)
    (h : SameShape s t) (hp : t.Pooled L size fl none)
    (hpop : (freelistPop size malloc).run s = .ok (some p) s₁) :
    s₁.slots = s.slots ∧ s₁.lockHash = s.lockHash ∧ s₁.freelistInitialized = true ∧
      (∀ q, q ≠ p → s₁.mem q = s.mem q) ∧ (∀ k, s.found k ≠ some p) ∧
      (((∃ i, p = .pool i) ∧ s₁.heap = s.heap) ∨
        (fl = [] ∧ ∃ a, p = .heap a ∧ a ∉ s.heap ∧ s₁.heap = a :: s.heap)) := by
  -- in hash mode the pool is set up already
  have hinit : s.freelistInitialized = true := h.initialized.trans hp.initialized
  have hsetup : initFreelist size s = s := by simp [initFreelist, hinit]
  have hfound : s.found = t.found := funext fun k => by rw [found, h.lockHash]; rfl
  have hlinked := hp.linked
  cases fl with
  | nil =>
    -- the pool is empty: a block that is not live, so no entry is at it
    have hhead : s.freelistHead = none := h.freelistHead.trans hlinked
    cases hm : malloc s.mallocs s.heap with
    | none => simp [freelistPop, hsetup, hhead, hm] at hpop
    | some a =>
      simp [freelistPop, hsetup, hhead, hm] at hpop
      obtain ⟨rfl, rfl⟩ := hpop
      have hnew : a ∉ s.heap := hfresh _ _ _ hm
      refine ⟨rfl, rfl, hinit, fun q hq => by simp [write, hq], fun k hk => ?_,
        Or.inr ⟨rfl, a, rfl, hnew, rfl⟩⟩
      rw [hfound] at hk
      exact hnew (h.heap ▸ (hp.origin k _ hk).1)
  | cons q rest =>
    -- the head of the free list, which is not an entry
    have hhead : s.freelistHead = some q := h.freelistHead.trans hlinked.1
    simp [freelistPop, hsetup, hhead] at hpop
    obtain ⟨rfl, rfl⟩ := hpop
    obtain ⟨⟨i, -, hi⟩, -⟩ := hp.free q (List.mem_cons_self ..)
    refine ⟨rfl, rfl, hinit, fun q' hq => by simp [write, hq], fun k hk => ?_,
      Or.inl ⟨⟨i, hi⟩, rfl⟩⟩
    rw [hfound] at hk
    exact hp.apart k q hk (List.mem_cons_self ..)

omit [Inhabited Addr] in
/-- Filling a node that is not an entry yet adds it under its lock. -/
theorem fillEntry_adds [DecidableEq Addr] [LawfulPtrMap M] (hl : s.found l = none)
    (hp : ∀ k, s.found k ≠ some p) (hfill : (fillEntry p l c).run s = .ok () s') :
    s'.found = Function.update s.found l (some p) ∧ s'.slots = s.slots ∧ s'.heap = s.heap ∧
      s'.freelistInitialized = s.freelistInitialized ∧ (∀ q, q ≠ p → s'.mem q = s.mem q) ∧
      ∃ v, (s'.mem p).recCount = R.cellSet v c := by
  obtain ⟨-, rfl⟩ := fst_of_ok hfill
  refine ⟨?_, rfl, rfl, rfl, fun q hq => by simp [hashAddPtr, write, hq], _,
    by simp [hashAddPtr, write]; rfl⟩
  -- `HASH_ADD_PTR` of a node that is under no lock
  funext k
  rw [Function.update_apply]
  have hadd := LawfulPtrMap.find_add s.lockHash l p hl hp k
  simpa [found, hashAddPtr, write] using hadd

end Shapes

/-! ## One lock's step -/

variable [DecidableEq Addr] [PtrMap M Addr NodePtr]

/-- What a step for lock `l` did with the nodes. -/
inductive Moved (l : Addr) (s s' : Tls R M Addr) : Prop
  /-- no node moved -/
  | kept (found : s'.found = s.found) (heap : s'.heap = s.heap)
      (initialized : s'.freelistInitialized = s.freelistInitialized)
  /-- the lock got a node: a pool node, or a block that was not live -/
  | took (p : NodePtr) (initialized : s.freelistInitialized = true)
      (initialized' : s'.freelistInitialized = true) (untracked : s.found l = none)
      (found : s'.found = Function.update s.found l (some p))
      (source : ((∃ i, p = .pool i) ∧ s'.heap = s.heap) ∨
        ∃ a, p = .heap a ∧ a ∉ s.heap ∧ s'.heap = a :: s.heap)
  /-- the lock's node went back to where it came from -/
  | gave (p : NodePtr) (initialized : s.freelistInitialized = true)
      (initialized' : s'.freelistInitialized = true) (tracked : s.found l = some p)
      (found : s'.found = Function.update s.found l none)
      (source : ((∃ i, p = .pool i) ∧ s'.heap = s.heap) ∨
        ∃ a, p = .heap a ∧ a ∈ s.heap ∧ s'.heap = s.heap.erase a)
  /-- the pool was set up, and the array moved into it -/
  | converted (initialized : s.freelistInitialized = false)
      (initialized' : s'.freelistInitialized = true) (empty : ∀ k, s.found k = none)
      (noHeap : s.heap = []) (noHeap' : s'.heap = [])

/-- The other locks keep their counts, if assigning them to a node keeps them. -/
def Keeps (l : Addr) (s s' : Tls R M Addr) : Prop :=
  ∀ k, k ≠ l → ∀ c, (∀ v, R.cellVal (R.cellSet v c) = c) → s.Tracks k c → s'.Tracks k c

variable {s s' t t' : Tls R M Addr} {L : R.Laws} {size : Nat}
  {malloc : Nat → List Nat → Option Nat} {l k : Addr} {e : EntryPtr} {p : NodePtr} {c : Int}

/-! ### Counts by mode -/

omit [Inhabited Addr] in
theorem tracks_slots (hwf : s.slots.WF) :
    s.Tracks k c ↔ ∃ v, s.slots.stored k = some v ∧ R.slotVal v = c := by
  constructor
  · rintro ⟨e, hl, hc⟩
    rcases Slots.scan_cases hwf k with hs | ⟨i, hs⟩
    · simp [Tls.lookup, hwf.fits, hs] at hl
    · simp [Tls.lookup, hwf.fits, hs] at hl
      subst hl
      exact ⟨_, Slots.stored_of_scan hs, hc⟩
  · rintro ⟨v, hv, hc⟩
    rcases Slots.scan_cases hwf k with hs | ⟨i, hs⟩
    · rw [(Slots.stored_eq_none_iff hwf).mpr hs] at hv
      cases hv
    · rw [Slots.stored_of_scan hs] at hv
      obtain rfl := Option.some.inj hv
      exact ⟨.slot i, by simp [Tls.lookup, hwf.fits, hs], hc⟩

omit [Inhabited Addr] in
theorem tracks_nodes (hpast : ¬ s.slots.lockCount ≤ maxLocks) :
    s.Tracks k c ↔ ∃ p, s.found k = some p ∧ R.cellVal (s.mem p).recCount = c := by
  constructor
  · rintro ⟨e, hl, hc⟩
    cases hf : s.found k with
    | none =>
      rw [found] at hf
      simp [Tls.lookup, hpast, hf] at hl
    | some p =>
      rw [found] at hf
      simp [Tls.lookup, hpast, hf] at hl
      subst hl
      exact ⟨p, rfl, hc⟩
  · rintro ⟨p, hf, hc⟩
    rw [found] at hf
    exact ⟨.node p, by simp [Tls.lookup, hpast, hf], hc⟩

omit [Inhabited Addr] in
/-- A count is in the slots, the hash and the nodes. -/
theorem Tracks.congr (h : s.Tracks k c) (hslots : s'.slots = s.slots)
    (hhash : s'.lockHash = s.lockHash) (hmem : s'.mem = s.mem) : s'.Tracks k c := by
  obtain ⟨e, hl, hc⟩ := h
  refine ⟨e, ?_, ?_⟩
  · -- the lookup reads the slots or the hash, by mode
    by_cases hmode : s.slots.lockCount ≤ maxLocks
    · cases hscan : s.slots.scan k 0 s.slots.lockCount with
      | error f => simp [Tls.lookup, hmode, hscan, access] at hl
      | ok o =>
        simp [Tls.lookup, hmode, hscan] at hl
        simp [Tls.lookup, hslots, hmode, hscan, hl]
    · simp [Tls.lookup, hmode] at hl
      simp [Tls.lookup, hslots, hhash, hmode, hl]
  · -- and the count is in the slot or in the node
    cases e with
    | slot i => rw [← hc, recCount, recCount, hslots]
    | node p => rw [← hc, recCount, recCount, hmem]

omit [Inhabited Addr] [DecidableEq Addr] in
theorem SameShape.found (h : SameShape s t) : s.found = t.found := by
  funext k
  rw [Tls.found, h.lockHash]
  rfl

omit [Inhabited Addr] in
/-- Two locks do not share an entry. -/
theorem Shaped.entry_injective (h : s.Shaped L size t) (hl : (lookup l).run s = .ok (some e) s)
    (hk : (lookup k).run s = .ok (some e) s) : k = l := by
  obtain ⟨-, htl⟩ := h.lookup_eq hl
  obtain ⟨-, htk⟩ := h.lookup_eq hk
  -- one mode for both lookups; in each an entry belongs to one lock
  rcases lookup_some_cases h.inv htl with ⟨hA, i, rfl, hs⟩ | ⟨hH, p, rfl, hf⟩
  · rcases lookup_some_cases h.inv htk with ⟨-, j, hj, hs'⟩ | ⟨-, p, hp, -⟩
    · obtain rfl : i = j := by simpa using hj
      rw [← (Slots.scan_eq_some hA.wf.fits hs).2, (Slots.scan_eq_some hA.wf.fits hs').2]
    · cases hp
  · rcases lookup_some_cases h.inv htk with ⟨-, j, hj, -⟩ | ⟨-, q, hq, hf'⟩
    · cases hj
    · obtain rfl : p = q := by simpa using hq
      obtain ⟨fl, hp⟩ := hH.pooled
      exact hp.key_injective hf hf'

/-! ### Counting an entry up or down -/

/-- Only the count of this entry may have changed. -/
structure Recounted (s s' : Tls R M Addr) (e : EntryPtr) : Prop where
  same : SameShape s' s
  others : ∀ e', e' ≠ e → s'.recCount e' = s.recCount e'

omit [Inhabited Addr] [DecidableEq Addr] [PtrMap M Addr NodePtr] in
theorem recounted_slot {slots : Slots Addr R.Slot} {i : Nat} {v : R.Slot}
    (hset : s.slots.setCount i v = .ok slots) :
    Recounted s { s with slots := slots } (.slot i) := by
  refine ⟨(SameShape.refl s).setCount hset, fun e' he => ?_⟩
  unfold Slots.setCount at hset
  split at hset
  · injection hset with hset
    subst hset
    cases e' with
    | node q => rfl
    | slot j =>
      have hj : j ≠ i := fun hj => he (by rw [hj])
      simp [recCount, hj]
  · cases hset

omit [Inhabited Addr] [DecidableEq Addr] [PtrMap M Addr NodePtr] in
theorem recounted_node (v : R.Cell) :
    Recounted s (s.write p { s.mem p with recCount := v }) (.node p) := by
  refine ⟨(SameShape.refl s).writeCount v, fun e' he => ?_⟩
  cases e' with
  | slot j => rfl
  | node q =>
    have hq : q ≠ p := fun hq => he (by rw [hq])
    simp [recCount, write, hq]

omit [Inhabited Addr] in
theorem Recounted.moved (h : Recounted s s' e) : Moved l s s' :=
  .kept h.same.found h.same.heap h.same.initialized

omit [Inhabited Addr] in
theorem Recounted.shaped (h : Recounted s s' e) (hs : s.Shaped L size t) : s'.Shaped L size t :=
  { hs with same := h.same.trans hs.same }

omit [Inhabited Addr] in
theorem Recounted.keeps (h : Recounted s s' e) (hs : s.Shaped L size t)
    (hl : (lookup l).run s = .ok (some e) s) : Keeps l s s' := by
  -- another lock has another entry
  rintro k hk c - ⟨e', hk', hc⟩
  refine ⟨e', h.same.lookup hk', ?_⟩
  rw [h.others e' fun he => hk (hs.entry_injective hl (he ▸ hk'))]
  exact hc

omit [Inhabited Addr] in
/-- Counting up changes one count. -/
theorem Shaped.increment (h : s.Shaped L size t) (hl : (lookup l).run s = .ok (some e) s) :
    ∃ s', (Tls.incrementEntry e).run s = .ok () s' ∧ Recounted s s' e := by
  obtain ⟨-, ht⟩ := h.lookup_eq hl
  rcases lookup_some_cases h.inv ht with ⟨hA, i, rfl, hs⟩ | ⟨-, p, rfl, -⟩
  · have hi : i < maxLocks := lt_of_lt_of_le (Slots.scan_eq_some hA.wf.fits hs).1 hA.wf.fits
    obtain ⟨slots, hset⟩ :=
      Slots.setCount_of_lt (s := s.slots) (R.slotInc (s.slots.lockTable i).recCount) hi
    exact ⟨_, by simp [Tls.incrementEntry, Slots.read_of_lt hi, hset], recounted_slot hset⟩
  · exact ⟨_, rfl, recounted_node _⟩

/-- Counting down a count above one. -/
theorem Shaped.decrement_lower (h : s.Shaped L size t)
    (hl : (lookup l).run s = .ok (some e) s) (h1 : 1 < s.recCount e) :
    ∃ s', (Tls.decrementEntry e).run s = .ok (s.recCount e - 1) s' ∧ Recounted s s' e := by
  obtain ⟨-, ht⟩ := h.lookup_eq hl
  rcases lookup_some_cases h.inv ht with ⟨hA, i, rfl, hs⟩ | ⟨hH, p, rfl, -⟩
  · have hi : i < maxLocks := lt_of_lt_of_le (Slots.scan_eq_some hA.wf.fits hs).1 hA.wf.fits
    have hle : s.slots.lockCount ≤ maxLocks := h.same.lockCount ▸ hA.wf.fits
    obtain ⟨slots, hset⟩ :=
      Slots.setCount_of_lt (s := s.slots) (R.slotDec (s.slots.lockTable i).recCount) hi
    have hval : 1 < R.slotVal (s.slots.lockTable i).recCount := h1
    exact ⟨_, by simp [Tls.decrementEntry, hle, Slots.read_of_lt hi, hval, hset, recCount],
      recounted_slot hset⟩
  · have hgt : ¬ s.slots.lockCount ≤ maxLocks := Nat.not_le_of_gt (h.past hH)
    have hval : 1 < R.cellVal (s.mem p).recCount := h1
    exact ⟨_, by simp [Tls.decrementEntry, hgt, hval, recCount],
      recounted_node (R.cellDec (s.mem p).recCount)⟩

/-! ### Giving an entry back -/

section Remove

variable [LawfulPtrMap M]

/-- An entry that is not found any more was given back in the shape too. -/
theorem Shaped.removed (h : s.Shaped L size t) (hl : (lookup l).run s = .ok (some e) s) {v : Int}
    (hrun : (Tls.decrementEntry e).run s = .ok v s') (hgone : (lookup l).run s' = .ok none s') :
    ∃ t', s'.Shaped L size t' ∧ t'.count = Function.update t.count l 0 := by
  obtain ⟨w, s₁, hrun', hsh⟩ := h.decrementEntry hl
  obtain ⟨-, rfl⟩ := fst_of_ok (hrun.symm.trans hrun')
  -- hsh | the shape follows the step in one of two ways
  rcases hsh with hsh | hsh
  · -- the lock would still be found
    have h1 := (h.lookup_eq hl).1
    have h0 := (hsh.lookup_eq_none_iff l).mp hgone
    omega
  · exact hsh

omit [LawfulPtrMap M] in
/-- Counting down a slot whose count has run out. -/
theorem Shaped.decrement_removeSlot (h : s.Shaped L size t) (hA : t.ArrayMode L) {i : Nat}
    (hs : s.slots.scan l 0 s.slots.lockCount = .ok (some i))
    (h1 : ¬ 1 < R.slotVal (s.slots.lockTable i).recCount) :
    ∃ s', (Tls.decrementEntry (.slot i)).run s = .ok 0 s' ∧ (lookup l).run s' = .ok none s' ∧
      Moved l s s' ∧ Keeps l s s' := by
  have hwf := h.same.wf hA.wf
  obtain ⟨slots, hrem, hwf', -, hst⟩ := Slots.swapRemove_spec hwf hs
  have hi : i < maxLocks := lt_of_lt_of_le (Slots.scan_eq_some hwf.fits hs).1 hwf.fits
  refine ⟨{ s with slots := slots },
    by simp [Tls.decrementEntry, hwf.fits, Slots.read_of_lt hi, h1, hrem], ?_, .kept rfl rfl rfl,
    fun k hk c _ hc => ?_⟩
  · -- the removed lock is not stored any more
    have hnone : slots.scan l 0 slots.lockCount = .ok none :=
      (Slots.stored_eq_none_iff hwf').mp (by rw [hst, Function.update_self])
    simp [Tls.lookup, hwf'.fits, hnone]
  · -- the others are stored as before, in whatever slot
    rw [tracks_slots hwf] at hc
    refine (tracks_slots (s := { s with slots := slots }) hwf').mpr ?_
    rw [hst, Function.update_of_ne hk]
    exact hc

/-- Counting down a node whose count has run out. -/
theorem Shaped.decrement_removeNode (h : s.Shaped L size t) (hH : t.HashMode L size)
    (hf : s.found l = some p) (h1 : ¬ 1 < R.cellVal (s.mem p).recCount)
    (hl : (lookup l).run s = .ok (some (.node p)) s) :
    ∃ s', (Tls.decrementEntry (.node p)).run s = .ok 0 s' ∧ (lookup l).run s' = .ok none s' ∧
      Moved l s s' ∧ Keeps l s s' := by
  obtain ⟨fl, hp⟩ := hH.pooled
  have hft : t.found l = some p := by rw [← h.same.found]; exact hf
  have hpast : ¬ s.slots.lockCount ≤ maxLocks := Nat.not_le_of_gt (h.past hH)
  obtain ⟨v, s', hrun, -⟩ := h.decrementEntry hl
  cases hpush : (freelistPush p).run (hashDel p s) with
  | error e s₁ => simp [Tls.decrementEntry, hpast, h1, hpush] at hrun
  | ok _ s₁ =>
    obtain ⟨hslots, hhash, hinit, hmem, hsource⟩ := freelistPush_frame hpush
    have hpast' : ¬ s₁.slots.lockCount ≤ maxLocks := by rw [hslots]; exact hpast
    have hfound : s₁.found = Function.update s.found l none := by
      funext k
      -- the node is under this lock only
      have huniq : ∀ k', s.found k' = some p → k' = l := fun k' hk' =>
        hp.key_injective hft (by rw [← h.same.found]; exact hk')
      rw [Function.update_apply, found, hhash]
      exact LawfulPtrMap.find_del s.lockHash l p hf huniq k
    have hinit' : s.freelistInitialized = true := h.same.initialized.trans hp.initialized
    refine ⟨s₁, by simp [Tls.decrementEntry, hpast, h1, hpush], ?_, ?_, fun k hk c _ hc => ?_⟩
    · have hnone : PtrMap.find s₁.lockHash l = none := by
        have := congrFun hfound l
        rwa [Function.update_self] at this
      simp [Tls.lookup, hpast', hnone]
    · refine .gave p hinit' (hinit.trans hinit') hf hfound ?_
      rcases hsource with ⟨hdyn, hheap⟩ | hfreed
      · -- a node that is not flagged is a pool node
        refine Or.inl ⟨?_, hheap⟩
        have horigin := hp.origin l p hft
        cases p with
        | pool i => exact ⟨i, rfl⟩
        | heap a =>
          have hdyn' : (s.mem (.heap a)).dynamicallyAllocated = false := hdyn
          rw [(h.same.node (.heap a)).dynamic, horigin.2] at hdyn'
          cases hdyn'
      · exact Or.inr hfreed
    · -- the other locks' nodes are not written
      obtain ⟨q, hq, hc⟩ := (tracks_nodes hpast).mp hc
      have hqp : q ≠ p := by
        rintro rfl
        rw [h.same.found] at hq
        exact hk (hp.key_injective hft hq)
      refine (tracks_nodes hpast').mpr ⟨q, by rw [hfound, Function.update_of_ne hk, hq], ?_⟩
      rw [hmem q hqp]
      exact hc

/-- Counting down a count of one, or a lower one: the entry is given back. -/
theorem Shaped.decrement_remove (h : s.Shaped L size t)
    (hl : (lookup l).run s = .ok (some e) s) (h1 : ¬ 1 < s.recCount e) :
    ∃ s' t', (Tls.decrementEntry e).run s = .ok 0 s' ∧ s'.Shaped L size t' ∧
      t'.count = Function.update t.count l 0 ∧ Moved l s s' ∧ Keeps l s s' := by
  obtain ⟨s', hrun, hgone, hmoved, hkeeps⟩ : ∃ s', (Tls.decrementEntry e).run s = .ok 0 s' ∧
      (lookup l).run s' = .ok none s' ∧ Moved l s s' ∧ Keeps l s s' := by
    obtain ⟨-, ht⟩ := h.lookup_eq hl
    rcases lookup_some_cases h.inv ht with ⟨hA, i, rfl, hs⟩ | ⟨hH, p, rfl, hf⟩
    · refine h.decrement_removeSlot hA ?_ h1
      rw [h.same.scan l, h.same.lockCount]
      exact hs
    · refine h.decrement_removeNode hH ?_ h1 hl
      rw [h.same.found]
      exact hf
  obtain ⟨t', hsh, hcount⟩ := h.removed hl hrun hgone
  exact ⟨s', t', hrun, hsh, hcount, hmoved, hkeeps⟩

end Remove

/-! ### Recording a lock -/

section Insert

variable [LawfulPtrMap M]

/-- One round of the conversion loop: the lock of slot `i` gets the first free node,
and the node the count of the slot. -/
theorem convert_once {fl : List NodePtr} {i k : Nat} (hfresh : MallocFresh malloc)
    (h : SameShape s t) (hp : t.Pooled L size fl none) (hne : fl ≠ [])
    (hpend : t.Pending L i (k + 1)) (hrun : (convert size malloc i (k + 1)).run s = .ok () s') :
    ∃ p s₂ t₂ v, (convert size malloc (i + 1) k).run s₂ = .ok () s' ∧ SameShape s₂ t₂ ∧
      t₂.Pooled L size fl.tail none ∧ s₂.slots = s.slots ∧ t₂.slots = t.slots ∧
      s₂.heap = s.heap ∧ (∀ m, s.found m ≠ some p) ∧
      s₂.found = Function.update s.found (s.slots.lockTable i).lockPtr (some p) ∧
      (∀ q, q ≠ p → s₂.mem q = s.mem q) ∧
      (s₂.mem p).recCount = R.cellSet v (R.slotVal (s.slots.lockTable i).recCount) := by
  have hptr := h.slotPtr i
  have hfits := hpend.fits
  have hnone := hpend.untracked i (Nat.le_refl _) (by omega)
  -- the step of `t`
  obtain ⟨p, t₁, hpop, hp₁, hclean, hslots₁, hfound₁, -⟩ :=
    freelistPop_spec hfresh hp fun h0 => absurd h0 hne
  obtain ⟨d, h1, hd⟩ := hpend.counted i (Nat.le_refl _) (by omega)
  obtain ⟨t₂, hfill, hp₂, hslots₂, -, -⟩ :=
    fillEntry_spec (c := d) hp₁ hclean (by rw [hfound₁]; exact hnone) h1 (L.slotLimit _ _ hd)
  -- the step of `s`
  obtain ⟨s₁, hpop', h₁, hslots₁'⟩ := h.freelistPop hpop
  obtain ⟨s₂, hfill', h₂, hslots₂'⟩ :=
    h₁.fillEntry (c := R.slotVal (s.slots.lockTable i).recCount) hfill
  rw [← hptr] at hfill'
  obtain ⟨-, hhash, -, hmem, hapart, hsource⟩ := freelistPop_takes hfresh h hp hpop'
  have hfs : s₁.found = s.found := funext fun m => by rw [found, hhash]; rfl
  obtain ⟨hadd, -, hheap₂, -, hmem₂, v, hv⟩ := fillEntry_adds
    (by rw [hfs, h.found, hptr]; exact hnone) (fun m => by rw [hfs]; exact hapart m) hfill'
  have hrest : (convert size malloc (i + 1) k).run s₂ = .ok () s' := by
    have hread : s₁.slots.read i = .ok (s.slots.lockTable i) := by
      rw [hslots₁']
      exact Slots.read_of_lt (by omega)
    simpa [convert, hpop', hread, hfill'] using hrun
  -- the pool is not empty, so `malloc` is not called
  have hheap : s₂.heap = s.heap := by
    rcases hsource with ⟨-, hheap⟩ | ⟨h0, -⟩
    · rw [hheap₂, hheap]
    · exact absurd h0 hne
  refine ⟨p, s₂, t₂, v, hrest, h₂, hp₂, by rw [hslots₂', hslots₁'], by rw [hslots₂, hslots₁],
    hheap, hapart, by rw [hadd, hfs], fun q hq => ?_, hv⟩
  rw [hmem₂ q hq, hmem q hq]

/-- The conversion loop takes its nodes from the pool, and gives the locks of the
slots it goes over the counts they have there. -/
theorem convert_frame (hfresh : MallocFresh malloc) (hset : ∀ v, R.cellVal (R.cellSet v c) = c) :
    ∀ (k i : Nat) (s t : Tls R M Addr) (fl : List NodePtr), SameShape s t →
      t.Pooled L size fl none → k ≤ fl.length → t.Pending L i k →
      ∀ s', (convert size malloc i k).run s = .ok () s' →
        s'.heap = s.heap ∧
        (∀ m p, s.found m = some p → R.cellVal (s.mem p).recCount = c →
          ∃ p', s'.found m = some p' ∧ R.cellVal (s'.mem p').recCount = c) ∧
        (∀ j, i ≤ j → j < i + k → R.slotVal (s.slots.lockTable j).recCount = c →
          ∃ p, s'.found (s.slots.lockTable j).lockPtr = some p ∧
            R.cellVal (s'.mem p).recCount = c) := by
  intro k
  induction k with
  | zero =>
    intro i s t fl _ _ _ _ s' hrun
    obtain ⟨-, rfl⟩ := fst_of_ok hrun
    exact ⟨rfl, fun m p hm hc => ⟨p, hm, hc⟩, fun j h1 h2 => by omega⟩
  | succ k ih =>
    intro i s t fl h hp hlen hpend s' hrun
    have hfits := hpend.fits
    have hne : fl ≠ [] := fun h0 => by simp [h0] at hlen
    have hptr := h.slotPtr i
    have hnone : s.found (s.slots.lockTable i).lockPtr = none := by
      rw [h.found, hptr]
      exact hpend.untracked i (Nat.le_refl _) (by omega)
    obtain ⟨p, s₂, t₂, v, hrest, h₂, hp₂, hs₂, ht₂, hheap, hapart, hfound₂, hmem₂, hv⟩ :=
      convert_once hfresh h hp hne hpend hrun
    -- the rest of the loop
    have hpend₂ : t₂.Pending L (i + 1) k := by
      refine hpend.next (p := p) ht₂ ?_
      rw [← h₂.found, hfound₂, h.found, hptr]
    obtain ⟨hheap', hkept, hmoved⟩ :=
      ih (i + 1) s₂ t₂ fl.tail h₂ hp₂ (by simp; omega) hpend₂ s' hrest
    rw [hs₂] at hmoved
    -- what the hash holds after this iteration
    have hold : ∀ m q, s.found m = some q → R.cellVal (s.mem q).recCount = c →
        ∃ q', s'.found m = some q' ∧ R.cellVal (s'.mem q').recCount = c := by
      intro m q hm hc
      have hqp : q ≠ p := fun hqp => hapart m (hqp ▸ hm)
      have hml : m ≠ (s.slots.lockTable i).lockPtr := by
        rintro rfl
        rw [hnone] at hm
        cases hm
      refine hkept m q ?_ ?_
      · rw [hfound₂, Function.update_of_ne hml, hm]
      · rw [hmem₂ q hqp, hc]
    refine ⟨by rw [hheap', hheap], hold, fun j hj1 hj2 hc => ?_⟩
    rcases Nat.eq_or_lt_of_le hj1 with rfl | hlt
    · -- slot `i` has just got its node
      refine hkept _ p ?_ ?_
      · rw [hfound₂, Function.update_self]
      · rw [hv, hc, hset]
    · exact hmoved j hlt (by omega) hc

omit [LawfulPtrMap M] in
/-- What recording a lock does while the array has more than one free slot. -/
theorem Shaped.insertNew_slot_moves (h : s.Shaped L size t) (hA : t.ArrayMode L)
    (h0 : t.count l = 0) (hlast : t.slots.lockCount + 1 ≠ maxLocks)
    (hrun : (Tls.insertNew size malloc l).run s = .ok () s') : Moved l s s' ∧ Keeps l s s' := by
  have hnone := h.same.stored_none hA.wf (hA.count_eq_zero_iff.mp h0)
  have hwf := h.same.wf hA.wf
  have hlc := h.same.lockCount
  have hbelow : s.slots.lockCount < maxLocks := by
    have := hA.below
    omega
  -- the append does not fill the array, so it stays in array mode
  obtain ⟨b, hpush, hwfb, hlb, hst⟩ := Slots.push_spec (c := R.slotOne) hwf hbelow hnone
  have hfull : b.lockCount ≠ maxLocks := by omega
  simp [Tls.insertNew, hbelow, hpush, hfull] at hrun
  subst hrun
  refine ⟨.kept rfl rfl rfl, fun k hk c _ hc => ?_⟩
  rw [tracks_slots hwf] at hc
  refine (tracks_slots (s := { s with slots := b }) hwfb).mpr ?_
  rw [hst, Function.update_of_ne hk]
  exact hc

/-- What recording the lock that fills the array does: the pool is set up, and
every lock is found in the hash with the count it had. -/
theorem Shaped.insertNew_convert_moves (hset : ∀ v, R.cellVal (R.cellSet v 1) = 1)
    (hsize : maxLocks ≤ size) (hfresh : MallocFresh malloc) (h : s.Shaped L size t)
    (hA : t.ArrayMode L) (h0 : t.count l = 0) (hlast : t.slots.lockCount + 1 = maxLocks)
    (hrun : (Tls.insertNew size malloc l).run s = .ok () s') : Moved l s s' ∧ Keeps l s s' := by
  have hnone := hA.count_eq_zero_iff.mp h0
  have hwf := h.same.wf hA.wf
  have hlc := h.same.lockCount
  have hbelow : s.slots.lockCount < maxLocks := by
    have := hA.below
    omega
  obtain ⟨a, hpush, hwfa, hfulla, -, hp, hfound, hcounts⟩ := convert_ready hsize hA hnone hlast
  obtain ⟨b, hpush', hwfb, hlb, hstb⟩ := Slots.push_spec (c := R.slotOne) hwf hbelow
    (h.same.stored_none hA.wf hnone)
  have hfullb : b.lockCount = maxLocks := by omega
  have hsame : SameShape (Tls.initFreelist size { s with slots := b })
      (Tls.initFreelist size { t with slots := a }) := (h.same.push hpush' hpush).initFreelist
  have hslotsa : (Tls.initFreelist size { t with slots := a }).slots = a := initFreelist_slots _
  have hslotsb : (Tls.initFreelist size { s with slots := b }).slots = b := initFreelist_slots _
  have hempty : ∀ k, s.found k = none := fun k => by rw [h.same.found]; exact hA.empty k
  have hnoHeap : s.heap = [] := h.same.heap.trans hA.noHeap
  have hfresh₀ : s.freelistInitialized = false := h.same.initialized.trans hA.fresh
  cases hconv : (Tls.convert size malloc 0 maxLocks).run
      (Tls.initFreelist size { s with slots := b }) with
  | error e s₄ => simp [Tls.insertNew, hbelow, hpush', hfullb, hconv] at hrun
  | ok _ s₄ =>
    simp [Tls.insertNew, hbelow, hpush', hfullb, hconv] at hrun
    subst hrun
    -- the loop, seen for any count that an entry can be given
    have hframe := fun (c : Int) (hc : ∀ v, R.cellVal (R.cellSet v c) = c) =>
      convert_frame (c := c) hfresh hc maxLocks 0 _ _ _ hsame hp (by simpa [poolFrom] using hsize)
        (pending_of_full (by rw [hslotsa]; exact hwfa) (by rw [hslotsa, hfulla]) hfound
          (fun m v hv => ⟨_, hcounts m v (by rw [← hslotsa]; exact hv)⟩) (Nat.le_refl maxLocks))
        s₄ hconv
    have hslots₄ : s₄.slots = b := by
      obtain ⟨t₄, -, hconvt, -⟩ :=
        convert_pushed hsize hfresh hA hnone hlast hpush (Nat.le_refl maxLocks)
      obtain ⟨s₅, hconv', -, hslots⟩ := hsame.convert hconvt
      obtain ⟨-, rfl⟩ := fst_of_ok (hconv.symm.trans hconv')
      rw [hslots, hslotsb]
    have hheap₀ : (Tls.initFreelist size { s with slots := b }).heap = s.heap := by
      unfold Tls.initFreelist
      split <;> rfl
    refine ⟨.converted hfresh₀ ?_ hempty hnoHeap ?_, fun k hk c hc hk' => ?_⟩
    · have hinit := convert_initialized (initFreelist_initialized size _) hconv
      exact hinit
    · show s₄.heap = []
      rw [(hframe 1 hset).1, hheap₀, hnoHeap]
    · -- a lock of the array is in some slot, and the loop has moved the slot
      obtain ⟨v, hv, hval⟩ := (tracks_slots hwf).mp hk'
      have hvb : b.stored k = some v := by rw [hstb, Function.update_of_ne hk, hv]
      obtain ⟨j, hj, hjk, hjv⟩ := (Slots.stored_eq_some_iff hwfb).mp hvb
      have hmoved := (hframe c hc).2.2 j (Nat.zero_le j) (by omega)
      rw [hslotsb, hjk, hjv] at hmoved
      have hpast : ¬ s₄.slots.lockCount + 1 ≤ maxLocks := by
        rw [hslots₄]
        omega
      exact (tracks_nodes (s := { s₄ with slots := { s₄.slots with
        lockCount := s₄.slots.lockCount + 1 } }) hpast).mpr (hmoved hval)

/-- What recording a lock does in hash mode: it gets one node. -/
theorem Shaped.insertNew_node_moves (hfresh : MallocFresh malloc) (h : s.Shaped L size t)
    (hH : t.HashMode L size) (h0 : t.count l = 0) (hfed : s.freelistHead = none →
      malloc s.mallocs s.heap ≠ none)
    (hrun : (Tls.insertNew size malloc l).run s = .ok () s') : Moved l s s' ∧ Keeps l s s' := by
  obtain ⟨fl, hp⟩ := hH.pooled
  have hpast : ¬ s.slots.lockCount ≤ maxLocks := Nat.not_le_of_gt (h.past hH)
  have hgt : ¬ s.slots.lockCount < maxLocks := Nat.lt_asymm (h.past hH)
  have hinit : s.freelistInitialized = true := h.same.initialized.trans hp.initialized
  -- the hash does not have the lock yet
  have hl : s.found l = none := by
    rw [hH.count_eq] at h0
    rw [h.same.found]
    exact hp.hashCount_eq_zero_iff.mp h0
  obtain ⟨p, s₁, hpop⟩ : ∃ p s₁, (Tls.freelistPop size malloc).run s = .ok (some p) s₁ := by
    have hsetup : Tls.initFreelist size s = s := by simp [Tls.initFreelist, hinit]
    cases hhead : s.freelistHead with
    | some p => exact ⟨p, _, by simp [Tls.freelistPop, hsetup, hhead]; rfl⟩
    | none =>
      obtain ⟨a, ha⟩ := Option.ne_none_iff_exists'.mp (hfed hhead)
      exact ⟨.heap a, _, by simp [Tls.freelistPop, hsetup, hhead, ha]; rfl⟩
  obtain ⟨hslots₁, hhash, hinit₁, hmem, hapart, hsource⟩ :=
    freelistPop_takes hfresh h.same hp hpop
  have hfs : s₁.found = s.found := funext fun m => by rw [found, hhash]; rfl
  have hfill : (Tls.fillEntry p l 1).run s₁ = .ok () s' := by
    simpa [Tls.insertNew, hgt, hpop] using hrun
  obtain ⟨hadd, hslots₂, hheap₂, hinit₂, hmem₂, -⟩ := fillEntry_adds
    (by rw [hfs]; exact hl) (fun m => by rw [hfs]; exact hapart m) hfill
  rw [hfs] at hadd
  refine ⟨.took p hinit (hinit₂.trans hinit₁) hl hadd ?_, fun k hk c _ hc => ?_⟩
  · rcases hsource with ⟨hpool, hheap⟩ | ⟨-, a, ha, hnew, hheap⟩
    · exact Or.inl ⟨hpool, by rw [hheap₂, hheap]⟩
    · exact Or.inr ⟨a, ha, hnew, by rw [hheap₂, hheap]⟩
  · obtain ⟨q, hq, hc⟩ := (tracks_nodes hpast).mp hc
    have hqp : q ≠ p := fun hqp => hapart k (hqp ▸ hq)
    have hpast' : ¬ s'.slots.lockCount ≤ maxLocks := by
      rw [hslots₂, hslots₁]
      exact hpast
    refine (tracks_nodes hpast').mpr ⟨q, by rw [hadd, Function.update_of_ne hk, hq], ?_⟩
    rw [hmem₂ q hqp, hmem q hqp, hc]

/-- Recording a new lock, in any mode and whatever `malloc` does. -/
theorem Shaped.insert (hset : ∀ v, R.cellVal (R.cellSet v 1) = 1) (hlimit : 1 ≤ L.limit)
    (hsize : maxLocks ≤ size) (hfresh : MallocFresh malloc) (h : s.Shaped L size t)
    (h0 : t.count l = 0) :
    ∃ s' t', (Tls.insertNew size malloc l).run s = .ok () s' ∧ s'.Shaped L size t' ∧
      Moved l s s' ∧ Keeps l s s' ∧
      ((¬ s.Starved malloc ∧ t'.count = Function.update t.count l 1 ∧ s'.Tracks l 1) ∨
        (s.Starved malloc ∧ t'.count = t.count)) := by
  by_cases hst : s.Starved malloc
  · obtain ⟨hrun, hsh⟩ := h.insertNew_starved (l := l) hst
    -- only the number of calls of `malloc` is different
    exact ⟨_, _, hrun, hsh, .kept rfl rfl rfl, fun k _ c _ hc => hc.congr rfl rfl rfl,
      Or.inr ⟨hst, rfl⟩⟩
  · obtain ⟨s', t', hrun, hsh, hcount, htracks⟩ := h.insertNew hset hlimit hsize hfresh h0 hst
    have hmoves : Moved l s s' ∧ Keeps l s s' := by
      rcases h.inv with hA | hH
      · by_cases hlast : t.slots.lockCount + 1 = maxLocks
        · exact h.insertNew_convert_moves hset hsize hfresh hA h0 hlast hrun
        · exact h.insertNew_slot_moves hA h0 hlast hrun
      · have hpast : maxLocks ≤ s.slots.lockCount := Nat.le_of_lt (h.past hH)
        exact h.insertNew_node_moves hfresh hH h0 (fun hhead hfail => hst ⟨hpast, hhead, hfail⟩)
          hrun
    exact ⟨s', t', hrun, hsh, hmoves.1, hmoves.2, Or.inl ⟨hst, hcount, htracks⟩⟩

end Insert

/-! ## Calls and runs -/

/-- A state that some calls lead to, whatever `malloc` and the counts did. -/
def Sound (L : R.Laws) (size : Nat) (s : Tls R M Addr) : Prop := ∃ t, s.Shaped L size t

omit [Inhabited Addr] in
theorem Sound.lookup_cases (h : Sound L size s) (l : Addr) :
    (lookup l).run s = .ok none s ∨ ∃ e, (lookup l).run s = .ok (some e) s := by
  obtain ⟨t, h⟩ := h
  rcases h.lookup_spec l with ⟨-, hl⟩ | ⟨-, e, hl, -⟩
  · exact Or.inl hl
  · exact Or.inr ⟨e, hl⟩

section Calls

variable [LawfulPtrMap M] {T : TableOps (Tls R M Addr) EntryPtr Addr}

omit [Inhabited Addr] in
/-- An untouched state. -/
theorem sound_of_untouched (hcount : s.slots.lockCount = 0) (hhash : s.lockHash = PtrMap.empty)
    (hinit : s.freelistInitialized = false) (hheap : s.heap = []) : Sound L size s := by
  obtain ⟨hA, hzero⟩ := arrayMode_of_untouched (L := L) hcount hhash hinit hheap
  exact ⟨s, .refl s, Or.inl hA, fun l => by rw [hzero l]; exact Nat.zero_le 1⟩

/-- A call keeps the table sound and moves at most its own lock's node, or panics
and leaves everything as it is. -/
theorem Sound.step (hT : HashBacked T size malloc) (hset : ∀ v, R.cellVal (R.cellSet v 1) = 1)
    (hlimit : 1 ≤ L.limit) (hsize : maxLocks ≤ size) (hfresh : MallocFresh malloc)
    (hs : Sound L size s) (c : Call Addr) :
    (∃ rep s', (shieldStep T c).run s = .ok rep s' ∧ Sound L size s' ∧ Moved c.lock s s') ∨
      ∃ e, (shieldStep T c).run s = .error (e, []) s ∧
        (e = unbalancedLockPanic ∨ e = unbalancedUnlockPanic) := by
  obtain ⟨t, h⟩ := hs
  cases c with
  | acquire l r =>
    rcases h.lookup_spec l with ⟨h0, hl⟩ | ⟨-, e, hl, -⟩
    · -- a new lock
      obtain ⟨s', t', hrun, hsh, hmoved, -⟩ := h.insert hset hlimit hsize hfresh h0
      rw [← hT.insert l s hl] at hrun
      rw [← hT.lookup] at hl
      exact Or.inl ⟨_, s', shieldStep_acquire_new hl hrun, ⟨t', hsh⟩, hmoved⟩
    · -- a lock that is tracked: counted up, or a panic
      obtain ⟨s', hrun, hre⟩ := h.increment hl
      rw [← hT.increment l e] at hrun
      rw [← hT.lookup] at hl
      cases r with
      | true => exact Or.inl ⟨_, s', shieldStep_acquire_skip hl hrun, ⟨t, hre.shaped h⟩, hre.moved⟩
      | false => exact Or.inr ⟨_, shieldStep_acquire_panic hl, Or.inl rfl⟩
  | release l r =>
    rcases h.lookup_spec l with ⟨-, hl⟩ | ⟨-, e, hl, -⟩
    · rw [← hT.lookup] at hl
      exact Or.inr ⟨_, shieldStep_release_panic hl, Or.inr rfl⟩
    · -- a tracked lock: counted down or removed
      obtain ⟨v, s', hrun, hs', hmoved⟩ : ∃ v s', (decrementEntry e).run s = .ok v s' ∧
          Sound L size s' ∧ Moved l s s' := by
        by_cases h1 : 1 < s.recCount e
        · obtain ⟨s', hrun, hre⟩ := h.decrement_lower hl h1
          exact ⟨_, s', hrun, ⟨t, hre.shaped h⟩, hre.moved⟩
        · obtain ⟨s', t', hrun, hsh, -, hmoved, -⟩ := h.decrement_remove hl h1
          exact ⟨_, s', hrun, ⟨t', hsh⟩, hmoved⟩
      rw [← hT.decrement l e] at hrun
      rw [← hT.lookup] at hl
      cases r with
      | false => exact Or.inl ⟨_, s', shieldStep_release_plain hl hrun, hs', hmoved⟩
      | true =>
        by_cases hv : v = 0
        · subst hv
          exact Or.inl ⟨_, s', shieldStep_release_now hl hrun, hs', hmoved⟩
        · exact Or.inl ⟨_, s', shieldStep_release_skip hl hrun hv, hs', hmoved⟩

/-- Every run leaves the table sound, and nothing but a panic ends one. -/
theorem Sound.run (hT : HashBacked T size malloc) (hset : ∀ v, R.cellVal (R.cellSet v 1) = 1)
    (hlimit : 1 ≤ L.limit) (hsize : maxLocks ≤ size) (hfresh : MallocFresh malloc)
    (hs : Sound L size s) (cs : List (Call Addr)) :
    Sound L size (Lib.run (shieldStep T) s cs).final ∧
      ∀ e, (Lib.run (shieldStep T) s cs).stop = some e →
        e = (unbalancedLockPanic, []) ∨ e = (unbalancedUnlockPanic, []) := by
  refine run_snoc_induction _ _ (P := fun _ r => Sound L size (Run.final r) ∧
    ∀ e, Run.stop r = some e → e = (unbalancedLockPanic, []) ∨ e = (unbalancedUnlockPanic, []))
    ?_ ?_ ?_ ?_ cs
  · exact ⟨hs, fun e he => by cases he⟩
  · intro pre c rep s' ih _ hrun
    rcases ih.1.step hT hset hlimit hsize hfresh c with ⟨rep', s₁, hrun', hs₁, -⟩ | ⟨e, hpanic, -⟩
    · obtain ⟨-, rfl⟩ := fst_of_ok (hrun.symm.trans hrun')
      exact ⟨hs₁, fun e he => by cases he⟩
    · rw [hrun] at hpanic
      cases hpanic
  · intro pre c e s' ih _ hrun
    -- a panic leaves the table as it was
    rcases ih.1.step hT hset hlimit hsize hfresh c with ⟨rep, s₁, hrun', -⟩ | ⟨p, hpanic, hp⟩
    · rw [hrun] at hrun'
      cases hrun'
    · rw [hrun] at hpanic
      injection hpanic with he hsame
      subst he
      subst hsame
      refine ⟨ih.1, fun e' he => ?_⟩
      obtain rfl := Option.some.inj he
      rcases hp with rfl | rfl
      · exact Or.inl rfl
      · exact Or.inr rfl
  · intro pre c ih
    exact ih

end Calls

end LockShield.Tls
