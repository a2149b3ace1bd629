import LockShield.Table.HashTable

/-!
# The table without its counts

Which lock is in which slot or node, the free list and the blocks from `malloc`
do not depend on what the counts are, only on when a count runs out. Two states have
the same shape when they differ in their counts only (`SameShape`), and a state is
`Shaped` when it has the shape of one whose invariant holds and that tracks every
lock once. This needs no bound on the counts and no luck with `malloc`.

## Results

* `SameShape.freelistPop`, `SameShape.freelistPush`, `SameShape.convert`, `SameShape.lookup` —
  the helpers do the same to states of one shape.
* `Shaped.lookup_spec`     — a lookup finds the entry of a tracked lock.
* `Shaped.decrementEntry`  — counting down keeps the shape, or removes the lock.
* `Shaped.insertNew`       — a new lock is recorded with count 1.
* `Shaped.insertNew_starved` — unless there is no node for it: then it is dropped.
-/

namespace LockShield

open Lib

/-- Two entries that differ in their counts only. -/
structure HashEntry.SameLinks {Addr Cell : Type} (e f : HashEntry Addr Cell) : Prop where
  lockPtr : e.lockPtr = f.lockPtr
  next : e.next = f.next
  dynamic : e.dynamicallyAllocated = f.dynamicallyAllocated

namespace Tls

variable {R : CountRep} {M Addr : Type} [Inhabited Addr]

/-- The two states differ in their counts only. -/
structure SameShape (s t : Tls R M Addr) : Prop where
  lockCount : s.slots.lockCount = t.slots.lockCount
  slotPtr : ∀ i, (s.slots.lockTable i).lockPtr = (t.slots.lockTable i).lockPtr
  lockHash : s.lockHash = t.lockHash
  node : ∀ p, (s.mem p).SameLinks (t.mem p)
  freelistHead : s.freelistHead = t.freelistHead
  initialized : s.freelistInitialized = t.freelistInitialized
  heap : s.heap = t.heap
  mallocs : s.mallocs = t.mallocs

variable {s t s' t' : Tls R M Addr} {p : NodePtr} {l : Addr} {size : Nat}
  {malloc : Nat → List Nat → Option Nat}

omit [Inhabited Addr] in
theorem SameShape.refl (s : Tls R M Addr) : SameShape s s := by
  constructor <;> intros <;> first | rfl | exact ⟨rfl, rfl, rfl⟩

/-! ## Steps on one node -/

omit [Inhabited Addr] in
/-- Both memories get the same entry, apart from its count. -/
theorem sameLinks_update {Cell : Type} {m m' : NodePtr → HashEntry Addr Cell}
    {e f : HashEntry Addr Cell} (h : ∀ q, (m q).SameLinks (m' q)) (hef : e.SameLinks f)
    (q : NodePtr) :
    (Function.update m p e q).SameLinks (Function.update m' p f q) := by
  by_cases hq : q = p
  · subst hq
    simpa using hef
  · simpa [hq] using h q

omit [Inhabited Addr] in
theorem SameShape.write (h : SameShape s t) {e f : HashEntry Addr R.Cell} (hef : e.SameLinks f) :
    SameShape (s.write p e) (t.write p f) :=
  { h with node := sameLinks_update h.node hef }

omit [Inhabited Addr] in
/-- A count of one of the states changes. -/
theorem SameShape.writeCount (h : SameShape s t) (v : R.Cell) :
    SameShape (s.write p { s.mem p with recCount := v }) t := by
  refine { h with node := fun q => ?_ }
  by_cases hq : q = p
  · subst hq
    obtain ⟨hptr, hnext, hdyn⟩ := h.node q
    simpa [Tls.write] using ⟨hptr, hnext, hdyn⟩
  · simpa [Tls.write, hq] using h.node q

/-- `init_freelist` gives the nodes of both pools the same links. -/
theorem SameShape.initFreelist (h : SameShape s t) :
    SameShape (initFreelist size s) (initFreelist size t) := by
  -- the loop sets the same links in both
  have hfold : ∀ (is : List Nat) (m m' : NodePtr → HashEntry Addr R.Cell),
      (∀ q, (m q).SameLinks (m' q)) → ∀ q,
      (is.foldl (fun m i => Function.update m (.pool i)
        { m (.pool i) with
          next := some (.pool (i + 1)), dynamicallyAllocated := false }) m q).SameLinks
      (is.foldl (fun m i => Function.update m (.pool i)
        { m (.pool i) with
          next := some (.pool (i + 1)), dynamicallyAllocated := false }) m' q) := by
    intro is
    induction is with
    | nil =>
      intro m m' hm
      exact hm
    | cons i is ih =>
      intro m m' hm
      exact ih _ _ (sameLinks_update hm ⟨(hm _).lockPtr, rfl, rfl⟩)
  unfold Tls.initFreelist
  rw [h.initialized]
  split
  · exact h
  · have hlinked := fun m m' hm => hfold (List.range (size - 1)) m m' hm
    refine
      { h with
        node := sameLinks_update (hlinked _ _ fun q => ?_) ⟨(hlinked _ _ (fun q => ?_) _).lockPtr,
          rfl, rfl⟩
        freelistHead := rfl
        initialized := rfl }
    -- before the loop the pools are zeroed and the heap is as it was
    all_goals cases q with
      | pool i => exact ⟨rfl, rfl, rfl⟩
      | heap a => exact h.node (.heap a)

/-- A pop takes the same node in both states. -/
theorem SameShape.freelistPop (h : SameShape s t) {r : Option NodePtr}
    (ht : (freelistPop size malloc).run t = .ok r t') :
    ∃ s', (freelistPop size malloc).run s = .ok r s' ∧ SameShape s' t' ∧ s'.slots = s.slots := by
  -- `init_freelist` runs first and does not look at the slots
  have hinit : SameShape (Tls.initFreelist size s) (Tls.initFreelist size t) := h.initFreelist
  have hslots : (Tls.initFreelist size s).slots = s.slots := by
    unfold Tls.initFreelist
    split <;> rfl
  -- the two states as the pop finds them
  generalize hs₀ : Tls.initFreelist size s = s₀ at hinit hslots
  generalize ht₀ : Tls.initFreelist size t = t₀ at hinit
  have hhead := hinit.freelistHead
  cases htop : t₀.freelistHead with
  | some p =>
    -- the head of the list is the same node in both
    rw [htop] at hhead
    have hp := hinit.node p
    let s₁ : Tls R M Addr := ({ s₀ with freelistHead := (s₀.mem p).next } : Tls R M Addr).write p
      { s₀.mem p with dynamicallyAllocated := false }
    let t₁ : Tls R M Addr := ({ t₀ with freelistHead := (t₀.mem p).next } : Tls R M Addr).write p
      { t₀.mem p with dynamicallyAllocated := false }
    have hrun : (Tls.freelistPop size malloc).run t = .ok (some p) t₁ := by
      simp [Tls.freelistPop, ht₀, htop, t₁]
    rw [hrun] at ht
    injection ht with hr ht'
    subst hr
    subst ht'
    refine ⟨s₁, by simp [Tls.freelistPop, hs₀, hhead, s₁], ?_, hslots⟩
    have hpop : SameShape { s₀ with freelistHead := (s₀.mem p).next }
        { t₀ with freelistHead := (t₀.mem p).next } := { hinit with freelistHead := hp.next }
    exact hpop.write ⟨hp.lockPtr, hp.next, rfl⟩
  | none =>
    -- both lists are empty: `malloc` is asked the same question and gives the same answer
    rw [htop] at hhead
    have hask := congrArg₂ malloc hinit.mallocs hinit.heap
    have hcalls : s₀.mallocs + 1 = t₀.mallocs + 1 := by rw [hinit.mallocs]
    cases hm : malloc t₀.mallocs t₀.heap with
    | some a =>
      rw [hm] at hask
      let new : HashEntry Addr R.Cell :=
        { zeroEntry R Addr with dynamicallyAllocated := true, next := none }
      have hrun : (Tls.freelistPop size malloc).run t = .ok (some (.heap a))
          (({ t₀ with heap := a :: t₀.heap, mallocs := t₀.mallocs + 1 } : Tls R M Addr).write
            (.heap a) new) := by
        simp [Tls.freelistPop, ht₀, htop, hm, new]
      rw [hrun] at ht
      injection ht with hr ht'
      subst hr
      subst ht'
      refine ⟨({ s₀ with heap := a :: s₀.heap, mallocs := s₀.mallocs + 1 } : Tls R M Addr).write
        (.heap a) new, by simp [Tls.freelistPop, hs₀, hhead, hask, new], ?_, hslots⟩
      have hlive : SameShape { s₀ with heap := a :: s₀.heap, mallocs := s₀.mallocs + 1 }
          { t₀ with heap := a :: t₀.heap, mallocs := t₀.mallocs + 1 } :=
        { hinit with heap := by rw [hinit.heap], mallocs := hcalls }
      exact hlive.write ⟨rfl, rfl, rfl⟩
    | none =>
      rw [hm] at hask
      have hrun : (Tls.freelistPop size malloc).run t =
          .ok none { t₀ with mallocs := t₀.mallocs + 1 } := by
        simp [Tls.freelistPop, ht₀, htop, hm]
      rw [hrun] at ht
      injection ht with hr ht'
      subst hr
      subst ht'
      exact ⟨{ s₀ with mallocs := s₀.mallocs + 1 }, by simp [Tls.freelistPop, hs₀, hhead, hask],
        { hinit with mallocs := hcalls }, hslots⟩

omit [Inhabited Addr] in
theorem fst_of_ok {ε σ α : Type} {a b : α} {u v : σ}
    (h : (.ok a u : EStateM.Result ε σ α) = .ok b v) : a = b ∧ u = v := by
  injection h with h₁ h₂
  exact ⟨h₁, h₂⟩

/-- A push puts the same node back in both states. -/
theorem SameShape.freelistPush (h : SameShape s t)
    (ht : (freelistPush p).run t = .ok () t') :
    ∃ s', (freelistPush p).run s = .ok () s' ∧ SameShape s' t' ∧ s'.slots = s.slots := by
  have hp := h.node p
  have hdyn := hp.dynamic
  by_cases hd : (t.mem p).dynamicallyAllocated = true
  · rw [hd] at hdyn
    -- a dynamically allocated node goes back to `malloc`
    cases p with
    | pool i => simp [Tls.freelistPush, hd] at ht
    | heap a =>
      by_cases ha : a ∈ t.heap
      · have ha' : a ∈ s.heap := h.heap ▸ ha
        have hrun : (Tls.freelistPush (.heap a)).run t =
            .ok () { t with heap := t.heap.erase a } := by
          simp [Tls.freelistPush, hd, ha]
        obtain ⟨-, rfl⟩ := fst_of_ok (hrun.symm.trans ht)
        exact ⟨{ s with heap := s.heap.erase a }, by simp [Tls.freelistPush, hdyn, ha'],
          { h with heap := by rw [h.heap] }, rfl⟩
      · simp [Tls.freelistPush, hd, ha] at ht
  · -- a pool node goes to the head of the list, with its lock and count cleared
    have hd' : (s.mem p).dynamicallyAllocated = false := hdyn.trans (Bool.not_eq_true _ ▸ hd)
    let free (u : Tls R M Addr) : Tls R M Addr := ({ u with freelistHead := some p } :
      Tls R M Addr).write p { u.mem p with
        lockPtr := default, recCount := R.cellSet (u.mem p).recCount 0, next := u.freelistHead }
    have hrun : (Tls.freelistPush p).run t = .ok () (free t) := by
      simp [Tls.freelistPush, hd, free]
    obtain ⟨-, rfl⟩ := fst_of_ok (hrun.symm.trans ht)
    refine ⟨free s, by simp [Tls.freelistPush, hd', free], ?_, rfl⟩
    have hhead : SameShape { s with freelistHead := some p } { t with freelistHead := some p } :=
      { h with freelistHead := rfl }
    exact hhead.write ⟨rfl, h.freelistHead, hdyn⟩

variable [PtrMap M Addr NodePtr]

omit [Inhabited Addr] in
/-- The node gets the same lock, with a count of its own, in both states. -/
theorem SameShape.fillEntry (h : SameShape s t) {c d : Int}
    (ht : (fillEntry p l d).run t = .ok () t') :
    ∃ s', (fillEntry p l c).run s = .ok () s' ∧ SameShape s' t' ∧ s'.slots = s.slots := by
  let fill (u : Tls R M Addr) (c : Int) : Tls R M Addr :=
    (u.write p { u.mem p with
      lockPtr := l, recCount := R.cellSet (u.mem p).recCount c }).hashAddPtr p
  have hrun : (Tls.fillEntry p l d).run t = .ok () (fill t d) := rfl
  obtain ⟨-, rfl⟩ := fst_of_ok (hrun.symm.trans ht)
  refine ⟨fill s c, rfl, ?_, rfl⟩
  have hw : SameShape
      (s.write p { s.mem p with lockPtr := l, recCount := R.cellSet (s.mem p).recCount c })
      (t.write p { t.mem p with lockPtr := l, recCount := R.cellSet (t.mem p).recCount d }) :=
    h.write ⟨rfl, (h.node p).next, (h.node p).dynamic⟩
  exact { hw with lockHash := by simp [fill, Tls.hashAddPtr, Tls.write, h.lockHash] }

/-- The conversion loop moves the same slots to the same nodes. -/
theorem SameShape.convert : ∀ {k i : Nat} {s t : Tls R M Addr}, SameShape s t →
    (convert size malloc i k).run t = .ok () t' →
    ∃ s', (convert size malloc i k).run s = .ok () s' ∧ SameShape s' t' ∧ s'.slots = s.slots := by
  intro k
  induction k with
  | zero =>
    intro i s t h ht
    obtain ⟨-, rfl⟩ := fst_of_ok ht
    -- no slot is left
    exact ⟨s, rfl, h, rfl⟩
  | succ k ih =>
    intro i s t h ht
    cases hpop : (Tls.freelistPop size malloc).run t with
    | error e t₁ => simp [Tls.convert, hpop] at ht
    | ok r t₁ =>
      obtain ⟨s₁, hpop', h₁, hslots₁⟩ := h.freelistPop hpop
      cases r with
      | none => simp [Tls.convert, hpop] at ht
      | some p =>
        by_cases hi : i < maxLocks
        · -- the slot holds the same lock in both states, and possibly another count
          have hptr := h₁.slotPtr i
          have hread := Slots.read_of_lt (s := t₁.slots) hi
          have hread' := Slots.read_of_lt (s := s₁.slots) hi
          cases hfill : (Tls.fillEntry p (t₁.slots.lockTable i).lockPtr
              (R.slotVal (t₁.slots.lockTable i).recCount)).run t₁ with
          | error e t₂ => cases hfill
          | ok _ t₂ =>
            simp [Tls.convert, hpop, hread, hfill] at ht
            obtain ⟨s₂, hfill', h₂, hslots₂⟩ :=
              h₁.fillEntry (c := R.slotVal (s₁.slots.lockTable i).recCount) hfill
            obtain ⟨s', hrest, h', hslots'⟩ := ih h₂ ht
            refine ⟨s', ?_, h', by rw [hslots', hslots₂, hslots₁]⟩
            rw [← hptr] at hfill'
            simp [Tls.convert, hpop', hread', hfill', hrest]
        · have hread : t₁.slots.read i = .error .outOfBounds := by
            rw [Slots.read, if_neg hi]
          simp [Tls.convert, hpop, hread, access] at ht

variable [DecidableEq Addr]

omit [Inhabited Addr] [PtrMap M Addr NodePtr] in
/-- A scan looks at locks only. -/
theorem SameShape.scan (h : SameShape s t) (l : Addr) :
    ∀ k i, s.slots.scan l i k = t.slots.scan l i k := by
  intro k
  induction k with
  | zero =>
    intro i
    rfl
  | succ k ih =>
    intro i
    by_cases hi : i < maxLocks
    · simp [Slots.scan, Slots.read_of_lt hi, h.slotPtr i, ih, bind, Except.bind]
    · simp [Slots.scan, Slots.read, hi, bind, Except.bind]

omit [Inhabited Addr] in
/-- `lookup` finds the same entry. -/
theorem SameShape.lookup (h : SameShape s t) {r : Option EntryPtr}
    (ht : (lookup l).run t = .ok r t) : (lookup l).run s = .ok r s := by
  by_cases hmode : t.slots.lockCount ≤ maxLocks
  · -- array mode: the scan
    have hscan := h.scan l t.slots.lockCount 0
    cases hr : t.slots.scan l 0 t.slots.lockCount with
    | error e => simp [Tls.lookup, hmode, hr, access] at ht
    | ok i =>
      rw [hr] at hscan
      simp [Tls.lookup, hmode, hr] at ht
      simp [Tls.lookup, h.lockCount, hmode, hscan, ht]
  · -- hash mode: one `HASH_FIND_PTR`
    simp [Tls.lookup, hmode] at ht
    simp [Tls.lookup, h.lockCount, hmode, h.lockHash, ht]

/-! ## Shaped states -/

/-- `s` has the shape of `t`, which is as the table should be and tracks every
lock at most once. -/
structure Shaped (L : R.Laws) (size : Nat) (s t : Tls R M Addr) : Prop where
  same : SameShape s t
  inv : t.Inv L size
  once : ∀ l, t.count l ≤ 1

variable {L : R.Laws} {e : EntryPtr}

omit [Inhabited Addr] in
/-- The two lookups agree, and find an entry exactly for the tracked locks. -/
theorem Shaped.lookup_spec (h : s.Shaped L size t) (l : Addr) :
    (t.count l = 0 ∧ (lookup l).run s = .ok none s) ∨
      (t.count l = 1 ∧ ∃ e, (lookup l).run s = .ok (some e) s ∧
        (lookup l).run t = .ok (some e) t) := by
  have honce := h.once l
  rcases Tls.lookup_spec h.inv l with ⟨h0, hl⟩ | ⟨h0, e, hl⟩
  · exact Or.inl ⟨h0, h.same.lookup hl⟩
  · exact Or.inr ⟨by omega, e, h.same.lookup hl, hl⟩

omit [Inhabited Addr] in
theorem Shaped.lookup_eq_none_iff (h : s.Shaped L size t) (l : Addr) :
    (lookup l).run s = .ok none s ↔ t.count l = 0 := by
  rcases h.lookup_spec l with ⟨h0, hl⟩ | ⟨h1, e, hl, -⟩
  · exact iff_of_true hl h0
  · refine iff_of_false (fun hnone => ?_) (by omega)
    obtain ⟨habs, -⟩ := fst_of_ok (hl.symm.trans hnone)
    cases habs

omit [Inhabited Addr] in
/-- The entry that a lookup of `s` finds is also the one of `t`. -/
theorem Shaped.lookup_eq (h : s.Shaped L size t) (hl : (lookup l).run s = .ok (some e) s) :
    t.count l = 1 ∧ (lookup l).run t = .ok (some e) t := by
  rcases h.lookup_spec l with ⟨-, hnone⟩ | ⟨h1, e', hl', ht⟩
  · obtain ⟨habs, -⟩ := fst_of_ok (hl.symm.trans hnone)
    cases habs
  · obtain ⟨heq, -⟩ := fst_of_ok (hl.symm.trans hl')
    obtain rfl := Option.some.inj heq
    exact ⟨h1, ht⟩

omit [Inhabited Addr] in
/-- In hash mode `lock_count` is past the array, in both states. -/
theorem Shaped.past (h : s.Shaped L size t) (hH : t.HashMode L size) :
    maxLocks < s.slots.lockCount := by
  rw [h.same.lockCount, hH.past]
  exact Nat.lt_succ_self maxLocks

omit [Inhabited Addr] [PtrMap M Addr NodePtr] [DecidableEq Addr] in
/-- A count in a slot of one of the states changes. -/
theorem SameShape.setCount (h : SameShape s t) {slots : Slots Addr R.Slot} {i : Nat} {v : R.Slot}
    (hset : s.slots.setCount i v = .ok slots) : SameShape { s with slots := slots } t := by
  unfold Slots.setCount at hset
  split at hset
  · injection hset with hset
    subst hset
    refine { h with slotPtr := fun j => ?_ }
    rw [← h.slotPtr j]
    by_cases hj : j = i
    · subst hj
      simp
    · simp [hj]
  · cases hset

omit [Inhabited Addr] in
/-- Both states get to states of one shape, and one lock's count is set. -/
theorem Shaped.update (h : s.Shaped L size t) (hsame : SameShape s' t') (hinv : t'.Inv L size)
    {n : Nat} (hn : n ≤ 1) (hcount : t'.count = Function.update t.count l n) :
    s'.Shaped L size t' := by
  refine ⟨hsame, hinv, fun k => ?_⟩
  rw [hcount]
  by_cases hk : k = l
  · subst hk
    rw [Function.update_self]
    exact hn
  · rw [Function.update_of_ne hk]
    exact h.once k

/-- Counting down in a slot. -/
theorem Shaped.decrementSlot [LawfulPtrMap M] (h : s.Shaped L size t) (hA : t.ArrayMode L)
    {i : Nat} (hs : t.slots.scan l 0 t.slots.lockCount = .ok (some i))
    (ht : (lookup l).run t = .ok (some (.slot i)) t) (h1 : t.count l = 1) :
    ∃ v s', (decrementEntry (.slot i)).run s = .ok v s' ∧ (s'.Shaped L size t ∨
      ∃ t', s'.Shaped L size t' ∧ t'.count = Function.update t.count l 0) := by
  have hle : t.slots.lockCount ≤ maxLocks := Nat.le_of_lt hA.below
  have hle' : s.slots.lockCount ≤ maxLocks := h.same.lockCount ▸ hle
  obtain ⟨hlt, -⟩ := Slots.scan_eq_some hA.wf.fits hs
  have hi : i < maxLocks := lt_of_lt_of_le hlt hle
  by_cases hval : 1 < R.slotVal (s.slots.lockTable i).recCount
  · -- only the count of `s` goes down
    obtain ⟨slots, hset⟩ :=
      Slots.setCount_of_lt (s := s.slots) (R.slotDec (s.slots.lockTable i).recCount) hi
    exact ⟨_, { s with slots := slots },
      by simp [Tls.decrementEntry, hle', Slots.read_of_lt hi, hval, hset]; rfl,
      Or.inl { h with same := h.same.setCount hset }⟩
  · -- both arrays give the slot up: the count of `t` is 1
    obtain ⟨t', hdec, hinv, hcount⟩ := decrementEntry_spec h.inv ht
    rw [h1] at hcount
    have hv := Slots.stored_of_scan hs
    obtain ⟨c, -, hc⟩ := hA.counted l _ hv
    have hc1 : c = 1 := (count_of_slot hle hv hc).symm.trans h1
    have hval' : ¬ 1 < R.slotVal (t.slots.lockTable i).recCount := by
      rw [L.slotVal _ c hc, hc1]
      decide
    have hrem : t.slots.swapRemove i = .ok ⟨Function.update t.slots.lockTable i
        (t.slots.lockTable (t.slots.lockCount - 1)), t.slots.lockCount - 1⟩ :=
      if_pos ⟨by omega, hle, hi⟩
    have hrem' : s.slots.swapRemove i = .ok ⟨Function.update s.slots.lockTable i
        (s.slots.lockTable (s.slots.lockCount - 1)), s.slots.lockCount - 1⟩ :=
      if_pos ⟨by rw [h.same.lockCount]; omega, hle', hi⟩
    simp [Tls.decrementEntry, hle, Slots.read_of_lt hi, hval', hrem] at hdec
    obtain ⟨-, rfl⟩ := hdec
    refine ⟨0, _, by simp [Tls.decrementEntry, hle', Slots.read_of_lt hi, hval, hrem']; rfl,
      Or.inr ⟨_, h.update ?_ hinv (Nat.zero_le 1) hcount, hcount⟩⟩
    refine { h.same with lockCount := by rw [h.same.lockCount], slotPtr := fun j => ?_ }
    -- the last slot's lock moves to the freed slot, the other slots are as they were
    by_cases hj : j = i
    · subst hj
      simpa [h.same.lockCount] using h.same.slotPtr (t.slots.lockCount - 1)
    · simpa [hj] using h.same.slotPtr j

/-- Counting down in a node. -/
theorem Shaped.decrementNode [LawfulPtrMap M] (h : s.Shaped L size t) (hH : t.HashMode L size)
    (hf : t.found l = some p) (ht : (lookup l).run t = .ok (some (.node p)) t)
    (h1 : t.count l = 1) :
    ∃ v s', (decrementEntry (.node p)).run s = .ok v s' ∧ (s'.Shaped L size t ∨
      ∃ t', s'.Shaped L size t' ∧ t'.count = Function.update t.count l 0) := by
  have hgt' : ¬ s.slots.lockCount ≤ maxLocks := Nat.not_le_of_gt (h.past hH)
  have hgt : ¬ t.slots.lockCount ≤ maxLocks := h.same.lockCount ▸ hgt'
  by_cases hval : 1 < R.cellVal (s.mem p).recCount
  · -- only the count of `s` goes down
    exact ⟨_, s.write p { s.mem p with recCount := R.cellDec (s.mem p).recCount },
      by simp [Tls.decrementEntry, hgt', hval]; rfl,
      Or.inl { h with same := h.same.writeCount _ }⟩
  · -- both give the node back: the count of `t` is 1
    obtain ⟨t', hdec, hinv, hcount⟩ := decrementEntry_spec h.inv ht
    rw [h1] at hcount
    obtain ⟨fl, hp⟩ := hH.pooled
    obtain ⟨c, -, -, hc⟩ := hp.counted l p hf
    have hc1 : c = 1 := by rw [← h1, hH.count_eq, hashCount_eq hf hc]
    have hval' : ¬ 1 < R.cellVal (t.mem p).recCount := by
      rw [L.cellVal _ c hc, hc1]
      decide
    have hdel : SameShape (hashDel p s) (hashDel p t) :=
      { h.same with lockHash := by simp [hashDel, h.same.lockHash] }
    cases hpush : (Tls.freelistPush p).run (hashDel p t) with
    | error e t₁ => simp [Tls.decrementEntry, hgt, hval', hpush] at hdec
    | ok _ t₁ =>
      simp [Tls.decrementEntry, hgt, hval', hpush] at hdec
      obtain ⟨-, rfl⟩ := hdec
      obtain ⟨s₁, hpush', h₁, -⟩ := hdel.freelistPush hpush
      exact ⟨0, s₁, by simp [Tls.decrementEntry, hgt', hval, hpush'],
        Or.inr ⟨t₁, h.update h₁ hinv (Nat.zero_le 1) hcount, hcount⟩⟩

/-- Counting down leaves the shape alone, or removes the lock. -/
theorem Shaped.decrementEntry [LawfulPtrMap M] (h : s.Shaped L size t)
    (hl : (lookup l).run s = .ok (some e) s) :
    ∃ v s', (decrementEntry e).run s = .ok v s' ∧ (s'.Shaped L size t ∨
      ∃ t', s'.Shaped L size t' ∧ t'.count = Function.update t.count l 0) := by
  obtain ⟨h1, ht⟩ := h.lookup_eq hl
  rcases lookup_some_cases h.inv ht with ⟨hA, i, rfl, hs⟩ | ⟨hH, p, rfl, hf⟩
  · exact h.decrementSlot hA hs ht h1
  · exact h.decrementNode hH hf ht h1

/-! ## Recording a lock -/

section Insert

variable [LawfulPtrMap M] {fl : List NodePtr} {c : Int}

/-- A node is popped and filled in both states. In `s` the lock is then found at
the node, with the count that was assigned. -/
theorem SameShape.popFill (hfresh : MallocFresh malloc) (hlimit : 1 ≤ L.limit) (h : SameShape s t)
    (hp : t.Pooled L size fl none) (hl : t.found l = none)
    (hmem : fl = [] → malloc t.mallocs t.heap ≠ none) :
    ∃ p s₁ t₁ s₂ t₂, (Tls.freelistPop size malloc).run s = .ok (some p) s₁ ∧
      (Tls.freelistPop size malloc).run t = .ok (some p) t₁ ∧ s₁.slots = s.slots ∧
      t₁.slots = t.slots ∧
      (Tls.fillEntry p l c).run s₁ = .ok () s₂ ∧ (Tls.fillEntry p l 1).run t₁ = .ok () t₂ ∧
      SameShape s₂ t₂ ∧ (∃ fl', t₂.Pooled L size fl' none) ∧ s₂.slots = s.slots ∧
      t₂.slots = t.slots ∧ t₂.hashCount = Function.update t.hashCount l 1 ∧
      s₂.found l = some p ∧ ∃ v, (s₂.mem p).recCount = R.cellSet v c := by
  -- what the pop and the assignment do in `t` is known, and `s` follows
  obtain ⟨p, t₁, hpop, hp₁, hclean, hslots₁, hfound₁, hcount₁⟩ := freelistPop_spec hfresh hp hmem
  obtain ⟨s₁, hpop', h₁, hslots₁'⟩ := h.freelistPop hpop
  obtain ⟨t₂, hfill, hp₂, hslots₂, hfound₂, hcount₂⟩ :=
    fillEntry_spec (c := 1) hp₁ hclean (by rw [hfound₁]; exact hl) (Nat.le_refl 1) hlimit
  obtain ⟨s₂, hfill', h₂, hslots₂'⟩ := h₁.fillEntry (c := c) hfill
  -- the two hashes are the same map
  have hfound : s₂.found l = some p := by
    show PtrMap.find s₂.lockHash l = some p
    rw [h₂.lockHash]
    show t₂.found l = some p
    rw [hfound₂, Function.update_self]
  have hcell : (s₂.mem p).recCount = R.cellSet (s₁.mem p).recCount c := by
    obtain ⟨-, rfl⟩ := fst_of_ok hfill'
    simp [hashAddPtr, Tls.write]
  exact ⟨p, s₁, t₁, s₂, t₂, hpop', hpop, hslots₁', hslots₁, hfill', hfill, h₂, ⟨_, hp₂⟩,
    by rw [hslots₂', hslots₁'], by rw [hslots₂, hslots₁], by rw [hcount₂, hcount₁], hfound, _,
    hcell⟩

omit [DecidableEq Addr] [LawfulPtrMap M] in
/-- The last iteration of the conversion loop on its own. -/
theorem convert_last : ∀ {k i : Nat} {s s' : Tls R M Addr},
    (Tls.convert size malloc i (k + 1)).run s = .ok () s' →
    ∃ s₁, (Tls.convert size malloc i k).run s = .ok () s₁ ∧
      (Tls.convert size malloc (i + k) 1).run s₁ = .ok () s' := by
  intro k
  induction k with
  | zero =>
    intro i s s' h
    exact ⟨s, rfl, h⟩
  | succ k ih =>
    intro i s s' h
    cases hpop : (Tls.freelistPop size malloc).run s with
    | error e s₁ => simp [Tls.convert, hpop] at h
    | ok r s₁ =>
      cases r with
      | none => simp [Tls.convert, hpop] at h
      | some p =>
        cases hread : s₁.slots.read i with
        | error e => simp [Tls.convert, hpop, hread, access] at h
        | ok e =>
          -- the first iteration is common to both loops
          rw [Tls.convert] at h
          simp only [EStateM.run_bind, hpop, EStateM.run_get, hread, access_ok, EStateM.run_pure,
            Tls.fillEntry, EStateM.run_modify] at h
          obtain ⟨s₂, hfirst, hlast⟩ := ih h
          refine ⟨s₂, ?_, by rw [Nat.add_comm k 1, ← Nat.add_assoc]; exact hlast⟩
          simpa only [Tls.convert, EStateM.run_bind, hpop, EStateM.run_get, hread, access_ok,
            EStateM.run_pure, Tls.fillEntry, EStateM.run_modify] using hfirst

/-- One iteration for a slot with a fresh lock: it is then found at a node, with
the slot's count. -/
theorem SameShape.convert_one (hfresh : MallocFresh malloc) (hlimit : 1 ≤ L.limit)
    (h : SameShape s t) (hp : t.Pooled L size fl none) (hl : t.found l = none) {i : Nat}
    (hi : i < maxLocks) (hslot : s.slots.lockTable i = ⟨l, R.slotOne⟩)
    (hs : (Tls.convert size malloc i 1).run s = .ok () s')
    (ht : (Tls.convert size malloc i 1).run t = .ok () t') :
    ∃ p v, s'.found l = some p ∧ (s'.mem p).recCount = R.cellSet v 1 := by
  have hmem : fl = [] → malloc t.mallocs t.heap ≠ none := by
    intro hnil hfail
    have hhead : t.freelistHead = none := by
      have hlinked := hp.linked
      rw [hnil] at hlinked
      exact hlinked
    have hsetup : Tls.initFreelist size t = t := by simp [Tls.initFreelist, hp.initialized]
    -- without a node the loop dereferences null
    simp [Tls.convert, Tls.freelistPop, hsetup, hhead, hfail] at ht
  obtain ⟨p, s₁, t₁, s₂, t₂, hpop, -, hslots, -, hfill, -, -, -, -, -, -, hf, v, hv⟩ :=
    h.popFill (c := 1) hfresh hlimit hp hl hmem
  have hread : s₁.slots.read i = .ok ⟨l, R.slotOne⟩ := by
    rw [hslots, Slots.read_of_lt hi, hslot]
  have hval : R.slotVal R.slotOne = 1 := L.slotVal _ 1 L.slotOne
  simp [Tls.convert, hpop, hread, hval, hfill] at hs
  subst hs
  exact ⟨p, v, hf, hv⟩

/-- The lock is tracked, with this count. -/
def Tracks (s : Tls R M Addr) (l : Addr) (c : Int) : Prop :=
  ∃ e, (Tls.lookup l).run s = .ok (some e) s ∧ s.recCount e = c

omit [Inhabited Addr] [DecidableEq Addr] [PtrMap M Addr NodePtr] [LawfulPtrMap M] in
theorem SameShape.wf (h : SameShape s t) (hwf : t.slots.WF) : s.slots.WF := by
  refine ⟨h.lockCount ▸ hwf.fits, fun i j hi hj hij => ?_⟩
  rw [h.lockCount] at hi hj
  rw [h.slotPtr i, h.slotPtr j] at hij
  exact hwf.distinct i j hi hj hij

omit [Inhabited Addr] [DecidableEq Addr] [PtrMap M Addr NodePtr] [LawfulPtrMap M] in
/-- Both arrays get the lock in the same slot. -/
theorem SameShape.push (h : SameShape s t) {a b : Slots Addr R.Slot} {u v : R.Slot}
    (hs : s.slots.push l u = .ok a) (ht : t.slots.push l v = .ok b) :
    SameShape { s with slots := a } { t with slots := b } := by
  unfold Slots.push at hs ht
  rw [h.lockCount] at hs
  split at hs
  · rename_i hlt
    rw [if_pos hlt] at ht
    injection hs with hs
    injection ht with ht
    subst hs
    subst ht
    refine { h with lockCount := rfl, slotPtr := fun j => ?_ }
    -- the new slot has the lock in both
    by_cases hj : j = t.slots.lockCount
    · subst hj
      simp
    · simpa [hj] using h.slotPtr j
  · cases hs

omit [Inhabited Addr] [PtrMap M Addr NodePtr] [LawfulPtrMap M] in
theorem SameShape.stored_none (h : SameShape s t) (hwf : t.slots.WF)
    (hnone : t.slots.stored l = none) : s.slots.stored l = none := by
  rw [Slots.stored_eq_none_iff hwf] at hnone
  rw [Slots.stored_eq_none_iff (h.wf hwf), h.lockCount, h.scan l]
  exact hnone

/-- While the array has more than one free slot, the lock gets one. -/
theorem Shaped.insertNew_slot (hlimit : 1 ≤ L.limit) (hsize : maxLocks ≤ size)
    (hfresh : MallocFresh malloc) (h : s.Shaped L size t) (hA : t.ArrayMode L)
    (h0 : t.count l = 0) (hlast : t.slots.lockCount + 1 ≠ maxLocks) :
    ∃ s' t', (Tls.insertNew size malloc l).run s = .ok () s' ∧ SameShape s' t' ∧
      t'.Inv L size ∧ t'.count = Function.update t.count l 1 ∧ s'.Tracks l 1 := by
  have hnone := hA.count_eq_zero_iff.mp h0
  have hbelow := hA.below
  have hlc := h.same.lockCount
  have hwf := h.same.wf hA.wf
  obtain ⟨a, hpush, -, hla, -⟩ := Slots.push_spec (c := R.slotOne) hA.wf hbelow hnone
  obtain ⟨b, hpush', hwfb, hlb, hstb⟩ := Slots.push_spec (c := R.slotOne) hwf
    (by rw [hlc]; exact hbelow) (h.same.stored_none hA.wf hnone)
  -- the step of `t` is known, and here it is an assignment to the array
  obtain ⟨t', hrun, hinv, hcount⟩ :=
    insertNew_spec hlimit hsize hfresh h.inv h0 fun hH => by
      have := hH.past
      omega
  have hfull : a.lockCount ≠ maxLocks := by omega
  have hfull' : b.lockCount ≠ maxLocks := by omega
  have hrun' : (Tls.insertNew size malloc l).run t = .ok () { t with slots := a } := by
    simp [Tls.insertNew, hbelow, hpush, hfull]
  obtain ⟨-, rfl⟩ := fst_of_ok (hrun.symm.trans hrun')
  have hsame := h.same.push hpush' hpush
  refine ⟨{ s with slots := b }, _, ?_, hsame, hinv, hcount, ?_⟩
  · simp [Tls.insertNew, hlc, hbelow, hpush', hfull']
  · -- the slot that the scan stops at holds the new count
    rcases Tls.lookup_spec hinv l with ⟨habs, -⟩ | ⟨-, e, hl⟩
    · rw [hcount, Function.update_self] at habs
      cases habs
    · refine ⟨e, hsame.lookup hl, ?_⟩
      rcases lookup_some_cases hinv hl with ⟨hA', i, rfl, hs⟩ | ⟨hH, p, rfl, -⟩
      · have hscan : b.scan l 0 b.lockCount = .ok (some i) := by
          rw [show b.lockCount = a.lockCount by omega]
          exact (hsame.scan l _ 0).trans hs
        have hst := Slots.stored_of_scan hscan
        rw [hstb, Function.update_self] at hst
        show R.slotVal (b.lockTable i).recCount = 1
        rw [← Option.some.inj hst]
        exact L.slotVal _ 1 L.slotOne
      · have := hH.past
        simp only at this
        omega

/-- The lock that fills the array: the pool is full, so the conversion finds a
node for every slot, and the last one it fills is the new lock's. -/
theorem Shaped.insertNew_convert (hset : ∀ v, R.cellVal (R.cellSet v 1) = 1)
    (hlimit : 1 ≤ L.limit) (hsize : maxLocks ≤ size) (hfresh : MallocFresh malloc)
    (h : s.Shaped L size t) (hA : t.ArrayMode L) (h0 : t.count l = 0)
    (hlast : t.slots.lockCount + 1 = maxLocks) :
    ∃ s' t', (Tls.insertNew size malloc l).run s = .ok () s' ∧ SameShape s' t' ∧
      t'.Inv L size ∧ t'.count = Function.update t.count l 1 ∧ s'.Tracks l 1 := by
  have hnone := hA.count_eq_zero_iff.mp h0
  have hbelow := hA.below
  have hlc := h.same.lockCount
  have hmax : maxLocks = 4 := rfl
  obtain ⟨a, hpush, hwfa, hfull, -⟩ := convert_ready hsize hA hnone hlast
  obtain ⟨b, hpush', -, hlb, -⟩ := Slots.push_spec (c := R.slotOne) (h.same.wf hA.wf)
    (by rw [hlc]; exact hbelow) (h.same.stored_none hA.wf hnone)
  have hfull' : b.lockCount = maxLocks := by omega
  have hsame : SameShape (Tls.initFreelist size { s with slots := b })
      (Tls.initFreelist size { t with slots := a }) := (h.same.push hpush' hpush).initFreelist
  have hslots : (Tls.initFreelist size { s with slots := b }).slots = b := initFreelist_slots _
  -- the new lock is in the last slot of both arrays
  have hlasta : a.lockTable 3 = ⟨l, R.slotOne⟩ := by
    have hpushed := Slots.lockTable_push hpush
    rwa [show t.slots.lockCount = 3 by omega] at hpushed
  have hlastb : b.lockTable 3 = ⟨l, R.slotOne⟩ := by
    have hpushed := Slots.lockTable_push hpush'
    rwa [show s.slots.lockCount = 3 by omega] at hpushed
  -- the whole conversion of `t`, and of `s` along with it
  obtain ⟨t', hrun, hH, hcount⟩ := Tls.insertNew_convert hsize hfresh hA hnone hlast
  obtain ⟨t₄, -, hconv, -⟩ :=
    convert_pushed hsize hfresh hA hnone hlast hpush (Nat.le_refl maxLocks)
  obtain ⟨s₄, hconv', hsame₄, hslots₄⟩ := hsame.convert hconv
  rw [hslots] at hslots₄
  simp [Tls.insertNew, hbelow, hpush, hfull, hconv] at hrun
  subst hrun
  -- all but the last iteration: the new lock is not in the hash yet
  obtain ⟨t₃, fl₃, hconv₃, hp₃, -, -, hrest⟩ :=
    convert_pushed hsize hfresh hA hnone hlast hpush (k := 3) (by omega)
  obtain ⟨s₃, hconv₃', hsame₃, hslots₃⟩ := hsame.convert hconv₃
  have hl₃ : t₃.found l = none := by
    refine hp₃.hashCount_eq_zero_iff.mp (hrest l fun j hj hjl => ?_)
    have := hwfa.distinct j 3 (by omega) (by omega) (by rw [hjl, hlasta])
    omega
  -- the last iteration
  obtain ⟨t₃', h₃, hone⟩ := convert_last hconv
  obtain ⟨-, rfl⟩ := fst_of_ok (hconv₃.symm.trans h₃)
  obtain ⟨s₃', h₃', hone'⟩ := convert_last hconv'
  obtain ⟨-, rfl⟩ := fst_of_ok (hconv₃'.symm.trans h₃')
  obtain ⟨p, v, hf, hv⟩ := hsame₃.convert_one hfresh hlimit hp₃ hl₃ (by omega)
    (by rw [hslots₃, hslots]; exact hlastb) hone' hone
  refine ⟨{ s₄ with slots := { s₄.slots with lockCount := s₄.slots.lockCount + 1 } }, _, ?_, ?_,
    Or.inr hH, hcount, .node p, ?_, ?_⟩
  · have hbelow' : s.slots.lockCount < maxLocks := by omega
    simp [Tls.insertNew, hbelow', hpush', hfull', hconv']
  · exact { hsame₄ with lockCount := by rw [hsame₄.lockCount] }
  · -- `lock_count` is past the array, so the lookup asks the hash
    have hmode : ¬ s₄.slots.lockCount + 1 ≤ maxLocks := by
      rw [hslots₄, hfull']
      omega
    have hf' : PtrMap.find s₄.lockHash l = some p := hf
    simp [Tls.lookup, hmode, hf']
  · show R.cellVal (s₄.mem p).recCount = 1
    rw [hv, hset]

/-- In hash mode the lock gets a node if there is one. -/
theorem Shaped.insertNew_node (hset : ∀ v, R.cellVal (R.cellSet v 1) = 1) (hlimit : 1 ≤ L.limit)
    (hfresh : MallocFresh malloc) (h : s.Shaped L size t) (hH : t.HashMode L size)
    (h0 : t.count l = 0) (hmem : s.freelistHead = none → malloc s.mallocs s.heap ≠ none) :
    ∃ s' t', (Tls.insertNew size malloc l).run s = .ok () s' ∧ SameShape s' t' ∧
      t'.Inv L size ∧ t'.count = Function.update t.count l 1 ∧ s'.Tracks l 1 := by
  obtain ⟨fl, hp⟩ := hH.pooled
  have hgt : ¬ s.slots.lockCount < maxLocks := Nat.lt_asymm (h.past hH)
  have hl : t.found l = none := by
    rw [hH.count_eq] at h0
    exact hp.hashCount_eq_zero_iff.mp h0
  -- what `t` needs of `malloc` is what `s` was given
  obtain ⟨p, s₁, t₁, s₂, t₂, hpop, -, -, -, hfill, -, h₂, ⟨fl', hp₂⟩, hslots, hslotst, hcount, hf,
      v, hv⟩ := h.same.popFill (c := 1) hfresh hlimit hp hl fun hnil => by
    rw [← h.same.mallocs, ← h.same.heap]
    refine hmem (h.same.freelistHead.trans ?_)
    have hlinked := hp.linked
    rw [hnil] at hlinked
    exact hlinked
  have hH₂ : t₂.HashMode L size := ⟨by rw [hslotst]; exact hH.past, fl', hp₂⟩
  refine ⟨s₂, t₂, ?_, h₂, Or.inr hH₂, by rw [hH₂.count_eq, hcount, hH.count_eq], .node p, ?_, ?_⟩
  · simpa [Tls.insertNew, hgt, hpop] using hfill
  · have hmode : ¬ s₂.slots.lockCount ≤ maxLocks := by
      rw [hslots]
      exact Nat.not_le_of_gt (h.past hH)
    have hf' : PtrMap.find s₂.lockHash l = some p := hf
    simp [Tls.lookup, hmode, hf']
  · show R.cellVal (s₂.mem p).recCount = 1
    rw [hv, hset]

/-- Another lock needs a node and there is none: the hash is in use, the pool is
empty and `malloc` fails. -/
def Starved (malloc : Nat → List Nat → Option Nat) (s : Tls R M Addr) : Prop :=
  maxLocks ≤ s.slots.lockCount ∧ s.freelistHead = none ∧ malloc s.mallocs s.heap = none

/-- A new lock is recorded with count 1. -/
theorem Shaped.insertNew (hset : ∀ v, R.cellVal (R.cellSet v 1) = 1) (hlimit : 1 ≤ L.limit)
    (hsize : maxLocks ≤ size) (hfresh : MallocFresh malloc) (h : s.Shaped L size t)
    (h0 : t.count l = 0) (hfed : ¬ s.Starved malloc) :
    ∃ s' t', (Tls.insertNew size malloc l).run s = .ok () s' ∧ s'.Shaped L size t' ∧
      t'.count = Function.update t.count l 1 ∧ s'.Tracks l 1 := by
  obtain ⟨s', t', hrun, hsame, hinv, hcount, htracks⟩ : ∃ s' t',
      (Tls.insertNew size malloc l).run s = .ok () s' ∧ SameShape s' t' ∧
      t'.Inv L size ∧ t'.count = Function.update t.count l 1 ∧ s'.Tracks l 1 := by
    rcases h.inv with hA | hH
    · by_cases hlast : t.slots.lockCount + 1 = maxLocks
      · exact h.insertNew_convert hset hlimit hsize hfresh hA h0 hlast
      · exact h.insertNew_slot hlimit hsize hfresh hA h0 hlast
    · exact h.insertNew_node hset hlimit hfresh hH h0 fun hhead hfail =>
        hfed ⟨Nat.le_of_lt (h.past hH), hhead, hfail⟩
  exact ⟨s', t', hrun, h.update hsame hinv (Nat.le_refl 1) hcount, hcount, htracks⟩

omit [LawfulPtrMap M] in
/-- A lock for which there is no node is dropped. -/
theorem Shaped.insertNew_starved (h : s.Shaped L size t) (hs : s.Starved malloc) :
    (Tls.insertNew size malloc l).run s = .ok () { s with mallocs := s.mallocs + 1 } ∧
      Shaped L size { s with mallocs := s.mallocs + 1 } { t with mallocs := t.mallocs + 1 } := by
  obtain ⟨hfull, hhead, hfail⟩ := hs
  have hlc := h.same.lockCount
  rcases h.inv with hA | hH
  · have := hA.below
    omega
  · obtain ⟨fl, hp⟩ := hH.pooled
    have hgt : ¬ s.slots.lockCount < maxLocks := by omega
    have hsetup : Tls.initFreelist size s = s := by
      simp [Tls.initFreelist, h.same.initialized, hp.initialized]
    refine ⟨by simp [Tls.insertNew, hgt, Tls.freelistPop, hsetup, hhead, hfail], ?_, ?_, h.once⟩
    · exact { h.same with mallocs := by rw [h.same.mallocs] }
    · exact Or.inr ⟨hH.past, fl, { hp with }⟩

end Insert

end Tls

end LockShield
