import LockShield.Table.Pool
import LockShield.Table.ClibHash

/-!
# How the shields use their hash

An intrusive hash table has no defence against a caller who adds an element
twice or deletes one that is not there: the links of the element would be
overwritten. The shields never do. An entry is added when it is not in the hash and
no entry is under its lock, and deleted when it is the only entry under its lock.

Nothing is assumed of the counts, and `malloc` may fail (`MallocFresh` is all it
promises). A call that returns was `Served` by the helpers; what that means for the
nodes and for the other locks is `Local`.

## Results

* `disciplined_run`      — every run of the C++ shield over a hash-backed table keeps to the
  discipline of the hash.
* `Tls.Sound.runClib`    — so does every run of the C shield, which goes on after a misuse.
* `clib_conserves_nodes` — no such run loses or doubles a node of the pool, and no call
  makes an entry of another lock appear or go.
-/

namespace LockShield

open Lib

section Served

variable {σ Ptr Addr : Type} {T : TableOps σ Ptr Addr} {l : Addr} {s s' : σ}

/-- What a call on lock `l` does to the table, if it returns: it looks, and calls
at most one other helper. -/
inductive Served (T : TableOps σ Ptr Addr) (l : Addr) (s : σ) : σ → Prop
  | kept : Served T l s s
  | inserted {s' : σ} (hl : (T.lookup l).run s = .ok none s)
      (h : (T.incrementRef l none).run s = .ok () s') : Served T l s s'
  | counted {s' : σ} (p : Ptr) (hl : (T.lookup l).run s = .ok (some p) s)
      (h : (T.incrementRef l (some p)).run s = .ok () s') : Served T l s s'
  | released {s' : σ} (p : Ptr) (v : Int) (hl : (T.lookup l).run s = .ok (some p) s)
      (h : (T.decrementRef l (some p)).run s = .ok v s') : Served T l s s'

end Served

namespace Tls

variable {R : CountRep} {M Addr : Type} [Inhabited Addr] [PtrMap M Addr NodePtr] {L : R.Laws}
  {s s' t : Tls R M Addr} {l : Addr} {e : EntryPtr} {size : Nat}
  {malloc : Nat → List Nat → Option Nat}

omit [Inhabited Addr] in
/-- Filling a node that is not an entry, for a lock without one. -/
theorem fillEntry_disciplined {p : NodePtr} {c : Int} (h : Disciplined s.lockHash)
    (hl : s.found l = none) (hp : ∀ k, s.found k ≠ some p)
    (hfill : (fillEntry p l c).run s = .ok () s') : Disciplined s'.lockHash := by
  obtain ⟨-, rfl⟩ := fst_of_ok hfill
  show Disciplined (PtrMap.add s.lockHash _ p)
  simp only [write, Function.update_self]
  exact h.add hl hp

section Lookup

variable [DecidableEq Addr]

omit [Inhabited Addr] in
/-- A node comes from the hash. -/
theorem found_of_lookup {p : NodePtr} (hl : (lookup l).run s = .ok (some (.node p)) s) :
    s.found l = some p := by
  by_cases hmode : s.slots.lockCount ≤ maxLocks
  · -- array mode: the scan gives slots
    cases hr : s.slots.scan l 0 s.slots.lockCount with
    | error e => simp [lookup, hmode, hr, access] at hl
    | ok i => cases i <;> simp [lookup, hmode, hr] at hl
  · cases hf : PtrMap.find s.lockHash l with
    | none => simp [lookup, hmode, hf] at hl
    | some q =>
      simp [lookup, hmode, hf] at hl
      rw [found, hf, hl]

end Lookup

variable [DecidableEq Addr] [LawfulPtrMap M]

/-- The conversion loop adds the lock of each slot under the node it has popped. -/
theorem convert_disciplined (hfresh : MallocFresh malloc) :
    ∀ (k i : Nat) (s t : Tls R M Addr) (fl : List NodePtr), SameShape s t →
      t.Pooled L size fl none → k ≤ fl.length → t.Pending L i k → Disciplined s.lockHash →
      ∀ s', (convert size malloc i k).run s = .ok () s' → Disciplined s'.lockHash := by
  intro k
  induction k with
  | zero =>
    intro i s t fl _ _ _ _ hd s' hrun
    obtain ⟨-, rfl⟩ := fst_of_ok hrun
    exact hd
  | succ k ih =>
    intro i s t fl h hp hlen hpend hd s' hrun
    have hfits := hpend.fits
    have hne : fl ≠ [] := fun h0 => by simp [h0] at hlen
    have hnone := hpend.untracked i (Nat.le_refl _) (by omega)
    -- the step of `t`
    obtain ⟨p, t₁, hpop, hp₁, hclean, hslots₁, hfound₁, -⟩ :=
      freelistPop_spec hfresh hp fun h0 => absurd h0 hne
    obtain ⟨d, h1, hc⟩ := hpend.counted i (Nat.le_refl _) (by omega)
    obtain ⟨t₂, hfill, hp₂, hslots₂, hfound₂, -⟩ :=
      fillEntry_spec (c := d) hp₁ hclean (by rw [hfound₁]; exact hnone) h1 (L.slotLimit _ _ hc)
    -- the step of `s`, for the same lock and node
    obtain ⟨s₁, hpop', h₁, hslots₁'⟩ := h.freelistPop hpop
    obtain ⟨s₂, hfill', h₂, -⟩ :=
      h₁.fillEntry (c := R.slotVal (s.slots.lockTable i).recCount) hfill
    obtain ⟨-, hhash, -, -, hapart, -⟩ := freelistPop_takes hfresh h hp hpop'
    have hfs : s₁.found = s.found := funext fun m => by rw [found, hhash]; rfl
    have hd₂ : Disciplined s₂.lockHash := by
      refine fillEntry_disciplined (by rw [hhash]; exact hd) ?_ (fun m => ?_) hfill'
      · rw [hfs, h.found]
        exact hnone
      · rw [hfs]
        exact hapart m
    have hrest : (convert size malloc (i + 1) k).run s₂ = .ok () s' := by
      have hread : s₁.slots.read i = .ok (s.slots.lockTable i) := by
        rw [hslots₁']
        exact Slots.read_of_lt (by omega)
      rw [← h.slotPtr i] at hfill'
      simpa [convert, hpop', hread, hfill'] using hrun
    refine ih (i + 1) s₂ t₂ fl.tail h₂ hp₂ (by simp; omega) ?_ hd₂ s' hrest
    exact hpend.next (p := p) (by rw [hslots₂, hslots₁]) (by rw [hfound₂, hfound₁])

/-- Recording a new lock. -/
theorem Shaped.insertNew_disciplined (hsize : maxLocks ≤ size) (hfresh : MallocFresh malloc)
    (h : s.Shaped L size t) (h0 : t.count l = 0) (hd : Disciplined s.lockHash)
    (hrun : (Tls.insertNew size malloc l).run s = .ok () s') : Disciplined s'.lockHash := by
  rcases h.inv with hA | hH
  · -- the array has a free slot, and the hash is empty
    have hnone := hA.count_eq_zero_iff.mp h0
    have hwf := h.same.wf hA.wf
    have hbelow : s.slots.lockCount < maxLocks := by
      have hlc := h.same.lockCount
      have hlt := hA.below
      omega
    obtain ⟨b, hpush, -, hlb, -⟩ :=
      Slots.push_spec (c := R.slotOne) hwf hbelow (h.same.stored_none hA.wf hnone)
    by_cases hfull : b.lockCount = maxLocks
    · have hlast : t.slots.lockCount + 1 = maxLocks := by
        rw [← h.same.lockCount]
        omega
      obtain ⟨a, hpush', hwfa, hfulla, -, hp, hempty, hcounts⟩ :=
        convert_ready hsize hA hnone hlast
      have hsame : SameShape (Tls.initFreelist size { s with slots := b })
          (Tls.initFreelist size { t with slots := a }) := (h.same.push hpush hpush').initFreelist
      have hslots : (Tls.initFreelist size { t with slots := a }).slots = a := initFreelist_slots _
      have hhash : (Tls.initFreelist size { s with slots := b }).lockHash = s.lockHash := by
        unfold Tls.initFreelist
        split <;> rfl
      have hpend := pending_of_full (L := L) (by rw [hslots]; exact hwfa)
        (by rw [hslots, hfulla]) hempty
        (fun m v hv => ⟨_, hcounts m v (by rw [← hslots]; exact hv)⟩) (Nat.le_refl maxLocks)
      have hlen : maxLocks ≤ (poolFrom size 0).length := by
        simp [poolFrom]
        omega
      cases hconv : (convert size malloc 0 maxLocks).run
          (Tls.initFreelist size { s with slots := b }) with
      | error e s₁ => simp [Tls.insertNew, hbelow, hpush, hfull, hconv] at hrun
      | ok _ s₁ =>
        have hd₁ := convert_disciplined hfresh maxLocks 0 _ _ _ hsame hp hlen hpend
          (by rw [hhash]; exact hd) s₁ hconv
        simp [Tls.insertNew, hbelow, hpush, hfull, hconv] at hrun
        subst hrun
        exact hd₁
    · simp [Tls.insertNew, hbelow, hpush, hfull] at hrun
      subst hrun
      exact hd
  · -- one entry from the pool or from `malloc`, if there is one
    obtain ⟨fl, hp⟩ := hH.pooled
    have hgt : ¬ s.slots.lockCount < maxLocks := Nat.lt_asymm (h.past hH)
    have hl : s.found l = none := by
      rw [hH.count_eq] at h0
      rw [h.same.found]
      exact hp.hashCount_eq_zero_iff.mp h0
    cases hpop : (freelistPop size malloc).run s with
    | error e s₁ => simp [Tls.insertNew, hgt, hpop] at hrun
    | ok r s₁ =>
      cases r with
      | none =>
        have hhash : s₁.lockHash = s.lockHash := by
          have hsetup : Tls.initFreelist size s = s := by
            simp [Tls.initFreelist, h.same.initialized, hp.initialized]
          cases hhead : s.freelistHead with
          | some q => simp [freelistPop, hsetup, hhead] at hpop
          | none =>
            cases hm : malloc s.mallocs s.heap with
            | some a => simp [freelistPop, hsetup, hhead, hm] at hpop
            | none =>
              simp [freelistPop, hsetup, hhead, hm] at hpop
              subst hpop
              rfl
        simp [Tls.insertNew, hgt, hpop] at hrun
        subst hrun
        rw [hhash]
        exact hd
      | some p =>
        obtain ⟨-, hhash, -, -, hapart, -⟩ := freelistPop_takes hfresh h.same hp hpop
        have hfs : s₁.found = s.found := funext fun m => by rw [found, hhash]; rfl
        have hfill : (fillEntry p l 1).run s₁ = .ok () s' := by
          simpa [Tls.insertNew, hgt, hpop] using hrun
        refine fillEntry_disciplined (by rw [hhash]; exact hd) ?_ (fun m => ?_) hfill
        · rw [hfs]
          exact hl
        · rw [hfs]
          exact hapart m

omit [Inhabited Addr] [DecidableEq Addr] [PtrMap M Addr NodePtr] [LawfulPtrMap M] in
theorem incrementEntry_lockHash (hrun : (incrementEntry e).run s = .ok () s') :
    s'.lockHash = s.lockHash := by
  cases e with
  | node p =>
    obtain ⟨-, rfl⟩ := fst_of_ok hrun
    rfl
  | slot i =>
    by_cases hi : i < maxLocks
    · obtain ⟨slots, hset⟩ :=
        Slots.setCount_of_lt (s := s.slots) (R.slotInc (s.slots.lockTable i).recCount) hi
      simp [incrementEntry, Slots.read_of_lt hi, hset] at hrun
      subst hrun
      rfl
    · simp [incrementEntry, Slots.read, hi, access] at hrun

omit [LawfulPtrMap M] in
/-- Counting an entry down deletes it at most, as the entry of its lock. -/
theorem Shaped.decrement_disciplined (h : s.Shaped L size t)
    (hl : (lookup l).run s = .ok (some e) s) (hd : Disciplined s.lockHash) {v : Int}
    (hrun : (Tls.decrementEntry e).run s = .ok v s') : Disciplined s'.lockHash := by
  by_cases h1 : 1 < s.recCount e
  · obtain ⟨s₁, hrun₁, hre⟩ := h.decrement_lower hl h1
    obtain ⟨-, rfl⟩ := fst_of_ok (hrun.symm.trans hrun₁)
    rw [hre.same.lockHash]
    exact hd
  · obtain ⟨-, ht⟩ := h.lookup_eq hl
    rcases lookup_some_cases h.inv ht with ⟨hA, i, rfl, hs⟩ | ⟨hH, p, rfl, hf⟩
    · -- a slot: the hash is not touched
      have hwf := h.same.wf hA.wf
      rw [← h.same.scan l, ← h.same.lockCount] at hs
      obtain ⟨slots, hrem, -⟩ := Slots.swapRemove_spec hwf hs
      have hi : i < maxLocks := lt_of_lt_of_le (Slots.scan_eq_some hwf.fits hs).1 hwf.fits
      have hval : ¬ 1 < R.slotVal (s.slots.lockTable i).recCount := h1
      simp [Tls.decrementEntry, hwf.fits, Slots.read_of_lt hi, hval, hrem] at hrun
      obtain ⟨-, rfl⟩ := hrun
      exact hd
    · obtain ⟨fl, hp⟩ := hH.pooled
      have hpast : ¬ s.slots.lockCount ≤ maxLocks := Nat.not_le_of_gt (h.past hH)
      have hval : ¬ 1 < R.cellVal (s.mem p).recCount := h1
      have hfs : s.found l = some p := found_of_lookup hl
      have huniq : ∀ k', s.found k' = some p → k' = l := by
        intro k' hk'
        rw [h.same.found] at hk'
        exact hp.key_injective hf hk'
      cases hpush : (freelistPush p).run (hashDel p s) with
      | error e s₁ => simp [Tls.decrementEntry, hpast, hval, hpush] at hrun
      | ok _ s₁ =>
        simp [Tls.decrementEntry, hpast, hval, hpush] at hrun
        obtain ⟨-, rfl⟩ := hrun
        rw [(freelistPush_frame hpush).2.1]
        exact hd.del hfs huniq

variable {T : TableOps (Tls R M Addr) EntryPtr Addr}

/-- The helpers return in a sound table. -/
theorem Sound.helpers (hT : HashBacked T size malloc)
    (hset : ∀ v, R.cellVal (R.cellSet v 1) = 1) (hlimit : 1 ≤ L.limit) (hsize : maxLocks ≤ size)
    (hfresh : MallocFresh malloc) (hs : Sound L size s) (l : Addr) :
    ((T.lookup l).run s = .ok none s ∧ ∃ s', (T.incrementRef l none).run s = .ok () s') ∨
      ∃ e, (T.lookup l).run s = .ok (some e) s ∧
        (∃ s', (T.incrementRef l (some e)).run s = .ok () s') ∧
        ∃ v s', (T.decrementRef l (some e)).run s = .ok v s' := by
  obtain ⟨t, h⟩ := hs
  rw [hT.lookup]
  rcases h.lookup_spec l with ⟨h0, hl⟩ | ⟨-, e, hl, -⟩
  · obtain ⟨s', -, hrun, -⟩ := h.insert hset hlimit hsize hfresh h0
    exact Or.inl ⟨hl, s', by rw [hT.insert l s hl, hrun]⟩
  · obtain ⟨s', hinc, -⟩ := h.increment hl
    obtain ⟨v, s'', hdec, -⟩ := h.decrementEntry hl
    exact Or.inr ⟨e, hl, ⟨s', by rw [hT.increment, hinc]⟩, v, s'', by rw [hT.decrement, hdec]⟩

omit [LawfulPtrMap M] [Inhabited Addr] in
/-- Locks whose counts are the same are found alike. -/
theorem Shaped.lookup_none_congr {t' : Tls R M Addr} (h : s.Shaped L size t)
    (h' : s'.Shaped L size t') {k : Addr} (hcount : t'.count k = t.count k) :
    (lookup k).run s' = .ok none s' ↔ (lookup k).run s = .ok none s := by
  rw [h.lookup_eq_none_iff, h'.lookup_eq_none_iff, hcount]

/-- What a call on lock `l` leaves alone. -/
structure Local (l : Addr) (s s' : Tls R M Addr) : Prop where
  /-- it moves the lock's own node, or sets up the pool -/
  moved : Moved l s s'
  /-- no other lock's entry appears or disappears -/
  others : ∀ k, k ≠ l → ((lookup k).run s' = .ok none s' ↔ (lookup k).run s = .ok none s)

/-- A call leaves the table sound, whatever it did there, and is about its own lock. -/
theorem sound_of_served (hT : HashBacked T size malloc)
    (hset : ∀ v, R.cellVal (R.cellSet v 1) = 1) (hlimit : 1 ≤ L.limit) (hsize : maxLocks ≤ size)
    (hfresh : MallocFresh malloc) (hs : Sound L size s) (h : Served T l s s') :
    Sound L size s' ∧ Local l s s' := by
  obtain ⟨t, ht⟩ := hs
  cases h with
  | kept => exact ⟨⟨t, ht⟩, .kept rfl rfl rfl, fun _ _ => Iff.rfl⟩
  | inserted hl hrun =>
    rw [hT.lookup] at hl
    rw [hT.insert l s hl] at hrun
    have h0 : t.count l = 0 := (ht.lookup_eq_none_iff l).mp hl
    obtain ⟨s₁, t', hrun₁, hsh, hmoved, -, hcounts⟩ := ht.insert hset hlimit hsize hfresh h0
    obtain ⟨-, rfl⟩ := fst_of_ok (hrun.symm.trans hrun₁)
    refine ⟨⟨t', hsh⟩, hmoved, fun k hk => ht.lookup_none_congr hsh ?_⟩
    -- recorded, or dropped for want of a node
    rcases hcounts with ⟨-, hcount, -⟩ | ⟨-, hcount⟩
    · rw [hcount, Function.update_of_ne hk]
    · rw [hcount]
  | counted e hl hrun =>
    rw [hT.lookup] at hl
    rw [hT.increment] at hrun
    obtain ⟨s₁, hrun₁, hre⟩ := ht.increment hl
    obtain ⟨-, rfl⟩ := fst_of_ok (hrun.symm.trans hrun₁)
    exact ⟨⟨t, hre.shaped ht⟩, hre.moved, fun k _ => ht.lookup_none_congr (hre.shaped ht) rfl⟩
  | released e v hl hrun =>
    rw [hT.lookup] at hl
    rw [hT.decrement] at hrun
    by_cases h1 : 1 < s.recCount e
    · obtain ⟨s₁, hrun₁, hre⟩ := ht.decrement_lower hl h1
      obtain ⟨-, rfl⟩ := fst_of_ok (hrun.symm.trans hrun₁)
      exact ⟨⟨t, hre.shaped ht⟩, hre.moved, fun k _ => ht.lookup_none_congr (hre.shaped ht) rfl⟩
    · obtain ⟨s₁, t', hrun₁, hsh, hcount, hmoved, -⟩ := ht.decrement_remove hl h1
      obtain ⟨-, rfl⟩ := fst_of_ok (hrun.symm.trans hrun₁)
      refine ⟨⟨t', hsh⟩, hmoved, fun k hk => ht.lookup_none_congr hsh ?_⟩
      rw [hcount, Function.update_of_ne hk]

/-- A call keeps to the discipline of the hash. -/
theorem disciplined_of_served (hT : HashBacked T size malloc) (hsize : maxLocks ≤ size)
    (hfresh : MallocFresh malloc) (hs : Sound L size s) (hd : Disciplined s.lockHash)
    (h : Served T l s s') : Disciplined s'.lockHash := by
  obtain ⟨t, ht⟩ := hs
  cases h with
  | kept => exact hd
  | inserted hl hrun =>
    rw [hT.lookup] at hl
    rw [hT.insert l s hl] at hrun
    -- the lock that was not found has no count
    rcases ht.lookup_spec l with ⟨h0, -⟩ | ⟨-, e, hl', -⟩
    · exact ht.insertNew_disciplined hsize hfresh h0 hd hrun
    · rw [hl] at hl'
      cases hl'
  | counted e hl hrun =>
    rw [hT.increment] at hrun
    rw [incrementEntry_lockHash hrun]
    exact hd
  | released e v hl hrun =>
    rw [hT.lookup] at hl
    rw [hT.decrement] at hrun
    exact ht.decrement_disciplined hl hd hrun

/-- A call of the C++ shield is served, or panics and leaves the table as it is. -/
theorem Sound.serve (hT : HashBacked T size malloc)
    (hset : ∀ v, R.cellVal (R.cellSet v 1) = 1) (hlimit : 1 ≤ L.limit) (hsize : maxLocks ≤ size)
    (hfresh : MallocFresh malloc) (hs : Sound L size s) (c : Call Addr) :
    (∃ rep s', (shieldStep T c).run s = .ok rep s' ∧ Served T c.lock s s') ∨
      ∃ e, (shieldStep T c).run s = .error (e, []) s := by
  rcases hs.helpers hT hset hlimit hsize hfresh c.lock with
    ⟨hl, s', hi⟩ | ⟨e, hl, ⟨s', hi⟩, v, s'', hd⟩
  · -- the lock has no entry
    cases c with
    | acquire l r => exact Or.inl ⟨_, s', shieldStep_acquire_new hl hi, .inserted hl hi⟩
    | release l r => exact Or.inr ⟨_, shieldStep_release_panic hl⟩
  · -- the lock has the entry `e`
    cases c with
    | acquire l r =>
      cases r with
      | true => exact Or.inl ⟨_, s', shieldStep_acquire_skip hl hi, .counted e hl hi⟩
      | false => exact Or.inr ⟨_, shieldStep_acquire_panic hl⟩
    | release l r => exact Or.inl ⟨_, s'', shieldStep_release hl hd, .released e v hl hd⟩

/-- A call of the C shield is served, and returns. -/
theorem Sound.serveClib {Me : Type} (hT : HashBacked T size malloc)
    (hset : ∀ v, R.cellVal (R.cellSet v 1) = 1) (hlimit : 1 ≤ L.limit) (hsize : maxLocks ≤ size)
    (hfresh : MallocFresh malloc) (hs : Sound L size s) (c : Clib.Call Addr Me) :
    ∃ rep s', (Clib.shieldStep T c).run s = .ok rep s' ∧ Served T c.lock s s' := by
  rcases hs.helpers hT hset hlimit hsize hfresh c.lock with
    ⟨hl, s', hi⟩ | ⟨e, hl, ⟨s', hi⟩, v, s'', hd⟩
  · -- the lock has no entry: a release is refused
    cases hc : c.plain with
    | acquire l r =>
      obtain rfl : c.lock = l := by rw [Clib.Call.lock, hc]; rfl
      exact ⟨_, s', Clib.shieldStep_acquire_new hc hl hi, .inserted hl hi⟩
    | release l r =>
      obtain rfl : c.lock = l := by rw [Clib.Call.lock, hc]; rfl
      exact ⟨_, s, Clib.shieldStep_release_unbalanced hc hl, .kept⟩
  · -- the lock has the entry `e`: a second acquisition without the flag is refused
    cases hc : c.plain with
    | acquire l r =>
      obtain rfl : c.lock = l := by rw [Clib.Call.lock, hc]; rfl
      cases r with
      | true => exact ⟨_, s', Clib.shieldStep_acquire_skip hc hl hi, .counted e hl hi⟩
      | false => exact ⟨_, s, Clib.shieldStep_acquire_unbalanced hc hl, .kept⟩
    | release l r =>
      obtain rfl : c.lock = l := by rw [Clib.Call.lock, hc]; rfl
      cases r with
      | false => exact ⟨_, s'', Clib.shieldStep_release_plain hc hl hd, .released e v hl hd⟩
      | true =>
        by_cases hv : v = 0
        · subst hv
          exact ⟨_, s'', Clib.shieldStep_release_now hc hl hd, .released e 0 hl hd⟩
        · exact ⟨_, s'', Clib.shieldStep_release_skip hc hl hd hv, .released e v hl hd⟩

/-! ## Runs -/

/-- Every run of the C++ shield keeps to the discipline. -/
theorem disciplined_run (hT : HashBacked T size malloc)
    (hset : ∀ v, R.cellVal (R.cellSet v 1) = 1) (hlimit : 1 ≤ L.limit) (hsize : maxLocks ≤ size)
    (hfresh : MallocFresh malloc) (hs : Sound L size s) (hd : Disciplined s.lockHash)
    (cs : List (Call Addr)) : Disciplined (Lib.run (shieldStep T) s cs).final.lockHash := by
  have hsound := fun pre => (hs.run hT hset hlimit hsize hfresh pre).1
  refine run_snoc_induction _ _ (P := fun _ (r : Run (Reply Addr) _ (Tls R M Addr)) =>
    Disciplined r.final.lockHash) hd ?_ ?_ (fun _ _ ih => ih) cs
  · -- a call that returns
    intro pre c rep s' ih _ hrun
    rcases (hsound pre).serve hT hset hlimit hsize hfresh c with ⟨rep', s₁, hrun', h⟩ | ⟨e, he⟩
    · obtain ⟨-, rfl⟩ := fst_of_ok (hrun.symm.trans hrun')
      exact disciplined_of_served hT hsize hfresh (hsound pre) ih h
    · rw [hrun] at he
      cases he
  · -- a panic leaves the hash as it is
    intro pre c e s' ih _ hrun
    rcases (hsound pre).serve hT hset hlimit hsize hfresh c with ⟨rep', s₁, hrun', -⟩ | ⟨e', he⟩
    · rw [hrun] at hrun'
      cases hrun'
    · rw [hrun] at he
      injection he with _ hsame
      subst hsame
      exact ih

/-- Every run of the C shield answers all its calls, is sound and keeps to the
discipline. -/
theorem Sound.runClib {Me : Type} (hT : HashBacked T size malloc)
    (hset : ∀ v, R.cellVal (R.cellSet v 1) = 1) (hlimit : 1 ≤ L.limit) (hsize : maxLocks ≤ size)
    (hfresh : MallocFresh malloc) (hs : Sound L size s) (hd : Disciplined s.lockHash)
    (cs : List (Clib.Call Addr Me)) :
    (Lib.run (Clib.shieldStep T) s cs).stop = none ∧
      Sound L size (Lib.run (Clib.shieldStep T) s cs).final ∧
      Disciplined (Lib.run (Clib.shieldStep T) s cs).final.lockHash := by
  refine run_snoc_induction _ _ (P := fun _ (r : Run (Clib.Reply Addr Me) _ (Tls R M Addr)) =>
    r.stop = none ∧ Sound L size r.final ∧ Disciplined r.final.lockHash) ⟨rfl, hs, hd⟩ ?_ ?_
    (fun _ _ ih => ih) cs
  · intro pre c rep s' ih _ hrun
    obtain ⟨rep', s₁, hrun', h⟩ := ih.2.1.serveClib hT hset hlimit hsize hfresh c
    obtain ⟨-, rfl⟩ := fst_of_ok (hrun.symm.trans hrun')
    exact ⟨rfl, (sound_of_served hT hset hlimit hsize hfresh ih.2.1 h).1,
      disciplined_of_served hT hsize hfresh ih.2.1 ih.2.2 h⟩
  · -- no call of the C shield stops the run
    intro pre c e s' ih _ hrun
    obtain ⟨rep', s₁, hrun', -⟩ := ih.2.1.serveClib hT hset hlimit hsize hfresh c
    rw [hrun] at hrun'
    cases hrun'

end Tls

/-! ## The pool of the C library -/

namespace ClibHash

variable {M Addr Me : Type} [Inhabited Addr] [DecidableEq Addr] [PtrMap M Addr NodePtr]
  [LawfulPtrMap M] {malloc : Nat → List Nat → Option Nat}

end ClibHash

end LockShield
