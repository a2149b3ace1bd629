import LockShield.Table.HashInv

/-!
# The hash-backed table as a table of counters

A state between two calls is either an array with a free slot and an untouched
pool, or a hash (`Inv`). The step between the two happens inside one
`insertNew`: `convert_spec` follows the conversion loop, which finds the pool
full and therefore never needs `malloc`.

`HashBacked` are the variants whose helpers are those of `Table/Hash`, up to what
they do with a null entry.

## Results

* `lookup_spec`         — a lookup finds an entry exactly when the count is positive.
* `insertNew_spec`, `incrementEntry_spec`, `decrementEntry_spec` — each helper keeps `Inv`
  and changes the map of counts at one lock, in any mode.
* `insertNew_convert`   — the lock that fills the array: all four end up in the hash.
* `insertNew_untouched`, `decrementEntry_untouched` — the pool is as the thread found it
  until the array is full.
* `HashBacked.refTable` — with a `malloc` that does not fail, a table of counters without a
  capacity.
* `arrayTable`          — while a slot stays free, one that does not need `malloc`.
-/

namespace LockShield.Tls

open Lib

variable {R : CountRep} {M Addr : Type} [Inhabited Addr] [DecidableEq Addr]
  [PtrMap M Addr NodePtr]

/-- Fewer than `MAX_LOCKS` locks so far: all of them in the array. -/
structure ArrayMode (L : R.Laws) (s : Tls R M Addr) : Prop where
  wf : s.slots.WF
  below : s.slots.lockCount < maxLocks
  counted : ∀ l v, s.slots.stored l = some v → ∃ c, 1 ≤ c ∧ L.slotRep v c
  fresh : s.freelistInitialized = false
  empty : ∀ k, s.found k = none
  noHeap : s.heap = []

/-- `MAX_LOCKS` locks were tracked at some point: all of them are in the hash. -/
structure HashMode (L : R.Laws) (size : Nat) (s : Tls R M Addr) : Prop where
  past : s.slots.lockCount = maxLocks + 1
  pooled : ∃ fl, s.Pooled L size fl none

/-- The representation invariant between two calls. -/
def Inv (L : R.Laws) (size : Nat) (s : Tls R M Addr) : Prop :=
  s.ArrayMode L ∨ s.HashMode L size

/-- The count of a lock, zero when it is not tracked. -/
def count (s : Tls R M Addr) (l : Addr) : Nat :=
  if s.slots.lockCount ≤ maxLocks then
    match s.slots.stored l with
    | some v => (R.slotVal v).toNat
    | none => 0
  else s.hashCount l

variable {L : R.Laws} {size : Nat} {malloc : Nat → List Nat → Option Nat}
  {s : Tls R M Addr} {l : Addr} {e : EntryPtr}

/-! ## Counts in the two modes -/

omit [Inhabited Addr] in
theorem count_of_slot {v : R.Slot} {c : Nat} (h : s.slots.lockCount ≤ maxLocks)
    (hv : s.slots.stored l = some v) (hc : L.slotRep v c) : s.count l = c := by
  simp [count, h, hv, L.slotVal v c hc]

omit [Inhabited Addr] in
theorem count_of_not_stored (h : s.slots.lockCount ≤ maxLocks) (hv : s.slots.stored l = none) :
    s.count l = 0 := by
  simp [count, h, hv]

omit [Inhabited Addr] in
theorem ArrayMode.count_eq_zero_iff (h : s.ArrayMode L) :
    s.count l = 0 ↔ s.slots.stored l = none := by
  cases hv : s.slots.stored l with
  | none => simp [count_of_not_stored (Nat.le_of_lt h.below) hv]
  | some v =>
    -- a stored count is positive
    obtain ⟨c, h1, hc⟩ := h.counted l v hv
    rw [count_of_slot (Nat.le_of_lt h.below) hv hc]
    simp
    omega

omit [Inhabited Addr] in
theorem HashMode.count_eq (h : s.HashMode L size) : s.count = s.hashCount := by
  funext k
  have : ¬ s.slots.lockCount ≤ maxLocks := by
    have := h.past
    omega
  simp [count, this]

omit [Inhabited Addr] in
/-- A slot update that keeps the table in array mode updates the counts. -/
theorem ArrayMode.update (h : s.ArrayMode L) {slots : Slots Addr R.Slot} (hwf : slots.WF)
    (hbelow : slots.lockCount < maxLocks) {o : Option R.Slot} {c : Nat}
    (hst : slots.stored = Function.update s.slots.stored l o)
    (ho : (o = none ∧ c = 0) ∨ ∃ v, o = some v ∧ 1 ≤ c ∧ L.slotRep v c) :
    ({ s with slots := slots } : Tls R M Addr).ArrayMode L ∧
      ({ s with slots := slots } : Tls R M Addr).count = Function.update s.count l c := by
  refine ⟨⟨hwf, hbelow, fun k v hv => ?_, h.fresh, h.empty, h.noHeap⟩, funext fun k => ?_⟩
  · change slots.stored k = some v at hv
    rw [hst] at hv
    by_cases hk : k = l
    · subst hk
      rw [Function.update_self] at hv
      -- a removed lock is not stored any more
      rcases ho with ⟨rfl, -⟩ | ⟨w, rfl, h1, hw⟩
      · cases hv
      · obtain rfl : w = v := Option.some.inj hv
        exact ⟨c, h1, hw⟩
    · rw [Function.update_of_ne hk] at hv
      exact h.counted k v hv
  · have hle : slots.lockCount ≤ maxLocks := Nat.le_of_lt hbelow
    have hle' : s.slots.lockCount ≤ maxLocks := Nat.le_of_lt h.below
    by_cases hk : k = l
    · subst hk
      rw [Function.update_self]
      rcases ho with ⟨rfl, rfl⟩ | ⟨w, rfl, -, hw⟩
      · exact count_of_not_stored hle (by simp [hst])
      · exact count_of_slot hle (by simp [hst]) hw
    · rw [Function.update_of_ne hk]
      simp [count, hle, hle', hst, hk]

/-! ## Lookup -/

omit [Inhabited Addr] in
theorem lookup_array (h : s.ArrayMode L) {r : Option Nat}
    (hs : s.slots.scan l 0 s.slots.lockCount = .ok r) :
    (lookup l).run s = .ok (r.map .slot) s := by
  simp [lookup, Nat.le_of_lt h.below, hs]

omit [Inhabited Addr] in
theorem lookup_hash (h : s.HashMode L size) :
    (lookup l).run s = .ok ((s.found l).map .node) s := by
  have hgt : ¬ s.slots.lockCount ≤ maxLocks := by
    have := h.past
    omega
  simp [lookup, hgt, found]

omit [Inhabited Addr] in
theorem ArrayMode.lookup_spec (h : s.ArrayMode L) (l : Addr) :
    (s.count l = 0 ∧ (lookup l).run s = .ok none s) ∨
      (s.count l ≠ 0 ∧ ∃ e, (lookup l).run s = .ok (some e) s) := by
  rcases Slots.scan_cases h.wf l with hs | ⟨i, hs⟩
  · -- in the array the scan decides
    have hst := (Slots.stored_eq_none_iff h.wf).mpr hs
    exact Or.inl ⟨h.count_eq_zero_iff.mpr hst, lookup_array h hs⟩
  · refine Or.inr ⟨fun h0 => ?_, .slot i, lookup_array h hs⟩
    rw [(Slots.stored_eq_none_iff h.wf).mp (h.count_eq_zero_iff.mp h0)] at hs
    exact absurd hs (by simp)

omit [Inhabited Addr] in
/-- Looking a lock up finds an entry exactly when its count is positive. -/
theorem lookup_spec (h : s.Inv L size) (l : Addr) :
    (s.count l = 0 ∧ (lookup l).run s = .ok none s) ∨
      (s.count l ≠ 0 ∧ ∃ e, (lookup l).run s = .ok (some e) s) := by
  rcases h with h | h
  · exact h.lookup_spec l
  · -- in the hash, stored counts are positive
    obtain ⟨fl, hp⟩ := h.pooled
    have hzero := hp.hashCount_eq_zero_iff (l := l)
    rw [h.count_eq, lookup_hash h]
    cases hf : s.found l with
    | none => exact Or.inl ⟨hzero.mpr hf, rfl⟩
    | some p => exact Or.inr ⟨fun h0 => by simp [hzero.mp h0] at hf, .node p, rfl⟩

omit [Inhabited Addr] in
/-- In the array, the entry found by `lookup` is a slot. -/
theorem ArrayMode.slot_of_lookup (h : s.ArrayMode L)
    (hl : (lookup l).run s = .ok (some e) s) :
    ∃ i, s.slots.scan l 0 s.slots.lockCount = .ok (some i) ∧ e = .slot i := by
  rcases Slots.scan_cases h.wf l with hs | ⟨i, hs⟩
  · rw [lookup_array h hs] at hl
    exact absurd hl (by simp)
  · rw [lookup_array h hs] at hl
    exact ⟨i, hs, by simpa using hl.symm⟩

omit [Inhabited Addr] in
/-- What the entry found by `lookup` is, by mode. -/
theorem lookup_some_cases (h : s.Inv L size) (hl : (lookup l).run s = .ok (some e) s) :
    (s.ArrayMode L ∧ ∃ i, e = .slot i ∧ s.slots.scan l 0 s.slots.lockCount = .ok (some i)) ∨
      (s.HashMode L size ∧ ∃ p, e = .node p ∧ s.found l = some p) := by
  rcases h with h | h
  · obtain ⟨i, hs, he⟩ := h.slot_of_lookup hl
    exact Or.inl ⟨h, i, he, hs⟩
  · rw [lookup_hash h] at hl
    cases hf : s.found l with
    | none => simp [hf] at hl
    | some p => exact Or.inr ⟨h, p, by simpa [hf] using hl.symm, rfl⟩

/-! ## Insertion -/

section Insert

variable [LawfulPtrMap M]

/-- The slots `i, …, i + k - 1` hold distinct locks with their counts, and none of
these locks is in the hash. -/
structure Pending (L : R.Laws) (s : Tls R M Addr) (i k : Nat) : Prop where
  fits : i + k ≤ maxLocks
  untracked : ∀ j, i ≤ j → j < i + k → s.found (s.slots.lockTable j).lockPtr = none
  counted : ∀ j, i ≤ j → j < i + k → ∃ c, 1 ≤ c ∧ L.slotRep (s.slots.lockTable j).recCount c
  distinct : ∀ j j', i ≤ j → j < i + k → i ≤ j' → j' < i + k →
    (s.slots.lockTable j).lockPtr = (s.slots.lockTable j').lockPtr → j = j'

omit [Inhabited Addr] [LawfulPtrMap M] in
/-- When slot `i` is in the hash, the slots after it are left. -/
theorem Pending.next {i k : Nat} {p : NodePtr} {s' : Tls R M Addr}
    (h : s.Pending L i (k + 1)) (hslots : s'.slots = s.slots)
    (hfound : s'.found = Function.update s.found (s.slots.lockTable i).lockPtr (some p)) :
    s'.Pending L (i + 1) k := by
  have hfits := h.fits
  refine ⟨by omega, fun j hj1 hj2 => ?_, fun j hj1 hj2 => ?_, fun j j' hj1 hj2 hj1' hj2' heq => ?_⟩
  · have hji : (s.slots.lockTable j).lockPtr ≠ (s.slots.lockTable i).lockPtr := by
      intro heq
      have := h.distinct j i (by omega) (by omega) (Nat.le_refl _) (by omega) heq
      omega
    rw [hslots, hfound, Function.update_of_ne hji]
    exact h.untracked j (by omega) (by omega)
  · rw [hslots]
    exact h.counted j (by omega) (by omega)
  · rw [hslots] at heq
    exact h.distinct j j' (by omega) (by omega) (by omega) (by omega) heq

omit [Inhabited Addr] [LawfulPtrMap M] in
/-- A full array, and nothing in the hash. -/
theorem pending_of_full (hwf : s.slots.WF) (hfull : s.slots.lockCount = maxLocks)
    (hempty : ∀ k, s.found k = none)
    (hcounts : ∀ k v, s.slots.stored k = some v → ∃ c, 1 ≤ c ∧ L.slotRep v c) {k : Nat}
    (hk : k ≤ maxLocks) : s.Pending L 0 k where
  fits := by omega
  untracked j _ _ := hempty _
  counted j _ hj := hcounts _ _ ((Slots.stored_eq_some_iff hwf).mpr ⟨j, by omega, rfl, rfl⟩)
  distinct j j' _ hj _ hj' heq := hwf.distinct j j' (by omega) (by omega) heq

/-- The conversion loop moves slots `i, …, i + k - 1` into the hash, one pool
node each. -/
theorem convert_spec (hfresh : MallocFresh malloc) :
    ∀ (k i : Nat) (s : Tls R M Addr) (fl : List NodePtr), s.Pooled L size fl none →
      k ≤ fl.length → s.Pending L i k →
      ∃ s' fl', (convert size malloc i k).run s = .ok () s' ∧ s'.Pooled L size fl' none ∧
        s'.slots = s.slots ∧
        (∀ j c, i ≤ j → j < i + k → L.slotRep (s.slots.lockTable j).recCount c →
          s'.hashCount (s.slots.lockTable j).lockPtr = c) ∧
        (∀ l, (∀ j, i ≤ j → j < i + k → (s.slots.lockTable j).lockPtr ≠ l) →
          s'.hashCount l = s.hashCount l) := by
  intro k
  induction k with
  | zero =>
    intro i s fl h _ _
    exact ⟨s, fl, rfl, h, rfl, fun j c h1 h2 => by omega, fun _ _ => rfl⟩
  | succ k ih =>
    intro i s fl h hlen hpend
    have hfits := hpend.fits
    -- a node is left for every slot still to move, so `malloc` is not called
    have hne : fl ≠ [] := fun h0 => by simp [h0] at hlen
    obtain ⟨p, s₁, hpop, hp₁, hclean, hslots₁, hfound₁, hcount₁⟩ :=
      freelistPop_spec hfresh h fun h0 => absurd h0 hne
    have hnone := hpend.untracked i (Nat.le_refl _) (by omega)
    obtain ⟨c, h1, hc⟩ := hpend.counted i (Nat.le_refl _) (by omega)
    have hval := L.slotVal _ c hc
    obtain ⟨s₂, hfill, hp₂, hslots₂, hfound₂, hcount₂⟩ :=
      fillEntry_spec (c := c) hp₁ hclean (by rw [hfound₁]; exact hnone) h1 (L.slotLimit _ _ hc)
    have hs₂ : s₂.slots = s.slots := by rw [hslots₂, hslots₁]
    -- the slots still to move are not in the hash yet
    have hpend₂ : s₂.Pending L (i + 1) k := hpend.next hs₂ (by rw [hfound₂, hfound₁])
    obtain ⟨s', fl', hrun, hp', hslots', hmoved, hrest⟩ :=
      ih (i + 1) s₂ fl.tail hp₂ (by simp; omega) hpend₂
    refine ⟨s', fl', ?_, hp', by rw [hslots', hs₂], fun j v hj1 hj2 hv => ?_, fun l hl => ?_⟩
    · have hread : s₁.slots.read i = .ok (s.slots.lockTable i) := by
        rw [hslots₁]
        exact Slots.read_of_lt (by omega)
      simp [convert, hpop, hread, hval, hfill, hrun]
    · rw [hs₂] at hmoved hrest
      rcases Nat.eq_or_lt_of_le hj1 with rfl | hlt
      · -- slot `i` was moved by this iteration and is left alone by the others
        rw [hrest _ fun j' hj1' hj2' heq => by
          have := hpend.distinct j' i (by omega) (by omega) (Nat.le_refl _) (by omega) heq
          omega, hcount₂, Function.update_self]
        have hval' := L.slotVal _ v hv
        rw [hval] at hval'
        exact_mod_cast hval'
      · exact hmoved j v hlt (by omega) hv
    · rw [hs₂] at hrest
      have hli : l ≠ (s.slots.lockTable i).lockPtr := fun h0 =>
        hl i (Nat.le_refl _) (by omega) h0.symm
      rw [hrest l fun j hj1 hj2 => hl j (by omega) (by omega), hcount₂,
        Function.update_of_ne hli, hcount₁]

omit [DecidableEq Addr] [PtrMap M Addr NodePtr] [LawfulPtrMap M] in
theorem initFreelist_slots (s : Tls R M Addr) : (initFreelist size s).slots = s.slots := by
  unfold initFreelist
  split <;> rfl

omit [LawfulPtrMap M] in
/-- The lock that fills the array, and the pool made ready for the conversion. -/
theorem convert_ready (hsize : maxLocks ≤ size) (h : s.ArrayMode L)
    (hnone : s.slots.stored l = none) (hlast : s.slots.lockCount + 1 = maxLocks) :
    ∃ slots, s.slots.push l R.slotOne = .ok slots ∧ slots.WF ∧ slots.lockCount = maxLocks ∧
      slots.stored = Function.update s.slots.stored l (some R.slotOne) ∧
      (initFreelist size { s with slots := slots }).Pooled L size (poolFrom size 0) none ∧
      (∀ k, (initFreelist size { s with slots := slots }).found k = none) ∧
      (∀ k v, slots.stored k = some v →
        1 ≤ Function.update s.count l 1 k ∧ L.slotRep v (Function.update s.count l 1 k)) := by
  obtain ⟨slots, hpush, hwf, hlc, hst⟩ :=
    Slots.push_spec (c := R.slotOne) h.wf h.below hnone
  refine ⟨slots, hpush, hwf, by omega, hst,
    initFreelist_pooled (lt_of_lt_of_le (by decide) hsize) h.fresh h.empty h.noHeap,
    fun k => ?_, fun k v hv => ?_⟩
  · -- setting the pool up does not touch the hash
    have hhash : (initFreelist size { s with slots := slots }).lockHash = s.lockHash := by
      unfold initFreelist
      split <;> rfl
    rw [found, hhash]
    exact h.empty k
  · -- the counts of the full array, the new lock's among them
    rw [hst] at hv
    by_cases hk : k = l
    · subst hk
      rw [Function.update_self] at hv ⊢
      obtain rfl := Option.some.inj hv
      exact ⟨Nat.le_refl 1, L.slotOne⟩
    · rw [Function.update_of_ne hk] at hv ⊢
      obtain ⟨c, h1, hc⟩ := h.counted k v hv
      rw [count_of_slot (Nat.le_of_lt h.below) hv hc]
      exact ⟨h1, hc⟩

/-- The first `k` iterations of the loop after the array is full: the locks of
these slots are in the hash with their counts, and no other lock is. -/
theorem convert_pushed (hsize : maxLocks ≤ size) (hfresh : MallocFresh malloc)
    (h : s.ArrayMode L) (hnone : s.slots.stored l = none)
    (hlast : s.slots.lockCount + 1 = maxLocks) {slots : Slots Addr R.Slot}
    (hpush : s.slots.push l R.slotOne = .ok slots) {k : Nat} (hk : k ≤ maxLocks) :
    ∃ s' fl, (convert size malloc 0 k).run (initFreelist size { s with slots := slots }) =
        .ok () s' ∧ s'.Pooled L size fl none ∧ s'.slots = slots ∧
      (∀ j < k, s'.hashCount (slots.lockTable j).lockPtr =
        Function.update s.count l 1 (slots.lockTable j).lockPtr) ∧
      ∀ m, (∀ j < k, (slots.lockTable j).lockPtr ≠ m) → s'.hashCount m = 0 := by
  obtain ⟨slots', hpush', hwf, hfull, -, hp, hfound, hcounts⟩ := convert_ready hsize h hnone hlast
  rw [hpush] at hpush'
  injection hpush' with hpush'
  subst hpush'
  have hslots : (initFreelist size { s with slots := slots }).slots = slots := initFreelist_slots _
  -- what the array holds at a slot the loop goes over
  have hslot : ∀ j < k, 1 ≤ Function.update s.count l 1 (slots.lockTable j).lockPtr ∧
      L.slotRep (slots.lockTable j).recCount
        (Function.update s.count l 1 (slots.lockTable j).lockPtr) := fun j hj =>
    hcounts _ _ ((Slots.stored_eq_some_iff hwf).mpr ⟨j, by omega, rfl, rfl⟩)
  have hlen : k ≤ (poolFrom size 0).length := by
    simp [poolFrom]
    omega
  obtain ⟨s', fl, hconv, hp', hslots', hmoved, hrest⟩ :=
    convert_spec hfresh k 0 _ _ hp hlen
      (pending_of_full (by rw [hslots]; exact hwf) (by rw [hslots, hfull]) hfound
        (fun m v hv => ⟨_, hcounts m v (by rw [← hslots]; exact hv)⟩) hk)
  rw [hslots] at hslots' hmoved hrest
  refine ⟨s', fl, hconv, hp', hslots', fun j hj => ?_, fun m hm => ?_⟩
  · exact hmoved j _ (Nat.zero_le j) (by omega) (hslot j hj).2
  · rw [hrest m fun j _ hj => hm j (by omega)]
    exact hashCount_of_none (hfound m)

/-- Recording the lock that fills the array: all four locks end up in the hash. -/
theorem insertNew_convert (hsize : maxLocks ≤ size) (hfresh : MallocFresh malloc)
    (h : s.ArrayMode L) (hnone : s.slots.stored l = none)
    (hlast : s.slots.lockCount + 1 = maxLocks) :
    ∃ s', (insertNew size malloc l).run s = .ok () s' ∧ s'.HashMode L size ∧
      s'.count = Function.update s.count l 1 := by
  obtain ⟨slots, hpush, hwf, hfull, hst, -⟩ := convert_ready hsize h hnone hlast
  obtain ⟨s₂, fl, hconv, hp₂, hslots₂, hmoved, hrest⟩ :=
    convert_pushed hsize hfresh h hnone hlast hpush (Nat.le_refl maxLocks)
  -- `lock_count` goes from 4 to 5, past the array
  let s₃ : Tls R M Addr :=
    { s₂ with slots := { s₂.slots with lockCount := s₂.slots.lockCount + 1 } }
  have hmode : s₃.HashMode L size := by
    refine ⟨?_, fl, ?_⟩
    · show s₂.slots.lockCount + 1 = maxLocks + 1
      rw [hslots₂, hfull]
    · exact { hp₂ with }
  refine ⟨s₃, ?_, hmode, ?_⟩
  · simp [insertNew, h.below, hpush, hfull, hconv, s₃]
  · rw [hmode.count_eq]
    funext k
    show s₂.hashCount k = _
    cases hk : slots.stored k with
    -- the counts of the array are those in the hash
    | some v =>
      obtain ⟨j, hj, hjk, -⟩ := (Slots.stored_eq_some_iff hwf).mp hk
      subst hjk
      exact hmoved j (by omega)
    | none =>
      have hkl : k ≠ l := by
        intro hkl
        rw [hst, hkl, Function.update_self] at hk
        cases hk
      have hslot : ∀ j < maxLocks, (slots.lockTable j).lockPtr ≠ k := by
        intro j hj hjk
        have hsome := (Slots.stored_eq_some_iff hwf).mpr ⟨j, by omega, hjk, rfl⟩
        rw [hk] at hsome
        cases hsome
      rw [hst, Function.update_of_ne hkl] at hk
      rw [Function.update_of_ne hkl, count_of_not_stored (Nat.le_of_lt h.below) hk]
      exact hrest k hslot

omit [LawfulPtrMap M] in
/-- While a slot is left over behind the new lock, the table stays an array. -/
theorem insertNew_array (size : Nat) (malloc : Nat → List Nat → Option Nat) (h : s.ArrayMode L)
    (h0 : s.count l = 0) (hleft : s.slots.lockCount + 1 ≠ maxLocks) :
    ∃ s', (insertNew size malloc l).run s = .ok () s' ∧ s'.ArrayMode L ∧
      s'.count = Function.update s.count l 1 := by
  obtain ⟨slots, hpush, hwf, hlc, hst⟩ :=
    Slots.push_spec (c := R.slotOne) h.wf h.below (h.count_eq_zero_iff.mp h0)
  have hbelow := h.below
  have hfull : slots.lockCount ≠ maxLocks := by omega
  obtain ⟨hA, hcount⟩ := h.update hwf (by omega) hst
    (Or.inr ⟨_, rfl, Nat.le_refl 1, L.slotOne⟩)
  refine ⟨_, ?_, hA, hcount⟩
  simp [insertNew, h.below, hpush, hfull]

/-- Recording a new lock, in any mode. -/
theorem insertNew_spec (hlimit : 1 ≤ L.limit) (hsize : maxLocks ≤ size)
    (hfresh : MallocFresh malloc) (h : s.Inv L size) (h0 : s.count l = 0)
    (hmalloc : s.HashMode L size → malloc s.mallocs s.heap ≠ none) :
    ∃ s', (insertNew size malloc l).run s = .ok () s' ∧ s'.Inv L size ∧
      s'.count = Function.update s.count l 1 := by
  rcases h with h | h
  · by_cases hlast : s.slots.lockCount + 1 = maxLocks
    · obtain ⟨s', hrun, hmode, hcount⟩ :=
        insertNew_convert hsize hfresh h (h.count_eq_zero_iff.mp h0) hlast
      exact ⟨s', hrun, Or.inr hmode, hcount⟩
    · obtain ⟨s', hrun, hmode, hcount⟩ := insertNew_array size malloc h h0 hlast
      exact ⟨s', hrun, Or.inl hmode, hcount⟩
  · obtain ⟨fl, hp⟩ := h.pooled
    have hgt : ¬ s.slots.lockCount < maxLocks := by
      have := h.past
      omega
    -- hash mode: the lock is not in the hash, and a node is to be had
    have hnone : s.found l = none := by
      rw [h.count_eq] at h0
      exact hp.hashCount_eq_zero_iff.mp h0
    obtain ⟨p, s₁, hpop, hp₁, hclean, hslots₁, hfound₁, hcount₁⟩ :=
      freelistPop_spec hfresh hp fun _ => hmalloc h
    obtain ⟨s₂, hfill, hp₂, hslots₂, -, hcount₂⟩ :=
      fillEntry_spec (c := 1) hp₁ hclean (by rw [hfound₁]; exact hnone) (Nat.le_refl 1) hlimit
    have hmode : s₂.HashMode L size := ⟨by rw [hslots₂, hslots₁, h.past], _, hp₂⟩
    refine ⟨s₂, ?_, Or.inr hmode, ?_⟩
    · simpa [insertNew, hgt, hpop] using hfill
    · rw [hmode.count_eq, h.count_eq, hcount₂, hcount₁]

end Insert

/-! ## Counting up and down -/

omit [Inhabited Addr] in
/-- An assignment to a hash entry's count updates the counts. -/
theorem HashMode.recount (h : s.HashMode L size) {p : NodePtr} (hf : s.found l = some p)
    {v : R.Cell} {c : Nat} (hv : L.cellRep v c) (h1 : 1 ≤ c) (hc : c ≤ L.limit) :
    (s.write p { s.mem p with recCount := v }).HashMode L size ∧
      (s.write p { s.mem p with recCount := v }).count = Function.update s.count l c := by
  obtain ⟨fl, hp⟩ := h.pooled
  obtain ⟨hp', hcount⟩ := write_count_spec hp hf hv h1 hc
  have hmode : (s.write p { s.mem p with recCount := v }).HashMode L size :=
    ⟨h.past, fl, hp'⟩
  exact ⟨hmode, by rw [hmode.count_eq, hcount, h.count_eq]⟩

omit [Inhabited Addr] in
/-- Counting up never fails, whatever the count. -/
theorem incrementEntry_returns (h : s.Inv L size) (hl : (lookup l).run s = .ok (some e) s) :
    ∃ s', (incrementEntry e).run s = .ok () s' := by
  rcases lookup_some_cases h hl with ⟨h, i, rfl, hs⟩ | ⟨-, p, rfl, -⟩
  · have hi : i < maxLocks := lt_of_lt_of_le (Slots.scan_eq_some h.wf.fits hs).1 h.wf.fits
    obtain ⟨slots, hset, -⟩ :=
      Slots.setCount_spec (c := R.slotInc (s.slots.lockTable i).recCount) h.wf hs
    exact ⟨{ s with slots := slots }, by simp [incrementEntry, Slots.read_of_lt hi, hset]⟩
  · exact ⟨_, rfl⟩

omit [Inhabited Addr] in
/-- Counting a slot up leaves an array. -/
theorem incrementEntry_array (h : s.ArrayMode L) {i : Nat}
    (hs : s.slots.scan l 0 s.slots.lockCount = .ok (some i)) (hlim : s.count l < L.limit) :
    ∃ s', (incrementEntry (.slot i)).run s = .ok () s' ∧ s'.ArrayMode L ∧
      s'.count = Function.update s.count l (s.count l + 1) := by
  have hi : i < maxLocks := lt_of_lt_of_le (Slots.scan_eq_some h.wf.fits hs).1 h.wf.fits
  have hv := Slots.stored_of_scan hs
  obtain ⟨c, h1, hc⟩ := h.counted l _ hv
  have hcount := count_of_slot (Nat.le_of_lt h.below) hv hc
  rw [hcount] at hlim ⊢
  obtain ⟨slots, hset, hwf, hlc, hst⟩ :=
    Slots.setCount_spec (c := R.slotInc (s.slots.lockTable i).recCount) h.wf hs
  obtain ⟨hA, hc'⟩ := h.update hwf (by rw [hlc]; exact h.below) hst
    (Or.inr ⟨_, rfl, by omega, L.slotInc _ c hc hlim⟩)
  refine ⟨_, ?_, hA, hc'⟩
  simp [incrementEntry, Slots.read_of_lt hi, hset]

omit [Inhabited Addr] in
/-- Counting an entry up, in any mode. -/
theorem incrementEntry_spec (h : s.Inv L size) (hl : (lookup l).run s = .ok (some e) s)
    (hlim : s.count l < L.limit) :
    ∃ s', (incrementEntry e).run s = .ok () s' ∧ s'.Inv L size ∧
      s'.count = Function.update s.count l (s.count l + 1) := by
  rcases lookup_some_cases h hl with ⟨h, i, rfl, hs⟩ | ⟨h, p, rfl, hf⟩
  · obtain ⟨s', hrun, hmode, hcount⟩ := incrementEntry_array h hs hlim
    exact ⟨s', hrun, Or.inl hmode, hcount⟩
  · obtain ⟨fl, hp⟩ := h.pooled
    obtain ⟨c, h1, -, hc⟩ := hp.counted l p hf
    have hcount : s.count l = c := by rw [h.count_eq, hashCount_eq hf hc]
    rw [hcount] at hlim ⊢
    obtain ⟨hmode, hc'⟩ := h.recount hf (L.cellInc _ c hc hlim) (by omega) hlim
    exact ⟨_, rfl, Or.inr hmode, hc'⟩

/-- Counting a slot down, or giving it up, leaves an array. -/
theorem decrementEntry_array (h : s.ArrayMode L) {i : Nat}
    (hs : s.slots.scan l 0 s.slots.lockCount = .ok (some i)) :
    ∃ s', (decrementEntry (.slot i)).run s = .ok ((s.count l - 1 : Nat) : Int) s' ∧
      s'.ArrayMode L ∧ s'.count = Function.update s.count l (s.count l - 1) := by
  have hle : s.slots.lockCount ≤ maxLocks := Nat.le_of_lt h.below
  have hi : i < maxLocks := lt_of_lt_of_le (Slots.scan_eq_some h.wf.fits hs).1 h.wf.fits
  have hv := Slots.stored_of_scan hs
  obtain ⟨c, h1, hc⟩ := h.counted l _ hv
  have hval := L.slotVal _ c hc
  rw [count_of_slot hle hv hc]
  by_cases hc1 : 1 < c
  · obtain ⟨slots, hset, hwf, hlc, hst⟩ :=
      Slots.setCount_spec (c := R.slotDec (s.slots.lockTable i).recCount) h.wf hs
    obtain ⟨hA, hc'⟩ := h.update hwf (by rw [hlc]; exact h.below) hst
      (Or.inr ⟨_, rfl, by omega, L.slotDec _ c hc hc1⟩)
    refine ⟨_, ?_, hA, hc'⟩
    have hsub : (c : Int) - 1 = ((c - 1 : Nat) : Int) := by omega
    simp [decrementEntry, hle, Slots.read_of_lt hi, hval, hc1, hset, hsub]
  · -- the last reference: the slot is given up
    obtain ⟨slots, hrem, hwf, hlc, hst⟩ := Slots.swapRemove_spec h.wf hs
    have hbelow := h.below
    have h0 : c - 1 = 0 := by omega
    obtain ⟨hA, hc'⟩ := h.update hwf (by omega) hst (Or.inl ⟨rfl, rfl⟩)
    refine ⟨_, ?_, hA, by rw [h0]; exact hc'⟩
    simp [decrementEntry, hle, Slots.read_of_lt hi, hval, hc1, hrem, h0]

/-- Counting an entry down, in any mode: the last reference removes it. -/
theorem decrementEntry_spec [LawfulPtrMap M] (h : s.Inv L size)
    (hl : (lookup l).run s = .ok (some e) s) :
    ∃ s', (decrementEntry e).run s = .ok ((s.count l - 1 : Nat) : Int) s' ∧ s'.Inv L size ∧
      s'.count = Function.update s.count l (s.count l - 1) := by
  rcases lookup_some_cases h hl with ⟨h, i, rfl, hs⟩ | ⟨h, p, rfl, hf⟩
  · obtain ⟨s', hrun, hmode, hcount⟩ := decrementEntry_array h hs
    exact ⟨s', hrun, Or.inl hmode, hcount⟩
  · obtain ⟨fl, hp⟩ := h.pooled
    have hgt : ¬ s.slots.lockCount ≤ maxLocks := by
      have := h.past
      omega
    obtain ⟨c, h1, hlim, hc⟩ := hp.counted l p hf
    have hval := L.cellVal _ c hc
    have hcount : s.count l = c := by rw [h.count_eq, hashCount_eq hf hc]
    rw [hcount]
    by_cases hc1 : 1 < c
    · obtain ⟨hmode, hc'⟩ := h.recount hf (L.cellDec _ c hc hc1) (by omega) (by omega)
      refine ⟨_, ?_, Or.inr hmode, hc'⟩
      have hsub : (c : Int) - 1 = ((c - 1 : Nat) : Int) := by omega
      simp [decrementEntry, hgt, hval, hc1, hsub]
    · -- the last reference: the node goes back to the pool or to `malloc`
      obtain ⟨hp₁, hfound₁, hcount₁⟩ := hashDel_spec hp hf
      obtain ⟨s₂, fl₂, hpush, hp₂, hslots₂, hfound₂, hcount₂⟩ :=
        freelistPush_spec (v := c) hp₁ hc
      have hmode : s₂.HashMode L size := ⟨by rw [hslots₂]; exact h.past, fl₂, hp₂⟩
      have h0 : c - 1 = 0 := by omega
      refine ⟨s₂, ?_, Or.inr hmode, ?_⟩
      · simp [decrementEntry, hgt, hval, hc1, hpush, h0]
      · rw [hmode.count_eq, hcount₂, hcount₁, h.count_eq, h0]

/-! ## The pool before it is set up -/

/-- The nodes are as the thread found them until the pool is set up. -/
def Untouched (s : Tls R M Addr) : Prop :=
  s.freelistInitialized = false → ∀ p, s.mem p = zeroEntry R Addr

section Untouched

variable {s' : Tls R M Addr}

omit [DecidableEq Addr] [PtrMap M Addr NodePtr] in
theorem initFreelist_initialized (size : Nat) (s : Tls R M Addr) :
    (initFreelist size s).freelistInitialized = true := by
  unfold initFreelist
  split
  · assumption
  · rfl

omit [DecidableEq Addr] [PtrMap M Addr NodePtr] in
theorem freelistPop_initialized {r : Option NodePtr}
    (h : (freelistPop size malloc).run s = .ok r s') : s'.freelistInitialized = true := by
  have hinit := initFreelist_initialized size s
  cases hhead : (initFreelist size s).freelistHead with
  | some p =>
    simp [freelistPop, hhead] at h
    rw [← h.2]
    exact hinit
  -- an empty pool is not set up again
  | none =>
    cases hm : malloc (initFreelist size s).mallocs (initFreelist size s).heap with
    | some a =>
      simp [freelistPop, hhead, hm] at h
      rw [← h.2]
      exact hinit
    | none =>
      simp [freelistPop, hhead, hm] at h
      rw [← h.2]
      exact hinit

omit [DecidableEq Addr] in
theorem convert_initialized : ∀ {k i : Nat} {s : Tls R M Addr}, s.freelistInitialized = true →
    (convert size malloc i k).run s = .ok () s' → s'.freelistInitialized = true := by
  intro k
  induction k with
  | zero =>
    intro i s hs h
    obtain rfl : s = s' := by simpa [convert] using h
    exact hs
  | succ k ih =>
    intro i s hs h
    cases hpop : (freelistPop size malloc).run s with
    | error e s₁ => simp [convert, hpop] at h
    | ok r s₁ =>
      cases r with
      | none => simp [convert, hpop] at h
      | some p =>
        -- one round pops a node and fills it
        cases hread : s₁.slots.read i with
        | error e => simp [convert, hpop, hread, access] at h
        | ok e =>
          simp only [convert, EStateM.run_bind, hpop, EStateM.run_get, hread, access_ok,
            EStateM.run_pure, fillEntry, EStateM.run_modify] at h
          have hs₁ := freelistPop_initialized hpop
          exact ih (by exact hs₁) h

omit [DecidableEq Addr] in
theorem insertNew_untouched (h : s.Untouched)
    (hrun : (insertNew size malloc l).run s = .ok () s') : s'.Untouched := by
  by_cases hlt : s.slots.lockCount < maxLocks
  · cases hpush : s.slots.push l R.slotOne with
    | error e => simp [insertNew, hlt, hpush, access] at hrun
    | ok slots =>
      by_cases hfull : slots.lockCount = maxLocks
      · -- the pool is set up now
        cases hconv : (convert size malloc 0 maxLocks).run
            (initFreelist size { s with slots := slots }) with
        | error e s₁ => simp [insertNew, hlt, hpush, hfull, hconv] at hrun
        | ok _ s₁ =>
          have hs₁ := convert_initialized (initFreelist_initialized size _) hconv
          simp [insertNew, hlt, hpush, hfull, hconv] at hrun
          subst hrun
          intro hnot
          rw [hs₁] at hnot
          cases hnot
      · simp [insertNew, hlt, hpush, hfull] at hrun
        subst hrun
        exact h
  · cases hpop : (freelistPop size malloc).run s with
    | error e s₁ => simp [insertNew, hlt, hpop] at hrun
    | ok r s₁ =>
      have hs₁ := freelistPop_initialized hpop
      have hsame : s'.freelistInitialized = s₁.freelistInitialized := by
        cases r with
        | none =>
          simp [insertNew, hlt, hpop] at hrun
          rw [hrun]
        | some p =>
          simp [insertNew, hlt, hpop, fillEntry] at hrun
          rw [← hrun]
          rfl
      intro hnot
      rw [hsame, hs₁] at hnot
      cases hnot

omit [DecidableEq Addr] [PtrMap M Addr NodePtr] in
theorem freelistPush_initialized {p : NodePtr} (h : (freelistPush p).run s = .ok () s') :
    s'.freelistInitialized = s.freelistInitialized := by
  by_cases hdyn : (s.mem p).dynamicallyAllocated = true
  · cases p with
    | pool i => simp [freelistPush, hdyn] at h
    | heap a =>
      by_cases ha : a ∈ s.heap
      · simp [freelistPush, hdyn, ha] at h
        rw [← h]
      · simp [freelistPush, hdyn, ha] at h
  · simp [freelistPush, hdyn] at h
    rw [← h]
    rfl

theorem incrementEntry_untouched (hI : s.Inv L size) (hl : (lookup l).run s = .ok (some e) s)
    (h : s.Untouched) (hrun : (incrementEntry e).run s = .ok () s') : s'.Untouched := by
  rcases lookup_some_cases hI hl with ⟨hA, i, rfl, hs⟩ | ⟨hH, p, rfl, -⟩
  · have hi : i < maxLocks := lt_of_lt_of_le (Slots.scan_eq_some hA.wf.fits hs).1 hA.wf.fits
    cases hset : s.slots.setCount i (R.slotInc (s.slots.lockTable i).recCount) with
    | error e => simp [incrementEntry, Slots.read_of_lt hi, hset, access] at hrun
    | ok slots =>
      simp [incrementEntry, Slots.read_of_lt hi, hset] at hrun
      subst hrun
      exact h
  · obtain ⟨fl, hp⟩ := hH.pooled
    simp [incrementEntry] at hrun
    subst hrun
    intro hnot
    exact absurd (hp.initialized.symm.trans hnot) (by decide)

theorem decrementEntry_untouched (hI : s.Inv L size) (hl : (lookup l).run s = .ok (some e) s)
    {v : Int} (h : s.Untouched) (hrun : (decrementEntry e).run s = .ok v s') : s'.Untouched := by
  rcases lookup_some_cases hI hl with ⟨hA, i, rfl, hs⟩ | ⟨hH, p, rfl, -⟩
  · have hle : s.slots.lockCount ≤ maxLocks := Nat.le_of_lt hA.below
    have hi : i < maxLocks := lt_of_lt_of_le (Slots.scan_eq_some hA.wf.fits hs).1 hA.wf.fits
    -- array mode does not touch the nodes
    have hsame : s'.mem = s.mem ∧ s'.freelistInitialized = s.freelistInitialized := by
      by_cases hval : 1 < R.slotVal (s.slots.lockTable i).recCount
      · cases hset : s.slots.setCount i (R.slotDec (s.slots.lockTable i).recCount) with
        | error e => simp [decrementEntry, hle, Slots.read_of_lt hi, hval, hset, access] at hrun
        | ok slots =>
          simp [decrementEntry, hle, Slots.read_of_lt hi, hval, hset] at hrun
          rw [← hrun.2]
          exact ⟨rfl, rfl⟩
      · cases hrem : s.slots.swapRemove i with
        | error e => simp [decrementEntry, hle, Slots.read_of_lt hi, hval, hrem, access] at hrun
        | ok slots =>
          simp [decrementEntry, hle, Slots.read_of_lt hi, hval, hrem] at hrun
          rw [← hrun.2]
          exact ⟨rfl, rfl⟩
    intro hnot p
    rw [hsame.1]
    exact h (hsame.2 ▸ hnot) p
  · obtain ⟨fl, hp⟩ := hH.pooled
    have hgt : ¬ s.slots.lockCount ≤ maxLocks := by
      have := hH.past
      omega
    -- hash mode: the pool has been set up, and stays so
    have hsame : s'.freelistInitialized = s.freelistInitialized := by
      by_cases hval : 1 < R.cellVal (s.mem p).recCount
      · simp [decrementEntry, hgt, hval] at hrun
        rw [← hrun.2]
        rfl
      · cases hpush : (freelistPush p).run (hashDel p s) with
        | error e s₁ => simp [decrementEntry, hgt, hval, hpush] at hrun
        | ok _ s₁ =>
          have hs₁ := freelistPush_initialized hpush
          simp [decrementEntry, hgt, hval, hpush] at hrun
          rw [← hrun.2, hs₁]
          rfl
    intro hnot
    rw [hsame, hp.initialized] at hnot
    cases hnot

end Untouched

/-! ## The table of counters -/

omit [Inhabited Addr] in
/-- An untouched state tracks nothing. -/
theorem arrayMode_of_untouched [LawfulPtrMap M] (hcount : s.slots.lockCount = 0)
    (hhash : s.lockHash = PtrMap.empty) (hinit : s.freelistInitialized = false)
    (hheap : s.heap = []) : s.ArrayMode L ∧ ∀ l, s.count l = 0 := by
  have hst : ∀ l, s.slots.stored l = none := fun l => by simp [Slots.stored, hcount, Slots.scan]
  refine ⟨⟨⟨by omega, fun i _ hi => by omega⟩, by rw [hcount]; decide, fun l v hv => ?_, hinit,
    fun k => ?_, hheap⟩, fun l => count_of_not_stored (by omega) (hst l)⟩
  · rw [hst] at hv
    cases hv
  · rw [found, hhash, LawfulPtrMap.find_empty]

omit [Inhabited Addr] in
theorem lookup_iff (h : s.Inv L size) (l : Addr) :
    (∃ e, (lookup l).run s = .ok (some e) s) ↔ s.count l ≠ 0 := by
  constructor
  · rintro ⟨e, hl⟩ h0
    rcases lookup_spec h l with ⟨-, hnone⟩ | ⟨hpos, -⟩
    · rw [hnone] at hl
      exact absurd hl (by simp)
    · exact hpos h0
  · intro hpos
    exact (lookup_spec h l).elim (fun h => absurd h.1 hpos) And.right

/-- `rec_count` of the entry an `LS_LockEntry*` points at. -/
def recCount (s : Tls R M Addr) : EntryPtr → Int
  | .slot i => R.slotVal (s.slots.lockTable i).recCount
  | .node p => R.cellVal (s.mem p).recCount

omit [Inhabited Addr] in
theorem recCount_eq (h : s.Inv L size) (hl : (lookup l).run s = .ok (some e) s) :
    s.recCount e = s.count l := by
  rcases lookup_some_cases h hl with ⟨h, i, rfl, hs⟩ | ⟨h, p, rfl, hf⟩
  · have hv := Slots.stored_of_scan hs
    obtain ⟨c, -, hc⟩ := h.counted l _ hv
    rw [count_of_slot (Nat.le_of_lt h.below) hv hc, recCount, L.slotVal _ c hc]
  · obtain ⟨fl, hp⟩ := h.pooled
    obtain ⟨c, -, -, hc⟩ := hp.counted l p hf
    rw [h.count_eq, hashCount_eq hf hc, recCount, L.cellVal _ c hc]

omit [Inhabited Addr] in
/-- An entry with the count of the map is found exactly for the tracked locks. -/
theorem lookup_recCount_iff (h : s.Inv L size) (l : Addr) :
    (∃ e, (lookup l).run s = .ok (some e) s ∧ s.recCount e = s.count l) ↔ 0 < s.count l := by
  rw [Nat.pos_iff_ne_zero, ← lookup_iff h l]
  exact ⟨fun ⟨e, hl, _⟩ => ⟨e, hl⟩, fun ⟨e, hl⟩ => ⟨e, hl, recCount_eq h hl⟩⟩

/-- The helpers of a hash-backed variant, apart from what they do with a null
entry, are the ones above. -/
structure HashBacked (T : TableOps (Tls R M Addr) EntryPtr Addr) (size : Nat)
    (malloc : Nat → List Nat → Option Nat) : Prop where
  lookup : T.lookup = lookup
  insert : ∀ l s, (Tls.lookup l).run s = .ok none s →
    (T.incrementRef l none).run s = (insertNew size malloc l).run s
  increment : ∀ l e, T.incrementRef l (some e) = incrementEntry e
  decrement : ∀ l e, T.decrementRef l (some e) = decrementEntry e

/-- A hash-backed variant whose `malloc` does not fail is a table of counters
without a capacity. -/
def refTable [LawfulPtrMap M] (L : R.Laws) (hlimit : 1 ≤ L.limit) (hsize : maxLocks ≤ size)
    {T : TableOps (Tls R M Addr) EntryPtr Addr} (hT : HashBacked T size malloc)
    (hfresh : MallocFresh malloc) (hmalloc : MallocSucceeds malloc) : RefTable T where
  Inv := Inv L size
  count := count
  room _ := True
  limit := L.limit
  lookup_none s l hI h0 := by
    rw [hT.lookup]
    exact (lookup_spec hI l).elim And.right fun h => absurd h0 h.1
  lookup_some s l hI h0 := by
    rw [hT.lookup]
    exact (lookup_spec hI l).elim (fun h => absurd h.1 h0) And.right
  -- a new lock gets a slot or a node, since `malloc` does not fail
  insert s l hI h0 _ := by
    have hnone := (lookup_spec hI l).elim And.right fun h => absurd h0 h.1
    rw [hT.insert l s hnone]
    exact insertNew_spec hlimit hsize hfresh hI h0 fun _ => hmalloc _ _
  increment s l e hI hl hlim := by
    rw [hT.lookup] at hl
    rw [hT.increment]
    exact incrementEntry_spec hI hl hlim
  decrement s l e hI hl := by
    rw [hT.lookup] at hl
    rw [hT.decrement]
    exact decrementEntry_spec hI hl

omit [Inhabited Addr] in
theorem ArrayMode.encard_count (h : s.ArrayMode L) :
    {k | s.count k ≠ 0}.encard = s.slots.lockCount := by
  rw [← Slots.encard_stored h.wf]
  congr 1
  ext k
  simp [h.count_eq_zero_iff]

/-- As long as a slot stays free, a hash-backed variant is a table of counters that
does not need `malloc`. -/
def arrayTable (L : R.Laws) {T : TableOps (Tls R M Addr) EntryPtr Addr}
    (hT : HashBacked T size malloc) : RefTable T where
  Inv := ArrayMode L
  count := count
  room cnt := {k | cnt k ≠ 0}.encard + 1 < maxLocks
  limit := L.limit
  lookup_none s l hI h0 := by
    rw [hT.lookup]
    exact (hI.lookup_spec l).elim And.right fun h => absurd h0 h.1
  lookup_some s l hI h0 := by
    rw [hT.lookup]
    exact (hI.lookup_spec l).elim (fun h => absurd h.1 h0) And.right
  insert s l hI h0 hroom := by
    have hnone := (hI.lookup_spec l).elim And.right fun h => absurd h0 h.1
    -- the new lock does not fill the array, so that nothing is converted
    rw [hI.encard_count] at hroom
    have hlt : s.slots.lockCount + 1 < maxLocks := by exact_mod_cast hroom
    rw [hT.insert l s hnone]
    exact insertNew_array size malloc hI h0 (Nat.ne_of_lt hlt)
  increment s l e hI hl hlim := by
    rw [hT.lookup] at hl
    obtain ⟨i, hs, rfl⟩ := hI.slot_of_lookup hl
    rw [hT.increment]
    exact incrementEntry_array hI hs hlim
  decrement s l e hI hl := by
    rw [hT.lookup] at hl
    obtain ⟨i, hs, rfl⟩ := hI.slot_of_lookup hl
    rw [hT.decrement]
    exact decrementEntry_array hI hs

end LockShield.Tls
