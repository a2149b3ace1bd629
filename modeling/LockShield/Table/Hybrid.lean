import LockShield.Table.HashTable
import LockShield.Lib.MachineInt

/-!
# `LS_HYBRID`

The C++ hash variant: an `int` count in the slots and in the hash entries, and a
pool of ten. It answers every sequence of calls as the reference-count map does, under
two conditions, and neither can go:

* `malloc` delivers whenever it is asked (`MallocSucceeds`), or else an eleventh lock is
  locked and not recorded;
* no count outgrows an `int`, or else it is negative from then on.

## Results

* `incrementRef_new`, `incrementRef_held`, `decrementRef_held` — the helpers, over the
  map of counts.
* `hybrid_refines`                 — the variant's runs are runs of the map.
* `hybrid_refines_needs_conditions` — runs that go wrong without one of the conditions.
-/

namespace LockShield.Hybrid

open Lib

/-- `MAX_HASH_ENTRIES`. -/
def maxHashEntries : Nat := 10

/-- `int rec_count`, in a slot and in a hash entry alike. -/
def countRep : CountRep where
  Slot := Int
  Cell := Int
  slotOne := 1
  slotInc v := int32 (v + 1)
  slotDec v := int32 (v - 1)
  slotVal v := v
  cellZero := 0
  cellSet _ c := int32 c
  cellInc v := int32 (v + 1)
  cellDec v := int32 (v - 1)
  cellVal v := v

/-- The thread-local state of the C++ hash variant. -/
abbrev Tls (M Addr : Type) := LockShield.Tls countRep M Addr

variable {M Addr : Type} [Inhabited Addr] [DecidableEq Addr] [PtrMap M Addr NodePtr]

/-- The zero-initialised thread-local state. -/
def init : Tls M Addr where
  slots := ⟨fun _ => ⟨default, (0 : Int)⟩, 0⟩
  lockHash := PtrMap.empty
  mem _ := Tls.zeroEntry countRep Addr
  freelistHead := none
  freelistInitialized := false
  heap := []
  mallocs := 0

variable (malloc : Nat → List Nat → Option Nat)

/-- `IncrementRef`: a lock without an entry gets one. -/
def incrementRef (l : Addr) (entry : Option EntryPtr) : EStateM Fault (Tls M Addr) Unit := do
  let entry ← if entry.isNone then Tls.lookup l else pure entry
  match entry with
  | none => Tls.insertNew maxHashEntries malloc l
  | some e => Tls.incrementEntry e

/-- `DecrementRef`: the new count, or `-1` for a lock without an entry. -/
def decrementRef (l : Addr) (entry : Option EntryPtr) : EStateM Fault (Tls M Addr) Int := do
  let entry ← if entry.isNone then Tls.lookup l else pure entry
  match entry with
  | none => return -1
  | some e => Tls.decrementEntry e

/-- The helpers of `shielding_hash.cpp`. -/
def ops : TableOps (Tls M Addr) EntryPtr Addr := ⟨Tls.lookup, incrementRef malloc, decrementRef⟩

/-! ## The hybrid table as a table of counters -/

/-- The `int` that stores a count. -/
def IntRep (v : Int) (c : Nat) : Prop := v = c ∧ c ≤ 2 ^ 31 - 1

/-- A count below `2^31` is stored as it is. -/
theorem IntRep.of_le {c : Nat} (h : c ≤ 2 ^ 31 - 1) : IntRep (int32 c) c :=
  ⟨int32_of_range (by omega) (by omega), h⟩

/-- `rec_count++` of a count that has room. -/
theorem IntRep.inc {v : Int} {c : Nat} (h : IntRep v c) (hlt : c < 2 ^ 31 - 1) :
    IntRep (int32 (v + 1)) (c + 1) := by
  obtain ⟨rfl, -⟩ := h
  exact IntRep.of_le (c := c + 1) hlt

/-- `rec_count--` of a count that stays positive. -/
theorem IntRep.dec {v : Int} {c : Nat} (h : IntRep v c) (h1 : 1 < c) :
    IntRep (int32 (v - 1)) (c - 1) := by
  obtain ⟨rfl, hle⟩ := h
  have hsub : (c : Int) - 1 = ((c - 1 : Nat) : Int) := by omega
  rw [hsub]
  exact IntRep.of_le (by omega)

/-- Counts below `2^31` fit an `int`. -/
def laws : countRep.Laws where
  limit := 2 ^ 31 - 1
  slotRep := IntRep
  cellRep := IntRep
  clean _ := True
  slotVal _ _ h := h.1
  slotOne := IntRep.of_le (c := 1) (by omega)
  slotInc _ _ h hlt := h.inc hlt
  slotDec _ _ h h1 := h.dec h1
  slotLimit _ _ h := h.2
  cellVal _ _ h := h.1
  cellInc _ _ h hlt := h.inc hlt
  cellDec _ _ h h1 := h.dec h1
  cellSet _ _ _ hc := by
    simp only [countRep]
    exact IntRep.of_le hc
  cleanZero := trivial
  cleanSet _ _ _ := trivial

variable {malloc}

/-- The helpers are those of an array with a hash behind it: each takes the entry that it is
given, and looks the lock up where it is given none. -/
theorem hashBacked :
    Tls.HashBacked (ops malloc : TableOps (Tls M Addr) EntryPtr Addr) maxHashEntries malloc where
  lookup := rfl
  insert l s h := by simp [ops, incrementRef, h]
  increment l e := rfl
  decrement l e := rfl

section Lawful

variable [LawfulPtrMap M]

variable (M Addr) in
/-- The table of counters behind the hybrid variant. -/
def refTable (hfresh : MallocFresh malloc) (hmalloc : MallocSucceeds malloc) :
    RefTable (ops malloc : TableOps (Tls M Addr) EntryPtr Addr) :=
  Tls.refTable laws (by simp only [laws]; omega) (by decide) hashBacked hfresh hmalloc

/-! What each helper does to a table of counters. -/

section Helpers

variable {s : Tls M Addr} {l : Addr} {e : EntryPtr}

/-- A lock that the table misses is recorded, with count one. -/
theorem incrementRef_new (hfresh : MallocFresh malloc) (hmalloc : MallocSucceeds malloc)
    (h : s.Inv laws maxHashEntries) (h0 : s.count l = 0) :
    ∃ s', (incrementRef malloc l none).run s = .ok () s' ∧ s'.Inv laws maxHashEntries ∧
      s'.count = Function.update s.count l 1 :=
  (refTable M Addr hfresh hmalloc).insert s l h h0 trivial

variable (malloc) in
omit [LawfulPtrMap M] in
/-- An entry that the lookup has found can be counted up, whatever its count. -/
theorem incrementRef_returns (h : s.Inv laws maxHashEntries)
    (hl : (Tls.lookup l).run s = .ok (some e) s) :
    ∃ s', (incrementRef malloc l (some e)).run s = .ok () s' :=
  Tls.incrementEntry_returns h hl

variable (malloc) in
omit [LawfulPtrMap M] in
/-- It has one more then, below the bound of the `int`. -/
theorem incrementRef_held (h : s.Inv laws maxHashEntries)
    (hl : (Tls.lookup l).run s = .ok (some e) s) (hlt : s.count l < 2 ^ 31 - 1) :
    ∃ s', (incrementRef malloc l (some e)).run s = .ok () s' ∧ s'.Inv laws maxHashEntries ∧
      s'.count = Function.update s.count l (s.count l + 1) :=
  Tls.incrementEntry_spec (L := laws) h hl hlt

/-- An entry that the lookup has found is counted down, and at zero removed. -/
theorem decrementRef_held (h : s.Inv laws maxHashEntries)
    (hl : (Tls.lookup l).run s = .ok (some e) s) :
    ∃ s', (decrementRef l (some e)).run s = .ok ((s.count l - 1 : Nat) : Int) s' ∧
      s'.Inv laws maxHashEntries ∧ s'.count = Function.update s.count l (s.count l - 1) :=
  Tls.decrementEntry_spec h hl

end Helpers

/-- The counts are `int`s. -/
theorem refTable_limit (hfresh : MallocFresh malloc) (hmalloc : MallocSucceeds malloc) :
    (refTable M Addr hfresh hmalloc).limit = 2 ^ 31 - 1 := rfl

/-- The zero-initialised state records nothing. -/
theorem init_stands (hfresh : MallocFresh malloc) (hmalloc : MallocSucceeds malloc) :
    (refTable M Addr hfresh hmalloc).Stands init RefModel.init := by
  obtain ⟨hmode, hcount⟩ :=
    Tls.arrayMode_of_untouched (L := laws) (s := (init : Tls M Addr)) rfl rfl rfl rfl
  exact ⟨Or.inl hmode, funext hcount⟩

/-- Runs of the hybrid shield are runs of the map while no count outgrows an
`int`. -/
theorem run_stands (hfresh : MallocFresh malloc) (hmalloc : MallocSucceeds malloc)
    {cs pre : List (Call Addr)} (hbelow : RefModel.Below (2 ^ 31) cs) (hpre : pre <+: cs) :
    (run (shieldStep (ops malloc)) (init : Tls M Addr) pre).replies =
      (run RefModel.step RefModel.init pre).replies ∧
    (run (shieldStep (ops malloc)) (init : Tls M Addr) pre).stop =
      (run RefModel.step RefModel.init pre).stop ∧
    (run (shieldStep (ops malloc)) (init : Tls M Addr) pre).final.Inv laws maxHashEntries ∧
    (run (shieldStep (ops malloc)) (init : Tls M Addr) pre).final.count =
      (run RefModel.step RefModel.init pre).final := by
  refine (refTable M Addr hfresh hmalloc).run_below (fun _ => trivial) (init_stands _ _) ?_ hpre
  rw [refTable_limit, Nat.sub_add_cancel (Nat.one_le_two_pow)]
  exact hbelow

/-- The hybrid shield refines the reference-count map: same statuses, same
callbacks, same panics, and the same counts after every call. A lookup finds exactly the
locks that the map counts, and its entry has the map's count, in the array as in the
hash. -/
theorem hybrid_refines (hfresh : MallocFresh malloc) (hmalloc : MallocSucceeds malloc)
    (cs : List (Call Addr)) (hbelow : RefModel.Below (2 ^ 31) cs) :
    (run (shieldStep (ops malloc)) (init : Tls M Addr) cs).replies =
      (run RefModel.step RefModel.init cs).replies ∧
    (run (shieldStep (ops malloc)) (init : Tls M Addr) cs).stop =
      (run RefModel.step RefModel.init cs).stop ∧
    ∀ pre, pre <+: cs → ∀ l,
      (∃ e, (Tls.lookup l).run (run (shieldStep (ops malloc)) (init : Tls M Addr) pre).final =
          .ok (some e) (run (shieldStep (ops malloc)) init pre).final ∧
        (run (shieldStep (ops malloc)) (init : Tls M Addr) pre).final.recCount e =
          (run RefModel.step RefModel.init pre).final l) ↔
      0 < (run RefModel.step RefModel.init pre).final l := by
  obtain ⟨hreplies, hstop, -⟩ :=
    run_stands (M := M) hfresh hmalloc hbelow (List.prefix_refl cs)
  refine ⟨hreplies, hstop, fun pre hpre l => ?_⟩
  obtain ⟨-, -, hinv, hcount⟩ := run_stands (M := M) hfresh hmalloc hbelow hpre
  rw [← hcount]
  exact Tls.lookup_recCount_iff (L := laws) hinv l

/-- Eleven locks at once: the pool holds ten. -/
def elevenLocks : List (Call Nat) :=
  (List.range 11).map (.acquire · true) ++ [.release 10 true]

theorem hybrid_refines_elevenLocks :
    (run (shieldStep (ops bumpMalloc)) (init : Tls (FunMap Nat NodePtr) Nat) elevenLocks).stop =
      (run RefModel.step RefModel.init elevenLocks).stop :=
  (hybrid_refines bumpMalloc_fresh bumpMalloc_succeeds elevenLocks
    (RefModel.below_of_length (by decide))).2.1

end Lawful

/-! ## Why both conditions are needed -/

/-- The array holds one lock with this `rec_count`. -/
def OnlySlot (s : Tls M Addr) (l : Addr) (v : Int) : Prop :=
  s.slots.lockCount = 1 ∧ s.slots.lockTable 0 = ⟨l, v⟩

omit [Inhabited Addr] in
/-- The scan finds the one lock in slot 0. -/
theorem OnlySlot.lookup {s : Tls M Addr} {l : Addr} {v : Int} (h : OnlySlot s l v) :
    (Tls.lookup l).run s = .ok (some (.slot 0)) s := by
  -- one used slot: the scan stops at slot 0
  have hwf : s.slots.WF := ⟨by rw [h.1]; decide, fun i j hi hj _ => by rw [h.1] at hi hj; omega⟩
  have hscan : s.slots.scan l 0 s.slots.lockCount = .ok (some 0) :=
    (Slots.scan_eq_some_iff hwf).mpr ⟨by rw [h.1]; decide, by rw [h.2]⟩
  have hle : s.slots.lockCount ≤ maxLocks := hwf.fits
  simp [Tls.lookup, hle, hscan]

variable (malloc) in
/-- A nested acquisition counts up in the `int`, also where it wraps. -/
theorem OnlySlot.acquire {s : Tls M Addr} {l : Addr} {v : Int} (h : OnlySlot s l v) :
    ∃ s', (shieldStep (ops malloc) (.acquire l true)).run s = .ok ⟨.lsSkipAcquisition, []⟩ s' ∧
      OnlySlot s' l (int32 (v + 1)) := by
  have hread : s.slots.read 0 = .ok ⟨l, v⟩ := by rw [Slots.read_of_lt (by decide), h.2]
  have hset : s.slots.setCount 0 (countRep.slotInc v) =
      .ok { s.slots with
        lockTable := Function.update s.slots.lockTable 0 ⟨l, countRep.slotInc v⟩ } := by
    unfold Slots.setCount
    rw [if_pos (by decide), h.2]
  let s' : Tls M Addr := { s with slots := { s.slots with
      lockTable := Function.update s.slots.lockTable 0 ⟨l, countRep.slotInc v⟩ } }
  have hinc : (incrementRef malloc l (some (.slot 0))).run s = .ok () s' := by
    simp [incrementRef, Tls.incrementEntry, hread, hset, s']
  have hself : s'.slots.lockTable 0 = ⟨l, countRep.slotInc v⟩ := by simp [s']
  exact ⟨s', shieldStep_acquire_skip h.lookup hinc, h.1, hself⟩

variable (malloc) in
/-- Nested acquisitions count in an `int`. -/
theorem nested_onlySlot (l : Addr) (n : Nat) :
    (run (shieldStep (ops malloc)) (init : Tls M Addr)
      (List.replicate (n + 1) (.acquire l true))).stop = none ∧
    OnlySlot (run (shieldStep (ops malloc)) (init : Tls M Addr)
      (List.replicate (n + 1) (.acquire l true))).final l (int32 (n + 1)) := by
  induction n with
  | zero =>
    let s : Tls M Addr := { (init : Tls M Addr) with
      slots := ⟨Function.update (fun _ => ⟨default, (0 : Int)⟩) 0 ⟨l, (1 : Int)⟩, 1⟩ }
    have hl : (Tls.lookup l).run (init : Tls M Addr) = .ok none init := rfl
    have hi : (incrementRef malloc l none).run (init : Tls M Addr) = .ok () s := rfl
    have hstep : (shieldStep (ops malloc) (.acquire l true)).run init =
        .ok ⟨.lsAcquireNow, [.lockFn l]⟩ s :=
      shieldStep_acquire_new hl hi
    have hself : s.slots.lockTable 0 = ⟨l, (1 : Int)⟩ := by simp [s]
    rw [List.replicate_one, run_cons_ok hstep]
    exact ⟨rfl, rfl, hself⟩
  | succ n ih =>
    obtain ⟨s', hstep, hs'⟩ := ih.2.acquire malloc
    rw [List.replicate_succ', run_snoc_ok ih.1 hstep]
    refine ⟨rfl, ?_⟩
    -- incrementing in the `int` wraps like incrementing and then wrapping
    have hsum : int32 (int32 ((n : Int) + 1) + 1) = int32 ((n + 1 : Nat) + 1) := by
      have h := wrap_add 32 ((n : Int) + 1) 1
      push_cast
      exact h
    rw [← hsum]
    exact hs'

/-- After `2^31` nested acquisitions no entry holds the count. -/
theorem nested_count_lost (malloc : Nat → List Nat → Option Nat) (l : Addr) {n : Nat}
    (hn : n = 2 ^ 31) :
    ¬ ∃ e, (Tls.lookup l).run (run (shieldStep (ops malloc)) (init : Tls M Addr)
        (List.replicate n (.acquire l true))).final =
        .ok (some e)
          (run (shieldStep (ops malloc)) init (List.replicate n (.acquire l true))).final ∧
      (run (shieldStep (ops malloc)) (init : Tls M Addr)
        (List.replicate n (.acquire l true))).final.recCount e = n := by
  rintro ⟨e, hl, he⟩
  obtain ⟨m, rfl⟩ : ∃ m, n = m + 1 := ⟨n - 1, by omega⟩
  obtain ⟨-, honly⟩ := nested_onlySlot (M := M) malloc l m
  generalize run (shieldStep (ops malloc)) (init : Tls M Addr)
    (List.replicate (m + 1) (.acquire l true)) = t at *
  rw [honly.lookup] at hl
  obtain rfl : EntryPtr.slot 0 = e := by simpa using hl
  have hcount : t.final.recCount (.slot 0) = int32 (m + 1) := by
    show (t.final.slots.lockTable 0).recCount = _
    rw [honly.2]
  rw [hcount] at he
  -- the `int` that should be `2^31` is negative
  simp only [int32, wrap, Int.bmod] at he
  omega

/-- Without memory the eleventh lock is lost and its release panics. After `2^31` acquisitions
the entry of the lock no longer has the map's count. -/
theorem hybrid_refines_needs_conditions :
    ((run RefModel.step RefModel.init elevenLocks).stop = none ∧
      (run (shieldStep (ops fun _ _ => none)) (init : Tls (FunMap Nat NodePtr) Nat)
        elevenLocks).stop = some (unbalancedUnlockPanic, [])) ∧
    ∃ n : Nat, n = 2 ^ 31 ∧
      (run RefModel.step RefModel.init (List.replicate n (.acquire 0 true))).final 0 = n ∧
      ¬ ∃ e, (Tls.lookup 0).run (run (shieldStep (ops bumpMalloc))
          (init : Tls (FunMap Nat NodePtr) Nat) (List.replicate n (.acquire 0 true))).final =
          .ok (some e) (run (shieldStep (ops bumpMalloc)) init
            (List.replicate n (.acquire 0 true))).final ∧
        (run (shieldStep (ops bumpMalloc)) (init : Tls (FunMap Nat NodePtr) Nat)
          (List.replicate n (.acquire 0 true))).final.recCount e = n :=
  ⟨⟨by decide +kernel, by decide +kernel⟩, _, rfl, (RefModel.nested 0 _).2,
    nested_count_lost bumpMalloc 0 rfl⟩

end LockShield.Hybrid
