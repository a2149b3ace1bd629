import LockShield.Table.Hybrid
import LockShield.Table.Array

/-!
# `LS_ARRAY` and `LS_HYBRID` within the array's capacity

Both variants are tables of counters, so both follow the reference-count map,
the array as long as a slot is free for every new lock. Their internal states
part ways when the hybrid converts at the fourth lock; the map does not.

## Results

* `ArrayTable.lookup_recCount_iff`, `Tls.lookup_recCount_eq_iff` — what either table
  records about a lock, read through its own entry pointer.
* `array_hybrid_interchangeable` — within four locks at a time the two answer every run
  alike and track the same locks with the same counts.
-/

namespace LockShield

open Lib

variable {M Addr : Type} [Inhabited Addr] [DecidableEq Addr]

omit [Inhabited Addr] in
/-- The array's entry for a lock holds its count. -/
theorem ArrayTable.lookup_recCount_iff {s : ArrayTable.Tls Addr} (h : ArrayTable.Inv s) (l : Addr)
    (v : Int) :
    (∃ i, (ArrayTable.lookup l).run s = .ok (some i) s ∧ (s.lockTable i).recCount = v) ↔
      ArrayTable.count s l ≠ 0 ∧ v = ArrayTable.count s l := by
  constructor
  · rintro ⟨i, hl, rfl⟩
    have hst := Slots.stored_of_scan ((ArrayTable.lookup_eq_some_iff h.wf).mp hl)
    have hne := ArrayTable.count_ne_zero_of_lookup h hl
    obtain ⟨hst', -⟩ := ArrayTable.stored_of_count h hne
    rw [hst] at hst'
    exact ⟨hne, Option.some.inj hst'⟩
  · rintro ⟨hne, rfl⟩
    obtain ⟨hst, -⟩ := ArrayTable.stored_of_count h hne
    obtain ⟨i, hl⟩ := ArrayTable.lookup_some_of_stored h.wf (by rw [hst]; simp)
    have hst' := Slots.stored_of_scan ((ArrayTable.lookup_eq_some_iff h.wf).mp hl)
    rw [hst] at hst'
    exact ⟨i, hl, (Option.some.inj hst').symm⟩

variable [PtrMap M Addr NodePtr] {malloc : Nat → List Nat → Option Nat}

omit [Inhabited Addr] in
theorem Tls.lookup_recCount_eq_iff {R : CountRep} {L : R.Laws} {size : Nat} {s : Tls R M Addr}
    (h : s.Inv L size) (l : Addr) (v : Int) :
    (∃ e, (Tls.lookup l).run s = .ok (some e) s ∧ s.recCount e = v) ↔
      s.count l ≠ 0 ∧ v = s.count l := by
  constructor
  · rintro ⟨e, hl, rfl⟩
    exact ⟨(lookup_iff h l).mp ⟨e, hl⟩, recCount_eq h hl⟩
  · rintro ⟨hne, rfl⟩
    obtain ⟨e, hl⟩ := (lookup_iff h l).mpr hne
    exact ⟨e, hl, recCount_eq h hl⟩

variable [LawfulPtrMap M]

/-- The locks the hybrid variant tracks. -/
def Hybrid.tracked (s : Hybrid.Tls M Addr) : Set Addr :=
  {l | ∃ e, (Tls.lookup l).run s = .ok (some e) s}

/-- While the hybrid tracks at most four locks, the array can record the run. -/
theorem ArrayTable.recordable (hfresh : MallocFresh malloc) (hmalloc : MallocSucceeds malloc)
    {cs : List (Call Addr)} (hbelow : RefModel.Below (2 ^ 31) cs)
    (hfour : ∀ pre, pre <+: cs →
      (Hybrid.tracked (run (shieldStep (Hybrid.ops malloc)) (Hybrid.init : Hybrid.Tls M Addr)
        pre).final).encard ≤ maxLocks) :
    Along RefModel.step (ArrayTable.refTable Addr).Recordable RefModel.init cs := by
  refine (ArrayTable.refTable Addr).recordable_of_below (fun pre c hpre hstop l r hc h0 => ?_) ?_
  swap
  · rw [ArrayTable.refTable_limit, Nat.sub_add_cancel Nat.one_le_two_pow]
    exact hbelow
  subst hc
  -- after the call the map holds the new lock on top of the ones it held before
  have hafter := hfour _ hpre
  obtain ⟨-, -, hinv, hcount⟩ := Hybrid.run_stands (M := M) hfresh hmalloc hbelow hpre
  rw [run_snoc_ok hstop (RefModel.step_acquire_new h0)] at hcount
  have htracked : Hybrid.tracked (run (shieldStep (Hybrid.ops malloc))
      (Hybrid.init : Hybrid.Tls M Addr) (pre ++ [.acquire l r])).final =
      insert l {k | (run RefModel.step RefModel.init pre).final k ≠ 0} := by
    ext k
    rw [Hybrid.tracked, Set.mem_ofPred_eq, Tls.lookup_iff hinv, hcount, Set.mem_insert_iff,
      Set.mem_ofPred_eq]
    by_cases hk : k = l
    · subst hk
      simp
    · simp [hk]
  rw [htracked, Set.encard_insert_of_notMem (by simpa using h0)] at hafter
  show Set.encard _ < (maxLocks : ℕ∞)
  have hfin : {k | (run RefModel.step RefModel.init pre).final k ≠ 0}.encard ≠ ⊤ := by
    intro htop
    rw [htop] at hafter
    exact absurd hafter (by decide)
  exact (ENat.add_one_le_iff hfin).mp hafter

/-- Within the array's capacity the two variants give the same replies, stop at
the same call, and track the same locks with the same counts after every call. -/
theorem array_hybrid_interchangeable (hfresh : MallocFresh malloc)
    (hmalloc : MallocSucceeds malloc) (cs : List (Call Addr))
    (hbelow : RefModel.Below (2 ^ 31) cs)
    (hfour : ∀ pre, pre <+: cs →
      (Hybrid.tracked (run (shieldStep (Hybrid.ops malloc)) (Hybrid.init : Hybrid.Tls M Addr)
        pre).final).encard ≤ maxLocks) :
    (run (shieldStep ArrayTable.ops) (ArrayTable.init : ArrayTable.Tls Addr) cs).replies =
      (run (shieldStep (Hybrid.ops malloc)) (Hybrid.init : Hybrid.Tls M Addr) cs).replies ∧
    (run (shieldStep ArrayTable.ops) (ArrayTable.init : ArrayTable.Tls Addr) cs).stop =
      (run (shieldStep (Hybrid.ops malloc)) (Hybrid.init : Hybrid.Tls M Addr) cs).stop ∧
    ∀ pre, pre <+: cs → ∀ l v,
      (∃ i, (ArrayTable.lookup l).run
          (run (shieldStep ArrayTable.ops) (ArrayTable.init : ArrayTable.Tls Addr) pre).final =
          .ok (some i) (run (shieldStep ArrayTable.ops) ArrayTable.init pre).final ∧
        ((run (shieldStep ArrayTable.ops) (ArrayTable.init : ArrayTable.Tls Addr)
          pre).final.lockTable i).recCount = v) ↔
      (∃ e, (Tls.lookup l).run
          (run (shieldStep (Hybrid.ops malloc)) (Hybrid.init : Hybrid.Tls M Addr) pre).final =
          .ok (some e) (run (shieldStep (Hybrid.ops malloc)) Hybrid.init pre).final ∧
        (run (shieldStep (Hybrid.ops malloc)) (Hybrid.init : Hybrid.Tls M Addr)
          pre).final.recCount e = v) := by
  have hrec := ArrayTable.recordable hfresh hmalloc hbelow hfour
  have harray : ∀ pre, pre <+: cs →
      (run (shieldStep ArrayTable.ops) (ArrayTable.init : ArrayTable.Tls Addr) pre).replies =
        (run RefModel.step RefModel.init pre).replies ∧
      (run (shieldStep ArrayTable.ops) (ArrayTable.init : ArrayTable.Tls Addr) pre).stop =
        (run RefModel.step RefModel.init pre).stop ∧
      (ArrayTable.refTable Addr).Stands
        (run (shieldStep ArrayTable.ops) (ArrayTable.init : ArrayTable.Tls Addr) pre).final
        (run RefModel.step RefModel.init pre).final := fun pre hpre =>
    (ArrayTable.refTable Addr).run_eq ArrayTable.init_stands (hrec.restrict hpre)
  -- both follow the map, and the map decides replies and counts
  obtain ⟨hreplies, hstop, -⟩ := harray cs (List.prefix_refl cs)
  obtain ⟨hreplies', hstop', -⟩ :=
    Hybrid.run_stands (M := M) hfresh hmalloc hbelow (List.prefix_refl cs)
  refine ⟨by rw [hreplies, hreplies'], by rw [hstop, hstop'], fun pre hpre l v => ?_⟩
  obtain ⟨-, -, hinv, hcount⟩ := harray pre hpre
  obtain ⟨-, -, hinv', hcount'⟩ := Hybrid.run_stands (M := M) hfresh hmalloc hbelow hpre
  change ArrayTable.count _ = _ at hcount
  rw [ArrayTable.lookup_recCount_iff hinv, Tls.lookup_recCount_eq_iff hinv', hcount, hcount']

/-- Four locks, converted, shrunk and grown again, and one release too many. -/
def fourLocks : List (Call Nat) :=
  [.acquire 0 true, .acquire 1 false, .acquire 2 true, .acquire 3 true, .acquire 2 true,
    .release 1 false, .release 2 true, .acquire 1 true, .release 3 true, .release 3 true]

theorem array_hybrid_fourLocks :
    (run (shieldStep ArrayTable.ops) (ArrayTable.init : ArrayTable.Tls Nat) fourLocks).stop =
      (run (shieldStep (Hybrid.ops bumpMalloc))
        (Hybrid.init : Hybrid.Tls (FunMap Nat NodePtr) Nat) fourLocks).stop := by
  have hbelow : RefModel.Below (2 ^ 31) fourLocks := RefModel.below_of_length (by decide)
  have hfour : ∀ pre, pre <+: fourLocks →
      (Hybrid.tracked (run (shieldStep (Hybrid.ops bumpMalloc))
        (Hybrid.init : Hybrid.Tls (FunMap Nat NodePtr) Nat) pre).final).encard ≤ maxLocks := by
    intro pre hpre
    obtain ⟨-, -, hinv, hcount⟩ := Hybrid.run_stands (M := FunMap Nat NodePtr) bumpMalloc_fresh
      bumpMalloc_succeeds hbelow hpre
    -- only locks of the program are tracked, and there are four
    have hsub : Hybrid.tracked (run (shieldStep (Hybrid.ops bumpMalloc))
        (Hybrid.init : Hybrid.Tls (FunMap Nat NodePtr) Nat) pre).final ⊆
        (Finset.range maxLocks : Set Nat) := by
      intro l hl
      have hne := (Tls.lookup_iff hinv l).mp hl
      rw [hcount] at hne
      have hmem := List.mem_map.mp (RefModel.mem_locks_of_count pre l hne)
      obtain ⟨c, hc, rfl⟩ := hmem
      have hlocks : ∀ c ∈ fourLocks, c.lock ∈ Finset.range maxLocks := by decide
      exact hlocks c (hpre.subset hc)
    have hcard := Set.encard_le_encard hsub
    rwa [Set.encard_coe_eq_coe_finsetCard, Finset.card_range] at hcard
  exact (array_hybrid_interchangeable bumpMalloc_fresh bumpMalloc_succeeds fourLocks hbelow
    hfour).2.1

end LockShield
