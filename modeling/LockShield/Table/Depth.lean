import LockShield.Table.ArrayRuns
import LockShield.Table.Throwing

/-!
# How deep a lock can be nested

`LS_ARRAY` and the array mode of `LS_INVOKE` count nested acquisitions in a `long`
and answer releases through an `int`. `LS_ARRAY` compares the `long` and narrows
what is left; `LS_INVOKE` narrows first and compares the `int`. A program acquires one
lock `n` times and releases it as often, and only its last release may unlock
(`OutermostOnly`).

`LongCounter` is what the two have in common: which values of the count a release
lowers, and from which it removes the lock.

## Results

* `LongCounter.outermost_iff` — what the outermost release depends on.
* `outermost_release_iff`     — the depths at which each variant gets it right.
* `outermost_release_too_deep` — a depth at which one of them does not.
-/

namespace LockShield

open Lib

variable {σ Ptr Addr : Type}

/-- The table after `n` reentrant acquisitions of a lock. -/
def acquired (T : TableOps σ Ptr Addr) (s : σ) (l : Addr) (n : Nat) : σ :=
  (run (shieldStep T) s (List.replicate n (.acquire l true))).final

/-- The table after `n` reentrant acquisitions and `k` reentrant releases. -/
def released (T : TableOps σ Ptr Addr) (s : σ) (l : Addr) (n k : Nat) : σ :=
  (run (shieldStep T) (acquired T s l n) (List.replicate k (.release l true))).final

/-- Of the `n` releases after `n` acquisitions the last one, and no other, unlocks
and removes the lock, and `DecrementRef` returns zero exactly when it removes. -/
structure OutermostOnly (T : TableOps σ Ptr Addr) (s : σ) (l : Addr) (n : Nat) : Prop where
  acquires : (run (shieldStep T) s (List.replicate n (.acquire l true))).stop = none
  releases : ∀ k < n, ∃ t,
    (shieldStep T (.release l true)).run (released T s l n k) =
      .ok (if k + 1 < n then ⟨.lsSkipRelease, []⟩ else ⟨.lsReleaseNow, [.unlockFn l]⟩) t ∧
    (Tracked T t l ↔ k + 1 < n)
  decrements : ∀ k < n, ∀ p v t,
    (T.lookup l).run (released T s l n k) = .ok (some p) (released T s l n k) →
    (T.decrementRef l (some p)).run (released T s l n k) = .ok v t →
    (v = 0 ↔ ¬ Tracked T t l)

/-- A lock's entry with a `long` count. `DecrementRef` lowers the counts that
satisfy `lowers` and returns `returns` of them; others it removes. -/
structure LongCounter (T : TableOps σ Ptr Addr) (l : Addr) where
  Holds : σ → Int → Prop
  lowers : Int → Prop
  returns : Int → Int
  lookup : ∀ s c, Holds s c → ∃ p, (T.lookup l).run s = .ok (some p) s
  increment : ∀ s c p, Holds s c → (T.lookup l).run s = .ok (some p) s →
    ∃ s', (T.incrementRef l (some p)).run s = .ok () s' ∧ Holds s' (int64 (c + 1))
  lower : ∀ s c p, Holds s c → (T.lookup l).run s = .ok (some p) s → lowers c →
    ∃ s', (T.decrementRef l (some p)).run s = .ok (returns c) s' ∧ Holds s' (int64 (c - 1))
  remove : ∀ s c p, Holds s c → (T.lookup l).run s = .ok (some p) s → ¬ lowers c →
    ∃ s', (T.decrementRef l (some p)).run s = .ok 0 s' ∧ (T.lookup l).run s' = .ok none s'

namespace LongCounter

variable {T : TableOps σ Ptr Addr} {l : Addr} (N : LongCounter T l) {s s₁ t : σ} {n : Nat} {c : Int}

/-- Nested acquisitions count up. -/
theorem run_acquires (hfirst : (shieldStep T (.acquire l true)).run s =
      .ok ⟨.lsAcquireNow, [.lockFn l]⟩ s₁) (h₁ : N.Holds s₁ 1) :
    ∀ m : Nat, m + 1 < 2 ^ 63 →
      (run (shieldStep T) s (List.replicate (m + 1) (.acquire l true))).stop = none ∧
        N.Holds (acquired T s l (m + 1)) ((m + 1 : Nat) : Int) := by
  intro m
  induction m with
  | zero =>
    intro _
    rw [acquired, List.replicate_one, run_cons_ok hfirst]
    exact ⟨rfl, h₁⟩
  | succ m ih =>
    intro hm
    obtain ⟨hstop, hold⟩ := ih (by omega)
    obtain ⟨p, hl⟩ := N.lookup _ _ hold
    obtain ⟨s', hinc, hold'⟩ := N.increment _ _ p hold hl
    rw [acquired, List.replicate_succ', run_snoc_ok hstop (shieldStep_acquire_skip hl hinc)]
    refine ⟨rfl, ?_⟩
    -- below `2^63` the `long` is the number of acquisitions
    rw [int64_of_range (by omega) (by omega)] at hold'
    exact_mod_cast hold'

/-- A release that lowers the count. -/
theorem release_lower (h : N.Holds s c) (hlow : N.lowers c) :
    ∃ s', (shieldStep T (.release l true)).run s =
        .ok (if N.returns c ≠ 0 then ⟨.lsSkipRelease, []⟩
          else ⟨.lsReleaseNow, [.unlockFn l]⟩) s' ∧ N.Holds s' (int64 (c - 1)) := by
  obtain ⟨p, hl⟩ := N.lookup s c h
  obtain ⟨s', hdec, h'⟩ := N.lower s c p h hl hlow
  refine ⟨s', ?_, h'⟩
  simpa only [eq_self, true_and] using shieldStep_release (r := true) hl hdec

/-- A release that removes the lock. -/
theorem release_remove (h : N.Holds s c) (hlow : ¬ N.lowers c) :
    ∃ s', (shieldStep T (.release l true)).run s = .ok ⟨.lsReleaseNow, [.unlockFn l]⟩ s' ∧
      ¬ Tracked T s' l := by
  obtain ⟨p, hl⟩ := N.lookup s c h
  obtain ⟨s', hdec, hgone⟩ := N.remove s c p h hl hlow
  exact ⟨s', shieldStep_release_now hl hdec, not_tracked hgone⟩

/-- The counts on the way down, as long as each release lowers the count. -/
theorem run_releases (hn : n < 2 ^ 63) (hacq : N.Holds (acquired T s l n) n) :
    ∀ k : Nat, k < n → (∀ j < k, N.lowers ((n : Int) - j)) →
      (run (shieldStep T) (acquired T s l n) (List.replicate k (.release l true))).stop = none ∧
        N.Holds (released T s l n k) ((n : Int) - k) := by
  intro k
  induction k with
  | zero =>
    intro _ _
    refine ⟨rfl, ?_⟩
    simpa [released] using hacq
  | succ k ih =>
    intro hk hlow
    obtain ⟨hstop, hold⟩ := ih (by omega) fun j hj => hlow j (by omega)
    obtain ⟨s', hstep, hold'⟩ := N.release_lower hold (hlow k (by omega))
    rw [released, List.replicate_succ', run_snoc_ok hstop hstep]
    refine ⟨rfl, ?_⟩
    -- the count stays above zero, so the `long` does not wrap
    rw [int64_of_range (by omega) (by omega)] at hold'
    have hsub : (n : Int) - k - 1 = (n : Int) - (k + 1 : Nat) := by omega
    rw [← hsub]
    exact hold'

/-- One release on the way down, from the count it finds. -/
theorem release_right (h : N.Holds t c) (hone : ¬ N.lowers 1) {k : Nat}
    (hc : c = (n : Int) - k) (hk : k < n)
    (hlow : ∀ c : Int, 2 ≤ c → c ≤ n → N.lowers c ∧ N.returns c ≠ 0) :
    (∃ t', (shieldStep T (.release l true)).run t =
        .ok (if k + 1 < n then ⟨.lsSkipRelease, []⟩ else ⟨.lsReleaseNow, [.unlockFn l]⟩) t' ∧
      (Tracked T t' l ↔ k + 1 < n)) ∧
    ∀ p v t', (T.lookup l).run t = .ok (some p) t →
      (T.decrementRef l (some p)).run t = .ok v t' → (v = 0 ↔ ¬ Tracked T t' l) := by
  by_cases hlast : k + 1 < n
  · -- an inner release
    obtain ⟨hlow, hret⟩ := hlow c (by omega) (by omega)
    obtain ⟨t', hstep, h'⟩ := N.release_lower h hlow
    rw [if_pos hret] at hstep
    refine ⟨⟨t', by rw [if_pos hlast]; exact hstep, iff_of_true (N.lookup _ _ h') hlast⟩, ?_⟩
    intro p v t₁ hl hdec
    -- `DecrementRef` returns what is left and keeps the lock
    obtain ⟨t₂, hdec', h₂⟩ := N.lower t c p h hl hlow
    obtain ⟨rfl, rfl⟩ := Tls.fst_of_ok (hdec'.symm.trans hdec)
    exact iff_of_false hret fun hnot => hnot (N.lookup _ _ h₂)
  · -- the outermost one
    obtain rfl : c = 1 := by omega
    obtain ⟨t', hstep, hgone⟩ := N.release_remove h hone
    refine ⟨⟨t', by rw [if_neg hlast]; exact hstep, iff_of_false hgone hlast⟩, ?_⟩
    intro p v t₁ hl hdec
    -- `DecrementRef` returns zero and removes the lock
    obtain ⟨t₂, hdec', hnone⟩ := N.remove t 1 p h hl hone
    obtain ⟨rfl, rfl⟩ := Tls.fst_of_ok (hdec'.symm.trans hdec)
    exact iff_of_true rfl (not_tracked hnone)

/-- The outermost release is recognised exactly when every inner one lowers its
count and returns something else than zero. -/
theorem outermost_iff (hone : ¬ N.lowers 1) (hfirst : (shieldStep T (.acquire l true)).run s =
      .ok ⟨.lsAcquireNow, [.lockFn l]⟩ s₁) (h₁ : N.Holds s₁ 1) (hn1 : 1 ≤ n) (hn : n < 2 ^ 63) :
    OutermostOnly T s l n ↔ ∀ c : Int, 2 ≤ c → c ≤ n → N.lowers c ∧ N.returns c ≠ 0 := by
  obtain ⟨hstop, hacq⟩ : (run (shieldStep T) s (List.replicate n (.acquire l true))).stop = none ∧
      N.Holds (acquired T s l n) n := by
    obtain ⟨m, rfl⟩ : ∃ m, n = m + 1 := ⟨n - 1, by omega⟩
    exact N.run_acquires hfirst h₁ m hn
  constructor
  · intro h
    -- the replies show that each inner release lowered its count
    have hinner : ∀ k : Nat, k + 1 < n → N.Holds (released T s l n k) ((n : Int) - k) →
        N.lowers ((n : Int) - k) ∧ N.returns ((n : Int) - k) ≠ 0 := by
      intro k hk hold
      obtain ⟨t, hstep, -⟩ := h.releases k (by omega)
      rw [if_pos hk] at hstep
      by_cases hlow : N.lowers ((n : Int) - k)
      · refine ⟨hlow, fun hzero => ?_⟩
        obtain ⟨t', hstep', -⟩ := N.release_lower hold hlow
        rw [if_neg (not_not.mpr hzero), hstep] at hstep'
        cases hstep'
      · obtain ⟨t', hstep', -⟩ := N.release_remove hold hlow
        rw [hstep] at hstep'
        cases hstep'
    -- so the counts before the last release are all reached
    have hlowers : ∀ k : Nat, k + 1 < n → N.lowers ((n : Int) - k) := by
      intro k
      induction k using Nat.strong_induction_on with
      | _ k ih =>
        intro hk
        have hold := (N.run_releases hn hacq k (by omega) fun j hj => ih j hj (by omega)).2
        exact (hinner k hk hold).1
    intro c h2 hcn
    -- every count from two to `n` is one of them
    obtain ⟨k, hk⟩ : ∃ k : Nat, c = (n : Int) - k := ⟨((n : Int) - c).toNat, by omega⟩
    have hkn : k + 1 < n := by omega
    rw [hk]
    exact hinner k hkn (N.run_releases hn hacq k (by omega) fun j hj => hlowers j (by omega)).2
  · intro hlow
    -- the releases one by one, from the counts they find
    have hright := fun (k : Nat) (hk : k < n) =>
      N.release_right (N.run_releases hn hacq k hk fun j hj =>
        (hlow _ (by omega) (by omega)).1).2 hone rfl hk hlow
    exact ⟨hstop, fun k hk => (hright k hk).1, fun k hk => (hright k hk).2⟩

end LongCounter

/-! ## The two variants -/

section Array

variable [DecidableEq Addr]

/-- `LS_ARRAY`: the comparison is on the `long`. -/
def ArrayTable.longCounter (l : Addr) :
    LongCounter (ArrayTable.ops : TableOps (ArrayTable.Tls Addr) Nat Addr) l where
  Holds s c := s.WF ∧ s.stored l = some c
  lowers c := 1 < c
  returns c := int32 (int64 (c - 1))
  lookup s c h := ArrayTable.lookup_stored h.1 h.2
  increment s c p h hl := by
    obtain ⟨s', hrun, hwf, -, hst⟩ := ArrayTable.incrementRef_held h.1 hl h.2
    exact ⟨s', hrun, hwf, by rw [hst, Function.update_self]⟩
  lower s c p h hl hlow := by
    obtain ⟨s', hrun, hwf, -, hst⟩ := ArrayTable.decrementRef_lower h.1 hl h.2 hlow
    exact ⟨s', hrun, hwf, by rw [hst, Function.update_self]⟩
  remove s c p h hl hlow := by
    obtain ⟨s', hrun, hwf, -, hst⟩ := ArrayTable.decrementRef_remove h.1 hl h.2 hlow
    exact ⟨s', hrun, ArrayTable.lookup_none_of_stored hwf (by rw [hst, Function.update_self])⟩

/-- In `LS_ARRAY` the outermost release is the only one that unlocks up to a depth
of `2^32`. -/
theorem ArrayTable.outermost_iff [Inhabited Addr] {s : ArrayTable.Tls Addr} {l : Addr} {n : Nat}
    (hs : Reachable ArrayTable.ops ArrayTable.init s) (hl : s.stored l = none)
    (hroom : s.lockCount < maxLocks) (hn1 : 1 ≤ n) (hn : n < 2 ^ 63) :
    OutermostOnly ArrayTable.ops s l n ↔ n ≤ 2 ^ 32 := by
  obtain ⟨s₁, hfirst, hwf, -, hst⟩ :=
    ArrayTable.acquire_new (r := true) (ArrayTable.wf_of_reachable hs) hl hroom
  have hone : ¬ (ArrayTable.longCounter l).lowers 1 := fun h => by
    have h1 : (1 : Int) < 1 := h
    omega
  rw [(ArrayTable.longCounter l).outermost_iff hone hfirst
    ⟨hwf, by rw [hst, Function.update_self]⟩ hn1 hn]
  constructor
  · intro h
    by_contra hlarge
    -- what is left of `2^32 + 1` is zero as an `int`
    obtain ⟨-, hret⟩ := h (2 ^ 32 + 1) (by omega) (by omega)
    refine hret ?_
    show int32 (int64 (2 ^ 32 + 1 - 1)) = 0
    rw [int32_int64, int32_eq_zero_iff]
    omega
  · intro hle c h2 hcn
    refine ⟨?_, ?_⟩
    · show 1 < c
      omega
    · show int32 (int64 (c - 1)) ≠ 0
      rw [int32_int64, ne_eq, int32_eq_zero_iff]
      omega

end Array

namespace Invoke

variable {M : Type} [Inhabited Addr] [DecidableEq Addr] [PtrMap M Addr NodePtr]
  {malloc : Nat → List Nat → Option Nat}

omit [Inhabited Addr] in
theorem lookup_slot {s : Tls M Addr} {l : Addr} {c : Int} (hwf : s.slots.WF)
    (hst : s.slots.stored l = some c) :
    ∃ i, (Tls.lookup l).run s = .ok (some (.slot i)) s ∧ i < maxLocks ∧
      s.slots.scan l 0 s.slots.lockCount = .ok (some i) ∧
      (s.slots.lockTable i).recCount = c := by
  rcases Slots.scan_cases hwf l with hs | ⟨i, hs⟩
  · rw [(Slots.stored_eq_none_iff hwf).mpr hs] at hst
    cases hst
  · rw [Slots.stored_of_scan hs] at hst
    exact ⟨i, by simp [Tls.lookup, hwf.fits, hs],
      lt_of_lt_of_le (Slots.scan_eq_some hwf.fits hs).1 hwf.fits, hs, Option.some.inj hst⟩

variable (M malloc) in
/-- `LS_INVOKE` in array mode: the comparison is on the `int`. -/
def longCounter (l : Addr) :
    LongCounter (ops malloc : TableOps (Tls M Addr) EntryPtr Addr) l where
  Holds s c := s.slots.WF ∧ s.slots.stored l = some c
  lowers c := 1 < int32 c
  returns c := int32 c - 1
  lookup s c h := by
    obtain ⟨i, hl, -⟩ := lookup_slot h.1 h.2
    exact ⟨_, hl⟩
  increment s c p h hl := by
    obtain ⟨i, hl', hi, hs, rfl⟩ := lookup_slot h.1 h.2
    have hp : p = .slot i := Option.some.inj (Tls.fst_of_ok (hl.symm.trans hl')).1
    obtain ⟨slots, hset, hwf, -, hst⟩ :=
      Slots.setCount_spec (c := countRep.slotInc (s.slots.lockTable i).recCount) h.1 hs
    refine ⟨{ s with slots := slots }, ?_, hwf, by rw [hst, Function.update_self]; rfl⟩
    simp [hp, ops, incrementRef, Tls.incrementEntry, Slots.read_of_lt hi, hset]
  -- `rec_count--` in the slot
  lower s c p h hl hlow := by
    obtain ⟨i, hl', hi, hs, rfl⟩ := lookup_slot h.1 h.2
    have hp : p = .slot i := Option.some.inj (Tls.fst_of_ok (hl.symm.trans hl')).1
    obtain ⟨slots, hset, hwf, -, hst⟩ :=
      Slots.setCount_spec (c := countRep.slotDec (s.slots.lockTable i).recCount) h.1 hs
    have hval : 1 < countRep.slotVal (s.slots.lockTable i).recCount := hlow
    refine ⟨{ s with slots := slots }, ?_, hwf, by rw [hst, Function.update_self]; rfl⟩
    simp [hp, ops, decrementRef, Tls.decrementEntry, h.1.fits, Slots.read_of_lt hi, hval, hset]
    rfl
  -- the last slot takes the place of this one, and the lock is not found again
  remove s c p h hl hlow := by
    obtain ⟨i, hl', hi, hs, rfl⟩ := lookup_slot h.1 h.2
    have hp : p = .slot i := Option.some.inj (Tls.fst_of_ok (hl.symm.trans hl')).1
    obtain ⟨slots, hrem, hwf, -, hst⟩ := Slots.swapRemove_spec h.1 hs
    have hval : ¬ 1 < countRep.slotVal (s.slots.lockTable i).recCount := hlow
    refine ⟨{ s with slots := slots }, ?_, ?_⟩
    · simp [hp, ops, decrementRef, Tls.decrementEntry, h.1.fits, Slots.read_of_lt hi, hval, hrem]
    · have hnone := (Slots.stored_eq_none_iff hwf).mp (by rw [hst, Function.update_self])
      show (Tls.lookup l).run { s with slots := slots } = .ok none { s with slots := slots }
      simp [Tls.lookup, hwf.fits, hnone]

/-- In the array mode of `LS_INVOKE` the outermost release is the only one that
unlocks up to a depth of `2^31 - 1`. -/
theorem outermost_iff [LawfulPtrMap M] {s : Tls M Addr} {l : Addr} {n : Nat}
    (hfresh : MallocFresh malloc) (hs : Reachable (ops malloc) (init : Tls M Addr) s)
    (hl : (Tls.lookup l).run s = .ok none s) (hroom : s.slots.lockCount + 1 < maxLocks)
    (hn1 : 1 ≤ n) (hn : n < 2 ^ 63) :
    OutermostOnly (ops malloc) s l n ↔ n < 2 ^ 31 := by
  obtain ⟨t, hsh⟩ := sound_of_reachable hfresh hs
  have hwf : s.slots.WF := by
    rcases hsh.inv with hA | hH
    · exact hsh.same.wf hA.wf
    · have := hsh.past hH
      omega
  have hnone : s.slots.stored l = none := by
    rcases Slots.scan_cases hwf l with hscan | ⟨i, hscan⟩
    · exact (Slots.stored_eq_none_iff hwf).mpr hscan
    · simp [Tls.lookup, hwf.fits, hscan] at hl
  -- a slot is left after the new lock's, so the table stays an array
  obtain ⟨slots, hpush, hwf', hlc, hst⟩ :=
    Slots.push_spec (c := countRep.slotOne) hwf (by omega) hnone
  have hlt : s.slots.lockCount < maxLocks := by omega
  have hfull : slots.lockCount ≠ maxLocks := by omega
  have hinc : ((ops malloc).incrementRef l none).run s = .ok () { s with slots := slots } := by
    simp [ops, incrementRef, Tls.insertNew, hlt, hpush, hfull]
  have hone : ¬ (longCounter M malloc l).lowers 1 := fun h => by
    have h1 : 1 < int32 1 := h
    rw [int32_of_range (by omega) (by omega)] at h1
    omega
  rw [(longCounter M malloc l).outermost_iff hone (shieldStep_acquire_new (T := ops malloc) hl hinc)
    ⟨hwf', by rw [hst, Function.update_self]; rfl⟩ hn1 hn]
  constructor
  · intro h
    by_contra hlarge
    -- `2^31` is negative as an `int`
    obtain ⟨hlow, -⟩ := h (2 ^ 31) (by omega) (by omega)
    have hneg : 1 < int32 (2 ^ 31) := hlow
    have hval : int32 (2 ^ 31) = -2 ^ 31 := by decide
    omega
  · intro hlt c h2 hcn
    have hc : int32 c = c := int32_of_range (by omega) (by omega)
    refine ⟨?_, ?_⟩
    · show 1 < int32 c
      omega
    · show int32 c - 1 ≠ 0
      omega

end Invoke

/-! ## Both variants -/

section Both

variable {M : Type} [Inhabited Addr] [DecidableEq Addr] [PtrMap M Addr NodePtr] [LawfulPtrMap M]
  {malloc : Nat → List Nat → Option Nat}

/-- For a lock that gets a slot of the array, the outermost release and no other
unlocks exactly up to depth `2^32` in `LS_ARRAY` and up to depth `2^31 - 1` in the
array mode of `LS_INVOKE`. -/
theorem outermost_release_iff (hfresh : MallocFresh malloc) (l : Addr) (n : Nat) (hn1 : 1 ≤ n)
    (hn : n < 2 ^ 63) :
    (∀ s : ArrayTable.Tls Addr, Reachable ArrayTable.ops ArrayTable.init s → s.stored l = none →
      s.lockCount < maxLocks → (OutermostOnly ArrayTable.ops s l n ↔ n ≤ 2 ^ 32)) ∧
    ∀ s : Invoke.Tls M Addr, Reachable (Invoke.ops malloc) Invoke.init s →
      (Tls.lookup l).run s = .ok none s → s.slots.lockCount + 1 < maxLocks →
      (OutermostOnly (Invoke.ops malloc) s l n ↔ n < 2 ^ 31) :=
  ⟨fun _ hs hl hroom => ArrayTable.outermost_iff hs hl hroom hn1 hn,
    fun _ hs hl hroom => Invoke.outermost_iff hfresh hs hl hroom hn1 hn⟩

end Both

/-- Three levels. -/
theorem outermost_release_three :
    OutermostOnly ArrayTable.ops (ArrayTable.init : ArrayTable.Tls Nat) 0 3 ∧
      OutermostOnly (Invoke.ops bumpMalloc) (Invoke.init : Invoke.Tls (FunMap Nat NodePtr) Nat)
        0 3 := by
  obtain ⟨harray, hinvoke⟩ := outermost_release_iff (M := FunMap Nat NodePtr) bumpMalloc_fresh
    (0 : Nat) 3 (by omega) (by omega)
  exact ⟨(harray _ ⟨[], rfl, rfl⟩ rfl (by decide)).mpr (by omega),
    (hinvoke _ ⟨[], rfl, rfl⟩ rfl (by decide)).mpr (by omega)⟩

/-- One level more than each variant can do. -/
theorem outermost_release_too_deep :
    ¬ OutermostOnly ArrayTable.ops (ArrayTable.init : ArrayTable.Tls Nat) 0 (2 ^ 32 + 1) ∧
      ¬ OutermostOnly (Invoke.ops bumpMalloc)
        (Invoke.init : Invoke.Tls (FunMap Nat NodePtr) Nat) 0 (2 ^ 31) := by
  have harray : Reachable ArrayTable.ops ArrayTable.init (ArrayTable.init : ArrayTable.Tls Nat) :=
    ⟨[], rfl, rfl⟩
  have hinvoke : Reachable (Invoke.ops bumpMalloc) Invoke.init
      (Invoke.init : Invoke.Tls (FunMap Nat NodePtr) Nat) := ⟨[], rfl, rfl⟩
  rw [ArrayTable.outermost_iff harray rfl (by decide) (by omega) (by omega),
    Invoke.outermost_iff bumpMalloc_fresh hinvoke rfl (by decide) (by omega) (by omega)]
  omega

end LockShield
