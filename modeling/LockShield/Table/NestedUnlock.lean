import LockShield.Table.ArrayRuns

/-!
# Unlock callbacks that use the shield

`LS_RELEASE` of the array variant looks the lock up and calls back, and on the
path for locks that are not reentrant it does so before `DecrementRef`, with the
entry pointer in its hand. A callback that releases other shielded locks moves
entries from the last slot into the slots it frees, and the pointer then names
another lock or no lock at all.

The callback is any list of shield calls on other locks (`Permitted`); what it does to
the table is followed call by call.

## Results

* `release_reentrant`  — the reentrant path removes the entry first and is always right.
* `release_plain_iff`  — the other path is right if the pointer still names the lock.
* `nested_unlock_iff`  — for which callbacks the table is right afterwards.
* `nested_unlock_corrupts` — three locks, released one inside the other, leave a table
  with a lock that nobody holds.
-/

namespace LockShield.ArrayTable

open Lib

variable {Addr : Type} [DecidableEq Addr]

/-- The callback that makes these calls; their own callbacks leave the table alone. -/
def calling (cs : List (Call Addr)) (_ : Addr) : EStateM Fault (Tls Addr) Unit := fun s =>
  match (run (shieldStep ops) s cs).stop with
  | none => .ok () (run (shieldStep ops) s cs).final
  | some (e, _) => .error e (run (shieldStep ops) s cs).final

/-! ## What the calls of a callback are to do -/

/-- The counts after these calls, each of which has room. -/
def tallied : (Addr → Option Int) → List (Call Addr) → Addr → Option Int
  | cnt, [] => cnt
  | cnt, c :: cs => tallied (Function.update cnt c.lock (tally (cnt c.lock) true c)) cs

/-- A lock is added only where the table is not full. -/
def HasRoom (cnt : Addr → Option Int) : Call Addr → Prop
  | .acquire l _ => cnt l = none → {k | cnt k ≠ none}.encard < maxLocks
  | .release _ _ => True

/-- From these counts on none of the calls panics or adds a lock to a full table. -/
def Permitted : (Addr → Option Int) → List (Call Addr) → Prop
  | _, [] => True
  | cnt, c :: cs => Proceeds (cnt c.lock) c ∧ HasRoom cnt c ∧
    Permitted (Function.update cnt c.lock (tally (cnt c.lock) true c)) cs

/-- The counts that the callback of a release finds: on the reentrant path the
lock has been removed. -/
def atCallback (s : Tls Addr) (l : Addr) (reentrant : Bool) : Addr → Option Int :=
  if reentrant then Function.update s.stored l none else s.stored

/-- The release returns, its lock is gone, and the other locks have the counts
that the calls of the callback give them. -/
def Uncorrupted (s : Tls Addr) (l : Addr) (reentrant : Bool) (cs : List (Call Addr)) : Prop :=
  ∃ t, (lsRelease ops l reentrant (calling cs)).run s = .ok .lsReleaseNow t ∧
    t.stored l = none ∧ ∀ k, k ≠ l → t.stored k = tallied s.stored cs k

/-- Through slot `i` of this table `DecrementRef` removes the lock: the slot is
the lock's, or it is not in use, with no count above one left behind in it, and
the lock is the last one. -/
def Names (t : Tls Addr) (l : Addr) (i : Nat) : Prop :=
  (i < t.lockCount ∧ (t.lockTable i).lockPtr = l) ∨
    (t.lockCount ≤ i ∧ (t.lockTable i).recCount ≤ 1 ∧
      (t.lockTable (t.lockCount - 1)).lockPtr = l)

variable {s t : Tls Addr} {l : Addr} {i : Nat} {cs : List (Call Addr)} {cnt : Addr → Option Int}

/-! ## The calls of the callback -/

/-- Calls on other locks neither read nor change a lock's count. -/
theorem tallied_update (o : Option Int) : ∀ (cs : List (Call Addr)) (cnt : Addr → Option Int),
    (∀ c ∈ cs, c.lock ≠ l) →
    tallied (Function.update cnt l o) cs = Function.update (tallied cnt cs) l o := by
  intro cs
  induction cs with
  | nil =>
    intro cnt _
    rfl
  | cons c cs ih =>
    intro cnt hcs
    have hc : c.lock ≠ l := hcs c (List.mem_cons_self ..)
    rw [tallied, tallied, Function.update_of_ne hc, Function.update_comm hc.symm]
    exact ih _ fun d hd => hcs d (List.mem_cons_of_mem _ hd)

theorem tallied_other (hcs : ∀ c ∈ cs, c.lock ≠ l) : tallied cnt cs l = cnt l := by
  have h := tallied_update (cnt l) cs cnt hcs
  rw [Function.update_eq_self] at h
  rw [h, Function.update_self]

/-- With room for its lock a call does what it does in a table without a limit. -/
theorem tally_room (hwf : s.WF) {c : Call Addr} (hroom : HasRoom s.stored c) :
    tally (s.stored c.lock) (room s) c = tally (s.stored c.lock) true c := by
  cases c with
  | release l r => rfl
  | acquire l r =>
    cases hv : s.stored (Call.acquire l r).lock with
    | some v => rfl
    | none =>
      have hlt := hroom hv
      rw [Slots.encard_stored hwf] at hlt
      have hlt' : s.lockCount < maxLocks := by exact_mod_cast hlt
      simp [room, hlt']

/-- The permitted calls return, and leave the counts they should. -/
theorem run_permitted : ∀ (cs : List (Call Addr)) (s : Tls Addr), s.WF →
    Permitted s.stored cs →
    (run (shieldStep ops) s cs).stop = none ∧ (run (shieldStep ops) s cs).final.WF ∧
      (run (shieldStep ops) s cs).final.stored = tallied s.stored cs := by
  intro cs
  induction cs with
  | nil =>
    intro s hwf _
    exact ⟨rfl, hwf, rfl⟩
  | cons c cs ih =>
    intro s hwf hperm
    obtain ⟨hbal, hroom, hrest⟩ := hperm
    obtain ⟨rep, s', hrun, hwf', hst⟩ := step_proceeds hwf c hbal
    rw [tally_room hwf hroom] at hst
    rw [← hst] at hrest
    rw [run_cons_ok hrun, tallied, ← hst]
    exact ih s' hwf' hrest

theorem run_calling (hwf : s.WF) (hperm : Permitted s.stored cs) :
    (calling cs l).run s = .ok () (run (shieldStep ops) s cs).final := by
  obtain ⟨hstop, -⟩ := run_permitted cs s hwf hperm
  simp only [calling, EStateM.run, hstop]

/-! ## `DecrementRef` through a pointer from before the callback -/

/-- `DecrementRef` removes a lock counted once exactly when the pointer names it,
and never gets out of the table. -/
theorem decrementRef_names (hwf : t.WF) (hl : t.stored l = some 1) (hi : i < maxLocks) :
    ∃ v t', (decrementRef l (some i)).run t = .ok v t' ∧
      (t'.stored = Function.update t.stored l none ↔ Names t l i) := by
  -- a table in which the lock is still counted is not the one asked for
  have hkept : ∀ {t' : Tls Addr}, t'.stored l = some 1 →
      t'.stored ≠ Function.update t.stored l none := by
    intro t' ht' heq
    rw [heq, Function.update_self] at ht'
    cases ht'
  obtain ⟨j, hj, hjl, hjc⟩ := (Slots.stored_eq_some_iff hwf).mp hl
  by_cases hused : i < t.lockCount
  · -- the slot is in use: whatever lock is in it is counted down
    have hscan := (Slots.scan_eq_some_iff (l := (t.lockTable i).lockPtr) hwf).mpr ⟨hused, rfl⟩
    have hlk : (lookup (t.lockTable i).lockPtr).run t = .ok (some i) t := run_lookup hwf hscan
    have hv := Slots.stored_of_scan hscan
    by_cases hptr : (t.lockTable i).lockPtr = l
    · -- the lock is still in its slot, with its one reference
      have h1 : ¬ 1 < (t.lockTable i).recCount := by
        rw [hptr, hl] at hv
        have := Option.some.inj hv
        omega
      obtain ⟨t', hrun, -, -, hst⟩ := decrementRef_remove hwf hlk hv h1
      rw [hptr] at hst
      exact ⟨0, t', hrun, fun _ => Or.inl ⟨hused, hptr⟩, fun _ => hst⟩
    · -- another lock is in the slot and pays for this one
      have hnot : ¬ Names t l i := by
        rintro (⟨-, hp⟩ | ⟨hle, -⟩)
        · exact hptr hp
        · omega
      by_cases h1 : 1 < (t.lockTable i).recCount
      · obtain ⟨t', hrun, -, -, hst⟩ := decrementRef_lower hwf hlk hv h1
        have ht' : t'.stored l = some 1 := by rw [hst, Function.update_of_ne (Ne.symm hptr), hl]
        exact ⟨_, t', hrun, fun h => absurd h (hkept ht'), fun h => absurd h hnot⟩
      · obtain ⟨t', hrun, -, -, hst⟩ := decrementRef_remove hwf hlk hv h1
        have ht' : t'.stored l = some 1 := by rw [hst, Function.update_of_ne (Ne.symm hptr), hl]
        exact ⟨_, t', hrun, fun h => absurd h (hkept ht'), fun h => absurd h hnot⟩
  · have hle : t.lockCount ≤ i := Nat.le_of_not_lt hused
    by_cases h1 : 1 < (t.lockTable i).recCount
    · -- a stale count is lowered
      obtain ⟨t', hset, hst⟩ :=
        Slots.setCount_unused (c := int64 ((t.lockTable i).recCount - 1)) hwf hle hi
      refine ⟨_, t', by simp [decrementRef, Slots.read_of_lt hi, h1, hset]; rfl, fun h => ?_, ?_⟩
      · exact absurd h (hkept (by rw [hst, hl]))
      · rintro (⟨hlt, -⟩ | ⟨-, hc, -⟩) <;> omega
    · -- the last lock is removed, whichever it is
      obtain ⟨t', hrem, hst⟩ := Slots.swapRemove_unused hwf (by omega) hle hi
      refine ⟨0, t', by simp [decrementRef, Slots.read_of_lt hi, h1, hrem], fun h => ?_, ?_⟩
      · refine Or.inr ⟨hle, by omega, ?_⟩
        by_contra hlast
        refine hkept ?_ h
        rw [hst, Function.update_of_ne (Ne.symm hlast), hl]
      · rintro (⟨hlt, -⟩ | ⟨-, -, hlast⟩)
        · omega
        · rw [hst, hlast]

/-! ## The release -/

/-- On the reentrant path the callback runs on a table without the lock. -/
theorem release_reentrant (hwf : s.WF) (hl : s.stored l = some 1) (hcs : ∀ c ∈ cs, c.lock ≠ l)
    (hperm : Permitted (atCallback s l true) cs) : Uncorrupted s l true cs := by
  -- the removal comes first, and the callback does not read the lock
  obtain ⟨i, hlk⟩ := lookup_stored hwf hl
  obtain ⟨s₁, hdec, hwf₁, -, hst₁⟩ := decrementRef_remove hwf hlk hl (by omega)
  have hperm₁ : Permitted s₁.stored cs := by
    rw [hst₁]
    exact hperm
  obtain ⟨-, -, hst⟩ := run_permitted cs s₁ hwf₁ hperm₁
  rw [hst₁, tallied_update none cs s.stored hcs] at hst
  refine ⟨(run (shieldStep ops) s₁ cs).final, ?_, ?_, fun k hk => ?_⟩
  · have hlk' : (ops.lookup l).run s = .ok (some i) s := hlk
    have hdec' : (ops.decrementRef l (some i)).run s = .ok 0 s₁ := hdec
    simp [lsRelease, hlk', hdec', run_calling hwf₁ hperm₁]
  · rw [hst, Function.update_self]
  · rw [hst, Function.update_of_ne hk]

/-- On the other path the entry pointer has to survive the callback. -/
theorem release_plain_iff (hwf : s.WF) (hl : s.stored l = some 1) (hcs : ∀ c ∈ cs, c.lock ≠ l)
    (hperm : Permitted (atCallback s l false) cs) (hlk : (lookup l).run s = .ok (some i) s) :
    Uncorrupted s l false cs ↔ Names (run (shieldStep ops) s cs).final l i := by
  -- the callback leaves the lock counted once, wherever it is now
  obtain ⟨-, hwf', hst⟩ := run_permitted cs s hwf hperm
  have hl' : (run (shieldStep ops) s cs).final.stored l = some 1 := by
    rw [hst, tallied_other hcs, hl]
  obtain ⟨hs, hi, -⟩ := slot_of_lookup hwf hlk hl
  obtain ⟨v, t, hdec, hiff⟩ := decrementRef_names hwf' hl' hi
  have hrun : (lsRelease ops l false (calling cs)).run s = .ok .lsReleaseNow t := by
    have hlk' : (ops.lookup l).run s = .ok (some i) s := hlk
    have hdec' : (ops.decrementRef l (some i)).run (run (shieldStep ops) s cs).final = .ok v t :=
      hdec
    simp [lsRelease, hlk', run_calling hwf hperm, hdec']
  rw [← hiff, hst]
  constructor
  · -- every lock has the count it should have
    rintro ⟨t', hrun', hgone, hothers⟩
    rw [hrun] at hrun'
    injection hrun' with _ ht
    subst ht
    funext k
    by_cases hk : k = l
    · rw [hk, hgone, Function.update_self]
    · rw [hothers k hk, Function.update_of_ne hk]
  · intro heq
    refine ⟨t, hrun, by rw [heq, Function.update_self], fun k hk => ?_⟩
    rw [heq, Function.update_of_ne hk]

/-- The last release of a lock whose callback makes calls on other locks leaves
the table right exactly when the call is reentrant or the entry pointer still
names the lock in the table that the callback leaves. -/
theorem nested_unlock_iff [Inhabited Addr] (hs : Reachable ops init s) (hl : s.stored l = some 1)
    (r : Bool) (hcs : ∀ c ∈ cs, c.lock ≠ l) (hperm : Permitted (atCallback s l r) cs)
    (hlk : (lookup l).run s = .ok (some i) s) :
    Uncorrupted s l r cs ↔ r = true ∨ Names (run (shieldStep ops) s cs).final l i := by
  cases r with
  | true =>
    exact ⟨fun _ => Or.inl rfl, fun _ => release_reentrant (wf_of_reachable hs) hl hcs hperm⟩
  | false =>
    rw [release_plain_iff (wf_of_reachable hs) hl hcs hperm hlk]
    exact ⟨Or.inr, fun h => h.resolve_left Bool.false_ne_true⟩

/-- Three locks, in the order of their slots. -/
def threeLocks : List (Call Nat) := [.acquire 0 false, .acquire 1 false, .acquire 2 false]

theorem threeLocks_reachable :
    Reachable ops init (run (shieldStep ops) (init : Tls Nat) threeLocks).final :=
  ⟨threeLocks, by decide, rfl⟩

/-- The first lock stays in its slot while its callback releases the second. -/
theorem nested_unlock_first :
    Uncorrupted (run (shieldStep ops) (init : Tls Nat) threeLocks).final 0 false
      [.release 1 false] := by
  have hcs : ∀ c ∈ [Call.release 1 false], c.lock ≠ 0 := by decide
  exact (nested_unlock_iff threeLocks_reachable (by decide) false hcs
    ⟨by decide, trivial, trivial⟩ (i := 0) rfl).mpr (Or.inr (Or.inl (by decide)))

/-- The last lock moves to the first slot when its callback releases the first
lock: `DecrementRef` then removes the second lock, and the third stays. -/
theorem nested_unlock_corrupts :
    ∃ (s : Tls Nat) (cs : List (Call Nat)), Reachable ops init s ∧ s.stored 2 = some 1 ∧
      (∀ c ∈ cs, c.lock ≠ 2) ∧ Permitted (atCallback s 2 false) cs ∧
      (∃ t, (lsRelease ops 2 false (calling cs)).run s = .ok .lsReleaseNow t ∧
        t.stored 2 = some 1 ∧ t.stored 1 = none ∧ tallied s.stored cs 1 = some 1) ∧
      ¬ Uncorrupted s 2 false cs := by
  have hrun : (lsRelease ops 2 false (calling [.release 0 false])).run
      (run (shieldStep ops) (init : Tls Nat) threeLocks).final = .ok .lsReleaseNow _ := rfl
  refine ⟨_, [.release 0 false], threeLocks_reachable, by decide, by decide,
    ⟨by decide, trivial, trivial⟩, ⟨_, hrun, by decide, by decide, by decide⟩, ?_⟩
  rintro ⟨t, hrun', hgone, -⟩
  rw [hrun] at hrun'
  injection hrun' with _ ht
  subst ht
  revert hgone
  decide

end LockShield.ArrayTable
