import LockShield.Table.Array
import LockShield.Table.Alternation

/-!
# `LS_ARRAY` in balanced programs

A balanced program releases only what it has acquired and always passes
`reentrant = true`. The array serves it well as long as every lock it comes back
to got one of the four slots: a lock acquired while they are taken is locked but
not recorded, so a nested acquisition locks it again and its release panics.

`Nesting` follows a program without a table: how deep each lock is, and which locks
would have got a slot. Two conditions are read off it:

* `Fits`   — the call is one of a balanced program;
* `Served` — the lock of a nested acquisition or of a release was recorded, and what an
  inner release leaves of its depth is not lost in a `long` or an `int`.

## Results

* `answers_iff`         — a fitting call is answered right exactly when it is served.
* `holds_after`         — up to there the array holds the recorded locks and their depths.
* `array_balanced_iff`  — a balanced run is answered right exactly when all its calls are
  served, the width of the stored and returned counts included.
-/

namespace LockShield

open Lib

variable {Addr : Type} [DecidableEq Addr]

/-- How often each lock has been acquired and not released, and which locks a
table with `maxLocks` slots has recorded: a lock gets a slot at its outermost
acquisition, if one is free then, and gives it back at its outermost release. -/
structure Nesting (Addr : Type) where
  depth : Addr → Nat
  recorded : Finset Addr

namespace Nesting

def step (n : Nesting Addr) : Call Addr → Nesting Addr
  | .acquire l _ =>
    { depth := Function.update n.depth l (n.depth l + 1)
      recorded :=
        if n.depth l = 0 ∧ n.recorded.card < maxLocks then insert l n.recorded else n.recorded }
  | .release l _ =>
    { depth := Function.update n.depth l (n.depth l - 1)
      recorded := if n.depth l = 1 then n.recorded.erase l else n.recorded }

/-- The nesting after a sequence of calls. -/
def after (cs : List (Call Addr)) : Nesting Addr := cs.foldl step ⟨fun _ => 0, ∅⟩

theorem after_snoc (cs : List (Call Addr)) (c : Call Addr) :
    after (cs ++ [c]) = (after cs).step c := by
  simp [after]

/-- The callbacks a call should make. -/
def expected (n : Nesting Addr) : Call Addr → List (Callback Addr)
  | .acquire l _ => if n.depth l = 0 then [.lockFn l] else []
  | .release l _ => if n.depth l = 1 then [.unlockFn l] else []

/-- A call that fits a balanced program. -/
def Fits (n : Nesting Addr) : Call Addr → Prop
  | .acquire _ r => r = true
  | .release l r => r = true ∧ n.depth l ≠ 0

instance (n : Nesting Addr) : DecidablePred n.Fits
  | .acquire _ r => inferInstanceAs (Decidable (r = true))
  | .release l r => inferInstanceAs (Decidable (r = true ∧ n.depth l ≠ 0))

/-- The lock of a nested acquisition or a release is recorded, and what an inner
release leaves of its depth is above zero as a `long` and nonzero as an `int`. -/
def Served (n : Nesting Addr) : Call Addr → Prop
  | .acquire l _ => n.depth l ≠ 0 → l ∈ n.recorded
  | .release l _ => l ∈ n.recorded ∧
      (n.depth l ≠ 1 → 1 < int64 (n.depth l) ∧ ((n.depth l : Int) - 1) % 2 ^ 32 ≠ 0)

instance (n : Nesting Addr) : DecidablePred n.Served
  | .acquire l _ => inferInstanceAs (Decidable (n.depth l ≠ 0 → l ∈ n.recorded))
  | .release l _ => inferInstanceAs (Decidable (l ∈ n.recorded ∧
      (n.depth l ≠ 1 → 1 < int64 (n.depth l) ∧ ((n.depth l : Int) - 1) % 2 ^ 32 ≠ 0)))

end Nesting

/-- Every release is preceded by an acquisition it can be matched with, and all
calls are reentrant. -/
def Balanced (cs : List (Call Addr)) : Prop :=
  ∀ pre c, pre ++ [c] <+: cs → (Nesting.after pre).Fits c

namespace ArrayTable

/-- The array holds the recorded locks with their depths. -/
structure Holds (s : Tls Addr) (n : Nesting Addr) : Prop where
  wf : s.WF
  stored : ∀ l, s.stored l = if l ∈ n.recorded then some (int64 (n.depth l)) else none
  nested : ∀ l ∈ n.recorded, n.depth l ≠ 0

variable {s : Tls Addr} {n : Nesting Addr} {l : Addr}

theorem Holds.init [Inhabited Addr] : Holds (ArrayTable.init : Tls Addr) (Nesting.after []) :=
  ⟨init_wf, fun l => by simp [Nesting.after], fun l hl => by simp [Nesting.after] at hl⟩

theorem Holds.card (h : Holds s n) : s.lockCount = n.recorded.card := by
  -- the stored locks are the recorded ones
  have hset : {l | s.stored l ≠ none} = (n.recorded : Set Addr) := by
    ext l
    rw [Set.mem_ofPred_eq, h.stored l, Finset.mem_coe]
    by_cases hl : l ∈ n.recorded <;> simp [hl]
  have hcard := Slots.encard_stored h.wf
  rw [hset, Set.encard_coe_eq_coe_finsetCard] at hcard
  exact_mod_cast hcard.symm

theorem Holds.stored_none (h : Holds s n) (hl : l ∉ n.recorded) : s.stored l = none := by
  rw [h.stored l, if_neg hl]

theorem Holds.stored_some (h : Holds s n) (hl : l ∈ n.recorded) :
    s.stored l = some (int64 (n.depth l)) := by
  rw [h.stored l, if_pos hl]

theorem Holds.lookup_some (h : Holds s n) (hl : l ∈ n.recorded) :
    ∃ i, (lookup l).run s = .ok (some i) s := by
  refine lookup_some_of_stored h.wf ?_
  rw [h.stored_some hl]
  simp

/-- Storing the new depth of one lock. -/
theorem Holds.update (h : Holds s n) {s' : Tls Addr} {n' : Nesting Addr} (hwf : s'.WF)
    {o : Option Int} {d : Nat} (hst : s'.stored = Function.update s.stored l o)
    (hdepth : n'.depth = Function.update n.depth l d)
    (hrec : ∀ k, k ≠ l → (k ∈ n'.recorded ↔ k ∈ n.recorded))
    (ho : o = if l ∈ n'.recorded then some (int64 d) else none)
    (hd : l ∈ n'.recorded → d ≠ 0) : Holds s' n' := by
  refine ⟨hwf, fun k => ?_, fun k hk => ?_⟩
  · -- what is stored: the new depth of `l`, and the others as before
    rw [hst, hdepth]
    by_cases hkl : k = l
    · subst hkl
      rw [Function.update_self, Function.update_self, ho]
    · rw [Function.update_of_ne hkl, Function.update_of_ne hkl, h.stored k]
      simp [hrec k hkl]
  · rw [hdepth]
    by_cases hkl : k = l
    · subst hkl
      rw [Function.update_self]
      exact hd hk
    · rw [Function.update_of_ne hkl]
      exact h.nested k ((hrec k hkl).mp hk)

/-! ## One call -/

/-- The call makes the callbacks it should. -/
def Answers (s : Tls Addr) (n : Nesting Addr) (c : Call Addr) : Prop :=
  ∃ rep s', (shieldStep ops c).run s = .ok rep s' ∧ rep.callbacks = n.expected c

/-- The first acquisition of a lock, recorded or not. -/
theorem acquire_first (h : Holds s n) (h0 : n.depth l = 0) :
    ∃ s', (shieldStep ops (.acquire l true)).run s = .ok ⟨.lsAcquireNow, [.lockFn l]⟩ s' ∧
      Holds s' (n.step (.acquire l true)) := by
  -- a recorded lock is nested
  have hnot : l ∉ n.recorded := fun hl => h.nested l hl h0
  have hlook := lookup_none_of_stored h.wf (h.stored_none hnot)
  by_cases hroom : n.recorded.card < maxLocks
  · obtain ⟨s', hinc, hwf, -, hst⟩ :=
      incrementRef_new h.wf (h.stored_none hnot) (by rw [h.card]; exact hroom)
    refine ⟨s', shieldStep_acquire_new hlook hinc, ?_⟩
    refine h.update hwf hst (d := 1) (by simp [Nesting.step, h0]) (fun k hk => ?_) ?_ (by simp)
    · simp [Nesting.step, h0, hroom, hk]
    · simp [Nesting.step, h0, hroom, int64, wrap]
  · -- no slot is free: the lock is taken but not recorded
    have hinc := incrementRef_full h.wf (h.stored_none hnot) (by rw [h.card]; exact hroom)
    refine ⟨s, shieldStep_acquire_new hlook hinc, h.wf, fun k => ?_, fun k hk => ?_⟩
    · rw [h.stored k]
      by_cases hk : k = l
      · subst hk
        simp [Nesting.step, hroom, hnot]
      · simp [Nesting.step, hroom, hk]
    · have hk' : k ∈ n.recorded := by simpa [Nesting.step, hroom] using hk
      have hkl : k ≠ l := fun hkl => hnot (hkl ▸ hk')
      simpa [Nesting.step, hkl] using h.nested k hk'

/-- A nested acquisition is skipped when the lock is recorded. -/
theorem acquire_nested (h : Holds s n) (hl : l ∈ n.recorded) :
    ∃ s', (shieldStep ops (.acquire l true)).run s = .ok ⟨.lsSkipAcquisition, []⟩ s' ∧
      Holds s' (n.step (.acquire l true)) := by
  have hne := h.nested l hl
  have hst := h.stored_some hl
  obtain ⟨i, hlook⟩ := h.lookup_some hl
  obtain ⟨s', hinc, hwf, -, hst'⟩ := incrementRef_held h.wf hlook hst
  refine ⟨s', shieldStep_acquire_skip hlook hinc, ?_⟩
  -- the `long` wraps as the depth would
  have hsum : int64 (int64 (n.depth l) + 1) = int64 ((n.depth l + 1 : Nat) : Int) := by
    have := wrap_add 64 (n.depth l) 1
    push_cast
    exact this
  refine h.update hwf hst' (by simp [Nesting.step]; rfl) (fun k hk => ?_) ?_ (by simp)
  · simp [Nesting.step, hne]
  · simp [Nesting.step, hne, hl, hsum]

/-- A nested acquisition of a lock that is not recorded locks it again. -/
theorem acquire_unrecorded (h : Holds s n) (hl : l ∉ n.recorded) :
    ∃ s', (shieldStep ops (.acquire l true)).run s = .ok ⟨.lsAcquireNow, [.lockFn l]⟩ s' := by
  have hlook := lookup_none_of_stored h.wf (h.stored_none hl)
  -- it may get a slot now, but is locked again either way
  by_cases hroom : s.lockCount < maxLocks
  · obtain ⟨s', hinc, -⟩ := incrementRef_new h.wf (h.stored_none hl) hroom
    exact ⟨s', shieldStep_acquire_new hlook hinc⟩
  · exact ⟨s, shieldStep_acquire_new hlook (incrementRef_full h.wf (h.stored_none hl) hroom)⟩

theorem release_outermost (h : Holds s n) (hl : l ∈ n.recorded) (h1 : n.depth l = 1) :
    ∃ s', (shieldStep ops (.release l true)).run s = .ok ⟨.lsReleaseNow, [.unlockFn l]⟩ s' ∧
      Holds s' (n.step (.release l true)) := by
  have hst := h.stored_some hl
  obtain ⟨i, hlook⟩ := h.lookup_some hl
  -- a stored count of one takes the branch that gives up the slot
  have hone : ¬ 1 < int64 (n.depth l) := by
    rw [h1]
    decide
  obtain ⟨s', hdec, hwf, -, hst'⟩ := decrementRef_remove h.wf hlook hst hone
  refine ⟨s', shieldStep_release_now hlook hdec, ?_⟩
  refine h.update hwf hst' (d := 0) (by simp [Nesting.step, h1]) (fun k hk => ?_) ?_ ?_
  · simp [Nesting.step, h1, hk]
  · simp [Nesting.step, h1]
  · simp [Nesting.step, h1]

/-- An inner release is skipped when what is left of the depth is representable. -/
theorem release_inner (h : Holds s n) (hl : l ∈ n.recorded) (h2 : n.depth l ≠ 1)
    (hlong : 1 < int64 (n.depth l)) (hint : ((n.depth l : Int) - 1) % 2 ^ 32 ≠ 0) :
    ∃ s', (shieldStep ops (.release l true)).run s = .ok ⟨.lsSkipRelease, []⟩ s' ∧
      Holds s' (n.step (.release l true)) := by
  have hne := h.nested l hl
  have hst := h.stored_some hl
  obtain ⟨i, hlook⟩ := h.lookup_some hl
  obtain ⟨s', hdec, hwf, -, hst'⟩ := decrementRef_lower h.wf hlook hst hlong
  have hsub : int64 (int64 (n.depth l) - 1) = int64 ((n.depth l : Int) - 1) := wrap_sub ..
  -- what is returned is the new depth as an `int`
  rw [hsub, int32_int64] at hdec
  rw [hsub] at hst'
  have hval : int32 ((n.depth l : Int) - 1) ≠ 0 := fun h0 => hint ((int32_eq_zero_iff _).mp h0)
  refine ⟨s', shieldStep_release_skip hlook hdec hval, ?_⟩
  have hnat : (n.depth l : Int) - 1 = ((n.depth l - 1 : Nat) : Int) := by omega
  rw [hnat] at hst'
  refine h.update hwf hst' (by simp [Nesting.step]; rfl) (fun k hk => ?_) ?_ ?_
  · simp [Nesting.step, h2]
  · simp [Nesting.step, h2, hl]
  · intro _
    omega

/-- An inner release unlocks when the depth does not fit the count's types. -/
theorem release_overflow (h : Holds s n) (hl : l ∈ n.recorded)
    (hover : ¬ (1 < int64 (n.depth l) ∧ ((n.depth l : Int) - 1) % 2 ^ 32 ≠ 0)) :
    ∃ s', (shieldStep ops (.release l true)).run s = .ok ⟨.lsReleaseNow, [.unlockFn l]⟩ s' := by
  have hst := h.stored_some hl
  obtain ⟨i, hlook⟩ := h.lookup_some hl
  -- either the `long` is too small already or the `int` is zero
  by_cases hlong : 1 < int64 (n.depth l)
  · obtain ⟨s', hdec, -⟩ := decrementRef_lower h.wf hlook hst hlong
    have hsub : int64 (int64 (n.depth l) - 1) = int64 ((n.depth l : Int) - 1) := wrap_sub ..
    have hzero : ((n.depth l : Int) - 1) % 2 ^ 32 = 0 := by
      by_contra hint
      exact hover ⟨hlong, hint⟩
    rw [hsub, int32_int64, (int32_eq_zero_iff _).mpr hzero] at hdec
    exact ⟨s', shieldStep_release_now hlook hdec⟩
  · obtain ⟨s', hdec, -⟩ := decrementRef_remove h.wf hlook hst hlong
    exact ⟨s', shieldStep_release_now hlook hdec⟩

/-- A fitting call is answered exactly when it is served, and then the array
keeps up with the nesting. -/
theorem answers_iff (h : Holds s n) {c : Call Addr} (hfit : n.Fits c) :
    (Answers s n c ↔ n.Served c) ∧
      (n.Served c → ∃ rep s', (shieldStep ops c).run s = .ok rep s' ∧
        rep.callbacks = n.expected c ∧ Holds s' (n.step c)) := by
  -- a call is served and answered, or it is neither
  suffices hcases : (n.Served c ∧ ∃ rep s', (shieldStep ops c).run s = .ok rep s' ∧
      rep.callbacks = n.expected c ∧ Holds s' (n.step c)) ∨ (¬ n.Served c ∧ ¬ Answers s n c) by
    rcases hcases with ⟨hserved, rep, s', hrun, hcb, hholds⟩ | ⟨hserved, hans⟩
    · exact ⟨⟨fun _ => hserved, fun _ => ⟨rep, s', hrun, hcb⟩⟩,
        fun _ => ⟨rep, s', hrun, hcb, hholds⟩⟩
    · exact ⟨⟨fun ha => absurd ha hans, fun hs => absurd hs hserved⟩,
        fun hs => absurd hs hserved⟩
  cases c with
  | acquire l r =>
    obtain rfl : r = true := hfit
    by_cases h0 : n.depth l = 0
    · obtain ⟨s', hrun, hholds⟩ := acquire_first h h0
      exact Or.inl ⟨fun hne => absurd h0 hne, _, s', hrun, by simp [Nesting.expected, h0], hholds⟩
    · by_cases hl : l ∈ n.recorded
      · obtain ⟨s', hrun, hholds⟩ := acquire_nested h hl
        exact Or.inl ⟨fun _ => hl, _, s', hrun, by simp [Nesting.expected, h0], hholds⟩
      · obtain ⟨s', hrun⟩ := acquire_unrecorded h hl
        refine Or.inr ⟨fun hserved => hl (hserved h0), fun ⟨rep, s'', hrun', hcb⟩ => ?_⟩
        rw [hrun] at hrun'
        obtain ⟨rfl, rfl⟩ := by simpa using hrun'
        simp [Nesting.expected, h0] at hcb
  | release l r =>
    obtain ⟨rfl, hne⟩ : r = true ∧ n.depth l ≠ 0 := hfit
    by_cases hl : l ∈ n.recorded
    · by_cases h1 : n.depth l = 1
      · obtain ⟨s', hrun, hholds⟩ := release_outermost h hl h1
        exact Or.inl ⟨⟨hl, fun hne1 => absurd h1 hne1⟩, _, s', hrun,
          by simp [Nesting.expected, h1], hholds⟩
      · by_cases hrep : 1 < int64 (n.depth l) ∧ ((n.depth l : Int) - 1) % 2 ^ 32 ≠ 0
        · obtain ⟨s', hrun, hholds⟩ := release_inner h hl h1 hrep.1 hrep.2
          exact Or.inl ⟨⟨hl, fun _ => hrep⟩, _, s', hrun, by simp [Nesting.expected, h1], hholds⟩
        · obtain ⟨s', hrun⟩ := release_overflow h hl hrep
          refine Or.inr ⟨fun hserved => hrep (hserved.2 h1), fun ⟨rep, s'', hrun', hcb⟩ => ?_⟩
          rw [hrun] at hrun'
          obtain ⟨rfl, rfl⟩ := by simpa using hrun'
          simp [Nesting.expected, h1] at hcb
    · -- the release of a lock without a slot panics
      have hlook : (ops.lookup l).run s = .ok none s :=
        lookup_none_of_stored h.wf (h.stored_none hl)
      refine Or.inr ⟨fun hserved => hl hserved.1, fun ⟨rep, s'', hrun', _⟩ => ?_⟩
      rw [shieldStep_release_panic hlook] at hrun'
      cases hrun'

/-! ## Whole runs -/

/-- No call of the run panics, and each makes the callbacks it should. -/
def Correct [Inhabited Addr] (cs : List (Call Addr)) : Prop :=
  ∀ pre c, pre ++ [c] <+: cs →
    (run (shieldStep ops) (ArrayTable.init : Tls Addr) (pre ++ [c])).stop = none ∧
    callbacks (run (shieldStep ops) (ArrayTable.init : Tls Addr) (pre ++ [c])) =
      callbacks (run (shieldStep ops) (ArrayTable.init : Tls Addr) pre) ++
        (Nesting.after pre).expected c

theorem answers_of_correct [Inhabited Addr] {pre : List (Call Addr)} {c : Call Addr}
    (hstop : (run (shieldStep ops) (ArrayTable.init : Tls Addr) pre).stop = none)
    (h : (run (shieldStep ops) (ArrayTable.init : Tls Addr) (pre ++ [c])).stop = none ∧
      callbacks (run (shieldStep ops) (ArrayTable.init : Tls Addr) (pre ++ [c])) =
        callbacks (run (shieldStep ops) (ArrayTable.init : Tls Addr) pre) ++
          (Nesting.after pre).expected c) :
    Answers (run (shieldStep ops) (ArrayTable.init : Tls Addr) pre).final
      (Nesting.after pre) c := by
  obtain ⟨hstop', hcbs⟩ := h
  obtain ⟨rep, hrun, hreplies⟩ := step_of_run_snoc_ok hstop hstop'
  -- the run logs what its last call makes
  simp only [callbacks, hreplies, hstop, hstop'] at hcbs
  exact ⟨rep, _, hrun, by simpa using hcbs⟩

/-- After a correct or a served balanced run the array holds the nesting. -/
theorem holds_after [Inhabited Addr] {cs : List (Call Addr)} (hbal : Balanced cs)
    (h : Correct cs ∨ ∀ pre c, pre ++ [c] <+: cs → (Nesting.after pre).Served c) :
    ∀ pre, pre <+: cs → (run (shieldStep ops) (ArrayTable.init : Tls Addr) pre).stop = none ∧
      Holds (run (shieldStep ops) (ArrayTable.init : Tls Addr) pre).final (Nesting.after pre) := by
  intro pre
  induction pre using List.reverseRecOn with
  | nil =>
    intro _
    exact ⟨rfl, Holds.init⟩
  | append_singleton pre c ih =>
    intro hpre
    obtain ⟨hstop, hholds⟩ := ih ((List.prefix_append ..).trans hpre)
    obtain ⟨hiff, hnext⟩ := answers_iff hholds (hbal pre c hpre)
    -- correct and served are the same while the array holds the nesting
    have hserved : (Nesting.after pre).Served c := by
      rcases h with hcor | hcov
      · exact hiff.mp (answers_of_correct hstop (hcor pre c hpre))
      · exact hcov pre c hpre
    obtain ⟨rep, s', hrun, -, hholds'⟩ := hnext hserved
    rw [run_snoc_ok hstop hrun, Nesting.after_snoc]
    exact ⟨rfl, hholds'⟩

/-- In a balanced program the array shield answers every call as it should
exactly when every call is served: the locks that are used again have got a slot, and the
depths are not lost in the `long` that is stored or the `int` that is returned. -/
theorem array_balanced_iff [Inhabited Addr] (cs : List (Call Addr)) (hbal : Balanced cs) :
    Correct cs ↔ ∀ pre c, pre ++ [c] <+: cs → (Nesting.after pre).Served c := by
  constructor
  · intro hcor pre c hpre
    obtain ⟨hstop, hholds⟩ :=
      holds_after hbal (Or.inl hcor) pre ((List.prefix_append ..).trans hpre)
    exact (answers_iff hholds (hbal pre c hpre)).1.mp
      (answers_of_correct hstop (hcor pre c hpre))
  · intro hcov pre c hpre
    obtain ⟨hstop, hholds⟩ :=
      holds_after hbal (Or.inr hcov) pre ((List.prefix_append ..).trans hpre)
    obtain ⟨rep, s', hrun, hcb, -⟩ := (answers_iff hholds (hbal pre c hpre)).2 (hcov pre c hpre)
    rw [run_snoc_ok hstop hrun]
    exact ⟨rfl, by simp [callbacks, hstop, hcb]⟩

/-- Four locks nested in each other, one of them twice. -/
def fourNested : List (Call Nat) :=
  [.acquire 0 true, .acquire 1 true, .acquire 2 true, .acquire 3 true, .acquire 1 true,
    .release 1 true, .release 3 true, .release 0 true, .release 1 true, .release 2 true]

theorem array_balanced_fourNested : Correct fourNested :=
  (array_balanced_iff fourNested (forall_snoc_prefix_iff.mpr (by decide))).mpr
    (forall_snoc_prefix_iff.mpr (by decide))

/-- A fifth lock acquired while four are held, and everything released. -/
def fiveNested : List (Call Nat) :=
  (List.range 5).map (.acquire · true) ++ (List.range 5).reverse.map (.release · true)

/-- The release of the fifth lock panics. -/
theorem array_rejects_fiveNested : Balanced fiveNested ∧ ¬ Correct fiveNested := by
  refine ⟨forall_snoc_prefix_iff.mpr (by decide), fun h => ?_⟩
  obtain ⟨hstop, -⟩ := h (fiveNested.take 5) (.release 4 true) (by decide)
  have hpanic : (run (shieldStep ops) (ArrayTable.init : Tls Nat)
      (fiveNested.take 5 ++ [.release 4 true])).stop = some (unbalancedUnlockPanic, []) := by
    decide +kernel
  rw [hpanic] at hstop
  cases hstop

end ArrayTable

end LockShield
