import LockShield.Table.Hybrid

/-!
# Callbacks and the lock they act on

The shield's table is meant to say whether the thread really holds a lock. Seen
from the lock, that is: the callbacks made on it alternate between locking and
unlocking, and it is tracked exactly when the last one locked it (`Faithful`). The
non-reentrant release breaks this, and only that: it unlocks whatever the count
is, and leaves the lock in the table when the count is above one.

## Results

* `faithful_step`, `faithful_run` — runs without such a release are faithful.
* `hybrid_alternates_iff`  — the exact statement: the callbacks alternate and agree with the
  table in exactly the runs in which no non-reentrant release finds a count above one.
* `hybrid_unlocks_twice`   — a run that unlocks a lock twice in a row.
-/

namespace LockShield

open Lib

variable {σ Addr : Type} [DecidableEq Addr]

/-! ## The callbacks of a run -/

/-- The lock a callback acts on. -/
def Callback.lock : Callback Addr → Addr
  | .lockFn l => l
  | .unlockFn l => l

/-- All callbacks of a run, those of the call that panicked included. -/
def callbacks (r : Run (Reply Addr) (Fault × List (Callback Addr)) σ) : List (Callback Addr) :=
  r.replies.flatMap Reply.callbacks ++ (r.stop.map Prod.snd).getD []

/-- The callbacks made on one lock. -/
def callbacksOn (l : Addr) (cbs : List (Callback Addr)) : List (Callback Addr) :=
  cbs.filter fun cb => cb.lock = l

/-- Lock, unlock, lock, and so on. -/
def Alternates (l : Addr) (cbs : List (Callback Addr)) : Prop :=
  ∀ i cb, (callbacksOn l cbs)[i]? = some cb → cb = if i % 2 = 0 then .lockFn l else .unlockFn l

/-- The last callback made on the lock locked it. -/
def LastLocked (l : Addr) (cbs : List (Callback Addr)) : Prop :=
  (callbacksOn l cbs).getLast? = some (.lockFn l)

variable {l : Addr} {cbs : List (Callback Addr)} {cb : Callback Addr}

theorem callbacksOn_append (l : Addr) (cbs cbs' : List (Callback Addr)) :
    callbacksOn l (cbs ++ cbs') = callbacksOn l cbs ++ callbacksOn l cbs' :=
  List.filter_append ..

theorem callbacksOn_other (h : cb.lock ≠ l) : callbacksOn l [cb] = [] := by
  simp [callbacksOn, h]

theorem callbacksOn_self (h : cb.lock = l) : callbacksOn l [cb] = [cb] := by
  simp [callbacksOn, h]

/-- In an alternating log the last callback locked exactly when their number is
odd. -/
theorem Alternates.lastLocked_iff (h : Alternates l cbs) :
    LastLocked l cbs ↔ (callbacksOn l cbs).length % 2 = 1 := by
  unfold LastLocked
  rw [List.getLast?_eq_getElem?]
  cases hlen : (callbacksOn l cbs).length with
  | zero =>
    have hnil := List.length_eq_zero_iff.mp hlen
    simp [hnil]
  | succ n =>
    have hlt : n < (callbacksOn l cbs).length := by omega
    have hlast := h n _ (List.getElem?_eq_getElem hlt)
    rw [Nat.add_sub_cancel, List.getElem?_eq_getElem hlt, hlast, Option.some.injEq]
    -- the last callback is a lock at even places
    by_cases hn : n % 2 = 0
    · simp only [hn, if_true, true_iff]
      omega
    · rw [if_neg hn]
      constructor
      · intro habs
        cases habs
      · intro hodd
        omega

/-- One more callback of the right kind keeps the alternation. -/
theorem Alternates.snoc (h : Alternates l cbs)
    (hcb : callbacksOn l [cb] = [] ∨
      cb = if (callbacksOn l cbs).length % 2 = 0 then .lockFn l else .unlockFn l) :
    Alternates l (cbs ++ [cb]) := by
  intro i cb' hi
  rw [callbacksOn_append] at hi
  rcases hcb with hnone | hcb
  · rw [hnone, List.append_nil] at hi
    exact h i cb' hi
  · have hself : callbacksOn l [cb] = [cb] := callbacksOn_self (by rw [hcb]; split <;> rfl)
    rw [hself] at hi
    rcases Nat.lt_or_ge i (callbacksOn l cbs).length with hlt | hge
    · rw [List.getElem?_append_left hlt] at hi
      exact h i cb' hi
    · rw [List.getElem?_append_right hge] at hi
      -- only the new element is left
      have hi0 : i - (callbacksOn l cbs).length = 0 := by
        by_contra hne
        rw [List.getElem?_eq_none (by simp; omega)] at hi
        cases hi
      rw [hi0] at hi
      obtain rfl : cb = cb' := by simpa using hi
      obtain rfl : i = (callbacksOn l cbs).length := by omega
      exact hcb

/-! ## The reference-count map -/

namespace RefModel

/-- No non-reentrant release is made above depth one. -/
def FlatRelease (cnt : Addr → Nat) : Call Addr → Prop
  | .release l false => cnt l ≤ 1
  | .release _ true => True
  | .acquire _ _ => True

/-- The log alternates on every lock and its parity is the map's. -/
def Faithful (cnt : Addr → Nat) (cbs : List (Callback Addr)) : Prop :=
  ∀ l, Alternates l cbs ∧ (cnt l ≠ 0 ↔ (callbacksOn l cbs).length % 2 = 1)

theorem faithful_init : Faithful (init : Addr → Nat) [] := by
  intro l
  refine ⟨fun i cb hi => ?_, ?_⟩
  · simp [callbacksOn] at hi
  · simp [init, callbacksOn]

/-- A call that returns and is not a deep plain release keeps log and map
together. -/
theorem faithful_step {cnt cnt' : Addr → Nat} {cbs : List (Callback Addr)} {c : Call Addr}
    {rep : Reply Addr} (h : Faithful cnt cbs) (hG : FlatRelease cnt c)
    (hstep : (step c).run cnt = .ok rep cnt') : Faithful cnt' (cbs ++ rep.callbacks) := by
  intro k
  obtain ⟨halt, hcnt⟩ := h k
  rcases step_ok_cases hstep with ⟨l, r, rfl, h0, hcb, rfl⟩ | ⟨l, rfl, h0, hcb, rfl⟩ |
    ⟨l, rfl, h1, hcb, rfl⟩ | ⟨l, r, rfl, h1, hcb, rfl⟩
  · rw [hcb]
    by_cases hk : k = l
    · subst hk
      -- an untracked lock was last unlocked
      have heven : (callbacksOn k cbs).length % 2 = 0 := by
        have := hcnt.not.mp (by simpa using h0)
        omega
      have hself : callbacksOn k [Callback.lockFn k] = [.lockFn k] := callbacksOn_self rfl
      refine ⟨halt.snoc (Or.inr (by rw [if_pos heven])), ?_⟩
      rw [Function.update_self, callbacksOn_append, hself, List.length_append,
        List.length_singleton]
      omega
    · have hother : callbacksOn k [Callback.lockFn l] = [] := callbacksOn_other (Ne.symm hk)
      refine ⟨halt.snoc (Or.inl hother), ?_⟩
      rw [Function.update_of_ne hk, callbacksOn_append, hother, List.append_nil]
      exact hcnt
  · rw [hcb, List.append_nil]
    refine ⟨halt, ?_⟩
    by_cases hk : k = l
    · subst hk
      rw [Function.update_self]
      exact ⟨fun _ => hcnt.mp h0, fun _ => Nat.succ_ne_zero _⟩
    · rw [Function.update_of_ne hk]
      exact hcnt
  · rw [hcb, List.append_nil]
    refine ⟨halt, ?_⟩
    by_cases hk : k = l
    · subst hk
      rw [Function.update_self]
      exact ⟨fun _ => hcnt.mp (by omega), fun _ => by omega⟩
    · rw [Function.update_of_ne hk]
      exact hcnt
  · -- the guard leaves only depth one, so the unlock empties the count
    have hone : cnt l = 1 := by
      rcases h1 with h1 | ⟨rfl, h2⟩
      · exact h1
      · have hflat : cnt l ≤ 1 := hG
        omega
    rw [hcb]
    by_cases hk : k = l
    · subst hk
      -- a tracked lock was last locked
      have hodd : (callbacksOn k cbs).length % 2 = 1 := hcnt.mp (by omega)
      have hself : callbacksOn k [Callback.unlockFn k] = [.unlockFn k] := callbacksOn_self rfl
      refine ⟨halt.snoc (Or.inr (by rw [if_neg (by omega)])), ?_⟩
      rw [Function.update_self, callbacksOn_append, hself, List.length_append,
        List.length_singleton]
      omega
    · have hother : callbacksOn k [Callback.unlockFn l] = [] := callbacksOn_other (Ne.symm hk)
      refine ⟨halt.snoc (Or.inl hother), ?_⟩
      rw [Function.update_of_ne hk, callbacksOn_append, hother, List.append_nil]
      exact hcnt

/-- Along a run without deep plain releases log and map stay together. -/
theorem faithful_run {cs : List (Call Addr)} (hG : Along step FlatRelease init cs) :
    Faithful (run step init cs).final (callbacks (run step init cs)) := by
  refine run_snoc_induction step init
    (P := fun cs r => Along step FlatRelease init cs → Faithful r.final (callbacks r))
    (fun _ => faithful_init) (fun pre c rep cnt' ih hstop h hG => ?_)
    (fun pre c e cnt' ih hstop h hG => ?_) (fun pre c ih hG => ?_) cs hG
  · have hpre := ih (hG.restrict (List.prefix_append ..))
    have hlog : callbacks ⟨(run step init pre).replies ++ [rep], (none : Option _), cnt'⟩ =
        callbacks (run step init pre) ++ rep.callbacks := by
      simp [callbacks, hstop]
    rw [hlog]
    exact faithful_step hpre (hG.last hstop) h
  · -- a call that panics makes no callback and changes no count
    obtain ⟨hcnt, hnone, -⟩ := step_error_cases h
    have hlog : callbacks ⟨(run step init pre).replies, some e, cnt'⟩ =
        callbacks (run step init pre) := by
      simp [callbacks, hstop, hnone]
    rw [hlog, hcnt]
    exact ih (hG.restrict (List.prefix_append ..))
  · exact ih (hG.restrict (List.prefix_append ..))

/-- What the shield promises of the real lock, for the map. -/
theorem alternates_iff (cs : List (Call Addr)) :
    ((∀ l, Alternates l (callbacks (run step init cs))) ∧
      ∀ pre, pre <+: cs → (run step init pre).stop = none → ∀ l,
        (run step init pre).final l ≠ 0 ↔ LastLocked l (callbacks (run step init pre))) ↔
    Along step FlatRelease init cs := by
  constructor
  · rintro ⟨-, htracked⟩
    refine along_of_prefix cs init fun pre c hpre hstop => ?_
    by_contra hdeep
    obtain ⟨l, rfl, hdeep⟩ : ∃ l, c = .release l false ∧ 1 < (run step init pre).final l := by
      rcases c with ⟨l, r⟩ | ⟨l, _ | _⟩
      · exact absurd trivial hdeep
      · exact ⟨l, rfl, Nat.lt_of_not_le hdeep⟩
      · exact absurd trivial hdeep
    -- the release unlocks, and the lock stays tracked
    have hne : (run step init pre).final l ≠ 0 := by omega
    have hstep := step_release_plain hne
    have hiff := htracked _ hpre (by rw [run_snoc_ok hstop hstep]) l
    rw [run_snoc_ok hstop hstep] at hiff
    -- a tracked lock should have been locked last
    have hlast := hiff.mp (by simp only [Function.update_self]; omega)
    have hself : callbacksOn l [Callback.unlockFn l] = [.unlockFn l] := callbacksOn_self rfl
    simp [LastLocked, callbacks, callbacksOn_append, hself] at hlast
  · intro hG
    refine ⟨fun l => ((faithful_run hG) l).1, fun pre hpre _ l => ?_⟩
    obtain ⟨halt, hcnt⟩ := faithful_run (hG.restrict hpre) l
    rw [hcnt, halt.lastLocked_iff]

end RefModel

/-! ## The hybrid variant -/

namespace Hybrid

variable {M : Type} [Inhabited Addr] [PtrMap M Addr NodePtr] [LawfulPtrMap M]
  {malloc : Nat → List Nat → Option Nat}

/-- The callbacks of the hybrid shield alternate on every lock, with the tracked
locks being those whose last callback locked them, exactly in the runs without a
non-reentrant release above depth one. -/
theorem hybrid_alternates_iff (hfresh : MallocFresh malloc) (hmalloc : MallocSucceeds malloc)
    (cs : List (Call Addr)) (hbelow : RefModel.Below (2 ^ 31) cs) :
    ((∀ l, Alternates l (callbacks (run (shieldStep (ops malloc)) (init : Tls M Addr) cs))) ∧
      ∀ pre, pre <+: cs → (run (shieldStep (ops malloc)) (init : Tls M Addr) pre).stop = none →
        ∀ l, (∃ e, (Tls.lookup l).run
            (run (shieldStep (ops malloc)) (init : Tls M Addr) pre).final =
            .ok (some e) (run (shieldStep (ops malloc)) init pre).final) ↔
          LastLocked l (callbacks (run (shieldStep (ops malloc)) (init : Tls M Addr) pre))) ↔
    Along RefModel.step RefModel.FlatRelease RefModel.init cs := by
  -- the callbacks and the entries are those of the map
  have hcallbacks : ∀ pre, pre <+: cs →
      callbacks (run (shieldStep (ops malloc)) (init : Tls M Addr) pre) =
        callbacks (run RefModel.step RefModel.init pre) := by
    intro pre hpre
    obtain ⟨hreplies, hstop, -⟩ := run_stands (M := M) hfresh hmalloc hbelow hpre
    rw [callbacks, hreplies, hstop]
    rfl
  rw [← RefModel.alternates_iff cs, hcallbacks cs (List.prefix_refl cs)]
  refine and_congr_right fun _ => forall_congr' fun pre => forall_congr' fun hpre => ?_
  obtain ⟨-, hstop, hinv, hcount⟩ := run_stands (M := M) hfresh hmalloc hbelow hpre
  rw [hstop, hcallbacks pre hpre]
  refine forall_congr' fun _ => forall_congr' fun l => ?_
  rw [← hcount, Tls.lookup_iff hinv]

/-- A nested critical section, left by a non-reentrant release. -/
def nestedSection : List (Call Nat) :=
  [.acquire 0 true, .acquire 0 true, .release 0 true, .release 0 false]

theorem hybrid_alternates_nestedSection :
    Alternates 0 (callbacks (run (shieldStep (ops bumpMalloc))
      (init : Tls (FunMap Nat NodePtr) Nat) nestedSection)) := by
  have hflat : Along RefModel.step RefModel.FlatRelease RefModel.init nestedSection :=
    ⟨trivial, trivial, trivial, Nat.le_refl 1, trivial⟩
  exact ((hybrid_alternates_iff bumpMalloc_fresh bumpMalloc_succeeds nestedSection
    (RefModel.below_of_length (by decide))).mpr hflat).1 0

/-- A non-reentrant release at depth two, then the release that still matches an
acquisition. -/
def deepPlainRelease : List (Call Nat) :=
  [.acquire 0 true, .acquire 0 true, .release 0 false, .release 0 true]

/-- The lock is unlocked twice. -/
theorem hybrid_unlocks_twice :
    RefModel.Below (2 ^ 31) deepPlainRelease ∧
    (run (shieldStep (ops bumpMalloc)) (init : Tls (FunMap Nat NodePtr) Nat)
      deepPlainRelease).stop = none ∧
    ¬ Alternates 0 (callbacks (run (shieldStep (ops bumpMalloc))
      (init : Tls (FunMap Nat NodePtr) Nat) deepPlainRelease)) := by
  have hlog : callbacks (run (shieldStep (ops bumpMalloc)) (init : Tls (FunMap Nat NodePtr) Nat)
      deepPlainRelease) = [.lockFn 0, .unlockFn 0, .unlockFn 0] := by decide +kernel
  refine ⟨RefModel.below_of_length (by decide), by decide +kernel, fun h => ?_⟩
  rw [hlog] at h
  exact absurd (h 2 (.unlockFn 0) rfl) (by decide)

end Hybrid

end LockShield
