import LockShield.Table.Memory

/-!
# The node pool of `LS_HYBRID`

Where the nodes are, in any run, whatever the counts do and whether or not
`malloc` delivers. `Conserved` is the state of the pool between two calls, split
between the free list and the hash, and `Transferred` what one call may do with a
node: nothing, or it takes one for its own lock or gives that lock's node back.

## Results

* `Sound.conserved`        — a sound table has its pool in two places.
* `Moved.transferred`      — what moving one node means for all of them.
* `hybrid_conserves_nodes` — the two together over runs: no node is lost or doubled, and
  no block from `malloc` leaks.
-/

namespace LockShield

open Lib

namespace Tls

variable {R : CountRep} {M Addr : Type} [Inhabited Addr] [DecidableEq Addr]
  [PtrMap M Addr NodePtr] {L : R.Laws} {size : Nat} {s s' : Tls R M Addr} {fl : List NodePtr}

/-- The pool once it is set up, with the free list `fl`. -/
structure Conserved (size : Nat) (s : Tls R M Addr) (fl : List NodePtr) : Prop where
  /-- following `next` visits these nodes and ends -/
  linked : Linked s.mem s.freelistHead fl
  nodup : fl.Nodup
  pool : ∀ p ∈ fl, ∃ i < size, p = .pool i
  /-- a pool node is free, or the entry of one lock -/
  split : ∀ i < size, (.pool i ∈ fl ∧ ∀ k, s.found k ≠ some (.pool i)) ∨
    (.pool i ∉ fl ∧ ∃! k, s.found k = some (.pool i))
  /-- an entry is a pool node, or a live block, and its flag says which -/
  entries : ∀ k p, s.found k = some p →
    (∃ i < size, p = .pool i ∧ (s.mem p).dynamicallyAllocated = false) ∨
      ∃ a ∈ s.heap, p = .heap a ∧ (s.mem p).dynamicallyAllocated = true
  /-- a live block is the entry of one lock -/
  live : ∀ a ∈ s.heap, ∃! k, s.found k = some (.heap a)
  heapNodup : s.heap.Nodup

/-- What a call on lock `l` may do with the nodes. -/
structure Transferred (l : Addr) (s s' : Tls R M Addr) : Prop where
  /-- a new block becomes the entry of the call's lock -/
  malloced : ∀ a ∈ s'.heap, a ∉ s.heap → s.found l = none ∧ s'.found l = some (.heap a)
  /-- a block stays where it is, or is removed and freed -/
  kept : ∀ k a, s.found k = some (.heap a) →
    (s'.found k = some (.heap a) ∧ a ∈ s'.heap) ∨
      (k = l ∧ s'.found k = none ∧ s'.heap = s.heap.erase a ∧ a ∉ s'.heap)
  initOnce : s.freelistInitialized = true → s'.freelistInitialized = true
  initUnused : s.freelistInitialized = false → s'.freelistInitialized = true →
    ∀ k, s.found k = none

omit [Inhabited Addr] in
theorem Sound.conserved (h : Sound L size s) (hinit : s.freelistInitialized = true) :
    ∃ fl, s.Conserved size fl := by
  obtain ⟨t, h⟩ := h
  have hfound := h.same.found
  rcases h.inv with hA | hH
  · -- the array has not touched the pool
    have hfresh := h.same.initialized.trans hA.fresh
    rw [hinit] at hfresh
    cases hfresh
  · obtain ⟨fl, hp⟩ := hH.pooled
    -- an entry is under one lock
    have honce : ∀ k p, s.found k = some p → ∃! k, s.found k = some p := by
      intro k p hk
      refine ⟨k, hk, fun k' hk' => ?_⟩
      rw [hfound] at hk hk'
      exact hp.key_injective hk hk'
    refine ⟨fl, ?_, hp.nodup, fun p hpfl => (hp.free p hpfl).1, fun i hi => ?_, fun k p hk => ?_,
      fun a ha => ?_, h.same.heap ▸ hp.heapNodup⟩
    · rw [h.same.freelistHead]
      exact hp.linked.congr fun p _ => (h.same.node p).next
    · -- a pool node is free or an entry, and none is reserved between two calls
      rcases hp.poolSplit i hi with hin | hres | ⟨k, hk⟩
      · refine Or.inl ⟨hin, fun k hk => ?_⟩
        rw [hfound] at hk
        exact hp.apart k _ hk hin
      · cases hres
      · rw [← hfound] at hk
        refine Or.inr ⟨fun hin => ?_, honce k _ hk⟩
        rw [hfound] at hk
        exact hp.apart k _ hk hin
    · rw [hfound] at hk
      have horigin := hp.origin k p hk
      have hdyn := (h.same.node p).dynamic
      cases p with
      | pool i => exact Or.inl ⟨i, horigin.1, rfl, hdyn.trans horigin.2⟩
      | heap a => exact Or.inr ⟨a, h.same.heap ▸ horigin.1, rfl, hdyn.trans horigin.2⟩
    · rw [h.same.heap] at ha
      obtain ⟨k, hk⟩ := (hp.heapSplit a ha).resolve_left (by simp)
      rw [← hfound] at hk
      exact honce k _ hk

omit [Inhabited Addr] in
/-- Before the pool is set up no node is in use. -/
theorem Sound.unused (h : Sound L size s) (hinit : s.freelistInitialized = false) :
    s.heap = [] ∧ ∀ k, s.found k = none := by
  obtain ⟨t, h⟩ := h
  rcases h.inv with hA | hH
  · refine ⟨h.same.heap.trans hA.noHeap, fun k => ?_⟩
    rw [h.same.found]
    exact hA.empty k
  · obtain ⟨fl, hp⟩ := hH.pooled
    rw [h.same.initialized, hp.initialized] at hinit
    cases hinit

omit [Inhabited Addr] in
/-- The blocks that are entries are live, each under one lock. -/
theorem Sound.block (h : Sound L size s) {k : Addr} {a : Nat} (hk : s.found k = some (.heap a)) :
    a ∈ s.heap ∧ s.heap.Nodup ∧ ∀ k', s.found k' = some (.heap a) → k' = k := by
  obtain ⟨t, h⟩ := h
  have hk' : t.found k = some (.heap a) := by rw [← h.same.found]; exact hk
  rcases h.inv with hA | hH
  · rw [hA.empty] at hk'
    cases hk'
  · obtain ⟨fl, hp⟩ := hH.pooled
    refine ⟨h.same.heap ▸ (hp.origin k _ hk').1, h.same.heap ▸ hp.heapNodup, fun k₁ hk₁ => ?_⟩
    rw [h.same.found] at hk₁
    exact hp.key_injective hk' hk₁

omit [Inhabited Addr] in
/-- What moving one node means for all of them. -/
theorem Moved.transferred {l : Addr} (hm : Moved l s s') (h : Sound L size s) :
    Transferred l s s' := by
  cases hm with
  | kept hfound hheap hinit =>
    refine ⟨fun a ha hnew => ?_, fun k a hk => ?_, fun hi => hinit.trans hi, fun hi hi' => ?_⟩
    · rw [hheap] at ha
      exact absurd ha hnew
    · exact Or.inl ⟨by rw [hfound, hk], by rw [hheap]; exact (h.block hk).1⟩
    · rw [hinit, hi] at hi'
      cases hi'
  | took p hinit hinit' hnone hfound hsource =>
    -- the other locks keep their blocks, and this one had none
    have hother : ∀ k a, s.found k = some (.heap a) → s'.found k = some (.heap a) := by
      intro k a hk
      have hkl : k ≠ l := by
        rintro rfl
        rw [hnone] at hk
        cases hk
      rw [hfound, Function.update_of_ne hkl, hk]
    refine ⟨fun a ha hnew => ?_, fun k a hk => Or.inl ⟨hother k a hk, ?_⟩, fun _ => hinit',
      fun hi => by rw [hinit] at hi; cases hi⟩
    · rcases hsource with ⟨-, hheap⟩ | ⟨b, rfl, -, hheap⟩
      · rw [hheap] at ha
        exact absurd ha hnew
      · rw [hheap] at ha
        obtain rfl : a = b := (List.mem_cons.mp ha).resolve_right hnew
        exact ⟨hnone, by rw [hfound, Function.update_self]⟩
    · have hlive := (h.block hk).1
      rcases hsource with ⟨-, hheap⟩ | ⟨b, -, -, hheap⟩
      · rw [hheap]
        exact hlive
      · rw [hheap]
        exact List.mem_cons_of_mem _ hlive
  | gave p hinit hinit' hsome hfound hsource =>
    refine ⟨fun a ha hnew => ?_, fun k a hk => ?_, fun _ => hinit',
      fun hi => by rw [hinit] at hi; cases hi⟩
    · -- nothing is added
      rcases hsource with ⟨-, hheap⟩ | ⟨b, -, -, hheap⟩
      · rw [hheap] at ha
        exact absurd ha hnew
      · rw [hheap] at ha
        exact absurd (List.mem_of_mem_erase ha) hnew
    · -- a block that was an entry: still one, or freed by this call
      obtain ⟨hlive, hnd, huniq⟩ := h.block hk
      by_cases hkl : k = l
      · -- the block of the call's lock goes
        subst hkl
        obtain rfl : p = .heap a := by
          rw [hsome] at hk
          exact Option.some.inj hk
        rcases hsource with ⟨⟨i, hi⟩, -⟩ | ⟨b, hb, -, hheap⟩
        · cases hi
        · obtain rfl : a = b := by simpa using hb
          refine Or.inr ⟨rfl, by rw [hfound, Function.update_self], hheap, ?_⟩
          rw [hheap]
          exact hnd.not_mem_erase
      · refine Or.inl ⟨by rw [hfound, Function.update_of_ne hkl, hk], ?_⟩
        rcases hsource with ⟨-, hheap⟩ | ⟨b, rfl, -, hheap⟩
        · rw [hheap]
          exact hlive
        · have hab : a ≠ b := by
            rintro rfl
            exact hkl (huniq l hsome).symm
          rw [hheap]
          exact (List.mem_erase_of_ne hab).mpr hlive
  | converted hinit hinit' hempty hnoHeap hnoHeap' =>
    -- no block was live and none is
    refine ⟨fun a ha => ?_, fun k a hk => ?_, fun _ => hinit', fun _ _ => hempty⟩
    · rw [hnoHeap'] at ha
      cases ha
    · rw [hempty] at hk
      cases hk

omit [Inhabited Addr] in
/-- A call that does not get past its lookup transfers nothing. -/
theorem Sound.transferred_refl (h : Sound L size s) (l : Addr) : Transferred l s s :=
  Moved.transferred (.kept rfl rfl rfl) h

end Tls

namespace Hybrid

variable {M Addr : Type} [Inhabited Addr] [DecidableEq Addr] [PtrMap M Addr NodePtr]
  [LawfulPtrMap M] {malloc : Nat → List Nat → Option Nat}

/-- The C++ hash variant conserves its nodes in every run, with any counts and any
`malloc` that returns fresh blocks or null: the pool is split between the free
list and the hash, a block from `malloc` is an entry from the call that got it to
the call that removes and frees it, and the pool is set up at most once, while it
is not in use. -/
theorem hybrid_conserves_nodes (hfresh : MallocFresh malloc) (cs : List (Call Addr)) :
    (∀ pre, pre <+: cs →
      ((run (shieldStep (ops malloc)) (init : Tls M Addr) pre).final.freelistInitialized = true →
        ∃ fl, (run (shieldStep (ops malloc)) (init : Tls M Addr) pre).final.Conserved
          maxHashEntries fl) ∧
      ((run (shieldStep (ops malloc)) (init : Tls M Addr) pre).final.freelistInitialized = false →
        (run (shieldStep (ops malloc)) (init : Tls M Addr) pre).final.heap = [] ∧
        ∀ k, (run (shieldStep (ops malloc)) (init : Tls M Addr) pre).final.found k = none)) ∧
    (∀ pre c, pre ++ [c] <+: cs →
      Tls.Transferred c.lock (run (shieldStep (ops malloc)) (init : Tls M Addr) pre).final
        (run (shieldStep (ops malloc)) (init : Tls M Addr) (pre ++ [c])).final) ∧
    ∀ e, (run (shieldStep (ops malloc)) (init : Tls M Addr) cs).stop = some e →
      e = (unbalancedLockPanic, []) ∨ e = (unbalancedUnlockPanic, []) := by
  have hrun := Tls.Sound.run (s := (init : Tls M Addr)) hashBacked cellSet_one laws_one maxLocks_le
    hfresh sound_init
  refine ⟨fun pre _ => ⟨(hrun pre).1.conserved, (hrun pre).1.unused⟩, fun pre c _ => ?_,
    (hrun cs).2⟩
  have hs := (hrun pre).1
  by_cases hstop : (run (shieldStep (ops malloc)) (init : Tls M Addr) pre).stop = none
  · -- a call that returns, or a panic
    rcases hs.step hashBacked cellSet_one laws_one maxLocks_le hfresh c with
      ⟨rep, s', hcall, -, hmoved⟩ | ⟨e, hpanic, -⟩
    · rw [run_snoc_ok hstop hcall]
      exact hmoved.transferred hs
    · rw [run_snoc_error hstop hpanic]
      exact hs.transferred_refl c.lock
  · -- the run has ended before
    rw [run_snoc_stopped hstop]
    exact hs.transferred_refl c.lock

theorem hybrid_conserves_nodes_elevenLocks :
    ∃ fl, (run (shieldStep (ops bumpMalloc)) (init : Tls (FunMap Nat NodePtr) Nat)
      elevenLocks).final.Conserved maxHashEntries fl :=
  ((hybrid_conserves_nodes bumpMalloc_fresh elevenLocks).1 elevenLocks (List.prefix_refl _)).1
    (by decide +kernel)

end Hybrid

end LockShield
