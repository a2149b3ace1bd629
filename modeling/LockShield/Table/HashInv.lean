import LockShield.Table.Hash

/-!
# The representation invariant of the hash-backed table

Pool nodes are always in one of three places: on the free list, in the hash, or
with the helper that has just taken them (`reserved`). `Pooled` says so for a
given free list, together with what the hash relies on:

* keys are the `lock_ptr`s of their nodes (`Entries`);
* every stored count is at least one;
* the blocks from `malloc` are exactly the nodes flagged `dynamically_allocated`.

Popping, filling, deleting and pushing move one node between the places, and each
has one lemma that says so. What a variant's counts have to satisfy is
`CountRep.Laws`; what `malloc` promises, fresh blocks or null, is `MallocFresh`.

## Results

* `initFreelist_pooled` — the whole pool is free once it is set up.
* `freelistPop_spec`    — a node is taken from the pool, or from `malloc`.
* `fillEntry_spec`      — the node becomes the entry of a lock that had none.
* `hashDel_spec`, `freelistPush_spec` — an entry is given back.
* `write_count_spec`    — an assignment to a count changes that count.
-/

namespace LockShield

open Lib

/-- What a variant's count fields guarantee for counts up to `limit`. -/
structure CountRep.Laws (R : CountRep) where
  limit : Nat
  slotRep : R.Slot → Nat → Prop
  cellRep : R.Cell → Nat → Prop
  /-- the bytes a node may have before a count is assigned -/
  clean : R.Cell → Prop
  slotVal : ∀ v c, slotRep v c → R.slotVal v = c
  slotOne : slotRep R.slotOne 1
  slotInc : ∀ v c, slotRep v c → c < limit → slotRep (R.slotInc v) (c + 1)
  slotDec : ∀ v c, slotRep v c → 1 < c → slotRep (R.slotDec v) (c - 1)
  slotLimit : ∀ v c, slotRep v c → c ≤ limit
  cellVal : ∀ v c, cellRep v c → R.cellVal v = c
  cellInc : ∀ v c, cellRep v c → c < limit → cellRep (R.cellInc v) (c + 1)
  cellDec : ∀ v c, cellRep v c → 1 < c → cellRep (R.cellDec v) (c - 1)
  cellSet : ∀ v c, clean v → c ≤ limit → cellRep (R.cellSet v c) c
  cleanZero : clean R.cellZero
  cleanSet : ∀ v c, cellRep v c → clean (R.cellSet v 0)

/-- What the shield relies on from `malloc`: a block that is not live. -/
def MallocFresh (malloc : Nat → List Nat → Option Nat) : Prop :=
  ∀ n live a, malloc n live = some a → a ∉ live

/-- `malloc` never runs out of memory. -/
def MallocSucceeds (malloc : Nat → List Nat → Option Nat) : Prop :=
  ∀ n live, malloc n live ≠ none

/-- A `malloc` that never reuses or runs out of addresses. -/
def bumpMalloc (_ : Nat) (live : List Nat) : Option Nat := some (live.max?.getD 0 + 1)

theorem bumpMalloc_fresh : MallocFresh bumpMalloc := by
  rintro n live a ⟨⟩ ha
  have := List.le_max?_getD_of_mem (k := 0) ha
  omega

theorem bumpMalloc_succeeds : MallocSucceeds bumpMalloc := by
  intro n live h
  cases h

/-! ## The free list -/

/-- Following `next` from `h` visits exactly these nodes. -/
def Linked {Addr Cell : Type} (mem : NodePtr → HashEntry Addr Cell) :
    Option NodePtr → List NodePtr → Prop
  | h, [] => h = none
  | h, p :: rest => h = some p ∧ Linked mem (mem p).next rest

theorem Linked.congr {Addr Cell : Type} {mem mem' : NodePtr → HashEntry Addr Cell} :
    ∀ {fl : List NodePtr} {h : Option NodePtr}, (∀ p ∈ fl, (mem' p).next = (mem p).next) →
      Linked mem h fl → Linked mem' h fl := by
  intro fl
  induction fl with
  | nil =>
    intro h _ hl
    exact hl
  | cons p rest ih =>
    intro h heq hl
    refine ⟨hl.1, ?_⟩
    rw [heq p (List.mem_cons_self ..)]
    exact ih (fun q hq => heq q (List.mem_cons_of_mem _ hq)) hl.2

namespace Tls

variable {R : CountRep} {M Addr : Type} [Inhabited Addr] [PtrMap M Addr NodePtr]

/-- The hash entry of a lock. -/
def found (s : Tls R M Addr) (l : Addr) : Option NodePtr := PtrMap.find s.lockHash l

/-- A node's own record matches where it comes from. -/
def Origin (size : Nat) (s : Tls R M Addr) : NodePtr → Prop
  | .pool i => i < size ∧ (s.mem (.pool i)).dynamicallyAllocated = false
  | .heap a => a ∈ s.heap ∧ (s.mem (.heap a)).dynamicallyAllocated = true

/-- What holds of the nodes in the hash. -/
structure Entries (L : R.Laws) (size : Nat) (s : Tls R M Addr) : Prop where
  key : ∀ k p, s.found k = some p → (s.mem p).lockPtr = k
  counted : ∀ k p, s.found k = some p →
    ∃ c, 1 ≤ c ∧ c ≤ L.limit ∧ L.cellRep (s.mem p).recCount c
  origin : ∀ k p, s.found k = some p → Origin size s p

/-- The nodes are split between the free list `fl`, the hash and at most one
reserved node. -/
structure Pooled (L : R.Laws) (size : Nat) (s : Tls R M Addr) (fl : List NodePtr)
    (reserved : Option NodePtr) : Prop extends Entries L size s where
  initialized : s.freelistInitialized = true
  linked : Linked s.mem s.freelistHead fl
  nodup : fl.Nodup
  free : ∀ p ∈ fl, (∃ i < size, p = .pool i) ∧ L.clean (s.mem p).recCount
  apart : ∀ k p, s.found k = some p → p ∉ fl
  reservedOrigin : ∀ p, reserved = some p → Origin size s p
  reservedApart : ∀ p, reserved = some p → p ∉ fl ∧ ∀ k, s.found k ≠ some p
  heapNodup : s.heap.Nodup
  poolSplit : ∀ i < size, NodePtr.pool i ∈ fl ∨ reserved = some (.pool i) ∨
    ∃ k, s.found k = some (.pool i)
  heapSplit : ∀ a ∈ s.heap, reserved = some (.heap a) ∨ ∃ k, s.found k = some (.heap a)

/-- The count of a lock in hash mode. -/
def hashCount (s : Tls R M Addr) (l : Addr) : Nat :=
  match s.found l with
  | some p => (R.cellVal (s.mem p).recCount).toNat
  | none => 0

section Pool

variable {L : R.Laws} {size : Nat} {malloc : Nat → List Nat → Option Nat}
  {s s' : Tls R M Addr} {fl : List NodePtr} {p : NodePtr} {l : Addr} {c : Nat}

omit [Inhabited Addr] in
theorem Entries.key_injective (h : s.Entries L size) {k k' : Addr}
    (hk : s.found k = some p) (hk' : s.found k' = some p) : k' = k := by
  rw [← h.key k p hk, ← h.key k' p hk']

omit [Inhabited Addr] in
theorem hashCount_eq {v : Nat} (h : s.found l = some p)
    (hv : L.cellRep (s.mem p).recCount v) : s.hashCount l = v := by
  simp [hashCount, h, L.cellVal _ _ hv]

omit [Inhabited Addr] in
theorem hashCount_of_none (h : s.found l = none) : s.hashCount l = 0 := by
  simp [hashCount, h]

omit [Inhabited Addr] in
theorem Entries.hashCount_eq_zero_iff (h : s.Entries L size) :
    s.hashCount l = 0 ↔ s.found l = none := by
  cases hf : s.found l with
  | none => simp [hashCount, hf]
  | some p =>
    obtain ⟨v, h1, -, hv⟩ := h.counted l p hf
    rw [hashCount_eq hf hv]
    simp
    omega

omit [Inhabited Addr] [PtrMap M Addr NodePtr] in
theorem Origin.congr {q : NodePtr} (hmem : s'.mem q = s.mem q)
    (hheap : ∀ a, q = .heap a → a ∈ s.heap → a ∈ s'.heap) (h : Origin size s q) :
    Origin size s' q := by
  cases q with
  | pool j => exact ⟨h.1, by rw [hmem]; exact h.2⟩
  | heap a => exact ⟨hheap a rfl h.1, by rw [hmem]; exact h.2⟩

omit [Inhabited Addr] in
/-- What is true of the hash stays true while its nodes are left alone. -/
theorem Entries.frame {t : Tls R M Addr} (h : s.Entries L size) (hfound : t.found = s.found)
    (hmem : ∀ k q, s.found k = some q → t.mem q = s.mem q)
    (hheap : ∀ k a, s.found k = some (.heap a) → a ∈ s.heap → a ∈ t.heap) :
    t.Entries L size ∧ t.hashCount = s.hashCount := by
  -- key, count and origin of each entry are in its node
  refine ⟨⟨fun k q hk => ?_, fun k q hk => ?_, fun k q hk => ?_⟩, funext fun k => ?_⟩
  · rw [hfound] at hk
    rw [hmem k q hk]
    exact h.key k q hk
  · rw [hfound] at hk
    rw [hmem k q hk]
    exact h.counted k q hk
  · rw [hfound] at hk
    refine (h.origin k q hk).congr (hmem k q hk) fun a ha => ?_
    subst ha
    exact hheap k a hk
  · simp only [hashCount, hfound]
    cases hk : s.found k with
    | none => rfl
    | some q =>
      simp only
      rw [hmem k q hk]

/-! ### Initialising the pool -/

omit [PtrMap M Addr NodePtr] [Inhabited Addr] in
/-- The entries `init_freelist` has linked after its first `n` iterations. -/
theorem foldl_link (n : Nat) (m : NodePtr → HashEntry Addr R.Cell) (j : Nat) :
    (List.range n).foldl
      (fun m i => Function.update m (.pool i)
        { m (.pool i) with next := some (.pool (i + 1)), dynamicallyAllocated := false }) m
      (.pool j) =
    if j < n then
      { m (.pool j) with next := some (.pool (j + 1)), dynamicallyAllocated := false }
    else m (.pool j) := by
  induction n with
  | zero => simp
  | succ n ih =>
    rw [List.range_succ, List.foldl_append, List.foldl_cons, List.foldl_nil]
    -- the last iteration writes entry `n`, and no other
    by_cases hj : j = n
    · subst hj
      rw [Function.update_self, if_pos (Nat.lt_succ_self j)]
      rw [if_neg (Nat.lt_irrefl j)] at ih
      rw [ih]
    · rw [Function.update_of_ne (by simpa using hj), ih]
      by_cases hlt : j < n
      · rw [if_pos hlt, if_pos (by omega)]
      · rw [if_neg hlt, if_neg (by omega)]

/-- The pool nodes from `i` on, in list order. -/
def poolFrom (size i : Nat) : List NodePtr := (List.range' i (size - i)).map .pool

theorem mem_poolFrom {i : Nat} : p ∈ poolFrom size i ↔ ∃ j, i ≤ j ∧ j < size ∧ p = .pool j := by
  simp only [poolFrom, List.mem_map, List.mem_range'_1]
  constructor
  · rintro ⟨j, hj, rfl⟩
    exact ⟨j, hj.1, by omega, rfl⟩
  · rintro ⟨j, h1, h2, rfl⟩
    exact ⟨j, by omega, rfl⟩

theorem nodup_poolFrom (i : Nat) : (poolFrom size i).Nodup := by
  refine List.Nodup.map ?_ (List.nodup_range' ..)
  intro a b hab
  simpa using hab

omit [PtrMap M Addr NodePtr] [Inhabited Addr] in
theorem linked_poolFrom {mem : NodePtr → HashEntry Addr R.Cell}
    (h : ∀ j < size, (mem (.pool j)).next = if j + 1 < size then some (.pool (j + 1)) else none) :
    ∀ k i, i + k = size → Linked mem (if i < size then some (.pool i) else none)
      (poolFrom size i) := by
  intro k
  induction k with
  | zero =>
    intro i hi
    have h1 : ¬ i < size := by omega
    have h2 : size - i = 0 := by omega
    simp [poolFrom, h1, h2, Linked]
  | succ k ih =>
    intro i hi
    have hlt : i < size := by omega
    -- the list from `i` on is node `i` and the list from `i + 1` on
    have hcons : poolFrom size i = .pool i :: poolFrom size (i + 1) := by
      rw [poolFrom, poolFrom, show size - i = size - (i + 1) + 1 by omega, List.range'_succ]
      rfl
    rw [hcons, if_pos hlt]
    refine ⟨rfl, ?_⟩
    rw [h i hlt]
    exact ih (i + 1) (by omega)

/-- The first initialisation puts the whole pool on the free list. -/
theorem initFreelist_pooled (hsize : 0 < size) (hinit : s.freelistInitialized = false)
    (hempty : ∀ k, s.found k = none) (hheap : s.heap = []) :
    (initFreelist size s).Pooled L size (poolFrom size 0) none := by
  -- the loop links each node to the next one, and the last gets null
  have hmem : ∀ j < size, (initFreelist size s).mem (.pool j) =
      { zeroEntry R Addr with next := if j + 1 < size then some (.pool (j + 1)) else none } := by
    intro j hj
    simp only [initFreelist, hinit, Bool.false_eq_true, if_false]
    by_cases hlast : j = size - 1
    · subst hlast
      rw [Function.update_self, foldl_link, if_neg (Nat.lt_irrefl _), if_neg (by omega)]
      rfl
    · rw [Function.update_of_ne (by simpa using hlast), foldl_link, if_pos (by omega),
        if_pos (by omega)]
      rfl
  have hhead : (initFreelist size s).freelistHead = some (.pool 0) := by
    simp [initFreelist, hinit]
  have hfound : ∀ k, (initFreelist size s).found k = none := by
    simpa [initFreelist, hinit, found] using hempty
  have hheap' : (initFreelist size s).heap = [] := by simp [initFreelist, hinit, hheap]
  -- the hash is empty, so nothing is to be shown of entries
  have hnone : ∀ k p, (initFreelist size s).found k ≠ some p := by
    intro k p h
    rw [hfound] at h
    cases h
  refine
    { initialized := by simp [initFreelist, hinit]
      linked := ?_
      nodup := nodup_poolFrom 0
      free := ?_
      key := fun k p h => absurd h (hnone k p)
      counted := fun k p h => absurd h (hnone k p)
      origin := fun k p h => absurd h (hnone k p)
      apart := fun k p h => absurd h (hnone k p)
      reservedOrigin := fun p h => by cases h
      reservedApart := fun p h => by cases h
      heapNodup := by simp [hheap']
      poolSplit := fun i hi => Or.inl (mem_poolFrom.mpr ⟨i, Nat.zero_le _, hi, rfl⟩)
      heapSplit := by simp [hheap'] }
  · rw [hhead]
    have hnext : ∀ j < size, ((initFreelist size s).mem (.pool j)).next =
        if j + 1 < size then some (.pool (j + 1)) else none := fun j hj => by rw [hmem j hj]
    have hlinked := linked_poolFrom hnext size 0 (Nat.zero_add size)
    simpa [hsize] using hlinked
  · intro p hp
    obtain ⟨j, -, hj, rfl⟩ := mem_poolFrom.mp hp
    refine ⟨⟨j, hj, rfl⟩, ?_⟩
    rw [hmem j hj]
    exact L.cleanZero

/-! ### Moving one node -/

/-- A pop reserves a node: the head of the free list, or a fresh block. -/
theorem freelistPop_spec (hfresh : MallocFresh malloc) (h : s.Pooled L size fl none)
    (hmem : fl = [] → malloc s.mallocs s.heap ≠ none) :
    ∃ p s', (freelistPop size malloc).run s = .ok (some p) s' ∧
      s'.Pooled L size fl.tail (some p) ∧ L.clean (s'.mem p).recCount ∧
      s'.slots = s.slots ∧ s'.found = s.found ∧ s'.hashCount = s.hashCount := by
  have hinit : initFreelist size s = s := by simp [initFreelist, h.initialized]
  cases fl with
  | cons p rest =>
    -- the head of the list
    have hhead : s.freelistHead = some p := h.linked.1
    obtain ⟨hpr, hnd⟩ := List.nodup_cons.mp h.nodup
    obtain ⟨⟨i, hi, rfl⟩, hclean⟩ := h.free p (List.mem_cons_self ..)
    let s' := ({ s with freelistHead := (s.mem (.pool i)).next } : Tls R M Addr).write (.pool i)
      { s.mem (.pool i) with dynamicallyAllocated := false }
    have hother : ∀ q, q ≠ .pool i → s'.mem q = s.mem q := fun q hq => by simp [s', write, hq]
    have hself : s'.mem (.pool i) =
        { s.mem (.pool i) with dynamicallyAllocated := false } := by simp [s', write]
    have hnotp : ∀ k q, s.found k = some q → q ≠ .pool i := fun k q hk hq =>
      h.apart k q hk (hq ▸ List.mem_cons_self ..)
    have hrest : ∀ q ∈ rest, s'.mem q = s.mem q := fun q hq =>
      hother q fun hqi => hpr (hqi ▸ hq)
    -- a node of the free list is not in the hash, which stays as it is
    obtain ⟨hentries, hcount⟩ := h.toEntries.frame (t := s') rfl
      (fun k q hk => hother q (hnotp k q hk)) (fun _ _ _ ha => ha)
    refine ⟨.pool i, s', by simp [freelistPop, hinit, hhead, s'], ?_, ?_, rfl, rfl, hcount⟩
    · refine
        { hentries with
          initialized := h.initialized
          linked := h.linked.2.congr fun q hq => by rw [hrest q hq]
          nodup := hnd
          free := fun q hq => by
            rw [hrest q hq]
            exact h.free q (List.mem_cons_of_mem _ hq)
          apart := fun k q hk hq => h.apart k q hk (List.mem_cons_of_mem _ hq)
          reservedOrigin := ?_
          reservedApart := ?_
          heapNodup := h.heapNodup
          poolSplit := fun j hj => ?_
          heapSplit := fun a ha => Or.inr ?_ }
      · rintro q ⟨⟩
        exact ⟨hi, by rw [hself]⟩
      · rintro q ⟨⟩
        exact ⟨hpr, fun k hk => hnotp k _ hk rfl⟩
      · -- the popped node is the reserved one, the others are where they were
        rcases h.poolSplit j hj with hin | hres | hk
        · rcases List.mem_cons.mp hin with heq | hin
          · exact Or.inr (Or.inl (by rw [heq]))
          · exact Or.inl hin
        · cases hres
        · exact Or.inr (Or.inr hk)
      · exact (h.heapSplit a ha).resolve_left (by simp)
    · rw [hself]
      exact hclean
  | nil =>
    -- the list is empty
    have hhead : s.freelistHead = none := h.linked
    obtain ⟨a, ha⟩ := Option.ne_none_iff_exists'.mp (hmem rfl)
    -- a fresh block belongs to no node of the hash
    have hnew : a ∉ s.heap := hfresh _ _ _ ha
    let s' := ({ s with heap := a :: s.heap, mallocs := s.mallocs + 1 } : Tls R M Addr).write
      (.heap a) { zeroEntry R Addr with dynamicallyAllocated := true, next := none }
    have hother : ∀ q, q ≠ .heap a → s'.mem q = s.mem q := fun q hq => by simp [s', write, hq]
    have hself : s'.mem (.heap a) =
        { zeroEntry R Addr with dynamicallyAllocated := true, next := none } := by
      simp [s', write]
    have hnotp : ∀ k q, s.found k = some q → q ≠ .heap a := by
      rintro k q hk rfl
      exact hnew (h.origin k _ hk).1
    obtain ⟨hentries, hcount⟩ := h.toEntries.frame (t := s') rfl
      (fun k q hk => hother q (hnotp k q hk)) (fun _ _ _ hb => List.mem_cons_of_mem _ hb)
    refine ⟨.heap a, s', by simp [freelistPop, hinit, hhead, ha, s'], ?_, ?_, rfl, rfl, hcount⟩
    · refine
        { hentries with
          initialized := h.initialized
          linked := hhead
          nodup := List.nodup_nil
          free := fun q hq => by cases hq
          apart := fun k q hk hq => by cases hq
          reservedOrigin := ?_
          reservedApart := ?_
          heapNodup := List.nodup_cons.mpr ⟨hnew, h.heapNodup⟩
          poolSplit := fun j hj => Or.inr (Or.inr ?_)
          heapSplit := fun b hb => ?_ }
      · rintro q ⟨⟩
        exact ⟨List.mem_cons_self .., by rw [hself]⟩
      · rintro q ⟨⟩
        exact ⟨List.not_mem_nil, fun k hk => hnotp k _ hk rfl⟩
      · -- with an empty free list every pool node is in the hash
        rcases h.poolSplit j hj with hin | hres | hk
        · cases hin
        · cases hres
        · exact hk
      · rcases List.mem_cons.mp hb with rfl | hb
        · exact Or.inl rfl
        · exact Or.inr ((h.heapSplit b hb).resolve_left (by simp))
    · rw [hself]
      exact L.cleanZero

section Lawful

variable [DecidableEq Addr] [LawfulPtrMap M]

omit [Inhabited Addr] in
/-- Filling the reserved node makes it the entry of a new lock. -/
theorem fillEntry_spec (h : s.Pooled L size fl (some p)) (hclean : L.clean (s.mem p).recCount)
    (hl : s.found l = none) (h1 : 1 ≤ c) (hc : c ≤ L.limit) :
    ∃ s', (fillEntry p l c).run s = .ok () s' ∧ s'.Pooled L size fl none ∧
      s'.slots = s.slots ∧ s'.found = Function.update s.found l (some p) ∧
      s'.hashCount = Function.update s.hashCount l c := by
  obtain ⟨hpfl, hpk⟩ := h.reservedApart p rfl
  let e : HashEntry Addr R.Cell :=
    { s.mem p with lockPtr := l, recCount := R.cellSet (s.mem p).recCount c }
  let s' : Tls R M Addr := hashAddPtr p (s.write p e)
  have hself : s'.mem p = e := by simp [s', hashAddPtr, write]
  have hother : ∀ q, q ≠ p → s'.mem q = s.mem q := by
    intro q hq
    simp [s', hashAddPtr, write, hq]
  have hrep : L.cellRep (s'.mem p).recCount c := by
    rw [hself]
    exact L.cellSet _ _ hclean hc
  have hfound : s'.found = Function.update s.found l (some p) := by
    funext k
    rw [found, show s'.lockHash = PtrMap.add s.lockHash l p by simp [s', hashAddPtr, e, write],
      LawfulPtrMap.find_add s.lockHash l p hl hpk, Function.update_apply]
    rfl
  -- the hash gets one entry, and the others are for other nodes
  have hcases : ∀ k q, s'.found k = some q →
      (k = l ∧ q = p) ∨ (k ≠ l ∧ s.found k = some q ∧ q ≠ p) := by
    intro k q hk
    rw [hfound] at hk
    by_cases hkl : k = l
    · subst hkl
      rw [Function.update_self] at hk
      exact Or.inl ⟨rfl, (Option.some.inj hk).symm⟩
    · rw [Function.update_of_ne hkl] at hk
      exact Or.inr ⟨hkl, hk, fun hqp => hpk k (hqp ▸ hk)⟩
  have horigp : Origin size s' p := by
    have := h.reservedOrigin p rfl
    cases p with
    | pool j => exact ⟨this.1, by rw [hself]; exact this.2⟩
    | heap a => exact ⟨this.1, by rw [hself]; exact this.2⟩
  refine ⟨s', rfl, ?_, rfl, hfound, funext fun k => ?_⟩
  · refine
      { initialized := h.initialized
        linked := h.linked.congr fun q hq => by rw [hother q fun hqp => hpfl (hqp ▸ hq)]
        nodup := h.nodup
        free := fun q hq => by
          rw [hother q fun hqp => hpfl (hqp ▸ hq)]
          exact h.free q hq
        key := fun k q hk => ?_
        counted := fun k q hk => ?_
        origin := fun k q hk => ?_
        apart := fun k q hk => ?_
        reservedOrigin := fun q hq => by cases hq
        reservedApart := fun q hq => by cases hq
        heapNodup := h.heapNodup
        poolSplit := fun i hi => ?_
        heapSplit := fun a ha => Or.inr ?_ }
    · rcases hcases k q hk with ⟨rfl, rfl⟩ | ⟨-, hk, hqp⟩
      · rw [hself]
      · rw [hother q hqp]
        exact h.key k q hk
    · -- the new entry has the count it was given, the others keep theirs
      rcases hcases k q hk with ⟨rfl, rfl⟩ | ⟨-, hk, hqp⟩
      · exact ⟨c, h1, hc, hrep⟩
      · rw [hother q hqp]
        exact h.counted k q hk
    · rcases hcases k q hk with ⟨rfl, rfl⟩ | ⟨-, hk, hqp⟩
      · exact horigp
      · exact (h.origin k q hk).congr (hother q hqp) fun _ _ ha => ha
    · rcases hcases k q hk with ⟨rfl, rfl⟩ | ⟨-, hk, -⟩
      · exact hpfl
      · exact h.apart k q hk
    · -- the reserved node is an entry now
      rcases h.poolSplit i hi with hin | hres | ⟨k, hk⟩
      · exact Or.inl hin
      · exact Or.inr (Or.inr ⟨l, by rw [hfound, Function.update_self, hres]⟩)
      · have hkl : k ≠ l := fun hkl => by rw [hkl, hl] at hk; cases hk
        exact Or.inr (Or.inr ⟨k, by rw [hfound, Function.update_of_ne hkl, hk]⟩)
    · rcases h.heapSplit a ha with hres | ⟨k, hk⟩
      · exact ⟨l, by rw [hfound, Function.update_self, hres]⟩
      · have hkl : k ≠ l := fun hkl => by rw [hkl, hl] at hk; cases hk
        exact ⟨k, by rw [hfound, Function.update_of_ne hkl, hk]⟩
  · by_cases hkl : k = l
    · subst hkl
      rw [Function.update_self]
      exact hashCount_eq (by rw [hfound, Function.update_self]) hrep
    · rw [Function.update_of_ne hkl]
      simp only [hashCount, hfound, Function.update_of_ne hkl]
      cases hk : s.found k with
      | none => rfl
      | some q =>
        simp only
        rw [hother q fun hqp => hpk k (hqp ▸ hk)]

omit [Inhabited Addr] in
/-- Deleting an entry reserves its node. -/
theorem hashDel_spec (h : s.Pooled L size fl none) (hl : s.found l = some p) :
    (hashDel p s).Pooled L size fl (some p) ∧
      (hashDel p s).found = Function.update s.found l none ∧
      (hashDel p s).hashCount = Function.update s.hashCount l 0 := by
  set s' : Tls R M Addr := hashDel p s with hs'
  have hfound : s'.found = Function.update s.found l none := by
    funext k
    -- one node is the entry of one lock
    have huniq : ∀ k', s.found k' = some p → k' = l := fun k' hk' => h.key_injective hl hk'
    rw [found, show s'.lockHash = PtrMap.del s.lockHash p from rfl,
      LawfulPtrMap.find_del s.lockHash l p hl huniq, Function.update_apply]
    rfl
  have hcases : ∀ k q, s'.found k = some q → k ≠ l ∧ s.found k = some q := by
    intro k q hk
    rw [hfound] at hk
    by_cases hkl : k = l
    · subst hkl
      rw [Function.update_self] at hk
      cases hk
    · rw [Function.update_of_ne hkl] at hk
      exact ⟨hkl, hk⟩
  -- the nodes of the other entries stay in the hash
  have hkeep : ∀ q, q ≠ p → (∃ k, s.found k = some q) → ∃ k, s'.found k = some q := by
    rintro q hqp ⟨k, hk⟩
    have hkl : k ≠ l := by
      intro hkl
      rw [hkl, hl] at hk
      exact hqp (Option.some.inj hk).symm
    exact ⟨k, by rw [hfound, Function.update_of_ne hkl, hk]⟩
  refine ⟨?_, hfound, funext fun k => ?_⟩
  · refine
      { initialized := h.initialized
        linked := h.linked
        nodup := h.nodup
        free := h.free
        key := fun k q hk => h.key k q (hcases k q hk).2
        counted := fun k q hk => h.counted k q (hcases k q hk).2
        origin := fun k q hk => h.origin k q (hcases k q hk).2
        apart := fun k q hk => h.apart k q (hcases k q hk).2
        reservedOrigin := ?_
        reservedApart := ?_
        heapNodup := h.heapNodup
        poolSplit := fun i hi => ?_
        heapSplit := fun a ha => ?_ }
    · rintro q ⟨⟩
      exact h.origin l p hl
    · rintro q ⟨⟩
      refine ⟨h.apart l p hl, fun k hk => ?_⟩
      obtain ⟨hkl, hk⟩ := hcases k p hk
      exact hkl (h.key_injective hl hk)
    · -- a node that was the entry is reserved now
      by_cases hp : NodePtr.pool i = p
      · exact Or.inr (Or.inl (by rw [hp]))
      · rcases h.poolSplit i hi with hin | hres | hk
        · exact Or.inl hin
        · cases hres
        · exact Or.inr (Or.inr (hkeep _ hp hk))
    · by_cases hp : NodePtr.heap a = p
      · exact Or.inl (by rw [hp])
      · exact Or.inr (hkeep _ hp ((h.heapSplit a ha).resolve_left (by simp)))
  · by_cases hkl : k = l
    · subst hkl
      rw [Function.update_self]
      exact hashCount_of_none (by rw [hfound, Function.update_self])
    · rw [Function.update_of_ne hkl]
      simp only [hashCount, hfound, Function.update_of_ne hkl]
      rfl

end Lawful

/-- Pushing the reserved node returns it to the pool or to `malloc`. -/
theorem freelistPush_spec (h : s.Pooled L size fl (some p)) {v : Nat}
    (hv : L.cellRep (s.mem p).recCount v) :
    ∃ s' fl', (freelistPush p).run s = .ok () s' ∧ s'.Pooled L size fl' none ∧
      s'.slots = s.slots ∧ s'.found = s.found ∧ s'.hashCount = s.hashCount := by
  obtain ⟨hpfl, hpk⟩ := h.reservedApart p rfl
  have horig := h.reservedOrigin p rfl
  cases p with
  | pool i =>
    -- a pool node is cleared and becomes the head
    let e : HashEntry Addr R.Cell :=
      { s.mem (.pool i) with
        lockPtr := default
        recCount := R.cellSet (s.mem (.pool i)).recCount 0
        next := s.freelistHead }
    let s' := ({ s with freelistHead := some (.pool i) } : Tls R M Addr).write (.pool i) e
    have hself : s'.mem (.pool i) = e := by simp [s', write]
    have hother : ∀ q, q ≠ .pool i → s'.mem q = s.mem q := fun q hq => by simp [s', write, hq]
    have hfl : ∀ q ∈ fl, s'.mem q = s.mem q := fun q hq => hother q fun hqi => hpfl (hqi ▸ hq)
    obtain ⟨hentries, hcount⟩ := h.toEntries.frame (t := s') rfl
      (fun k q hk => hother q fun hqi => hpk k (hqi ▸ hk)) (fun _ _ _ ha => ha)
    refine ⟨s', .pool i :: fl, by simp [freelistPush, horig.2, s', e], ?_, rfl, rfl, hcount⟩
    refine
      { hentries with
        initialized := h.initialized
        linked := ⟨rfl, ?_⟩
        nodup := List.nodup_cons.mpr ⟨hpfl, h.nodup⟩
        free := fun q hq => ?_
        apart := fun k q hk hq => ?_
        reservedOrigin := fun q hq => by cases hq
        reservedApart := fun q hq => by cases hq
        heapNodup := h.heapNodup
        poolSplit := fun j hj => ?_
        heapSplit := fun a ha => Or.inr ((h.heapSplit a ha).resolve_left (by simp)) }
    · rw [hself]
      exact h.linked.congr fun q hq => by rw [hfl q hq]
    · rcases List.mem_cons.mp hq with rfl | hq
      · refine ⟨⟨i, horig.1, rfl⟩, ?_⟩
        rw [hself]
        exact L.cleanSet _ _ hv
      · rw [hfl q hq]
        exact h.free q hq
    · rcases List.mem_cons.mp hq with rfl | hq
      · exact hpk k hk
      · exact h.apart k q hk hq
    · -- the reserved pool node goes to the head of the free list
      rcases h.poolSplit j hj with hin | hres | hk
      · exact Or.inl (List.mem_cons_of_mem _ hin)
      · obtain rfl : i = j := by simpa using hres
        exact Or.inl (List.mem_cons_self ..)
      · exact Or.inr (Or.inr hk)
  | heap a =>
    -- a block is freed; nothing points to it
    let s' : Tls R M Addr := { s with heap := s.heap.erase a }
    have hkeep : ∀ b, b ≠ a → b ∈ s.heap → b ∈ s'.heap := fun b hba hb =>
      (List.mem_erase_of_ne hba).mpr hb
    obtain ⟨hentries, hcount⟩ := h.toEntries.frame (t := s') rfl (fun _ _ _ => rfl)
      (fun k b hk => hkeep b fun hba => hpk k (hba ▸ hk))
    refine ⟨s', fl, by simp [freelistPush, horig.1, horig.2, s'], ?_, rfl, rfl, hcount⟩
    exact
      { hentries with
        initialized := h.initialized
        linked := h.linked
        nodup := h.nodup
        free := h.free
        apart := h.apart
        reservedOrigin := fun q hq => by cases hq
        reservedApart := fun q hq => by cases hq
        heapNodup := h.heapNodup.erase a
        poolSplit := fun j hj => (h.poolSplit j hj).imp_right fun hr =>
          Or.inr (hr.resolve_left (by simp))
        heapSplit := fun b hb => by
          -- the reserved block is freed, and each block is live once
          have hba : b ≠ a := fun hba => h.heapNodup.not_mem_erase (hba ▸ hb)
          rcases h.heapSplit b (List.mem_of_mem_erase hb) with hres | hk
          · exact absurd (by simpa using hres.symm) hba
          · exact Or.inr hk }

omit [Inhabited Addr] in
/-- Assigning a count to an entry. -/
theorem write_count_spec [DecidableEq Addr] (h : s.Pooled L size fl none)
    (hl : s.found l = some p) {v : R.Cell} (hv : L.cellRep v c) (h1 : 1 ≤ c) (hc : c ≤ L.limit) :
    (s.write p { s.mem p with recCount := v }).Pooled L size fl none ∧
      (s.write p { s.mem p with recCount := v }).hashCount =
        Function.update s.hashCount l c := by
  set s' := s.write p { s.mem p with recCount := v } with hs'
  have hself : s'.mem p = { s.mem p with recCount := v } := by simp [hs', write]
  have hother : ∀ q, q ≠ p → s'.mem q = s.mem q := fun q hq => by simp [hs', write, hq]
  have hfl : ∀ q ∈ fl, s'.mem q = s.mem q := fun q hq =>
    hother q fun hqp => h.apart l p hl (hqp ▸ hq)
  refine ⟨?_, funext fun k => ?_⟩
  · refine
      { initialized := h.initialized
        linked := h.linked.congr fun q hq => by rw [hfl q hq]
        nodup := h.nodup
        free := fun q hq => by
          rw [hfl q hq]
          exact h.free q hq
        key := fun k q hk => ?_
        counted := fun k q hk => ?_
        origin := fun k q hk => ?_
        apart := h.apart
        reservedOrigin := fun q hq => by cases hq
        reservedApart := fun q hq => by cases hq
        heapNodup := h.heapNodup
        poolSplit := h.poolSplit
        heapSplit := h.heapSplit }
    · by_cases hq : q = p
      · subst hq
        rw [hself]
        exact h.key k q hk
      · rw [hother q hq]
        exact h.key k q hk
    · by_cases hq : q = p
      · subst hq
        rw [hself]
        exact ⟨c, h1, hc, hv⟩
      · rw [hother q hq]
        exact h.counted k q hk
    · -- the write leaves the flag of the node alone
      have horig := h.origin k q hk
      by_cases hq : q = p
      · subst hq
        cases q with
        | pool i => exact ⟨horig.1, by rw [hself]; exact horig.2⟩
        | heap a => exact ⟨horig.1, by rw [hself]; exact horig.2⟩
      · exact horig.congr (hother q hq) fun _ _ ha => ha
  · by_cases hkl : k = l
    · subst hkl
      rw [Function.update_self]
      exact hashCount_eq (s := s') (L := L) hl (by rw [hself]; exact hv)
    · rw [Function.update_of_ne hkl]
      have hfound : s'.found k = s.found k := rfl
      simp only [hashCount, hfound]
      cases hk : s.found k with
      | none => rfl
      | some q =>
        simp only
        -- the count changes in one node, which is the entry of `l` alone
        rw [hother q fun hqp => hkl (h.key_injective hl (hqp ▸ hk))]

end Pool

end Tls

end LockShield
