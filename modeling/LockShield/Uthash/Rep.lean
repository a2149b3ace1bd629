import LockShield.Uthash.Chains
import Mathlib.Algebra.Order.Floor.Div

/-!
# What the macros keep

`Rep hash s order` is the invariant of a table: its elements are those of
`order`, in the order in which they were added, each is in the bucket of its
key, the counters count them, and there is no memory but the table and its
buckets. The bucket of an element changes only when the buckets are doubled, and no
result depends on it.

`uthash_malloc` may fail, and the process then ends; what is assumed is that it fails
for requests of 64 GiB or more (`MemoryBelow`), so that the number of buckets fits its
`unsigned`.

## Results

* `Rep.add`   — `HASH_ADD_PTR` of an element that is not in the table appends it.
* `Rep.del`   — `HASH_DEL` of one that is erases it, the table with the last one.
* `Rep.find`  — `HASH_FIND_PTR` searches `order`.
* `Filed.expand` — doubling the buckets keeps every element filed.
* `Rep.fsck`  — `HASH_FSCK` finds nothing wrong.
-/

namespace LockShield.Uthash

open Lib

variable {Key Node : Type}

/-- No request for 64 GiB succeeds: that many bytes would be `2^32` buckets, whose
number no longer fits its `unsigned`. -/
def MemoryBelow (malloc : Nat → Nat → Bool) : Prop :=
  ∀ n bytes, 2 ^ 36 ≤ bytes → malloc n bytes = false

/-- A `malloc` that grants everything below that. -/
def smallMemory (_ bytes : Nat) : Bool := decide (bytes < 2 ^ 36)

theorem smallMemory_below : MemoryBelow smallMemory := by
  intro n bytes h
  exact decide_eq_false (Nat.not_lt.mpr h)

/-- The table behind a head pointer that is not null. -/
structure Filed (s : State Key Node) (order : List Node) (chains : Nat → List Node) : Prop where
  numBuckets : s.tbl.numBuckets = 2 ^ s.tbl.log2NumBuckets
  few : s.tbl.log2NumBuckets ≤ 31
  numItems : s.tbl.numItems = uint32 order.length
  tail : s.tbl.tail = order.getLast?
  chained : Chained s.tbl.buckets s.tbl.numBuckets s.hhNext s.hhPrev s.hashv order chains
  /-- the buckets and the table are all the memory -/
  owned : s.blocks = s.ownBlocks

/-- The table holds the elements of `order`, added in this order. -/
structure Rep (hash : Key → Nat) (s : State Key Node) (order : List Node) : Prop where
  head : s.head = order.head?
  links : Dll s.next s.prev none order none
  nodup : order.Nodup
  size : s.size = order.length
  hashed : ∀ a ∈ order, s.hashv a = hash (s.key a)
  filed : order ≠ [] → ∃ chains, Filed s order chains
  /-- no element, no memory -/
  unowned : order = [] → s.blocks = []

/-- The elements, their keys and their order are the same. -/
structure SameElements (s s' : State Key Node) : Prop where
  head : s'.head = s.head
  next : s'.next = s.next
  prev : s'.prev = s.prev
  key : s'.key = s.key
  hashv : s'.hashv = s.hashv
  size : s'.size = s.size

variable {hash : Key → Nat} {malloc : Nat → Nat → Bool} {s s' : State Key Node}
  {order : List Node} {chains : Nat → List Node} {a : Node} {k : Key}

theorem rep_empty [Inhabited Key] : Rep hash (empty : State Key Node) [] where
  head := rfl
  links := trivial
  nodup := List.nodup_nil
  size := rfl
  hashed := fun _ h => absurd h List.not_mem_nil
  filed := fun h => absurd rfl h
  unowned := fun _ => rfl

theorem Filed.bucket_lt (h : Filed s order chains) (hv : Nat) :
    hashToBkt hv s.tbl.numBuckets < s.tbl.numBuckets := by
  rw [h.numBuckets]
  exact hashToBkt_lt h.few hv

/-! ## Finding -/

section Find

variable [DecidableEq Key]

theorem hashFindInBkt_eq {hv fuel : Nat} {x : Option Node} {l : List Node}
    (hl : Dll s.hhNext s.hhPrev x l none) (hfuel : l.length ≤ fuel) :
    hashFindInBkt s k hv fuel l.head? =
      .ok (l.find? fun a => decide (s.hashv a = hv ∧ s.key a = k)) := by
  induction l generalizing x fuel with
  | nil => simp [hashFindInBkt]
  | cons c l ih =>
    obtain ⟨-, hnext, hrest⟩ := hl
    rw [Option.or_none] at hnext
    cases fuel with
    | zero => simp at hfuel
    | succ fuel =>
      have htail := ih hrest (Nat.le_of_succ_le_succ hfuel)
      rw [List.find?_cons]
      by_cases hc : s.hashv c = hv ∧ s.key c = k
      · simp [hashFindInBkt, hc]
      · simp only [List.head?_cons, hashFindInBkt, if_neg hc, hnext, htail, decide_eq_false hc]

/-- A lookup ends, and finds an element with the key if there is one. -/
theorem Rep.find (h : Rep hash s order) (k : Key) :
    ∃ r, hashFindPtr hash k s = .ok r ∧ (∀ a, r = some a → a ∈ order ∧ s.key a = k) ∧
      (r = none → ∀ a ∈ order, s.key a ≠ k) := by
  by_cases hne : order = []
  · subst hne
    have hhead : s.head = none := h.head
    refine ⟨none, by simp [hashFindPtr, hhead], ?_, fun _ a ha => absurd ha List.not_mem_nil⟩
    intro a ha
    cases ha
  · obtain ⟨chains, hf⟩ := h.filed hne
    obtain ⟨c, hc⟩ := Option.isSome_iff_exists.mp (List.isSome_head?.mpr hne)
    have hhead : s.head = some c := h.head.trans hc
    have hlen : (chains (hashToBkt (hash k) s.tbl.numBuckets)).length ≤ s.size := by
      rw [h.size]
      exact hf.chained.length_le _
    have hrun : hashFindPtr hash k s =
        .ok ((chains (hashToBkt (hash k) s.tbl.numBuckets)).find?
          fun a => decide (s.hashv a = hash k ∧ s.key a = k)) := by
      simp only [hashFindPtr, hashFindByhashvalue, hhead]
      rw [hf.chained.head, hashFindInBkt_eq (hf.chained.links _) hlen]
    refine ⟨_, hrun, fun a ha => ?_, fun hnone a ha hkey => ?_⟩
    · have hmem := List.mem_of_find?_eq_some ha
      have hp := List.find?_some ha
      exact ⟨((hf.chained.mem _ a).mp hmem).1, (of_decide_eq_true hp).2⟩
    · -- an element with the key is in the bucket of the key's hash value
      have hhash : s.hashv a = hash k := (h.hashed a ha).trans (congrArg hash hkey)
      have hin : a ∈ chains (hashToBkt (hash k) s.tbl.numBuckets) :=
        (hf.chained.mem _ a).mpr ⟨ha, by rw [hhash]⟩
      have := List.find?_eq_none.mp hnone a hin
      simp [hhash, hkey] at this

end Find

/-! ## Memory -/

theorem ok_bind {α β : Type} (x : α) (f : α → Except Stop β) :
    (Except.ok x >>= f) = f x := rfl

theorem uthashMalloc_ok {bytes : Nat} (h : malloc s.mallocs bytes = true) :
    uthashMalloc malloc bytes s =
      .ok { s with mallocs := s.mallocs + 1, blocks := (s.mallocs, bytes) :: s.blocks } := by
  rw [uthashMalloc, h, if_neg Bool.noConfusion]

theorem uthashMalloc_error {bytes : Nat} (h : malloc s.mallocs bytes = false) :
    uthashMalloc malloc bytes s = .error .exit := by
  rw [uthashMalloc, if_pos h]

/-- The old buckets can be freed when there are new ones `b`. -/
theorem Filed.freeBuckets (h : Filed s order chains) (mallocs : Nat) {b : Nat × Nat}
    (hb : b.2 ≠ s.tbl.numBuckets * sizeofBucket) :
    uthashFree s.tbl.bucketsBlock (s.tbl.numBuckets * sizeofBucket)
        { s with mallocs, blocks := b :: s.blocks } =
      .ok { s with mallocs, blocks := [b, (s.tblBlock, sizeofTable)] } := by
  have hne : b ≠ (s.tbl.bucketsBlock, s.tbl.numBuckets * sizeofBucket) := fun heq =>
    hb (congrArg Prod.snd heq)
  have hmem : (s.tbl.bucketsBlock, s.tbl.numBuckets * sizeofBucket) ∈ b :: s.blocks := by
    rw [h.owned]
    exact List.mem_cons_of_mem _ List.mem_cons_self
  rw [uthashFree, if_pos hmem]
  simp only [h.owned, State.ownBlocks]
  rw [List.erase_cons_tail (by simpa using hne), List.erase_cons_head]

/-- The table and its buckets can be freed, and then nothing is left. -/
theorem Filed.freeTable (h : Filed s order chains) :
    (do
      let s ← uthashFree s.tbl.bucketsBlock (s.tbl.numBuckets * sizeofBucket) s
      uthashFree s.tblBlock sizeofTable s) = .ok { s with blocks := [] } := by
  have hmem : (s.tbl.bucketsBlock, s.tbl.numBuckets * sizeofBucket) ∈ s.blocks := by
    rw [h.owned]
    exact List.mem_cons_self
  have herase : s.blocks.erase (s.tbl.bucketsBlock, s.tbl.numBuckets * sizeofBucket) =
      [(s.tblBlock, sizeofTable)] := by
    rw [h.owned, State.ownBlocks, List.erase_cons_head]
  rw [uthashFree, if_pos hmem, herase, ok_bind, uthashFree, if_pos List.mem_cons_self,
    List.erase_cons_head]

/-- `HASH_MAKE_TABLE` ends the process or makes a table of empty buckets. -/
theorem hashMakeTable_cases (malloc : Nat → Nat → Bool) (head : Node) (s : State Key Node) :
    hashMakeTable malloc head s = .error .exit ∨
      hashMakeTable malloc head s = .ok { s with
        tblBlock := s.mallocs
        tbl := ⟨fun _ => ⟨none, 0, 0⟩, s.mallocs + 1, 32, 5, 0, some head, 0, 0, 0, false⟩
        mallocs := s.mallocs + 2
        blocks := (s.mallocs + 1, 32 * sizeofBucket) :: (s.mallocs, sizeofTable) :: s.blocks } := by
  cases htbl : malloc s.mallocs sizeofTable with
  -- `uthash_fatal` for want of the table
  | false =>
    refine Or.inl ?_
    rw [hashMakeTable, uthashMalloc_error htbl]
    rfl
  | true =>
    rw [hashMakeTable, uthashMalloc_ok htbl, ok_bind]
    cases hbkts : malloc (s.mallocs + 1) (hashInitialNumBuckets * sizeofBucket) with
    -- `uthash_fatal` for want of the buckets
    | false =>
      refine Or.inl ?_
      rw [uthashMalloc_error hbkts]
      rfl
    | true =>
      refine Or.inr ?_
      rw [uthashMalloc_ok hbkts]
      rfl

variable [DecidableEq Node]

/-! ## Adding -/

omit [DecidableEq Node] in
/-- What the macros compute with a shift and a mask is the number of elements per
bucket, rounded up. -/
theorem ceil_shift_mask (n k : Nat) :
    (n >>> k) + (if n &&& (2 ^ k - 1) ≠ 0 then 1 else 0) = n ⌈/⌉ 2 ^ k := by
  rw [Nat.shiftRight_eq_div_pow, Nat.and_two_pow_sub_one_eq_mod, Nat.ceilDiv_eq_add_pred_div]
  have hpos : 0 < 2 ^ k := Nat.two_pow_pos k
  generalize 2 ^ k = m at hpos ⊢
  have hmod := Nat.mod_lt n hpos
  have hdiv : n = n / m * m + n % m := (Nat.div_add_mod' n m).symm
  -- a remainder rounds up
  by_cases hr : n % m = 0
  · rw [if_neg (not_not.mpr hr), Nat.add_zero]
    refine (Nat.div_eq_of_lt_le ?_ ?_).symm
    · omega
    · rw [Nat.add_mul]
      omega
  · rw [if_pos hr]
    refine (Nat.div_eq_of_lt_le ?_ ?_).symm
    · rw [Nat.add_mul]
      omega
    · rw [Nat.add_mul, Nat.add_mul]
      omega

/-- What an expansion records about the new buckets. -/
structure Expanded (s s' : State Key Node) (order : List Node) (chains : Nat → List Node) :
    Prop where
  doubled : s'.tbl.log2NumBuckets = s.tbl.log2NumBuckets + 1
  ideal : order.length < 2 ^ 32 → s'.tbl.idealChainMaxlen = order.length ⌈/⌉ s'.tbl.numBuckets
  nonideal : order.length < 2 ^ 32 → s'.tbl.nonidealItems =
    excess s'.tbl.idealChainMaxlen s'.tbl.numBuckets chains
  ineff : s'.tbl.ineffExpands =
    if s.tbl.numItems / 2 < s'.tbl.nonidealItems then uint32 (s.tbl.ineffExpands + 1) else 0
  noexpand : s'.tbl.noexpand = (s.tbl.noexpand || decide (1 < s'.tbl.ineffExpands))

/-- `HASH_EXPAND_BUCKETS` doubles the buckets and moves every element to its new
one. -/
theorem Filed.expand (hmem : MemoryBelow malloc) (h : Filed s order chains)
    (hnodup : order.Nodup) (hsize : order.length ≤ s.size) :
    hashExpandBuckets malloc s = .error .exit ∨
      ∃ s' chains', hashExpandBuckets malloc s = .ok s' ∧ Filed s' order chains' ∧
        SameElements s s' ∧ Expanded s s' order chains' := by
  cases hroom : malloc s.mallocs (sizeofBucket * s.tbl.numBuckets * 2) with
  | false =>
    refine Or.inl ?_
    rw [hashExpandBuckets, uthashMalloc_error hroom]
    rfl
  | true =>
    refine Or.inr ?_
    set e := s.tbl.log2NumBuckets with he
    -- there is room for the buckets, so their number still fits
    have hsmall : e ≤ 30 := by
      by_contra hbig
      have h31 : e = 31 := by
        have := h.few
        omega
      have hbytes : 2 ^ 36 ≤ sizeofBucket * s.tbl.numBuckets * 2 := by
        rw [h.numBuckets, ← he, h31]
        decide
      rw [hmem _ _ hbytes] at hroom
      cases hroom
    have hpow : 2 ^ (e + 1) ≤ 2 ^ 31 := Nat.pow_le_pow_right (by decide) (by omega)
    have hn : uint32 (s.tbl.numBuckets * 2) = 2 ^ (e + 1) := by
      rw [h.numBuckets, ← he, ← Nat.pow_succ]
      exact uint32_of_lt (by omega)
    have hlog : uint32 (e + 1) = e + 1 := uint32_of_lt (by omega)
    have hlt : ∀ v, hashToBkt v (2 ^ (e + 1)) < 2 ^ (e + 1) := hashToBkt_lt (by omega)
    have hstart : Rehashed s.hhNext s.hashv (2 ^ (e + 1)) (idealChainMaxlen s.tbl) []
        (fun _ => []) ⟨fun _ => ⟨none, 0, 0⟩, s.hhPrev, s.hhNext, 0⟩ :=
      ⟨chained_nil, fun _ _ => rfl, fun _ => by simp [excess, uint32]⟩
    obtain ⟨r, new, hrun, hr⟩ := rehash_spec hlt h.chained hsize (List.range s.tbl.numBuckets)
      List.nodup_range (fun _ _ _ _ hc => absurd hc List.not_mem_nil) hstart
    rw [List.nil_append] at hr
    have hperm := h.chained.perm h.bucket_lt hnodup
    have hchained := hr.chained.congr order
      (fun c => hperm.mem_iff.symm) fun _ _ => rfl
    -- the old buckets are freed, the new ones and the table stay
    have hfree := h.freeBuckets (s.mallocs + 1) (b := (s.mallocs,
      sizeofBucket * s.tbl.numBuckets * 2)) <| by
        have hpos := Nat.two_pow_pos e
        simp only [sizeofBucket, h.numBuckets, ← he]
        omega
    have hrun' : hashExpandBuckets malloc s = .ok (adoptBuckets (idealChainMaxlen s.tbl) s.mallocs r
        { s with
          mallocs := s.mallocs + 1
          blocks := [(s.mallocs, sizeofBucket * s.tbl.numBuckets * 2),
            (s.tblBlock, sizeofTable)] }) := by
      simp only [hashExpandBuckets, uthashMalloc_ok hroom, ok_bind, hn, hrun, hfree]
      rfl
    refine ⟨_, new, hrun', ⟨?_, ?_, h.numItems, h.tail, ?_, ?_⟩, ⟨rfl, rfl, rfl, rfl, rfl, rfl⟩,
      ⟨hlog, fun hfew => ?_, fun hfew => ?_, ?_, rfl⟩⟩
    · show uint32 (s.tbl.numBuckets * 2) = 2 ^ uint32 (e + 1)
      rw [hn, hlog]
    · show uint32 (e + 1) ≤ 31
      omega
    · show Chained r.buckets (uint32 (s.tbl.numBuckets * 2)) r.hhNext r.hhPrev s.hashv order new
      rw [hn]
      exact hchained
    · show _ = [(s.mallocs, uint32 (s.tbl.numBuckets * 2) * sizeofBucket), _]
      rw [hn, h.numBuckets, ← he, pow_succ, Nat.mul_comm sizeofBucket, Nat.mul_right_comm]
      rfl
    · -- the mask is one less than the number of new buckets
      show idealChainMaxlen s.tbl = order.length ⌈/⌉ uint32 (s.tbl.numBuckets * 2)
      have hmask : uint32 (s.tbl.numBuckets * 2 + (2 ^ 32 - 1)) = 2 ^ (e + 1) - 1 := by
        rw [h.numBuckets, ← he, ← Nat.pow_succ]
        have hpos := Nat.two_pow_pos (e + 1)
        simp only [uint32]
        omega
      have hle : order.length ⌈/⌉ 2 ^ (e + 1) ≤ order.length := by
        rw [ceilDiv_le_iff_le_mul (Nat.two_pow_pos _)]
        exact Nat.le_mul_of_pos_left _ (Nat.two_pow_pos _)
      rw [hn, idealChainMaxlen, hmask, h.numItems, uint32_of_lt hfew, ← he, ceil_shift_mask]
      exact uint32_of_lt (Nat.lt_of_le_of_lt hle hfew)
    · show r.nonidealItems =
        excess (idealChainMaxlen s.tbl) (uint32 (s.tbl.numBuckets * 2)) new
      have hle := excess_le (idealChainMaxlen s.tbl) (2 ^ (e + 1)) new
      rw [(hchained.perm hlt hnodup).length_eq] at hle
      rw [hn, hr.nonideal (by rwa [hperm.length_eq])]
      exact uint32_of_lt (Nat.lt_of_le_of_lt hle hfew)
    · show _ = if s.tbl.numItems / 2 < r.nonidealItems then _ else _
      rw [← Nat.shiftRight_one]
      rfl

/-- `HASH_ADD_TO_BKT` of a new element of the table. -/
theorem Filed.addToBkt (hmem : MemoryBelow malloc) (h : Filed s order chains) (s' : State Key Node)
    (hnodup : (order ++ [a]).Nodup) (hsize : (order ++ [a]).length ≤ s'.size)
    (htbl : s'.tbl = { s.tbl with
      numItems := uint32 (order ++ [a]).length, tail := some a })
    (hlinks : s'.hhNext = s.hhNext ∧ s'.hhPrev = s.hhPrev)
    (hblocks : s'.blocks = s.blocks ∧ s'.tblBlock = s.tblBlock)
    (hhash : ∀ c ∈ order, s'.hashv c = s.hashv c) :
    hashAddToBkt malloc (hashToBkt (s'.hashv a) s.tbl.numBuckets) a s' = .error .exit ∨
      ∃ t chains', hashAddToBkt malloc (hashToBkt (s'.hashv a) s.tbl.numBuckets) a s' = .ok t ∧
        Filed t (order ++ [a]) chains' ∧ SameElements s' t := by
  obtain ⟨hhNext, hhPrev⟩ := hlinks
  set b := hashToBkt (s'.hashv a) s.tbl.numBuckets with hb
  have ha : a ∉ order := by
    intro ha
    exact (List.nodup_append.mp hnodup).2.2 a ha a (List.mem_singleton_self a) rfl
  have hpushed : Filed (pushBkt b a s') (order ++ [a])
      (Function.update chains b (a :: chains b)) := by
    have hold := h.chained.congr order (fun _ => Iff.rfl) hhash
    refine ⟨?_, ?_, ?_, ?_, ?_, ?_⟩
    · simpa [pushBkt, htbl] using h.numBuckets
    · simpa [pushBkt, htbl] using h.few
    · simp [pushBkt, htbl]
    · simp [pushBkt, htbl]
    · have hnew := hold.push (order ++ [a]) (b := b) ha hb.symm (fun c => by simp)
        ((s.tbl.buckets b).expandMult)
      simpa [pushBkt, htbl, hhNext, hhPrev] using hnew
    · simpa [pushBkt, State.ownBlocks, htbl, hblocks] using h.owned
  unfold hashAddToBkt
  simp only
  split
  · -- the chain has become long, and the buckets are doubled
    rcases hpushed.expand hmem hnodup hsize with hexit | ⟨t, chains', hrun, ht, hsame, -⟩
    · exact Or.inl hexit
    · refine Or.inr ⟨t, chains', hrun, ht, ?_⟩
      exact ⟨hsame.head, hsame.next, hsame.prev, hsame.key, hsame.hashv, hsame.size⟩
  · exact Or.inr ⟨_, _, rfl, hpushed, ⟨rfl, rfl, rfl, rfl, rfl, rfl⟩⟩

/-- `HASH_ADD_TO_TABLE` of an element that the list of all elements has already. -/
theorem Filed.addToTable (hmem : MemoryBelow malloc) (h : Filed s order chains)
    (hnodup : (order ++ [a]).Nodup) (htbl : s'.tbl = { s.tbl with tail := some a })
    (hlinks : s'.hhNext = s.hhNext ∧ s'.hhPrev = s.hhPrev)
    (hblocks : s'.blocks = s.blocks ∧ s'.tblBlock = s.tblBlock)
    (hhash : ∀ c ∈ order, s'.hashv c = s.hashv c) (hhead : s'.head = (order ++ [a]).head?)
    (hlist : Dll s'.next s'.prev none (order ++ [a]) none) (hsize : s'.size = order.length)
    (hhashed : ∀ c ∈ order ++ [a], s'.hashv c = hash (s'.key c)) :
    hashAddToTable malloc (s'.hashv a) a s' = .error .exit ∨
      ∃ t, hashAddToTable malloc (s'.hashv a) a s' = .ok t ∧ Rep hash t (order ++ [a]) ∧
        t.key = s'.key := by
  have hlen : s'.size + 1 = (order ++ [a]).length := by simp [hsize]
  have hn : s'.tbl.numBuckets = s.tbl.numBuckets := by rw [htbl]
  have hitems : uint32 (s'.tbl.numItems + 1) = uint32 (order ++ [a]).length := by
    rw [htbl, List.length_append, List.length_singleton]
    show uint32 (s.tbl.numItems + 1) = _
    rw [h.numItems, uint32_add]
  -- what goes to the bucket is counted already
  have hadd := h.addToBkt hmem { s' with
      tbl := { s'.tbl with numItems := uint32 (s'.tbl.numItems + 1) }
      size := s'.size + 1 } hnodup (Nat.le_of_eq hlen.symm)
    (by rw [hitems, htbl]) hlinks hblocks hhash
  unfold hashAddToTable
  simp only [hn] at hadd ⊢
  rcases hadd with hexit | ⟨t, chains', hrun, hfiled, hsame⟩
  · exact Or.inl hexit
  · refine Or.inr ⟨t, hrun, ⟨?_, ?_, hnodup, ?_, fun c hc => ?_, fun _ => ⟨chains', hfiled⟩,
      fun hnil => by simp at hnil⟩, hsame.key⟩
    · exact hsame.head.trans hhead
    · rw [hsame.next, hsame.prev]
      exact hlist
    · exact hsame.size.trans hlen
    · rw [hsame.hashv, hsame.key]
      exact hhashed c hc

/-- `HASH_ADD_PTR` of an element that is not in the table appends it. -/
theorem Rep.add (hmem : MemoryBelow malloc) (h : Rep hash s order) (ha : a ∉ order) (k : Key) :
    hashAddPtr malloc hash k a s = .error .exit ∨
      ∃ t, hashAddPtr malloc hash k a s = .ok t ∧ Rep hash t (order ++ [a]) ∧
        t.key = Function.update s.key a k := by
  have hnodup : (order ++ [a]).Nodup := by
    refine List.nodup_append.mpr ⟨h.nodup, List.nodup_singleton a, fun c hc d hd hcd => ?_⟩
    rw [List.mem_singleton] at hd
    exact ha (hd ▸ hcd ▸ hc)
  have hkeep : ∀ c ∈ order, c ≠ a := fun c hc hca => ha (hca ▸ hc)
  have hself : Function.update s.hashv a (hash k) a = hash k := Function.update_self ..
  have hhash : ∀ c ∈ order, Function.update s.hashv a (hash k) c = s.hashv c := fun c hc =>
    Function.update_of_ne (hkeep c hc) ..
  have hhashed : ∀ c ∈ order ++ [a], Function.update s.hashv a (hash k) c =
      hash (Function.update s.key a k c) := by
    intro c hc
    rcases List.mem_append.mp hc with hc | hc
    · rw [hhash c hc, Function.update_of_ne (hkeep c hc)]
      exact h.hashed c hc
    · rw [List.mem_singleton] at hc
      subst hc
      rw [Function.update_self, Function.update_self]
  have hlist := h.links.append h.nodup ha
  by_cases hne : order = []
  · -- the first element makes the table
    subst hne
    have hhead : s.head = none := h.head
    have hblocks : s.blocks = [] := h.unowned rfl
    let made : Table Node := ⟨fun _ => ⟨none, 0, 0⟩, s.mallocs + 1, 32, 5, 0, none, 0, 0, 0, false⟩
    let s₀ : State Key Node := { s with
      tbl := made
      tblBlock := s.mallocs
      mallocs := s.mallocs + 2
      blocks := [(s.mallocs + 1, 32 * sizeofBucket), (s.mallocs, sizeofTable)] }
    -- empty buckets hold no elements
    have hempty : Filed s₀ [] fun _ => [] :=
      ⟨rfl, (by decide : 5 ≤ 31), rfl, rfl, chained_nil, rfl⟩
    let s₁ : State Key Node := { s₀ with
      head := some a
      tbl := { made with tail := some a }
      next := Function.update s.next a none
      prev := Function.update s.prev a none
      hashv := Function.update s.hashv a (hash k)
      key := Function.update s.key a k }
    rcases hashMakeTable_cases malloc a { s with
        head := none
        blocks := []
        hashv := Function.update s.hashv a (hash k)
        key := Function.update s.key a k
        next := Function.update s.next a none
        prev := Function.update s.prev a none } with hexit | hmake
    · refine Or.inl ?_
      simp only [hashAddPtr, hashAddKeyptrByhashvalue, hhead, hblocks, hexit]
      rfl
    · have hrun : hashAddPtr malloc hash k a s = hashAddToTable malloc (s₁.hashv a) a s₁ := by
        simp only [hashAddPtr, hashAddKeyptrByhashvalue, hhead, hblocks, hmake, s₁, s₀, hself]
        rfl
      rw [hrun]
      exact hempty.addToTable hmem hnodup rfl ⟨rfl, rfl⟩ ⟨rfl, rfl⟩
        (fun c hc => absurd hc List.not_mem_nil) rfl hlist h.size hhashed
  · -- the list of all elements gets one more at its end
    obtain ⟨chains, hf⟩ := h.filed hne
    obtain ⟨c, hc⟩ := Option.isSome_iff_exists.mp (List.isSome_head?.mpr hne)
    obtain ⟨last, hlast⟩ := Option.isSome_iff_exists.mp (List.getLast?_isSome.mpr hne)
    have hhead : s.head = some c := h.head.trans hc
    have htail : s.tbl.tail = some last := hf.tail.trans hlast
    let s₁ : State Key Node := { s with
      tbl := { s.tbl with tail := some a }
      next := Function.update (Function.update s.next a none) last (some a)
      prev := Function.update s.prev a (some last)
      hashv := Function.update s.hashv a (hash k)
      key := Function.update s.key a k }
    have hrun : hashAddPtr malloc hash k a s = hashAddToTable malloc (s₁.hashv a) a s₁ := by
      simp only [hashAddPtr, hashAddKeyptrByhashvalue, hhead, hashAppendList, htail, s₁, hself]
      rfl
    rw [hlast] at hlist
    rw [hrun]
    refine hf.addToTable hmem hnodup rfl ⟨rfl, rfl⟩ ⟨rfl, rfl⟩ hhash ?_ hlist h.size hhashed
    rw [List.head?_append, hc]
    exact hhead

/-! ## Deleting -/

/-- `HASH_DEL` of an element of the table erases it. -/
theorem Rep.del (h : Rep hash s order) (ha : a ∈ order) :
    ∃ t, hashDel a s = .ok t ∧ Rep hash t (order.erase a) ∧ t.key = s.key := by
  have hne : order ≠ [] := List.ne_nil_of_mem ha
  obtain ⟨chains, hf⟩ := h.filed hne
  obtain ⟨l₁, l₂, hl⟩ := List.append_of_mem ha
  have hlinks := h.links
  have hnodup := h.nodup
  rw [hl] at hlinks hnodup
  obtain ⟨hprev, hnext⟩ := hlinks.links
  have hnot : a ∉ l₁ := by
    intro ha'
    exact (List.nodup_append.mp hnodup).2.2 a ha' a List.mem_cons_self rfl
  have herase : order.erase a = l₁ ++ l₂ := by
    rw [hl, List.erase_append_right _ hnot, List.erase_cons_head]
  have hlen : s.size - 1 = (order.erase a).length := by
    rw [h.size, List.length_erase_of_mem ha]
  unfold hashDel
  split
  · -- the only element: the table goes with it
    rename_i honly
    have h₁ : l₁ = [] := List.getLast?_eq_none_iff.mp (hprev.symm.trans honly.1)
    have h₂ : l₂ = [] := List.head?_eq_none_iff.mp (hnext.symm.trans honly.2)
    have hempty : order.erase a = [] := by rw [herase, h₁, h₂, List.append_nil]
    rw [hempty] at hlen ⊢
    refine ⟨{ s with blocks := [], head := none, size := s.size - 1 }, ?_,
      ⟨rfl, trivial, List.nodup_nil, hlen, fun c hc => absurd hc List.not_mem_nil,
        fun hn => absurd rfl hn, fun _ => rfl⟩, rfl⟩
    rw [← bind_assoc, hf.freeTable]
    rfl
  · rename_i hmore
    set b := hashToBkt (s.hashv a) s.tbl.numBuckets with hb
    have hmem : ∀ c, c ∈ order.erase a ↔ c ∈ order ∧ c ≠ a := fun c => by
      rw [h.nodup.mem_erase_iff, and_comm]
    have hchained := hf.chained.remove ha hb.symm hmem (s.tbl.buckets b).expandMult
    refine ⟨_, rfl, ⟨?_, ?_, h.nodup.erase a, hlen,
      fun c hc => h.hashed c (List.mem_of_mem_erase hc),
      fun _ => ⟨Function.update chains b ((chains b).erase a), hf.numBuckets, hf.few, ?_, ?_,
        hchained, hf.owned⟩, ?_⟩, rfl⟩
    · -- the head moves on when the first element goes
      show (if s.prev a = none then s.next a else s.head) = (order.erase a).head?
      rw [herase, hprev, hnext, h.head, hl]
      cases l₁ with
      | nil => simp
      | cons c l₁ => simp [List.getLast?_cons]
    · show Dll (patch s.next (s.prev a) (s.next a)) (patch s.prev (s.next a) (s.prev a)) none
        (order.erase a) none
      rw [herase, hprev, hnext]
      exact hlinks.remove hnodup
    · show uint32 (s.tbl.numItems + (2 ^ 32 - 1)) = uint32 (order.erase a).length
      rw [hf.numItems, List.length_erase_of_mem ha]
      exact uint32_pred (List.length_pos_of_mem ha)
    · -- the tail moves back when the last element goes
      show (if s.tbl.tail = some a then s.prev a else s.tbl.tail) = (order.erase a).getLast?
      rw [herase, hprev, hf.tail, hl]
      rcases List.eq_nil_or_concat l₂ with rfl | ⟨l₂, c, rfl⟩
      · simp
      · have hca : c ≠ a := by
          intro hca
          subst hca
          have := (List.nodup_cons.mp (List.nodup_append.mp hnodup).2.1).1
          simp at this
        rw [List.concat_eq_append, ← List.append_assoc, ← List.cons_append, ← List.append_assoc,
          List.getLast?_concat, List.getLast?_concat, if_neg fun hc => hca (Option.some.inj hc)]
    · -- an element with a neighbour leaves one behind
      intro hnil
      rw [herase, List.append_eq_nil_iff] at hnil
      refine absurd ⟨?_, ?_⟩ hmore
      · rw [hprev, hnil.1, List.getLast?_nil]
      · rw [hnext, hnil.2, List.head?_nil]

/-! ## The integrity check -/

theorem fsckList_eq {next prev : Node → Option Node} {fuel m : Nat} {x : Option Node}
    {l : List Node} (hl : Dll next prev x l none) (hfuel : l.length ≤ fuel) :
    fsckList next prev fuel x l.head? (uint32 m) = some (uint32 (m + l.length)) := by
  induction l generalizing x fuel m with
  | nil => simp [fsckList]
  | cons c l ih =>
    obtain ⟨hprev, hnext, hrest⟩ := hl
    rw [Option.or_none] at hnext
    cases fuel with
    | zero => simp at hfuel
    | succ fuel =>
      have htail := ih (m := m + 1) hrest (Nat.le_of_succ_le_succ hfuel)
      rw [List.head?_cons, fsckList, if_neg (not_not.mpr hprev.symm), hnext, uint32_add, htail,
        List.length_cons, Nat.add_assoc, Nat.add_comm 1]

/-- The buckets have the numbers of elements they count. -/
theorem Filed.fsckBuckets (h : Filed s order chains) (hsize : order.length ≤ s.size)
    (bs : List Nat) (m : Nat) :
    bs.foldlM (fsckBucket s) (uint32 m) = some (uint32 (m + (bs.flatMap chains).length)) := by
  induction bs generalizing m with
  | nil => rfl
  | cons b bs ih =>
    -- the walk along one bucket counts its elements
    have hchain := fsckList_eq (m := 0) (h.chained.links b)
      (Nat.le_trans (h.chained.length_le b) hsize)
    have hstep : fsckBucket s (uint32 m) b = some (uint32 (m + (chains b).length)) := by
      have hsum : uint32 (uint32 m + uint32 (chains b).length) =
          uint32 (m + (chains b).length) := by
        rw [uint32_add, Nat.add_comm, uint32_add, Nat.add_comm]
      rw [Nat.zero_add] at hchain
      have hzero : uint32 0 = 0 := rfl
      rw [hzero] at hchain
      simp [fsckBucket, h.chained.head, h.chained.count, hchain, hsum]
    rw [List.foldlM_cons, hstep, Option.bind_eq_bind, Option.bind_some, ih, List.flatMap_cons,
      List.length_append, Nat.add_assoc]

/-- `HASH_FSCK` finds nothing to complain about. -/
theorem Rep.fsck (h : Rep hash s order) : hashFsck s = true := by
  by_cases hne : order = []
  · subst hne
    have hhead : s.head = none := h.head
    simp [hashFsck, hhead]
  · obtain ⟨chains, hf⟩ := h.filed hne
    obtain ⟨c, hc⟩ := Option.isSome_iff_exists.mp (List.isSome_head?.mpr hne)
    have hhead : s.head = some c := h.head.trans hc
    have hall := hf.fsckBuckets (Nat.le_of_eq h.size.symm) (List.range s.tbl.numBuckets) 0
    have hlist := fsckList_eq (m := 0) h.links (Nat.le_of_eq h.size.symm)
    rw [Nat.zero_add] at hall hlist
    -- the buckets have all elements between them
    rw [(hf.chained.perm hf.bucket_lt h.nodup).length_eq, ← hf.numItems] at hall
    rw [hc, ← hf.numItems] at hlist
    have hzero : uint32 0 = 0 := rfl
    rw [hzero] at hall hlist
    simp [hashFsck, hhead, hall, hlist]

end LockShield.Uthash
