import LockShield.Uthash.Rep

/-!
# Runs of a table

A caller keeps to the discipline of an intrusive table when it adds only
elements that are not in it and deletes only elements that are. `Op.apply` is the
table such a caller has in mind: the list of its elements with their keys, in the
order of additions. `uthash_malloc` is any that refuses requests of 64 GiB or more
(`MemoryBelow`).

## Results

* `Holds.step`, `Holds.run` — the macros follow the list, use by use.
* `Rep.iter`, `Rep.count`, `Rep.memory` — iteration, the counter and the blocks in use.
* `uthash_refines_list`     — the correctness of the macros against the list.
* `expand_transparent`      — doubling the buckets, which happens somewhere in the middle of
  an addition, shows in no result.
-/

namespace LockShield.Uthash

open Lib

variable {Key Node : Type}

/-- One use of the table. -/
inductive Op (Key Node : Type) where
  | add (k : Key) (n : Node)
  | del (n : Node)

/-- The loop of `HASH_ITER`: the elements it visits from `el` on. -/
def hashIterFrom (s : State Key Node) : Nat → Option Node → Except Stop (List Node)
  | _, none => .ok []
  | 0, some _ => .error .endless
  | fuel + 1, some el => (hashIterFrom s fuel (s.next el)).map (el :: ·)

/-- `HASH_ITER`. -/
def hashIter (s : State Key Node) : Except Stop (List Node) := hashIterFrom s s.size s.head

/-- `HASH_COUNT`. -/
def hashCount (s : State Key Node) : Nat :=
  match s.head with
  | none => 0
  | some _ => s.tbl.numItems

variable [DecidableEq Node]

/-- The table as a list; an undisciplined use has no result. -/
def Op.apply (l : List (Node × Key)) : Op Key Node → Option (List (Node × Key))
  | .add k n => if n ∈ l.map Prod.fst then none else some (l ++ [(n, k)])
  | .del n => if n ∈ l.map Prod.fst then some (l.filter (·.1 ≠ n)) else none

/-- The macro for a use of the table. -/
def Op.perform (malloc : Nat → Nat → Bool) (hash : Key → Nat) (s : State Key Node) :
    Op Key Node → Except Stop (State Key Node)
  | .add k n => hashAddPtr malloc hash k n s
  | .del n => hashDel n s

variable {hash : Key → Nat} {malloc : Nat → Nat → Bool} {s : State Key Node}
  {l : List (Node × Key)} {ops : List (Op Key Node)} {order : List Node}

/-- The table holds the elements of the list, with their keys. -/
structure Holds (hash : Key → Nat) (s : State Key Node) (l : List (Node × Key)) : Prop where
  rep : Rep hash s (l.map Prod.fst)
  key : ∀ p ∈ l, s.key p.1 = p.2

omit [DecidableEq Node] in
theorem holds_empty [Inhabited Key] : Holds hash (empty : State Key Node) [] :=
  ⟨rep_empty, fun _ h => absurd h List.not_mem_nil⟩

omit [DecidableEq Node] in
theorem Holds.mem_iff (h : Holds hash s l) {a : Node} {k : Key} :
    (a, k) ∈ l ↔ a ∈ l.map Prod.fst ∧ s.key a = k := by
  constructor
  · intro ha
    exact ⟨List.mem_map_of_mem ha, h.key _ ha⟩
  · rintro ⟨ha, hk⟩
    obtain ⟨⟨b, k'⟩, hp, rfl⟩ := List.mem_map.mp ha
    have hk' := h.key _ hp
    rw [hk] at hk'
    exact hk' ▸ hp

/-- A disciplined use of the table does to it what it does to the list. -/
theorem Holds.step (hmem : MemoryBelow malloc) (h : Holds hash s l) {o : Op Key Node}
    {l' : List (Node × Key)} (ho : o.apply l = some l') :
    o.perform malloc hash s = .error .exit ∨
      ∃ s', o.perform malloc hash s = .ok s' ∧ Holds hash s' l' := by
  cases o with
  | add k n =>
    by_cases hn : n ∈ l.map Prod.fst
    · -- adding an element of the hash is no disciplined use
      simp [Op.apply, hn] at ho
    · simp only [Op.apply, if_neg hn, Option.some.injEq] at ho
      subst ho
      rcases h.rep.add hmem hn k with hexit | ⟨t, hrun, hrep, hkey⟩
      · exact Or.inl hexit
      · refine Or.inr ⟨t, hrun, ?_, fun p hp => ?_⟩
        · simpa using hrep
        · rw [hkey]
          rcases List.mem_append.mp hp with hp | hp
          · -- the elements before keep their keys
            have hne : p.1 ≠ n := fun hpn => hn (hpn ▸ List.mem_map_of_mem hp)
            rw [Function.update_of_ne hne]
            exact h.key p hp
          · rw [List.mem_singleton] at hp
            subst hp
            exact Function.update_self ..
  | del n =>
    by_cases hn : n ∈ l.map Prod.fst
    · simp only [Op.apply, if_pos hn, Option.some.injEq] at ho
      subst ho
      obtain ⟨t, hrun, hrep, hkey⟩ := h.rep.del hn
      refine Or.inr ⟨t, hrun, ?_, fun p hp => ?_⟩
      · -- erasing from a list without repetition is filtering
        have herase : (l.filter (·.1 ≠ n)).map Prod.fst = (l.map Prod.fst).erase n := by
          rw [h.rep.nodup.erase_eq_filter, List.filter_map]
          congr 1
          refine List.filter_congr fun p _ => ?_
          by_cases hpn : p.1 = n <;> simp [hpn]
        rw [herase]
        exact hrep
      · rw [hkey]
        exact h.key p (List.mem_of_mem_filter hp)
    · -- nor is deleting one that is not in it
      simp [Op.apply, hn] at ho

theorem Holds.run (hmem : MemoryBelow malloc) (h : Holds hash s l) {l' : List (Node × Key)}
    (hops : ops.foldlM Op.apply l = some l') :
    ops.foldlM (Op.perform malloc hash) s = .error .exit ∨
      ∃ s', ops.foldlM (Op.perform malloc hash) s = .ok s' ∧ Holds hash s' l' := by
  induction ops generalizing s l with
  | nil =>
    obtain rfl : l = l' := by simpa using hops
    exact Or.inr ⟨s, rfl, h⟩
  | cons o ops ih =>
    rw [List.foldlM_cons] at hops
    obtain ⟨l₁, ho, hrest⟩ := Option.bind_eq_some_iff.mp hops
    rcases h.step hmem ho with hexit | ⟨s₁, hrun, h₁⟩
    · exact Or.inl (by rw [List.foldlM_cons, hexit]; rfl)
    · rw [List.foldlM_cons, hrun]
      exact ih h₁ hrest

omit [DecidableEq Node] in
theorem Rep.iter (h : Rep hash s order) : hashIter s = .ok order := by
  have hfrom : ∀ (l : List Node) (x : Option Node) (fuel : Nat), Dll s.next s.prev x l none →
      l.length ≤ fuel → hashIterFrom s fuel l.head? = .ok l := by
    intro l
    induction l with
    | nil =>
      intro x fuel _ _
      simp [hashIterFrom]
    | cons a l ih =>
      intro x fuel hl hfuel
      obtain ⟨-, hnext, hrest⟩ := hl
      rw [Option.or_none] at hnext
      -- the fuel is the number of the elements
      cases fuel with
      | zero => simp at hfuel
      | succ fuel =>
        rw [List.head?_cons, hashIterFrom, hnext, ih _ fuel hrest (Nat.le_of_succ_le_succ hfuel)]
        rfl
  rw [hashIter, h.head]
  exact hfrom order none s.size h.links (Nat.le_of_eq h.size.symm)

omit [DecidableEq Node] in
theorem Rep.count (h : Rep hash s order) : hashCount s = uint32 order.length := by
  -- an empty hash has no table
  by_cases hne : order = []
  · subst hne
    have hhead : s.head = none := h.head
    simp [hashCount, hhead, uint32]
  · obtain ⟨chains, hf⟩ := h.filed hne
    obtain ⟨c, hc⟩ := Option.isSome_iff_exists.mp (List.isSome_head?.mpr hne)
    simp [hashCount, h.head.trans hc, hf.numItems]

omit [DecidableEq Node] in
/-- The memory of the table. -/
theorem Rep.memory (h : Rep hash s order) :
    s.blocks = if order = [] then [] else s.ownBlocks := by
  split
  case isTrue hnil => exact h.unowned hnil
  case isFalse hne =>
    obtain ⟨chains, hf⟩ := h.filed hne
    exact hf.owned

/-- The macros refine the list: after any disciplined uses the table passes its
integrity check, a loop over it visits the elements in the order of their
additions, and a lookup ends and finds an element exactly if one has the key. The
memory that has not been freed is the table and its buckets, and none if there is
no element. Unless a macro has ended the process for want of memory, none has
failed, with a bad call of `uthash_free` or otherwise. -/
theorem uthash_refines_list [Inhabited Key] [DecidableEq Key] (hmem : MemoryBelow malloc)
    (hops : ops.foldlM Op.apply [] = some l) :
    ops.foldlM (Op.perform malloc hash) empty = .error .exit ∨
      ∃ s, ops.foldlM (Op.perform malloc hash) empty = .ok s ∧ hashFsck s = true ∧
        hashIter s = .ok (l.map Prod.fst) ∧ hashCount s = uint32 l.length ∧
        s.blocks = (if l = [] then [] else s.ownBlocks) ∧
        ∀ k, ∃ r, hashFindPtr hash k s = .ok r ∧ (∀ a, r = some a → (a, k) ∈ l) ∧
          (r = none → ∀ a, (a, k) ∉ l) := by
  rcases holds_empty.run hmem hops with hexit | ⟨s, hrun, h⟩
  · exact Or.inl hexit
  · refine Or.inr ⟨s, hrun, h.rep.fsck, h.rep.iter, ?_, ?_, fun k => ?_⟩
    · rw [h.rep.count, List.length_map]
    · rw [h.rep.memory]
      exact if_congr List.map_eq_nil_iff rfl rfl
    · obtain ⟨r, hfind, hsome, hnone⟩ := h.rep.find k
      refine ⟨r, hfind, fun a ha => h.mem_iff.mpr (hsome a ha), fun hr a ha => ?_⟩
      obtain ⟨ha, hk⟩ := h.mem_iff.mp ha
      exact hnone hr a ha hk

/-- Twelve elements in one of the first 32 buckets, of which one is taken out and
put back under another key. -/
def crowded : List (Op Nat Nat) :=
  (List.range 12).map (fun i => .add (32 * i) i) ++ [.del 3, .add 7 3]

/-- What `crowded` leads to. -/
def crowdedList : List (Nat × Nat) :=
  [0, 1, 2, 4, 5, 6, 7, 8, 9, 10, 11].map (fun i => (i, 32 * i)) ++ [(3, 7)]

theorem uthash_refines_list_crowded :
    ∃ s, crowded.foldlM (Op.perform smallMemory id) empty = .ok s ∧ hashFsck s = true ∧
      hashIter s = .ok [0, 1, 2, 4, 5, 6, 7, 8, 9, 10, 11, 3] := by
  have hlive : (crowded.foldlM (Op.perform smallMemory id) empty).isOk = true := by
    decide +kernel
  rcases uthash_refines_list smallMemory_below
    (by decide : crowded.foldlM Op.apply [] = some crowdedList) with
    hexit | ⟨s, hrun, hfsck, hiter, -⟩
  · rw [hexit] at hlive
    cases hlive
  · exact ⟨s, hrun, hfsck, hiter⟩

omit [DecidableEq Node] in
/-- With distinct keys a lookup has one answer. -/
theorem Rep.find_unique [DecidableEq Key] (h : Rep hash s order) {k : Key} {a : Node}
    (hkeys : ∀ b ∈ order, s.key b = k → b = a) (ha : a ∈ order) (hk : s.key a = k) :
    hashFindPtr hash k s = .ok (some a) := by
  obtain ⟨r, hrun, hsome, hnone⟩ := h.find k
  rw [hrun]
  cases r with
  | none => exact absurd hk (hnone rfl a ha)
  | some b =>
    obtain ⟨hb, hkb⟩ := hsome b rfl
    rw [hkeys b hb hkb]

/-- Doubling the buckets of a table that disciplined uses with distinct keys have
led to changes no lookup and no traversal, and leaves the statistics that the
comments of the header promise. -/
theorem expand_transparent [Inhabited Key] [DecidableEq Key] (hmem : MemoryBelow malloc)
    (hops : ops.foldlM Op.apply [] = some l) (hkeys : (l.map Prod.snd).Nodup) (hne : l ≠ [])
    (hrun : ops.foldlM (Op.perform malloc hash) empty = .ok s) :
    hashExpandBuckets malloc s = .error .exit ∨
      ∃ s', hashExpandBuckets malloc s = .ok s' ∧ s'.tbl.numBuckets = 2 * s.tbl.numBuckets ∧
        s'.blocks = s'.ownBlocks ∧ hashFsck s' = true ∧ hashIter s' = hashIter s ∧
        (∀ k, hashFindPtr hash k s' = hashFindPtr hash k s) ∧
        (l.length < 2 ^ 32 →
          s'.tbl.idealChainMaxlen = l.length ⌈/⌉ s'.tbl.numBuckets ∧
          s'.tbl.nonidealItems = ∑ b ∈ Finset.range s'.tbl.numBuckets,
            ((s'.tbl.buckets b).count - s'.tbl.idealChainMaxlen)) := by
  rcases holds_empty.run hmem hops with hexit | ⟨s₁, hrun₁, h⟩
  · rw [hrun] at hexit
    cases hexit
  · rw [hrun] at hrun₁
    injection hrun₁ with hs
    subst hs
    have hne' : l.map Prod.fst ≠ [] := by simpa using hne
    obtain ⟨chains, hf⟩ := h.rep.filed hne'
    -- what the expansion does to the buckets and leaves alone
    rcases hf.expand hmem h.rep.nodup (Nat.le_of_eq h.rep.size.symm) with
      hexit | ⟨s', chains', hexp, hf', hsame, hstat⟩
    · exact Or.inl hexit
    · have hrep' : Rep hash s' (l.map Prod.fst) :=
        { head := hsame.head.trans h.rep.head
          links := by
            rw [hsame.next, hsame.prev]
            exact h.rep.links
          nodup := h.rep.nodup
          size := hsame.size.trans h.rep.size
          hashed := fun a ha => by
            rw [hsame.hashv, hsame.key]
            exact h.rep.hashed a ha
          filed := fun _ => ⟨chains', hf'⟩
          unowned := fun hnil => absurd hnil hne' }
      -- elements with one key are one element
      have huniq : ∀ a ∈ l.map Prod.fst, ∀ b ∈ l.map Prod.fst, s.key b = s.key a → b = a := by
        intro a ha b hb hab
        have ha' := h.mem_iff.mpr ⟨ha, rfl⟩
        have hb' := h.mem_iff.mpr ⟨hb, rfl⟩
        have := List.inj_on_of_nodup_map hkeys hb' ha' hab
        exact congrArg Prod.fst this
      refine Or.inr ⟨s', hexp, ?_, hf'.owned, hrep'.fsck, hrep'.iter.trans h.rep.iter.symm,
        fun k => ?_, fun hfew => ?_⟩
      · rw [hf'.numBuckets, hstat.doubled, hf.numBuckets, Nat.pow_succ, Nat.mul_comm]
      · -- both tables find the one element with the key, or none
        obtain ⟨r, hfind, hsome, hnone⟩ := h.rep.find k
        rw [hfind]
        cases r with
        | some a =>
          obtain ⟨ha, rfl⟩ := hsome a rfl
          refine hrep'.find_unique (fun b hb hkb => huniq a ha b hb ?_) ha (by rw [hsame.key])
          rwa [hsame.key] at hkb
        | none =>
          obtain ⟨r', hfind', hsome', -⟩ := hrep'.find k
          rw [hfind']
          cases r' with
          | none => rfl
          | some a =>
            obtain ⟨ha, hk⟩ := hsome' a rfl
            rw [hsame.key] at hk
            exact absurd hk (hnone rfl a ha)
      · rw [← List.length_map (f := Prod.fst)] at hfew ⊢
        refine ⟨hstat.ideal hfew, (hstat.nonideal hfew).trans (Finset.sum_congr rfl fun b _ => ?_)⟩
        rw [hf'.chained.count b]
        rw [uint32_of_lt (Nat.lt_of_le_of_lt (hf'.chained.length_le b) hfew)]

theorem expand_transparent_crowded :
    ∃ s s', crowded.foldlM (Op.perform smallMemory id) empty = .ok s ∧
      hashExpandBuckets smallMemory s = .ok s' ∧
      s'.tbl.numBuckets = 2 * s.tbl.numBuckets ∧ hashIter s' = hashIter s := by
  have hlive : ((crowded.foldlM (Op.perform smallMemory id) empty).bind
      (hashExpandBuckets smallMemory)).isOk = true := by decide +kernel
  cases hrun : crowded.foldlM (Op.perform smallMemory id) empty with
  | error e =>
    rw [hrun] at hlive
    cases hlive
  | ok s =>
    rw [hrun] at hlive
    rcases expand_transparent smallMemory_below
      (by decide : crowded.foldlM Op.apply [] = some crowdedList) (by decide) (by decide) hrun with
      hexit | ⟨s', hexp, hdouble, -, -, hiter, -⟩
    · have hlive : (hashExpandBuckets smallMemory s).isOk = true := hlive
      rw [hexit] at hlive
      cases hlive
    · exact ⟨s, s', rfl, hexp, hdouble, hiter⟩

end LockShield.Uthash
